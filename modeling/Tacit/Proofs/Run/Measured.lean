/-
Results measured before they are built. Four words say how many elements their result will have, and the machine
checks that number against its limit first. The number is that of the result, so these words fail at the limit
just when the result would pass it, and under their own names: the push of the result never fails.
-/
import Tacit.Proofs.Array.Axes
import Tacit.Proofs.Run.Step

namespace Tacit

namespace Tensor

/-! ## Sizes told beforehand -/

theorem length_keepIndices {length : Nat} {counts : Tensor} {is : List Nat}
    (h : keepIndices length counts = .ok is) : keepLength length counts = .ok is.length := by
  unfold keepIndices at h
  split at h
  · rename_i xs he
    split at h
    · obtain ⟨factor, -, h⟩ := Except.bind_ok h
      obtain ⟨n, hn, h⟩ := Except.bind_ok h
      cases h
      rw [hn, List.length_map, List.length_range]
    · rename_i hvector
      obtain ⟨ns, hns, h⟩ := Except.bind_ok h
      cases h
      unfold keepLength
      rw [he]
      dsimp only
      rw [if_neg hvector, hns]
      have hsum : (ns.zipIdx.flatMap fun p => List.replicate p.1 p.2).length = ns.sum := by
        simp only [List.length_flatMap, List.length_replicate]
        rw [List.zipIdx_map_fst]
      exact congrArg Except.ok hsum.symm
  · cases h

theorem keepSize_of_keep {counts t r : Tensor} (h : keep counts t = .ok r) : keepSize counts t = .ok r.size := by
  obtain ⟨is, his, hr⟩ := Except.bind_ok h
  obtain ⟨n, s, hs⟩ := List.exists_cons_of_ne_nil t.asList_shape_ne
  unfold keepSize Tensor.size
  rw [gather_shape hr, length_keepIndices his, hs]
  rfl

/-- From each axis on, the lengths told are those of the array resampled there. -/
theorem scaleDims_of_scaleFrom : ∀ {fs : List Tensor} {front s : Shape} {t r : Tensor}, t.shape = front ++ s →
    fs.length ≤ s.length → scaleFrom front.length t fs = .ok r →
    ∃ dims, scaleDims s fs = .ok dims ∧ r.shape = front ++ dims
  | [], front, s, t, r, hs, _, hr => by
    cases hr
    exact ⟨s, by cases s <;> rfl, hs⟩
  | f :: fs, front, n :: s, t, r, hs, hlength, hr => by
    obtain ⟨is, his, hr⟩ := Except.bind_ok hr
    obtain ⟨u, hu, hr⟩ := Except.bind_ok hr
    have hn : t.shape.getD front.length 1 = n := by simp [hs]
    rw [hn] at his
    have hu : u.shape = front ++ [is.length] ++ s := by
      rw [gather_shape hu, hs]
      simp
    -- the axis just resampled joins those in front, and the lengths behind it are as they were
    have hfront : (front ++ [is.length]).length = front.length + 1 := by simp
    rw [← hfront] at hr
    obtain ⟨dims, hdims, hshape⟩ :=
      scaleDims_of_scaleFrom hu (Nat.le_of_succ_le_succ hlength) hr
    refine ⟨is.length :: dims, ?_, by simp [hshape]⟩
    exact Except.bind_of_ok (length_keepIndices his) (Except.bind_of_ok hdims rfl)

theorem scaleShape_of_scale {factors t r : Tensor} (h : scale factors t = .ok r) :
    scaleShape factors t = .ok r.shape := by
  obtain ⟨fs, hfs, hr⟩ := Except.bind_ok h
  have hr : scaleFrom ([] : Shape).length t fs = .ok r := hr
  obtain ⟨dims, hdims, hshape⟩ := scaleDims_of_scaleFrom (List.nil_append _).symm (scaleFactors_ok hfs).1 hr
  exact Except.bind_of_ok hfs (hdims.trans (congrArg Except.ok hshape.symm))

end Tensor

/-! ## Words that are measured -/

namespace Word

/-- The words whose results are measured before they are built. -/
def measured : List Word := [.unary .range, .binary .cycleReshape, .binary .keep, .binary .scale]

/-- What a word makes of its one or two arguments, the top of the stack first. -/
def eval? : Word → List Value → Option (Except Fault Value)
  | .unary u, [v] => some (u.eval v)
  | .binary b, [top, below] => some (b.eval top below)
  | _, _ => none

/-- How many elements it says that the result has. -/
def size? : Word → List Value → Option (Except Fault (Option Nat))
  | .unary u, [v] => some (u.size? v)
  | .binary b, [top, below] => some (b.size? top below)
  | _, _ => none

end Word

/-- Of functions the measured words of two arguments make nothing. -/
theorem Binary.tensors_of_eval {b : Binary} (hb : .binary b ∈ Word.measured) {top below v : Value}
    (hv : b.eval top below = .ok v) :
    ∃ t u r, top = .tensor t ∧ below = .tensor u ∧ v = .tensor r ∧ b.onTensors t u = .ok r := by
  rcases eval_eq_ok hv with ⟨t, u, r, rfl, rfl, hr, rfl⟩ | ⟨rfl, -⟩ | ⟨rfl, -⟩
  · exact ⟨t, u, r, rfl, rfl, rfl, hr⟩
  · simp [Word.measured] at hb
  · simp [Word.measured] at hb

theorem Binary.size_of_onTensors {b : Binary} (hb : .binary b ∈ Word.measured) {t u r : Tensor}
    (hr : b.onTensors t u = .ok r) : b.size? (.tensor t) (.tensor u) = .ok (some r.size) := by
  have hb : b = .cycleReshape ∨ b = .keep ∨ b = .scale := by simpa [Word.measured] using hb
  rcases hb with rfl | rfl | rfl
  · obtain ⟨s, hs, hr⟩ := Except.bind_ok hr
    refine Except.bind_of_ok hs ?_
    unfold Tensor.cycle at hr
    split at hr
    · cases hr
      rfl
    · split at hr <;> cases hr
      rfl
  · exact Except.bind_of_ok (Tensor.keepSize_of_keep hr) rfl
  · exact Except.bind_of_ok (Tensor.scaleShape_of_scale hr) rfl

/-- A measured word makes of its arguments an array of the size that it tells. -/
theorem Word.size_of_eval {w : Word} (hw : w ∈ measured) {args : List Value} {v : Value}
    (hv : w.eval? args = some (.ok v)) : ∃ r, v = .tensor r ∧ w.size? args = some (.ok (some r.size)) ∧
      ((∀ t, .tensor t ∈ args → t.WellFormed) → r.WellFormed) := by
  match w, args, hv with
  | .unary u, [a], hv =>
    obtain rfl : u = .range := by simpa [measured] using hw
    cases a with
    | tensor t =>
      obtain ⟨r, hr, hv⟩ := Except.bind_ok (Option.some.inj hv)
      cases hv
      obtain ⟨s, hs, hrange⟩ := Except.bind_ok hr
      cases hrange
      exact ⟨_, rfl, congrArg some (Except.bind_of_ok hs rfl), fun h => Tensor.wellFormed_onTensor (h t (by simp)) hr⟩
    | fn f => cases Option.some.inj hv
  | .binary b, [top, below], hv =>
    obtain ⟨t, u, r, rfl, rfl, rfl, hr⟩ := Binary.tensors_of_eval hw (Option.some.inj hv)
    exact ⟨r, rfl, congrArg some (Binary.size_of_onTensors hw hr),
      fun h => Tensor.wellFormed_onTensors (h t (by simp)) (h u (by simp)) hr⟩

/-! ## The limit on elements -/

namespace Exec

/-- A word that tells a size is stopped by it or pushes its result. -/
theorem word_run_of_size {setting : Setting} {w : Word} {args : List Value} {v : Value} {n : Nat}
    (hv : w.eval? args = some (.ok v)) (hsize : w.size? args = some (.ok (some n))) (rest : List Value)
    (context : List Saved) : word setting w ⟨args ++ rest, context⟩ =
      (do checkElements setting.limits n w.name; push setting.limits v : Exec Unit) ⟨rest, context⟩ := by
  match w, args, hv, hsize with
  | .unary u, [a], hv, hsize =>
    show finish setting (u.size? a) u.name (u.eval a) ⟨rest, context⟩ = _
    rw [Option.some.inj hv, Option.some.inj hsize, finish_measured]
    rfl
  | .binary b, [top, below], hv, hsize =>
    show finish setting (b.size? top below) b.name (b.eval top below) ⟨rest, context⟩ = _
    rw [Option.some.inj hv, Option.some.inj hsize, finish_measured]
    rfl

end Exec

namespace Machine

/-- A measured word that makes an array of its arguments tells the size of that array beforehand, and scaling its
shape too; called on a machine it fails, at the limit on elements and under its own name, just if that size is
beyond the limit. -/
theorem call_measured {w : Word} (hw : w ∈ Word.measured) {args : List Value} {v : Value}
    (hv : w.eval? args = some (.ok v)) :
    ∃ r : Tensor, v = .tensor r ∧ w.size? args = some (.ok (some r.size)) ∧
      (∀ factors t, w = .binary .scale → args = [.tensor factors, .tensor t] →
        Tensor.scaleShape factors t = .ok r.shape) ∧
      ((∀ t, .tensor t ∈ args → t.WellFormed) → r.elements.length = r.size) ∧
      ∀ (m : Machine) (rest : List Value), m.memory.stack = args ++ rest → 0 < m.room →
        m.call (.word w) =
          if m.setting.limits.maxElements < r.size then
            (.error (.limit (.elements w.name r.size m.setting.limits.maxElements)),
              { m with memory := ⟨rest, m.memory.context⟩ })
          else (.ok (), { m with memory := ⟨.tensor r :: rest, m.memory.context⟩ }) := by
  obtain ⟨r, rfl, hsize, hwell⟩ := Word.size_of_eval hw hv
  refine ⟨r, rfl, hsize, ?_, fun h => (hwell h).full, fun m rest hstack hroom => ?_⟩
  · rintro factors t rfl rfl
    obtain ⟨u, hu, hr⟩ := Except.bind_ok (Option.some.inj hv)
    cases hr
    exact Tensor.scaleShape_of_scale hu
  · obtain ⟨room, hroom⟩ := Nat.exists_eq_add_of_le' hroom
    have hcall : m.callStep (.word w) m.memory = (do
        Exec.checkElements m.setting.limits r.size w.name
        Exec.push m.setting.limits (.tensor r) : Exec Unit) ⟨rest, m.memory.context⟩ := by
      rw [callStep, hroom, Exec.call_succ, ← Exec.word_run_of_size hv hsize, ← hstack]
      rfl
    have hcheck := Exec.checkElements_run m.setting.limits r.size w.name ⟨rest, m.memory.context⟩
    by_cases hlimit : m.setting.limits.maxElements < r.size
    · rw [if_pos hlimit] at hcheck ⊢
      exact exec_error (hcall.trans (Exec.bind_error _ hcheck))
    · -- what passed the check of the word passes that of the push
      have hfits : Exec.Fits m.setting.limits (.tensor r) := Nat.le_of_not_lt hlimit
      rw [if_neg hlimit] at hcheck ⊢
      exact exec_ok (hcall.trans ((Exec.bind_ok _ hcheck).trans (Exec.push_fits hfits rest m.memory.context)))

/-- Three copies of a row are kept: the machine stops where two elements are permitted, not where three are. -/
theorem call_measured_keep :
    let counts := Tensor.ofInts [2] [3, 0]
    let rows := Tensor.ofInts [2] [7, 8]
    let m (limit : Nat) : Machine := ⟨⟨.standard, ⟨limit, 256⟩⟩, 0, ⟨[.tensor counts, .tensor rows], []⟩⟩
    ((m 2).call (.word (.binary .keep))).1 = .error (.limit (.elements "keep" 3 2)) ∧
    ((m 3).call (.word (.binary .keep))).1 = .ok () := by
  intro counts rows m
  have hkeep : Word.eval? (.binary .keep) [.tensor counts, .tensor rows] =
      some (.ok (.tensor (.ofInts [3] [7, 7, 7]))) := rfl
  obtain ⟨r, hr, -, -, -, hcall⟩ := call_measured (by decide) hkeep
  cases hr
  exact ⟨congrArg Prod.fst (hcall (m 2) [] rfl (by decide)), congrArg Prod.fst (hcall (m 3) [] rfl (by decide))⟩

end Machine

end Tacit
