/-
Arrays of one kind and shape. What a word makes of them is again of one kind and shape, as rows must be
to be stacked as they are, and all words but `fix` make scalars of scalars.
-/
import Tacit.Proofs.Array.Undo

namespace Tacit

namespace Tensor

/-- Of the same kind and shape. -/
def Alike (t u : Tensor) : Prop := t.kind = u.kind ∧ t.shape = u.shape

theorem select_kind (t : Tensor) (s : Shape) (ps : List Nat) : (t.select s ps).kind = t.kind := by
  obtain ⟨s', e⟩ := t
  cases e <;> rfl

namespace Alike

variable {t u v : Tensor}

theorem symm (h : t.Alike u) : u.Alike t := ⟨h.1.symm, h.2.symm⟩

theorem trans (h : t.Alike u) (h' : u.Alike v) : t.Alike v := ⟨h.1.trans h'.1, h.2.trans h'.2⟩

theorem select (h : t.Alike u) (s : Shape) (ps : List Nat) : (t.select s ps).Alike (u.select s ps) := by
  refine ⟨?_, rfl⟩
  rw [select_kind, select_kind, h.1]

theorem selects {f : Tensor → Tensor} (hf : Selects f) (h : t.Alike u) : (f t).Alike (f u) := by
  obtain ⟨s, e⟩ := t
  obtain ⟨s', e'⟩ := u
  cases h.2
  rcases hf s with hid | ⟨-, s', ps, -, hselect⟩
  · rw [hid, hid]
    exact h
  · rw [hselect, hselect]
    exact h.select s' ps

theorem reshape (h : t.Alike u) {s : Shape} {r q : Tensor} (hr : t.reshape s = .ok r)
    (hq : u.reshape s = .ok q) : r.Alike q := by
  unfold Tensor.reshape at hr hq
  split at hr <;> cases hr
  split at hq <;> cases hq
  exact ⟨h.1, rfl⟩

/-- Rows of arrays of one kind and shape. -/
theorem of_mem_rows (h : t.Alike u) (hscalar : t.shape ≠ []) {r q : Tensor} (hr : r ∈ t.rows)
    (hq : q ∈ u.rows) : r.Alike q := by
  obtain ⟨s, e⟩ := t
  obtain ⟨s', e'⟩ := u
  cases h.2
  cases s with
  | nil => exact absurd rfl hscalar
  | cons n s =>
    obtain ⟨hkind, hshape⟩ := Tensor.of_mem_rows hr
    obtain ⟨hkind', hshape'⟩ := Tensor.of_mem_rows hq
    exact ⟨hkind.trans (h.1.trans hkind'.symm), hshape.trans hshape'.symm⟩

end Alike

/-! ## Words -/

/-- Of exact arrays of one kind and shape the operation makes arrays of one kind and shape, and without
`fix` scalars of scalars. -/
def Regular (fixes : Bool) (f : Tensor → Except Fault Tensor) : Prop :=
  ∀ t r, t.Exact → f t = .ok r → (fixes = false → t.shape = [] → r.shape = []) ∧
    ∀ u q, u.Exact → t.Alike u → f u = .ok q → r.Alike q

variable {fixes : Bool}

/-- What is left of the kind and shape that it was is so of arrays of one kind and shape. -/
theorem regular_of_alike {f : Tensor → Except Fault Tensor}
    (h : ∀ t r, t.Exact → f t = .ok r → t.Alike r) : Regular fixes f := by
  intro t r ht hr
  have htr := h t r ht hr
  refine ⟨fun _ hs => htr.2.symm.trans hs, fun u q hu htu hq => ?_⟩
  exact htr.symm.trans (htu.trans (h u q hu hq))

/-- What selects leaves scalars, and selects the same of arrays of one kind and shape. -/
theorem regular_selects {f : Tensor → Tensor} (hf : Selects f) : Regular fixes fun t => .ok (f t) := by
  intro t r _ hr
  cases hr
  refine ⟨fun _ hs => (congrArg Tensor.shape (hf.scalar hs)).trans hs, fun u q _ htu hq => ?_⟩
  cases hq
  exact htu.selects hf

theorem regular_rotate (n : Int32) : Regular fixes (rotate (int n)) :=
  regular_selects (selects_rotateBy n.toInt)

theorem regular_unrotate {n : Int32} (hn : n ≠ Int32.minValue) : Regular fixes (unrotate (int n)) := by
  rw [funext (unrotate_int hn)]
  exact regular_selects (selects_rotateBy (-n.toInt))

theorem regular_map (op : Monadic) : Regular fixes (map op) := by
  refine regular_of_alike fun t r _ hr => ?_
  obtain ⟨s, e⟩ := t
  cases e with
  | numbers xs =>
    obtain ⟨ys, -, hr⟩ := Except.bind_ok hr
    cases hr
    exact ⟨rfl, rfl⟩
  | characters xs => cases hr
  | boxes xs =>
    rw [map_boxes] at hr
    obtain ⟨ys, -, hr⟩ := Except.bind_ok hr
    cases hr
    exact ⟨rfl, rfl⟩

theorem regular_apply {op op' : Dyadic} {f g : Int32 → Int32 → Int32} (h : Shift op op' f g)
    (k : Int32) : Regular fixes (fun t => apply op t (int k)) := by
  refine regular_of_alike fun t r ht hr => ?_
  change apply op t (ofInts [] [k]) = _ at hr
  cases ht with
  | numbers htype hfull =>
    rw [apply_numbers h htype List.nil_prefix] at hr
    cases hr
    exact ⟨rfl, rfl⟩
  | characters hfull =>
    rw [apply_characters h List.nil_prefix] at hr
    cases hr
    exact ⟨rfl, rfl⟩
  | boxes hfull _ =>
    rw [apply_boxes op hfull (.int k) List.nil_prefix] at hr
    obtain ⟨ys, -, hr⟩ := Except.bind_ok hr
    cases hr
    exact ⟨rfl, rfl⟩

theorem regular_rearrange {u v : Unary} (h : u.UndoneBy v) (hfix : fixes = false → u ≠ .fix) :
    Regular fixes u.onTensor := by
  cases h with
  | identity => exact regular_of_alike fun t r _ hr => by cases hr; exact ⟨rfl, rfl⟩
  | reverse => exact regular_selects selects_reverse
  | transpose => exact regular_selects selects_transpose
  | untranspose => exact regular_selects selects_untranspose
  | fix =>
    intro t r _ hr
    refine ⟨fun hfixes => absurd rfl (hfix hfixes), fun w q _ htw hq => ?_⟩
    refine htw.reshape hr ?_
    rw [htw.2]
    exact hq
  | unfix =>
    intro t r _ hr
    obtain ⟨s, hs, hr⟩ := Except.bind_ok hr
    refine ⟨fun _ hscalar => ?_, fun w q _ htw hq => ?_⟩
    · rw [hscalar] at hs
      cases hs
    · obtain ⟨s', hs', hq⟩ := Except.bind_ok hq
      rw [← htw.2, hs] at hs'
      cases hs'
      exact htw.reshape hr hq
  | box =>
    intro t r _ hr
    cases hr
    refine ⟨fun _ _ => rfl, fun w q _ _ hq => ?_⟩
    cases hq
    exact ⟨rfl, rfl⟩

end Tensor

end Tacit
