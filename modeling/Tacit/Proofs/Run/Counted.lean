/-
Rows kept by a vector of counts. The counts become a list of row numbers, and the rows with these numbers are
gathered: each row comes out as often as its count says, the rows in their order. Counts that do not fit the rows
are refused before anything is built.
-/
import Tacit.Proofs.Array.Alike
import Tacit.Proofs.Array.Axes
import Tacit.Proofs.Run.Step

namespace Tacit

/-! ## Items by number -/

/-- Each item as often as its count says. -/
def repeatEach {α : Type} (counts : List Nat) (xs : List α) : List α :=
  (List.zipWith List.replicate counts xs).flatten

theorem repeatEach_cons {α : Type} (count : Nat) (counts : List Nat) (x : α) (xs : List α) :
    repeatEach (count :: counts) (x :: xs) = List.replicate count x ++ repeatEach counts xs := rfl

theorem pick_replicate {α : Type} (count i : Nat) (xs : List α) :
    pick (List.replicate count i) xs = xs[i]?.toList.flatMap (List.replicate count) := by
  induction count with
  | zero => cases xs[i]? <;> rfl
  | succ count ih =>
    rw [List.replicate_succ, pick_cons, ih]
    cases xs[i]? with
    | none => rfl
    | some x => simp [List.replicate_succ]

/-- The number of each item as often as the item is wanted. -/
theorem pick_numbered {α : Type} (xs : List α) : ∀ (counts : List Nat) (k : Nat),
    pick ((counts.zipIdx k).flatMap fun p => List.replicate p.1 p.2) xs = repeatEach counts (xs.drop k)
  | [], _ => rfl
  | count :: counts, k => by
    rw [List.zipIdx_cons, List.flatMap_cons, pick_append, pick_numbered xs counts (k + 1), pick_replicate]
    by_cases hk : k < xs.length
    · rw [List.drop_eq_getElem_cons hk, List.getElem?_eq_getElem hk, repeatEach_cons, Option.toList_some,
        List.flatMap_singleton]
    · -- past the end nothing is picked, now or later
      rw [List.getElem?_eq_none (Nat.le_of_not_lt hk), List.drop_eq_nil_of_le (Nat.le_of_not_lt hk),
        List.drop_eq_nil_of_le (by omega)]
      simp [repeatEach]

namespace Tensor

/-! ## Counts of rows -/

theorem keepLength_vector {counts : Tensor} {xs : Numbers} (he : counts.elements = .numbers xs)
    (hvector : ¬counts.isScalar = true) (length : Nat) :
    keepLength length counts = do return (← keepCounts length counts xs).sum := by
  unfold keepLength
  rw [he]
  dsimp only
  rw [if_neg hvector]
  rfl

theorem keepIndices_vector {counts : Tensor} {xs : Numbers} (he : counts.elements = .numbers xs)
    (hvector : ¬counts.isScalar = true) (length : Nat) : keepIndices length counts = do
      return (← keepCounts length counts xs).zipIdx.flatMap fun p => List.replicate p.1 p.2 := by
  unfold keepIndices
  rw [he]
  dsimp only
  rw [if_neg hvector]

/-- Why integers in the shape `s` are no counts of `length` rows: they have too many axes, there are too many or
too few of them, or one is negative. -/
def countsFault (length : Nat) : Shape → Fault
  | [n] => if n = length then .domain .keepFractional else .shape (.keepCounts n length)
  | _ => .domain .keepRank

theorem keepCount_int {c : Int32} : keepCount (.int c.toInt) =
    if 0 ≤ c.toInt then .ok c.toInt.toNat else .error (.domain .keepFractional) := by
  show (if c.toInt < 0 then throw _ else pure _) = _
  by_cases hc : 0 ≤ c.toInt
  · rw [if_pos hc, if_neg (Int.not_lt.2 hc)]
    rfl
  · rw [if_neg hc, if_pos (Int.not_le.1 hc)]
    rfl

theorem keepCounts_ints {length : Nat} {s : Shape} {cs : List Int32} (hs : s = [length])
    (hnonneg : ∀ c ∈ cs, 0 ≤ c.toInt) : keepCounts length (ofInts s cs) (.ints cs) = .ok (cs.map (·.toInt.toNat)) := by
  subst hs
  unfold keepCounts
  dsimp only [ofInts, ofNumbers]
  rw [if_neg (not_not.2 rfl)]
  show (cs.map fun c => Dimension.int c.toInt).mapM keepCount = _
  rw [List.mapM_map]
  simp only [Function.comp_def, keepCount_int, Except.mapM_ite, if_pos hnonneg]

theorem keepCounts_error {length : Nat} {s : Shape} {cs : List Int32}
    (h : ¬(s = [length] ∧ ∀ c ∈ cs, 0 ≤ c.toInt)) :
    keepCounts length (ofInts s cs) (.ints cs) = .error (countsFault length s) := by
  match s with
  | [] => rfl
  | n :: m :: s => rfl
  | [n] =>
    unfold keepCounts countsFault
    dsimp only [ofInts, ofNumbers]
    by_cases hn : n = length
    · subst hn
      have hneg : ¬∀ c ∈ cs, 0 ≤ c.toInt := fun hnonneg => h ⟨rfl, hnonneg⟩
      rw [if_neg (not_not.2 rfl), if_pos rfl]
      show (cs.map fun c => Dimension.int c.toInt).mapM keepCount = _
      rw [List.mapM_map]
      simp only [Function.comp_def, keepCount_int, Except.mapM_ite, if_neg hneg]
    · rw [if_pos hn, if_neg hn]
      rfl

section

variable {t : Tensor} {s : Shape} {cs : List Int32}

theorem not_isScalar_ofInts (hs : s ≠ []) : ¬(ofInts s cs).isScalar = true := by
  simpa [isScalar, ofInts, ofNumbers] using hs

theorem asList_of_axis (haxis : t.shape ≠ []) : t.asList = t := by
  unfold asList isScalar
  rw [if_neg (by simpa using haxis)]

/-- Counts that fit the rows repeat each of them. -/
theorem keep_of_fit (ht : t.Full) (haxis : t.shape ≠ []) (hcs : (ofInts s cs).Full) (hs : s = [t.rowCount])
    (hnonneg : ∀ c ∈ cs, 0 ≤ c.toInt) : ∃ r, keep (ofInts s cs) t = .ok r ∧ r.Full ∧ r.kind = t.kind ∧
      r.shape = (cs.map (·.toInt.toNat)).sum :: t.shape.row ∧
      r.rows = repeatEach (cs.map (·.toInt.toNat)) t.rows := by
  have hindices : keepIndices t.rowCount (ofInts s cs) =
      .ok ((cs.map (·.toInt.toNat)).zipIdx.flatMap fun p => List.replicate p.1 p.2) := by
    rw [keepIndices_vector rfl (not_isScalar_ofInts (hs ▸ List.cons_ne_nil _ _)), keepCounts_ints hs hnonneg]
    rfl
  have hlt := lt_of_mem_keepIndices hcs hindices
  have hpick := pick_numbered t.rows (cs.map (·.toInt.toNat)) 0
  have hsum : ((cs.map (·.toInt.toNat)).zipIdx.flatMap fun p => List.replicate p.1 p.2).length =
      (cs.map (·.toInt.toNat)).sum := by
    simp only [List.length_flatMap, List.length_replicate]
    rw [List.zipIdx_map_fst]
  generalize ((cs.map (·.toInt.toNat)).zipIdx.flatMap fun p => List.replicate p.1 p.2) = is at hindices hlt hpick hsum
  obtain ⟨shape, e⟩ := t
  obtain ⟨n, row, rfl⟩ := List.exists_cons_of_ne_nil haxis
  have hlt : ∀ i ∈ is, i < n := hlt
  -- along the leading axis, to gather is to choose rows
  have hgather : gather ⟨n :: row, e⟩ is 0 = .ok (chooseRows ⟨n :: row, e⟩ is) := rfl
  have hselect : chooseRows ⟨n :: row, e⟩ is = select ⟨n :: row, e⟩ (is.length :: row) _ := chooseRows_eq hlt
  refine ⟨_, Except.bind_of_ok hindices hgather, ht.chooseRows hlt, ?_, ?_, ?_⟩
  · rw [hselect, select_kind]
  · rw [hselect, ← hsum]
    rfl
  · rw [rows_chooseRows ht hlt, hpick, List.drop_zero]

/-- Counts that do not fit keep nothing, and no size is told for them either. -/
theorem keep_of_unfit (haxis : t.shape ≠ []) (hs : s ≠ []) (h : ¬(s = [t.rowCount] ∧ ∀ c ∈ cs, 0 ≤ c.toInt)) :
    keep (ofInts s cs) t = .error (countsFault t.rowCount s) ∧
      keepSize (ofInts s cs) t = .error (countsFault t.rowCount s) := by
  have hindices : keepIndices t.rowCount (ofInts s cs) = .error (countsFault t.rowCount s) := by
    rw [keepIndices_vector rfl (not_isScalar_ofInts hs), keepCounts_error h]
    rfl
  have hlength : keepLength t.rowCount (ofInts s cs) = .error (countsFault t.rowCount s) := by
    rw [keepLength_vector rfl (not_isScalar_ofInts hs), keepCounts_error h]
    rfl
  unfold keep keepSize
  rw [asList_of_axis haxis, hindices, hlength]
  exact ⟨rfl, rfl⟩

end

end Tensor

/-! ## Machines -/

/-- Integers for counts repeat the rows of an array of any kind, each as often as its count says and in their
order, if there is one for every row and none is negative. Other integers keep nothing, unless they are a scalar,
by which rows are resampled: a machine that keeps rows by them fails, without its two arguments and without a
result. -/
theorem Machine.call_keep_counts {t : Tensor} (ht : t.Full) (haxis : t.shape ≠ []) {s : Shape} {cs : List Int32}
    (hcs : (Tensor.ofInts s cs).Full) (hs : s ≠ []) :
    (s = [t.rowCount] → (∀ c ∈ cs, 0 ≤ c.toInt) →
      ∃ r, Tensor.keep (.ofInts s cs) t = .ok r ∧ r.Full ∧ r.kind = t.kind ∧
        r.shape = (cs.map (·.toInt.toNat)).sum :: t.shape.row ∧
        r.rows = repeatEach (cs.map (·.toInt.toNat)) t.rows) ∧
    (¬(s = [t.rowCount] ∧ ∀ c ∈ cs, 0 ≤ c.toInt) →
      Tensor.keep (.ofInts s cs) t = .error (Tensor.countsFault t.rowCount s) ∧
      ∀ (m : Machine) (rest : List Value), m.memory.stack = .tensor (.ofInts s cs) :: .tensor t :: rest →
        0 < m.room → m.call (.word (.binary .keep)) =
          (.error (Tensor.countsFault t.rowCount s), { m with memory := ⟨rest, m.memory.context⟩ })) := by
  refine ⟨Tensor.keep_of_fit ht haxis hcs, fun h => ?_⟩
  obtain ⟨hkeep, hsize⟩ := Tensor.keep_of_unfit haxis hs h
  refine ⟨hkeep, fun m rest hstack hroom => exec_error ?_⟩
  obtain ⟨room, hroom⟩ := Nat.exists_eq_add_of_le' hroom
  obtain ⟨setting, depth, stack, context⟩ := m
  change stack = _ at hstack
  subst hstack
  have hmeasure : Binary.size? .keep (.tensor (.ofInts s cs)) (.tensor t) =
      .error (Tensor.countsFault t.rowCount s) := by
    show (do return some (← Tensor.keepSize (.ofInts s cs) t)) = _
    rw [hsize]
    rfl
  unfold callStep
  rw [hroom, Exec.call_succ]
  show (do
    Exec.checkSize setting (Binary.size? .keep (.tensor (.ofInts s cs)) (.tensor t)) "keep"
    Exec.push setting.limits (← Exec.lift (Binary.eval .keep (.tensor (.ofInts s cs)) (.tensor t))) :
      Exec Unit) ⟨rest, context⟩ = _
  rw [hmeasure]
  rfl

/-- Rows of letters, of which the middle one is wanted not at all or less than that. -/
theorem Machine.call_keep_counts_letters :
    let t : Tensor := ⟨[3, 2], .characters [97, 98, 99, 100, 101, 102]⟩
    let m : Machine :=
      { memory := ⟨[.tensor (.ofInts [3] [2, -1, 1]), .tensor t, .fn .sum], [.shape [2]]⟩ }
    (∃ r, Tensor.keep (.ofInts [3] [2, 0, 1]) t = .ok r ∧ r.shape = [3, 2] ∧
      r.rows = [.string [97, 98], .string [97, 98], .string [101, 102]]) ∧
    Tensor.keep (.ofInts [3] [2, -1, 1]) t = .error (.domain .keepFractional) ∧
    m.call (.word (.binary .keep)) =
      (.error (.domain .keepFractional), { m with memory := ⟨[.fn .sum], [.shape [2]]⟩ }) := by
  intro t m
  have ht : t.Full := rfl
  have hcounts : (Tensor.ofInts [3] [2, 0, 1]).Full := rfl
  have hcounts' : (Tensor.ofInts [3] [2, -1, 1]).Full := rfl
  have hneg : ¬0 ≤ (-1 : Int32).toInt := by decide
  obtain ⟨r, hr, -, -, hshape, hrows⟩ :=
    (call_keep_counts ht (List.cons_ne_nil _ _) hcounts (List.cons_ne_nil _ _)).1 rfl (by simp)
  obtain ⟨hkeep, hcall⟩ := (call_keep_counts ht (List.cons_ne_nil _ _) hcounts' (List.cons_ne_nil _ _)).2
    fun h => hneg (h.2 (-1) (by simp))
  exact ⟨⟨r, hr, hshape, hrows⟩, hkeep, hcall m [.fn .sum] rfl (by decide)⟩

end Tacit
