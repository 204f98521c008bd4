/-
Transposition. The first entry of an index becomes the last, so the axes are cycled: moving the first axis to the
end as often as there are axes before some other brings that one to the front with all after it, and as often as
there are axes at all changes nothing.
-/
import Tacit.Proofs.Array.Rows
import Tacit.Proofs.Shape.Index

namespace Tacit.Tensor

/-! ## Elements at an index -/

/-- The element at an index, as a scalar; none if there is no such place. -/
def elementAt (t : Tensor) (index : List Int) : Option Tensor := (t.shape.toFlat? index).bind (t.scalars[·]?)

theorem length_scalars (t : Tensor) : t.scalars.length = t.elements.length := by
  unfold scalars
  rw [List.length_map, Elements.length_blocks]

/-- In a full array there is an element at every index within the shape. -/
theorem Full.exists_elementAt {t : Tensor} (h : t.Full) {index : List Int} (hindex : Shape.Within index t.shape) :
    ∃ x, t.elementAt index = some x := by
  obtain ⟨p, hp, hplace⟩ := Shape.exists_toFlat? hindex
  have hlt : p < t.scalars.length := by
    rw [length_scalars, h]
    exact hp
  exact ⟨t.scalars[p], by rw [elementAt, hplace, Option.bind_some, List.getElem?_eq_getElem hlt]⟩

theorem scalars_select (t : Tensor) (s : Shape) {ps : List Nat} (h : ∀ p ∈ ps, p < t.elements.length) :
    (t.select s ps).scalars = pick ps t.scalars := by
  have hone : blockPositions 1 ps = ps := by simp [blockPositions]
  have hblocks := Elements.blocks_pick (Nat.mul_one t.elements.length).symm h
  unfold scalars
  rw [pick_map, ← hblocks, hone, ← Elements.length_pick h]
  rfl

/-! ## The first axis moved to the end -/

section

variable {n : Nat} {s u : Shape} {e : Elements Tensor}

theorem elementAt_transpose (h : Full ⟨n :: s, e⟩) {i : Int} {is : List Int} (his : is.length = s.length) :
    (transpose ⟨n :: s, e⟩).elementAt (is ++ [i]) = elementAt ⟨n :: s, e⟩ (i :: is) := by
  have hlength : e.length = n * s.size := h
  have hin : ∀ p ∈ transposedPositions n s.size, p < e.length := fun p hp =>
    hlength ▸ lt_of_mem_transposedPositions hp
  rw [transpose_cons h, elementAt, elementAt, scalars_select _ _ hin]
  show (Shape.toFlat? (s ++ [n]) (is ++ [i])).bind _ = (Shape.toFlat? (n :: s) (i :: is)).bind _
  by_cases hi : 0 ≤ i ∧ i < n
  · rw [Shape.toFlat?_concat hi his, Shape.toFlat?_cons hi his]
    cases hq : s.toFlat? is with
    | none => rfl
    | some q =>
      -- column `q` of the rows, at entry `i`
      have hq := Shape.toFlat?_lt his hq
      rw [Option.map_some, Option.map_some, Option.bind_some, Option.bind_some,
        getElem?_pick (by rwa [length_scalars]), getElem?_transposedPositions (by omega) hq]
      rfl
  · rw [Shape.toFlat?_concat_none hi his, Shape.toFlat?_cons_none hi]
    rfl

/-- As many axes as there are in `s` moved to the end, one by one. -/
theorem iterate_transpose (h : Full ⟨s ++ u, e⟩) :
    transpose^[s.length] ⟨s ++ u, e⟩ = select ⟨s ++ u, e⟩ (u ++ s) (transposedPositions s.size u.size) := by
  induction s generalizing u e with
  | nil =>
    have h : Full ⟨u, e⟩ := h
    show Tensor.mk u e = select ⟨u, e⟩ (u ++ []) (transposedPositions 1 u.size)
    rw [transposedPositions_one_left, List.append_nil, select_range h]
  | cons n s ih =>
    have h : Full ⟨n :: (s ++ u), e⟩ := h
    have hlength : e.length = n * Shape.size (s ++ u) := h
    have hin : ∀ p ∈ transposedPositions n (Shape.size (s ++ u)), p < e.length := fun p hp =>
      hlength ▸ lt_of_mem_transposedPositions hp
    have hfull := h.transpose
    show transpose^[s.length + 1] ⟨n :: (s ++ u), e⟩ = select ⟨n :: (s ++ u), e⟩ (u ++ n :: s) _
    rw [Function.iterate_succ_apply]
    rw [transpose_cons h, List.append_assoc] at hfull ⊢
    refine (ih hfull).trans ?_
    -- the elements moved twice have moved past `n` and then past the axes in `s`
    unfold select
    rw [List.append_assoc, Elements.pick_pick _ hin, Shape.size_concat, Shape.size_append, pick_transposedPositions]
    rfl

end

theorem iterate_transpose_rank {t : Tensor} (h : t.Full) : transpose^[t.rank] t = t := by
  obtain ⟨s, e⟩ := t
  have hround := iterate_transpose (s := s) (u := []) (by rwa [List.append_nil])
  rw [List.append_nil] at hround
  refine hround.trans ?_
  show select ⟨s, e⟩ s (transposedPositions s.size 1) = ⟨s, e⟩
  rw [transposedPositions_one, select_range h]

/-- A transposed array has the element of the array at the index with its first entry moved to the end; transposing
is undone by its inverse and the other way round, and as many times as there are axes it gives the array back. -/
theorem transpose_cyclic {t : Tensor} {n : Nat} {s : Shape} (ht : t.Full) (hshape : t.shape = n :: s) :
    t.transpose.shape = s ++ [n] ∧
      (∀ (i : Int) (is : List Int), is.length = s.length → t.transpose.elementAt (is ++ [i]) = t.elementAt (i :: is)) ∧
      (∀ index, Shape.Within index t.shape → ∃ x, t.elementAt index = some x) ∧
      t.transpose.untranspose = t ∧ t.untranspose.transpose = t ∧ transpose^[t.rank] t = t := by
  obtain ⟨s', e⟩ := t
  obtain rfl : s' = n :: s := hshape
  refine ⟨?_, fun i is his => elementAt_transpose ht his, fun index => ht.exists_elementAt,
    untranspose_transpose ht, transpose_untranspose ht, iterate_transpose_rank ht⟩
  rw [transpose_cons ht]
  rfl

/-- A box at an index on three axes of different lengths. -/
theorem transpose_cyclic_boxes :
    let t : Tensor := ⟨[2, 1, 3], .boxes [int 0, int 1, int 2, int 3, int 4, int 5]⟩
    t.Full ∧ t.transpose.elementAt [0, 2, 1] = some (box (int 5)) ∧ t.elementAt [1, 0, 2] = some (box (int 5)) ∧
      transpose^[3] t = t := by
  intro t
  have ht : t.Full := rfl
  have helement : t.elementAt [1, 0, 2] = some (box (int 5)) := rfl
  obtain ⟨-, hindex, -, -, -, hround⟩ := transpose_cyclic ht rfl
  exact ⟨ht, (hindex 1 [0, 2] rfl).trans helement, helement, hround⟩

end Tacit.Tensor
