/-
Operations that move elements without a look at them. Numbers are moved as they lie, by rows, by columns or end to
end, and boxes are sliced and looked up one by one; both ways agree. So where the numbers from zero on end up tells
where every content does, for shapes without places and without axes too.
-/
import Tacit.Proofs.Array.Results

namespace Tacit

/-! ## Operations -/

/-- An operation that reorders, repeats, drops or reshapes elements, with its parameters. -/
inductive Structural where
  | reverse
  | transpose
  | untranspose
  | fix
  | unfix
  | deshape
  | first
  | rotate (count : Tensor)
  | unrotate (count : Tensor)
  | take (count : Tensor)
  | drop (count : Tensor)
  | reshape (shape : Tensor)
  | cycleReshape (shape : Tensor)
  | indexAt (index : Tensor)
  | keep (counts : Tensor)
  | gather (is : List Nat) (axis : Nat)

namespace Structural

def onTensor : Structural → Tensor → Except Fault Tensor
  | reverse, t => Unary.reverse.onTensor t
  | transpose, t => Unary.transpose.onTensor t
  | untranspose, t => Unary.untranspose.onTensor t
  | fix, t => Unary.fix.onTensor t
  | unfix, t => Unary.unfix.onTensor t
  | deshape, t => Unary.deshape.onTensor t
  | first, t => Unary.first.onTensor t
  | rotate count, t => Binary.rotate.onTensors count t
  | unrotate count, t => Binary.unrotate.onTensors count t
  | take count, t => Binary.take.onTensors count t
  | drop count, t => Binary.drop.onTensors count t
  | reshape shape, t => Binary.reshape.onTensors shape t
  | cycleReshape shape, t => Binary.cycleReshape.onTensors shape t
  | indexAt index, t => Binary.indexAt.onTensors index t
  | keep counts, t => Binary.keep.onTensors counts t
  | gather is axis, t => t.gather is axis

/-- Counts of rows to keep are a full array, and gathered entries are entries of an axis that the shape has,
if it has any. -/
def Fits (s : Shape) : Structural → Prop
  | keep counts => counts.Full
  | gather is axis => s ≠ [] → ∃ n, s[axis]? = some n ∧ ∀ i ∈ is, i < n
  | _ => True

end Structural

namespace Tensor

/-! ## Contents in their places -/

/-- In every place `b` has the content out of `contents` whose number `p` has there. -/
def Placed (contents : List Tensor) (b p : Tensor) : Prop :=
  ∃ s ps, (∀ i ∈ ps, i < contents.length) ∧ ps.length = Shape.size s ∧
    b = ⟨s, .boxes (pick ps contents)⟩ ∧ p = ofInts s (ps.map fun i => Int32.ofNat i)

/-- Both results are faults, and the same, or one has the contents where the other has their numbers. -/
inductive Together (contents : List Tensor) : Except Fault Tensor → Except Fault Tensor → Prop
  | fail (fault : Fault) : Together contents (.error fault) (.error fault)
  | place {b p : Tensor} (h : Placed contents b p) : Together contents (.ok b) (.ok p)

theorem placed_range {s : Shape} {contents : List Tensor} (h : contents.length = s.size) :
    Placed contents ⟨s, .boxes contents⟩ (range s) := by
  refine ⟨s, List.range s.size, fun i hi => ?_, List.length_range, ?_, rfl⟩
  · rw [h]
    exact List.mem_range.1 hi
  · rw [← h, pick_range]

variable {contents : List Tensor} {b p : Tensor}

/-- A parameter that is looked at first fails for both arrays or for none. -/
theorem Together.bind {α : Type} {x : Except Fault α} {f g : α → Except Fault Tensor}
    (h : ∀ a, x = .ok a → Together contents (f a) (g a)) : Together contents (x >>= f) (x >>= g) := by
  cases x with
  | error fault => exact .fail fault
  | ok a => exact h a rfl

/-- A pick has the elements at the positions, one for each. -/
theorem forall₂_positions_pick {α : Type} {ps : List Nat} {xs : List α} (h : ∀ i ∈ ps, i < xs.length) :
    List.Forall₂ (fun i x => xs[i]? = some x) ps (pick ps xs) := by
  induction ps with
  | nil => exact .nil
  | cons i ps ih =>
    have hi : i < xs.length := h i (by simp)
    rw [pick_cons, List.getElem?_eq_getElem hi]
    exact .cons (List.getElem?_eq_getElem hi) (ih fun j hj => h j (by simp [hj]))

namespace Placed

variable (h : Placed contents b p)

include h

theorem shape_eq : b.shape = p.shape := by
  obtain ⟨s, ps, -, -, rfl, rfl⟩ := h
  rfl

theorem full : b.Full ∧ p.Full := by
  obtain ⟨s, ps, hps, hlength, rfl, rfl⟩ := h
  exact ⟨(length_pick hps).trans hlength, (List.length_map _).trans hlength⟩

/-- Elements chosen by position go together, as a choice among positions is one of contents. -/
theorem select {s : Shape} {qs : List Nat} (hqs : Picks p.shape s qs) :
    Placed contents (b.select s qs) (p.select s qs) := by
  obtain ⟨s', ps, hps, hlength, rfl, rfl⟩ := h
  have hin : ∀ q ∈ qs, q < ps.length := fun q hmem => hlength ▸ hqs.lt q hmem
  refine ⟨s, pick qs ps, fun i hi => hps i (mem_of_mem_pick hi), (length_pick hin).trans hqs.length_eq, ?_, ?_⟩
  · show (⟨s, .boxes (pick qs (pick ps contents))⟩ : Tensor) = _
    rw [pick_pick qs hps]
  · show ofInts s (pick qs (ps.map fun i => Int32.ofNat i)) = _
    rw [pick_map]

theorem selects {f : Tensor → Tensor} (hf : Selects f) : Placed contents (f b) (f p) := by
  obtain ⟨s, ps, -, -, rfl, rfl⟩ := id h
  unfold ofInts ofNumbers
  rcases hf s with hid | ⟨-, s', qs, hqs, hselect⟩
  · rw [hid, hid]
    exact h
  · rw [hselect, hselect]
    exact h.select hqs

/-- As many elements read in another shape. -/
theorem withShape {s : Shape} (hs : s.size = p.size) : Placed contents ⟨s, b.elements⟩ ⟨s, p.elements⟩ := by
  obtain ⟨s', ps, hps, hlength, rfl, rfl⟩ := h
  exact ⟨s, ps, hps, hlength.trans hs.symm, rfl, rfl⟩

theorem reshape (s : Shape) : Together contents (b.reshape s) (p.reshape s) := by
  unfold Tensor.reshape Tensor.size
  rw [h.shape_eq]
  split
  · rename_i hs
    exact .place (h.withShape hs)
  · exact .fail _

/-- Boxes looked up at remainders of their places go with numbers tiled and cut off. -/
theorem cycle (s : Shape) : Together contents (b.cycle s) (p.cycle s) := by
  have hsize : b.size = p.size := congrArg Shape.size h.shape_eq
  obtain ⟨hb, hp⟩ := h.full
  have hb : b.elements.length = p.size := hb.trans hsize
  unfold Tensor.cycle
  rw [hsize]
  split
  · rename_i hs
    exact .place (h.withShape hs)
  · split
    · exact .fail _
    · rename_i hne
      have hpos : 0 < p.size := Nat.pos_of_ne_zero hne
      rw [Elements.cycle_eq_pick (hb ▸ hpos), Elements.cycle_eq_pick (hp ▸ hpos), hb, hp]
      exact .place (h.select (picks_remainders hpos s))

/-! ## Rows and entries of an axis -/

/-- Boxes looked up at the numbers of the entries go with the entries of the numbers. -/
theorem gather {is : List Nat} {axis : Nat}
    (haxis : p.shape ≠ [] → axis < p.rank ∧ ∀ i ∈ is, i < p.shape.getD axis 1) :
    Together contents (b.gather is axis) (p.gather is axis) := by
  by_cases hscalar : p.shape = []
  · unfold Tensor.gather Tensor.isScalar
    rw [h.shape_eq, hscalar]
    exact .fail _
  · obtain ⟨haxis, his⟩ := haxis hscalar
    obtain ⟨front, back, hs, rfl⟩ := exists_at haxis
    generalize p.shape.getD front.length 1 = n at hs his
    rw [gather_at hs his, gather_at (h.shape_eq.trans hs) his]
    exact .place (h.select (hs ▸ picks_axis front back his))

theorem chooseRows {is : List Nat} (his : ∀ i ∈ is, i < p.rowCount) :
    Placed contents (b.chooseRows is) (p.chooseRows is) := by
  obtain ⟨s, ps, -, -, rfl, rfl⟩ := id h
  cases s with
  | nil => exact h
  | cons n s =>
    have his : ∀ i ∈ is, i < n := his
    unfold ofInts ofNumbers
    rw [chooseRows_eq his, chooseRows_eq his]
    exact h.select (picks_rows his)

theorem rowCount_eq : b.rowCount = p.rowCount := congrArg Shape.rowCount h.shape_eq

theorem slice {start stop : Nat} (hstop : stop ≤ p.rowCount) :
    Placed contents (b.slice start stop) (p.slice start stop) :=
  h.chooseRows fun _ => lt_of_mem_interval hstop

theorem asList : Placed contents b.asList p.asList := by
  unfold Tensor.asList Tensor.isScalar
  rw [h.shape_eq]
  split
  · rename_i hscalar
    refine h.withShape ?_
    rw [Tensor.size, List.isEmpty_iff.1 hscalar]
    rfl
  · exact h

/-- Rows sliced off boxes go with rows cut off numbers. -/
theorem rows : List.Forall₂ (Placed contents) b.rows p.rows := by
  obtain ⟨s, ps, -, -, rfl, rfl⟩ := id h
  cases s with
  | nil => exact .cons h .nil
  | cons n s =>
    unfold ofInts ofNumbers
    rw [rows_eq_map, rows_eq_map, List.forall₂_map_left_iff, List.forall₂_map_right_iff, List.forall₂_same]
    exact fun i hi => h.select (picks_row (List.mem_range.1 hi))

theorem row (i : Int) : Together contents (b.row i) (p.row i) := by
  unfold Tensor.row
  rw [h.rowCount_eq]
  dsimp only
  generalize (if i < 0 then i + (p.rowCount : Int) else i) = j
  split
  · exact .fail _
  · have hrow := forall₂_getElem? h.rows j.toNat
    generalize b.rows[j.toNat]? = x at hrow
    generalize p.rows[j.toNat]? = y at hrow
    match x, y, hrow with
    | none, none, _ => exact .fail _
    | some _, some _, .cons hrow _ => exact .place hrow

end Placed

end Tensor

namespace Structural

open Tensor

/-! ## Boxes and the numbers of their places -/

variable {op : Structural} {contents : List Tensor} {s : Shape} {b p : Tensor}

/-- One step with the same parameters keeps contents and their numbers in the same places. -/
theorem together_onTensor (hop : op.Fits p.shape) (h : Placed contents b p) :
    Together contents (op.onTensor b) (op.onTensor p) := by
  cases op with
  | reverse => exact .place (h.selects selects_reverse)
  | transpose => exact .place (h.selects selects_transpose)
  | untranspose => exact .place (h.selects selects_untranspose)
  | fix =>
    show Together contents (b.reshape b.shape.fix) (p.reshape p.shape.fix)
    rw [h.shape_eq]
    exact h.reshape _
  | unfix =>
    show Together contents (b.shape.unfix >>= b.reshape) (p.shape.unfix >>= p.reshape)
    rw [h.shape_eq]
    exact .bind fun s _ => h.reshape s
  | deshape =>
    show Together contents (b.reshape b.shape.deshape) (p.reshape p.shape.deshape)
    rw [h.shape_eq]
    exact h.reshape _
  | first => exact h.row 0
  | rotate count => exact .bind fun n _ => .place (h.selects (selects_rotateBy n))
  | unrotate count => exact .bind fun n _ => .bind fun back _ => .bind fun m _ => .place (h.selects (selects_rotateBy m))
  | take count =>
    refine .bind fun n _ => ?_
    rw [h.asList.rowCount_eq]
    exact .bind fun range hrange => .place (h.asList.slice (takeRange_ok hrange).2.1)
  | drop count =>
    refine .bind fun n _ => ?_
    rw [h.asList.rowCount_eq]
    exact .place (h.asList.slice (dropRange_bounds n _).2.1)
  | reshape shape => exact .bind fun s _ => h.reshape s
  | cycleReshape shape => exact .bind fun s _ => h.cycle s
  | indexAt index => exact .bind fun i _ => h.row i
  | keep counts =>
    have hrows : p.asList.rowCount = p.asList.shape.getD 0 1 := by
      show Shape.rowCount p.asList.shape = _
      cases p.asList.shape <;> rfl
    show Together contents (Tensor.keep counts b) (Tensor.keep counts p)
    unfold Tensor.keep
    rw [h.asList.rowCount_eq]
    exact .bind fun is his => h.asList.gather fun hne =>
      ⟨List.length_pos_iff.2 hne, hrows ▸ lt_of_mem_keepIndices hop his⟩
  | gather is axis =>
    refine h.gather fun hne => ?_
    obtain ⟨n, hn, his⟩ := hop hne
    obtain ⟨haxis, -⟩ := List.getElem?_eq_some_iff.1 hn
    rw [List.getD_eq_getElem?_getD, hn]
    exact ⟨haxis, his⟩

/-- A structural operation on an array of boxes fails as it does on the numbers from zero on in the same
shape, and where it succeeds, gives boxes in the shape that it gives these numbers, each with the content
that was in the place of which the number is there now. -/
theorem onTensor_boxes (hcontents : contents.length = s.size) (hop : op.Fits s) :
    (∀ fault, op.onTensor ⟨s, .boxes contents⟩ = .error fault ↔ op.onTensor (range s) = .error fault) ∧
    ((∃ r, op.onTensor ⟨s, .boxes contents⟩ = .ok r) ↔ ∃ r, op.onTensor (range s) = .ok r) ∧
    ∀ r, op.onTensor (range s) = .ok r → ∃ ns xs, r = ofInts r.shape ns ∧ ns.length = r.size ∧
      op.onTensor ⟨s, .boxes contents⟩ = .ok ⟨r.shape, .boxes xs⟩ ∧
      List.Forall₂ (fun n x => ∃ place, contents[place]? = some x ∧ n = Int32.ofNat place ∧
        (s.size ≤ 2 ^ 31 → n.toInt = place)) ns xs := by
  have htogether := together_onTensor (p := range s) hop (placed_range hcontents)
  generalize op.onTensor ⟨s, .boxes contents⟩ = x at htogether
  generalize op.onTensor (range s) = y at htogether
  cases htogether with
  | fail fault => simp
  | @place b p h =>
    refine ⟨by simp, by simp, fun r hr => ?_⟩
    cases hr
    obtain ⟨s', ps, hps, hlength, rfl, rfl⟩ := h
    refine ⟨ps.map fun i => Int32.ofNat i, pick ps contents, rfl, ?_, rfl, ?_⟩
    · exact (List.length_map _).trans hlength
    · rw [List.forall₂_map_left_iff]
      refine (forall₂_positions_pick hps).imp fun place x hx => ⟨place, hx, rfl, fun hsize => ?_⟩
      obtain ⟨hlt, -⟩ := List.getElem?_eq_some_iff.1 hx
      exact Int32.toInt_ofNat_of_lt (by omega)

/-- The last and the first of three columns. -/
theorem onTensor_boxes_columns :
    let contents := (List.range 6).map fun i => range [i]
    let columns := gather [2, 0] 1
    contents.length = Shape.size [2, 3] ∧ columns.Fits [2, 3] ∧
      columns.onTensor (range [2, 3]) = .ok (ofInts [2, 2] [2, 0, 5, 3]) ∧
      ∃ ns xs, ofInts [2, 2] [2, 0, 5, 3] = ofInts [2, 2] ns ∧ ns.length = 4 ∧
        columns.onTensor ⟨[2, 3], .boxes contents⟩ = .ok ⟨[2, 2], .boxes xs⟩ ∧
        List.Forall₂ (fun n x => ∃ place, contents[place]? = some x ∧ n = Int32.ofNat place ∧
          (6 ≤ 2 ^ 31 → n.toInt = place)) ns xs := by
  intro contents columns
  have hfits : columns.Fits [2, 3] := fun _ => ⟨3, rfl, by decide⟩
  have hrange : columns.onTensor (range [2, 3]) = .ok (ofInts [2, 2] [2, 0, 5, 3]) := rfl
  exact ⟨rfl, hfits, hrange, (onTensor_boxes rfl hfits).2.2 _ hrange⟩

end Structural

end Tacit
