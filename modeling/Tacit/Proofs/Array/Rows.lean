/-
Rows of arrays. An array is full if it has an element for every place of its shape. Rows chosen from
a full array are its blocks at the numbers chosen, so choosing, splitting and stacking rows undo each
other as their numbers do.
-/
import Tacit.Proofs.Array.Moved
import Tacit.Proofs.Number.Joint
import Mathlib.Data.Set.List

namespace Tacit

namespace Tensor

/-! ## Full arrays -/

/-- An element for every place of the shape. -/
def Full (t : Tensor) : Prop := t.elements.length = t.size

/-- The elements at the flat positions `ps` in the shape `s`. -/
def select (t : Tensor) (s : Shape) (ps : List Nat) : Tensor := ⟨s, t.elements.pick ps⟩

theorem Full.lt_of_picks {t : Tensor} (h : t.Full) {s : Shape} {ps : List Nat} (hps : Picks t.shape s ps) :
    ∀ p ∈ ps, p < t.elements.length :=
  fun p hp => (hps.lt p hp).trans_eq h.symm

theorem Full.picks {t : Tensor} (h : t.Full) {s : Shape} {ps : List Nat} (hps : Picks t.shape s ps) :
    (t.select s ps).Full := by
  unfold Full Tensor.select
  rw [Elements.length_pick (h.lt_of_picks hps), hps.length_eq]
  rfl

theorem Full.reshape {t u : Tensor} {s : Shape} (h : t.Full) (hu : t.reshape s = .ok u) :
    u = ⟨s, t.elements⟩ ∧ s.size = t.size ∧ u.Full := by
  unfold Tensor.reshape at hu
  split at hu
  · rename_i hs
    cases hu
    exact ⟨rfl, hs, h.trans hs.symm⟩
  · cases hu

/-- The elements read into another shape and back. -/
theorem reshape_reshape {t u : Tensor} {s : Shape} (hu : t.reshape s = .ok u) :
    u.reshape t.shape = .ok t := by
  obtain ⟨s', e⟩ := t
  unfold Tensor.reshape at hu
  split at hu
  · rename_i hs
    cases hu
    exact if_pos hs.symm
  · cases hu

/-- Elements fill another shape by themselves, or are looked up at the remainders of its places. -/
theorem Full.cycle {t u : Tensor} {s : Shape} (h : t.Full) (hu : t.cycle s = .ok u) :
    s.size = t.size ∧ u = ⟨s, t.elements⟩ ∨
      0 < t.size ∧ u = t.select s ((List.range s.size).map (· % t.size)) := by
  unfold Tensor.cycle at hu
  split at hu
  · rename_i hs
    cases hu
    exact .inl ⟨hs, rfl⟩
  · split at hu
    · cases hu
    · rename_i hne
      cases hu
      have hpos : 0 < t.elements.length := h ▸ Nat.pos_of_ne_zero hne
      rw [Elements.cycle_eq_pick hpos, h]
      exact .inr ⟨Nat.pos_of_ne_zero hne, rfl⟩

/-! ## Operations that select -/

/-- The operation leaves an array as it is or selects of its elements, at positions that its shape decides; scalars
it leaves. -/
def Selects (f : Tensor → Tensor) : Prop :=
  ∀ s, (∀ e, f ⟨s, e⟩ = ⟨s, e⟩) ∨ s ≠ [] ∧ ∃ s' ps, Picks s s' ps ∧ ∀ e, f ⟨s, e⟩ = select ⟨s, e⟩ s' ps

theorem Selects.scalar {f : Tensor → Tensor} (hf : Selects f) {t : Tensor} (h : t.shape = []) : f t = t := by
  obtain ⟨s, e⟩ := t
  cases h
  rcases hf [] with hid | ⟨hne, -⟩
  · exact hid e
  · exact absurd rfl hne

theorem Selects.eq_or_select {f : Tensor → Tensor} (hf : Selects f) (t : Tensor) :
    f t = t ∨ ∃ s ps, f t = t.select s ps := by
  obtain ⟨s, e⟩ := t
  exact (hf s).imp (fun hid => hid e) fun ⟨_, s', ps, _, hselect⟩ => ⟨s', ps, hselect e⟩

theorem Full.selects {f : Tensor → Tensor} (hf : Selects f) {t : Tensor} (h : t.Full) : (f t).Full := by
  obtain ⟨s, e⟩ := t
  rcases hf s with hid | ⟨-, s', ps, hps, hselect⟩
  · rw [hid]
    exact h
  · rw [hselect]
    exact h.picks hps

/-! ## Chosen rows -/

section Choose

variable {n : Nat} {s : Shape} {e : Elements Tensor}

/-- Chosen rows are the elements at the positions of their blocks. -/
theorem chooseRows_eq {is : List Nat} (his : ∀ i ∈ is, i < n) : chooseRows ⟨n :: s, e⟩ is =
    ⟨is.length :: s, e.pick (blockPositions s.size is)⟩ := by
  have hrows {β : Type} (xs : List β) : takeAxis is 0 (n :: s) xs = Tacit.pick (blockPositions s.size is) xs :=
    (pick_blockPositions his).symm
  exact congrArg (Tensor.mk (is.length :: s))
    (e.move_eq_pick hrows fun p hp => lt_of_mem_blockPositions his hp)

theorem selects_chooseRows (is : Shape → List Nat) (his : ∀ s, ∀ i ∈ is s, i < s.rowCount) :
    Selects fun t => t.chooseRows (is t.shape)
  | [] => .inl fun _ => rfl
  | n :: s => .inr ⟨List.cons_ne_nil _ _, _, _, picks_rows (his (n :: s)), fun _ => chooseRows_eq (his (n :: s))⟩

theorem Full.chooseRows (h : Full ⟨n :: s, e⟩) {is : List Nat} (his : ∀ i ∈ is, i < n) :
    (Tensor.chooseRows ⟨n :: s, e⟩ is).Full := by
  rw [chooseRows_eq his]
  exact h.picks (picks_rows his)

/-- Rows chosen from chosen rows. -/
theorem chooseRows_chooseRows (h : Full ⟨n :: s, e⟩) {is js : List Nat} (his : ∀ i ∈ is, i < n)
    (hjs : ∀ j ∈ js, j < is.length) : Tensor.chooseRows (Tensor.chooseRows ⟨n :: s, e⟩ is) js =
      Tensor.chooseRows ⟨n :: s, e⟩ (Tacit.pick js is) := by
  have hpicked : ∀ i ∈ Tacit.pick js is, i < n := fun i hi => his i (mem_of_mem_pick hi)
  rw [chooseRows_eq his, chooseRows_eq hjs, chooseRows_eq hpicked,
    Elements.pick_pick _ (h.lt_of_picks (picks_rows his)), pick_blockPositions_blockPositions, length_pick hjs]

theorem chooseRows_range (h : Full ⟨n :: s, e⟩) :
    Tensor.chooseRows ⟨n :: s, e⟩ (List.range n) = ⟨n :: s, e⟩ := by
  have hlength : n * s.size = e.length := h.symm
  rw [chooseRows_eq fun i hi => List.mem_range.1 hi, blockPositions_range, hlength, Elements.pick_range,
    List.length_range]

theorem length_rows (t : Tensor) : t.rows.length = t.rowCount := by
  obtain ⟨s, e⟩ := t
  cases s with
  | nil => rfl
  | cons n s =>
    unfold rows
    rw [List.length_map, Elements.length_blocks]
    rfl

/-- A row is the elements at the positions of its block. -/
theorem rows_eq_map (n : Nat) (s : Shape) (e : Elements Tensor) : rows ⟨n :: s, e⟩ =
    (List.range n).map fun i => select ⟨n :: s, e⟩ s (blockPositions s.size [i]) := by
  unfold rows
  dsimp only
  rw [Elements.blocks_eq_map, List.map_map]
  rfl

/-- A scalar is its own row, and any other row is selected. -/
theorem eq_or_select_of_mem_rows {t r : Tensor} (h : r ∈ t.rows) : r = t ∨ ∃ s ps, r = t.select s ps := by
  obtain ⟨s, e⟩ := t
  cases s with
  | nil => exact .inl (List.mem_singleton.1 h)
  | cons n s =>
    rw [rows_eq_map] at h
    obtain ⟨i, -, rfl⟩ := List.mem_map.1 h
    exact .inr ⟨_, _, rfl⟩

theorem Full.of_mem_rows (h : Full ⟨n :: s, e⟩) {r : Tensor} (hr : r ∈ rows ⟨n :: s, e⟩) : r.Full := by
  rw [rows_eq_map] at hr
  obtain ⟨i, hi, rfl⟩ := List.mem_map.1 hr
  exact h.picks (picks_row (List.mem_range.1 hi))

theorem rows_chooseRows (h : Full ⟨n :: s, e⟩) {is : List Nat} (his : ∀ i ∈ is, i < n) :
    (Tensor.chooseRows ⟨n :: s, e⟩ is).rows = Tacit.pick is (rows ⟨n :: s, e⟩) := by
  have hlength : e.length = n * s.size := h
  rw [chooseRows_eq his]
  unfold rows
  dsimp only
  rw [Elements.blocks_pick hlength his, pick_map]

/-- A slice has the rows in between. -/
theorem rows_slice (h : Full ⟨n :: s, e⟩) {start stop : Nat} (hstop : stop ≤ n) :
    (Tensor.slice ⟨n :: s, e⟩ start stop).rows =
      ((rows ⟨n :: s, e⟩).drop start).take (stop - start) := by
  unfold slice
  rw [rows_chooseRows h fun _ => lt_of_mem_interval hstop, pick_interval]

theorem Full.slice (h : Full ⟨n :: s, e⟩) {start stop : Nat} (hstop : stop ≤ n) :
    (Tensor.slice ⟨n :: s, e⟩ start stop).Full :=
  h.chooseRows fun _ => lt_of_mem_interval hstop

end Choose

/-! ## Entries of an axis -/

section Gather

variable {t : Tensor} {is : List Nat}

theorem gather_shape {u : Tensor} {axis : Nat} (h : t.gather is axis = .ok u) :
    u.shape = t.shape.take axis ++ is.length :: t.shape.drop (axis + 1) := by
  unfold gather at h
  split at h
  · cases h
  · cases h
    rfl

/-- Entries of the axis after `front` are the elements at the positions of the entries. -/
theorem gather_at {front back : Shape} {n : Nat} (hs : t.shape = front ++ n :: back) (his : ∀ i ∈ is, i < n) :
    t.gather is front.length = .ok (t.select (front ++ is.length :: back)
      (axisPositions (Shape.size front) n (Shape.size back) is)) := by
  have hscalar : ¬t.isScalar = true := by simp [isScalar, hs]
  have hback : (front ++ n :: back).drop (front.length + 1) = back := by simp
  have hsize : Shape.size (front ++ n :: back) = t.size := congrArg Shape.size hs.symm
  have helements : t.elements.move t.size (takeAxis is front.length (front ++ n :: back)) =
      t.elements.pick (axisPositions (Shape.size front) n (Shape.size back) is) :=
    t.elements.move_eq_pick (takeAxis_eq_pick front back his) (hsize ▸ (picks_axis front back his).lt)
  unfold gather
  rw [if_neg hscalar, hs, helements, List.take_left, hback]
  rfl

theorem exists_at {s : Shape} {p : Nat} (hp : p < s.length) :
    ∃ front back, s = front ++ s.getD p 1 :: back ∧ front.length = p :=
  ⟨s.take p, s.drop (p + 1), by simp [hp], List.length_take_of_le (Nat.le_of_lt hp)⟩

/-- What a selection along an axis gives: selected elements in the same shape but for the length of that axis. -/
theorem gather_spec (ht : t.Full) {p : Nat} (hp : p < t.rank) (his : ∀ i ∈ is, i < t.shape.getD p 1) :
    ∃ u, t.gather is p = .ok u ∧ u.Full ∧ u.shape = t.shape.set p is.length ∧ ∃ s ps, u = t.select s ps := by
  obtain ⟨front, back, hs, rfl⟩ := exists_at hp
  generalize t.shape.getD front.length 1 = n at hs his
  refine ⟨_, gather_at hs his, ht.picks (hs ▸ picks_axis front back his), ?_, _, _, rfl⟩
  rw [hs, List.set_append_right _ _ (Nat.le_refl _), Nat.sub_self]
  rfl

end Gather

/-- An array under an axis of length one is its only row. -/
theorem rows_fix {s : Shape} {e : Elements Tensor} (h : Full ⟨s, e⟩) : rows ⟨1 :: s, e⟩ = [⟨s, e⟩] := by
  have hlength : s.size = e.length := h.symm
  have hall : blockPositions s.size [0] = List.range e.length := by
    rw [← hlength, ← Nat.one_mul s.size, ← blockPositions_range, Nat.one_mul]
    rfl
  rw [rows_eq_map]
  show [select ⟨1 :: s, e⟩ s (blockPositions s.size [0])] = _
  rw [hall]
  exact congrArg (fun e => [Tensor.mk s e]) e.pick_range

theorem asList_shape_ne (t : Tensor) : t.asList.shape ≠ [] := by
  obtain ⟨s, e⟩ := t
  cases s <;> exact List.cons_ne_nil _ _

theorem Full.asList {t : Tensor} (h : t.Full) : t.asList.Full := by
  obtain ⟨s, e⟩ := t
  cases s <;> exact h

theorem rows_asList {t : Tensor} (h : t.Full) : t.asList.rows = t.rows := by
  obtain ⟨s, e⟩ := t
  cases s with
  | nil => exact rows_fix h
  | cons n s => rfl

theorem rows_ofInts (n : Nat) (s : Shape) (xs : List Int32) :
    (ofInts (n :: s) xs).rows = (blocks n s.size xs).map (ofInts s) :=
  List.map_map

theorem rows_ofBoxes (n : Nat) (s : Shape) (xs : List Tensor) :
    rows ⟨n :: s, .boxes xs⟩ = (blocks n s.size xs).map fun b => ⟨s, .boxes b⟩ := by
  show ((Elements.boxes xs).blocks n s.size).map (Tensor.mk s) = _
  rw [Elements.blocks_boxes, List.map_map]
  rfl

/-! ## Stacked rows -/

/-- Rows of one type stay of that type. -/
theorem concat_bools {bs : List (List Bool)} (h : bs ≠ []) :
    Numbers.concat (bs.map .bools) = .bools bs.flatten := by
  have htype : Numbers.jointType (bs.map .bools) = .bool :=
    Numbers.jointType_of_forall (by simp [Numbers.type]) (by simpa using h)
  unfold Numbers.concat
  rw [htype]
  simp [List.flatMap_map, Numbers.asBools, List.flatMap_id']

theorem concat_ints {bs : List (List Int32)} (h : bs ≠ []) :
    Numbers.concat (bs.map .ints) = .ints bs.flatten := by
  have htype : Numbers.jointType (bs.map .ints) = .int :=
    Numbers.jointType_of_forall (by simp [Numbers.type]) (by simpa using h)
  unfold Numbers.concat
  rw [htype]
  simp [List.flatMap_map, Numbers.asInts, List.flatMap_id']

theorem concat_floats {bs : List (List Float32)} (h : bs ≠ []) :
    Numbers.concat (bs.map .floats) = .floats bs.flatten := by
  have htype : Numbers.jointType (bs.map .floats) = .float :=
    Numbers.jointType_of_forall (by simp [Numbers.type]) (by simpa using h)
  unfold Numbers.concat
  rw [htype]
  simp [List.flatMap_map, Numbers.asFloats, List.flatMap_id']

theorem kind_concat (kind : Kind) (rows : List Tensor) : (concat kind rows).kind = kind := by
  cases kind <;> rfl

/-- The elements of all blocks are the elements. -/
theorem concat_blocks {e : Elements Tensor} {n k : Nat} (s : Shape) (he : e.length = (n + 1) * k) :
    concat e.kind ((e.blocks (n + 1) k).map (Tensor.mk s)) = e := by
  have hne {α : Type} (xs : List α) : Tacit.blocks (n + 1) k xs ≠ [] := by
    intro h
    have hlength := length_blocks (n + 1) k xs
    rw [h] at hlength
    cases hlength
  cases e with
  | numbers xs =>
    cases xs with
    | bools xs =>
      have h := concat_bools (hne xs)
      rw [flatten_blocks he] at h
      simpa [concat, Elements.kind, Elements.blocks, List.filterMap_map, Function.comp_def,
        Elements.toNumbers?] using h
    | ints xs =>
      have h := concat_ints (hne xs)
      rw [flatten_blocks he] at h
      simpa [concat, Elements.kind, Elements.blocks, List.filterMap_map, Function.comp_def,
        Elements.toNumbers?] using h
    | floats xs =>
      have h := concat_floats (hne xs)
      rw [flatten_blocks he] at h
      simpa [concat, Elements.kind, Elements.blocks, List.filterMap_map, Function.comp_def,
        Elements.toNumbers?] using h
  | characters xs =>
    have h : (Tacit.blocks (n + 1) k xs).flatten = xs := flatten_blocks he
    simpa [concat, Elements.kind, Elements.blocks, List.flatMap_map, Function.comp_def,
      Elements.codePoints, List.flatMap_id'] using h
  | boxes xs =>
    have h : (Tacit.blocks (n + 1) k xs).flatten = xs := flatten_blocks he
    simpa [concat, Elements.kind, Elements.blocks_boxes, List.flatMap_map, Function.comp_def,
      Elements.contents, List.flatMap_id'] using h

/-- Every row has the kind of the array and the shape of a row. -/
theorem of_mem_rows {n : Nat} {s : Shape} {e : Elements Tensor} {r : Tensor}
    (h : r ∈ rows ⟨n :: s, e⟩) : r.kind = e.kind ∧ r.shape = s := by
  obtain ⟨b, hb, rfl⟩ := List.mem_map.1 h
  refine ⟨?_, rfl⟩
  unfold Tensor.kind
  cases e with
  | numbers xs =>
    cases xs with
    | bools xs | ints xs | floats xs => obtain ⟨c, -, rfl⟩ := List.mem_map.1 hb; rfl
  | characters xs | boxes xs => obtain ⟨c, -, rfl⟩ := List.mem_map.1 hb; rfl

/-- Rows of one kind and shape are stacked as they are. -/
theorem ofRows_eq {rows : List Tensor} {kind : Kind} {s : Shape} (hne : rows ≠ [])
    (h : ∀ r ∈ rows, r.kind = kind ∧ r.shape = s) :
    ofRows rows = ⟨rows.length :: s, concat kind rows⟩ := by
  cases rows with
  | nil => exact absurd rfl hne
  | cons first rest =>
    obtain ⟨hkind, hshape⟩ := h first (by simp)
    unfold ofRows
    dsimp only
    rw [if_pos, hkind, hshape]
    rw [List.all_eq_true]
    intro r hr
    obtain ⟨hk, hs⟩ := h r (by simp [hr])
    simp [hk, hs, hkind, hshape]

/-- Arrays of one kind and shape are one shape over a list of what arrays of the kind hold. -/
theorem exists_map_elements {β : Type} (make : β → Elements Tensor) {kind : Kind}
    (hmake : ∀ e : Elements Tensor, e.kind = kind → ∃ b, make b = e) {rows : List Tensor} {s : Shape}
    (h : ∀ r ∈ rows, r.kind = kind ∧ r.shape = s) : ∃ bs : List β, bs.map (fun b => ⟨s, make b⟩) = rows := by
  rw [← Set.mem_range, Set.range_list_map]
  intro r hr
  obtain ⟨hkind, rfl⟩ := h r hr
  obtain ⟨s, e⟩ := r
  obtain ⟨b, rfl⟩ := hmake e hkind
  exact ⟨b, rfl⟩

theorem exists_map_numbers {rows : List Tensor} {s : Shape} (h : ∀ r ∈ rows, r.kind = .number ∧ r.shape = s) :
    ∃ xss : List Numbers, xss.map (fun xs => ⟨s, .numbers xs⟩) = rows := by
  refine exists_map_elements .numbers (fun e he => ?_) h
  cases e with
  | numbers xs => exact ⟨xs, rfl⟩
  | characters | boxes => cases he

theorem exists_map_characters {rows : List Tensor} {s : Shape}
    (h : ∀ r ∈ rows, r.kind = .character ∧ r.shape = s) :
    ∃ css : List (List Int32), css.map (fun cs => ⟨s, .characters cs⟩) = rows := by
  refine exists_map_elements .characters (fun e he => ?_) h
  cases e with
  | characters cs => exact ⟨cs, rfl⟩
  | numbers | boxes => cases he

theorem exists_map_boxes {rows : List Tensor} {s : Shape} (h : ∀ r ∈ rows, r.kind = .box ∧ r.shape = s) :
    ∃ xss : List (List Tensor), xss.map (fun xs => ⟨s, .boxes xs⟩) = rows := by
  refine exists_map_elements .boxes (fun e he => ?_) h
  cases e with
  | boxes xs => exact ⟨xs, rfl⟩
  | numbers | characters => cases he

/-- Stacking the rows of an array that has any gives the array. -/
theorem ofRows_rows {n : Nat} {s : Shape} {e : Elements Tensor} (h : Full ⟨(n + 1) :: s, e⟩) :
    ofRows (rows ⟨(n + 1) :: s, e⟩) = ⟨(n + 1) :: s, e⟩ := by
  have hlength : (rows ⟨(n + 1) :: s, e⟩).length = n + 1 := length_rows _
  have hne : rows ⟨(n + 1) :: s, e⟩ ≠ [] := fun hnil => by rw [hnil] at hlength; cases hlength
  have hconcat : concat e.kind (rows ⟨(n + 1) :: s, e⟩) = e := concat_blocks s h
  rw [ofRows_eq hne fun r => of_mem_rows, hlength, hconcat]

/-! ## Rows joined -/

section

variable {left right : Tensor} {s : Shape} (hleft : left.rank = s.length + 1) (hright : right.rank = s.length + 1)

include hleft hright

theorem rowsOfRank_join : left.rowsOfRank (max (max left.rank right.rank) 1) = left.rows ∧
    right.rowsOfRank (max (max left.rank right.rank) 1) = right.rows := by
  have hrank : max (max left.rank right.rank) 1 = s.length + 1 := by
    rw [hleft, hright, Nat.max_self]
    exact Nat.max_eq_left (Nat.succ_pos _)
  rw [hrank]
  exact ⟨if_pos hleft, if_pos hright⟩

/-- Rows of one kind and shape are stacked, those on the left first. -/
theorem join_rows {kind : Kind} (h : ∀ r ∈ left.rows ++ right.rows, r.kind = kind ∧ r.shape = s)
    (hne : left.rows ++ right.rows ≠ []) : left.join right = .ok (ofRows (left.rows ++ right.rows)) := by
  obtain ⟨hleftRows, hrightRows⟩ := rowsOfRank_join hleft hright
  unfold join
  dsimp only
  rw [hleftRows, hrightRows]
  generalize left.rows ++ right.rows = rows at h hne
  cases rows with
  | nil => exact absurd rfl hne
  | cons first rest =>
    obtain ⟨hkind, hshape⟩ := h first (by simp)
    have hsame : (rest.all fun r => r.kind == first.kind && r.shape == first.shape) = true := by
      rw [List.all_eq_true]
      intro r hr
      obtain ⟨hk, hs⟩ := h r (by simp [hr])
      simp [hk, hs, hkind, hshape]
    dsimp only
    rw [if_neg (by rw [hsame]; simp)]
    rfl

/-- Where there are no rows at all, nothing is stacked. -/
theorem join_no_rows (h : left.rows ++ right.rows = []) : left.join right = .ok left := by
  obtain ⟨hleftRows, hrightRows⟩ := rowsOfRank_join hleft hright
  have hscalar : left.isScalar = false := by
    unfold isScalar
    rw [List.isEmpty_eq_false_iff]
    intro hshape
    unfold rank at hleft
    rw [hshape] at hleft
    cases hleft
  unfold join
  dsimp only
  rw [hleftRows, hrightRows, h, hscalar]
  rfl

end

/-- Two arrays whose rows together are those of a third join to it, if they have any. -/
theorem join_of_rows {left right : Tensor} {n : Nat} {s : Shape} {e : Elements Tensor} (h : Full ⟨n :: s, e⟩)
    (hleft : left.rank = s.length + 1) (hright : right.rank = s.length + 1)
    (hrows : left.rows ++ right.rows = rows ⟨n :: s, e⟩) (hnone : n = 0 → left = ⟨n :: s, e⟩) :
    left.join right = .ok ⟨n :: s, e⟩ := by
  cases n with
  | zero =>
    have hnil : rows ⟨0 :: s, e⟩ = [] := List.length_eq_zero_iff.1 (length_rows _)
    rw [join_no_rows hleft hright (hrows.trans hnil), hnone rfl]
  | succ n =>
    have hne : left.rows ++ right.rows ≠ [] := by
      intro hnil
      have hlength := length_rows ⟨(n + 1) :: s, e⟩
      rw [← hrows, hnil] at hlength
      cases hlength
    rw [join_rows hleft hright (fun r hr => of_mem_rows (hrows ▸ hr)) hne, hrows, ofRows_rows h]

/-- Integers in rows of one shape join to the integers of the left before those of the right. -/
theorem join_ofInts {p q : Nat} {s : Shape} {xs ys : List Int32} (hx : (ofInts (p :: s) xs).Full)
    (hy : (ofInts (q :: s) ys).Full) :
    join (ofInts (p :: s) xs) (ofInts (q :: s) ys) = .ok (ofInts ((p + q) :: s) (xs ++ ys)) := by
  have hx : xs.length = p * s.size := hx
  have hy : ys.length = q * s.size := hy
  have hfull : (ofInts ((p + q) :: s) (xs ++ ys)).Full := by
    show (xs ++ ys).length = (p + q) * s.size
    rw [List.length_append, hx, hy, Nat.add_mul]
  refine join_of_rows hfull rfl rfl ?_ fun hnone => ?_
  · show rows (ofInts (p :: s) xs) ++ rows (ofInts (q :: s) ys) = rows (ofInts ((p + q) :: s) (xs ++ ys))
    rw [rows_ofInts, rows_ofInts, rows_ofInts, blocks_append hx hy, List.map_append]
  · obtain ⟨rfl, rfl⟩ := Nat.add_eq_zero_iff.1 hnone
    obtain rfl := List.length_eq_zero_iff.1 (hy.trans (Nat.zero_mul _))
    rw [List.append_nil]
    rfl

theorem slice_rank (t : Tensor) (start stop : Nat) : (t.slice start stop).rank = t.rank := by
  obtain ⟨s, e⟩ := t
  cases s with
  | nil => rfl
  | cons n s => rfl

/-- The rows before a place and those from it on make the array. -/
theorem join_slice {n k : Nat} {s : Shape} {e : Elements Tensor} (h : Full ⟨n :: s, e⟩) (hk : k ≤ n) :
    (Tensor.slice ⟨n :: s, e⟩ 0 k).join (Tensor.slice ⟨n :: s, e⟩ k n) = .ok ⟨n :: s, e⟩ := by
  refine join_of_rows h (slice_rank _ _ _) (slice_rank _ _ _) ?_ fun hn => ?_
  · have hlength : (rows ⟨n :: s, e⟩).length = n := length_rows _
    have hrest : ((rows ⟨n :: s, e⟩).drop k).take (n - k) = (rows ⟨n :: s, e⟩).drop k :=
      List.take_of_length_le (by rw [List.length_drop]; omega)
    rw [rows_slice h hk, rows_slice h le_rfl, List.drop_zero, Nat.sub_zero, hrest,
      List.take_append_drop]
  · -- the slice of no rows is the array without rows
    subst hn
    obtain rfl := Nat.le_zero.1 hk
    exact chooseRows_range h

/-! ## One row -/

theorem row_eq {t r : Tensor} {i : Int} (h : t.row i = .ok r) :
    ∃ j : Nat, (if i < 0 then i + t.rowCount else i) = j ∧ t.rows[j]? = some r := by
  unfold row at h
  dsimp only at h
  generalize (if i < 0 then i + (t.rowCount : Int) else i) = j at h ⊢
  split at h
  · cases h
  · rename_i hj
    obtain ⟨j, hj⟩ := Int.eq_ofNat_of_zero_le (Int.not_lt.1 hj)
    subst hj
    rw [Int.toNat_natCast] at h
    split at h
    · rename_i r' hr
      cases h
      exact ⟨j, rfl, hr⟩
    · cases h

theorem row_natCast {t r : Tensor} {i : Nat} (h : t.rows[i]? = some r) : t.row (i : Int) = .ok r := by
  unfold row
  have hnonneg : ¬ (i : Int) < 0 := by omega
  simp only [hnonneg, if_false, Int.toNat_natCast, h]
  rfl

/-- The elements of block `j` in place of themselves. -/
theorem replaceBlock_self {α : Type} (xs : List α) (j k : Nat) :
    replaceBlock xs j k ((xs.drop (j * k)).take k) = xs := by
  unfold replaceBlock
  have hdrop : xs.drop ((j + 1) * k) = (xs.drop (j * k)).drop k := by
    rw [List.drop_drop, Nat.succ_mul]
  rw [List.append_assoc, hdrop, List.take_append_drop, List.take_append_drop]

/-- A row in place of itself. -/
theorem replaceRow_row {t r : Tensor} (h : t.Full) {i : Int} (hr : t.row i = .ok r) :
    t.replaceRow i r = .ok t := by
  obtain ⟨j, hj, hget⟩ := row_eq hr
  obtain ⟨s, e⟩ := t
  cases s with
  | nil =>
    have hone : r = ⟨[], e⟩ := by
      have := List.mem_of_getElem? hget
      exact List.mem_singleton.1 this
    rw [hone]; rfl
  | cons n s =>
    have hj' : (if i < 0 then i + (n : Int) else i) = j := hj
    have hlt : j < n := by
      have hlength : (rows ⟨n :: s, e⟩).length = n := length_rows _
      obtain ⟨hlt, -⟩ := List.getElem?_eq_some_iff.1 hget
      omega
    have hold : Tensor.row ⟨n :: s, e⟩ (j : Int) = .ok r := row_natCast hget
    have hrow : rows ⟨n :: s, e⟩ = (e.blocks n (Shape.size s)).map (Tensor.mk s) := rfl
    rw [hrow, List.getElem?_map] at hget
    unfold replaceRow
    dsimp only
    rw [hj', hold]
    cases e with
    | numbers xs =>
      cases xs with
      | bools xs | ints xs | floats xs =>
        simp only [Elements.blocks, List.getElem?_map, getElem?_blocks hlt, Option.map_some,
          Option.some.injEq] at hget
        subst hget
        have hself := replaceBlock_self xs j (Shape.size s)
        simp only [Int.toNat_natCast]
        change (if s = s then _ else _) = _
        rw [if_pos rfl]
        unfold replaceNumbers
        dsimp only [Numbers.asBools, Numbers.asInts, Numbers.asFloats]
        rw [hself]
        rfl
    | characters xs | boxes xs =>
      simp only [Elements.blocks, slices_eq_blocks, List.getElem?_map, getElem?_blocks hlt, Option.map_some,
        Option.some.injEq] at hget
      subst hget
      have hself := replaceBlock_self xs j (Shape.size s)
      simp only [Int.toNat_natCast]
      change (if s = s then _ else _) = _
      rw [if_pos rfl, hself]
      rfl

theorem Full.rows {t : Tensor} (h : t.Full) : ∀ r ∈ t.rows, r.Full := by
  obtain ⟨s, e⟩ := t
  intro r hr
  cases s with
  | nil => rw [List.mem_singleton.1 hr]; exact h
  | cons n s => exact h.of_mem_rows hr

theorem Full.row {t r : Tensor} (h : t.Full) {i : Int} (hr : t.row i = .ok r) : r.Full := by
  obtain ⟨j, -, hget⟩ := row_eq hr
  exact h.rows r (List.mem_of_getElem? hget)

/-! ## Reversal and rotation -/

/-- A choice of rows undone by another. -/
theorem chooseRows_chooseRows_of_eq_range {n : Nat} {s : Shape} {e : Elements Tensor}
    (h : Full ⟨n :: s, e⟩) {is js : List Nat} (his : ∀ i ∈ is, i < n) (hjs : ∀ j ∈ js, j < is.length)
    (hrange : Tacit.pick js is = List.range n) :
    Tensor.chooseRows (Tensor.chooseRows ⟨n :: s, e⟩ is) js = ⟨n :: s, e⟩ := by
  rw [chooseRows_chooseRows h his hjs, hrange, chooseRows_range h]

theorem chooseRows_rowCount {n : Nat} {s : Shape} {e : Elements Tensor} (is : List Nat) :
    (Tensor.chooseRows ⟨n :: s, e⟩ is).rowCount = is.length := rfl

theorem selects_reverse : Selects reverse :=
  selects_chooseRows (fun s => (List.range s.rowCount).reverse) fun _ _ hi =>
    List.mem_range.1 (List.mem_reverse.1 hi)

theorem Full.reverse {t : Tensor} (h : t.Full) : t.reverse.Full := h.selects selects_reverse

theorem reverse_reverse {t : Tensor} (h : t.Full) : t.reverse.reverse = t := by
  obtain ⟨s, e⟩ := t
  cases s with
  | nil => rfl
  | cons n s =>
    have hfirst : Tensor.reverse ⟨n :: s, e⟩ =
        Tensor.chooseRows ⟨n :: s, e⟩ (List.range n).reverse := rfl
    have hcount : (Tensor.chooseRows ⟨n :: s, e⟩ (List.range n).reverse).rowCount = n := by
      rw [chooseRows_rowCount, List.length_reverse, List.length_range]
    rw [hfirst, reverse, hcount]
    refine chooseRows_chooseRows_of_eq_range h (by simp) (by simp) ?_
    have hpick : pick (List.range n) (List.range n).reverse = (List.range n).reverse := by
      have := pick_range (List.range n).reverse
      simpa using this
    rw [pick_eq, List.filterMap_reverse, ← pick_eq, hpick, List.reverse_reverse]

/-- The numbers of the rows that come from each place on, rotated. -/
theorem map_turned (n : Nat) (m : Int) :
    ((List.range n).map fun (i : Nat) => ((i + m) % n).toNat) = (List.range n).rotate (m % n).toNat := by
  refine List.ext_getElem (by simp) fun i hi _ => ?_
  have hn : i < n := by simpa using hi
  have hplace := Int.emod_nonneg (i + m) (by omega : (n : Int) ≠ 0)
  have hturn := Int.emod_nonneg m (by omega : (n : Int) ≠ 0)
  rw [List.getElem_rotate, List.getElem_map, List.getElem_range, List.getElem_range, List.length_range]
  zify
  rw [Int.toNat_of_nonneg hplace, Int.toNat_of_nonneg hturn, Int.add_emod_emod]

theorem rotateBy_eq {n : Nat} {s : Shape} {e : Elements Tensor} (m : Int) : Tensor.rotateBy ⟨n :: s, e⟩ m =
    Tensor.chooseRows ⟨n :: s, e⟩ ((List.range n).rotate (m % n).toNat) :=
  congrArg _ (map_turned n m)

theorem lt_of_mem_rotate {n k i : Nat} (hi : i ∈ (List.range n).rotate k) : i < n :=
  List.mem_range.1 (List.mem_rotate.1 hi)

theorem selects_rotateBy (m : Int) : Selects (rotateBy · m) :=
  selects_chooseRows (fun s => (List.range s.rowCount).map fun (i : Nat) => ((i + m) % s.rowCount).toNat)
    fun s _ hi => lt_of_mem_rotate (map_turned s.rowCount m ▸ hi)

theorem Full.rotateBy {t : Tensor} (h : t.Full) (m : Int) : (t.rotateBy m).Full := h.selects (selects_rotateBy m)

theorem rotateBy_zero {t : Tensor} (h : t.Full) : t.rotateBy 0 = t := by
  obtain ⟨s, e⟩ := t
  cases s with
  | nil => rfl
  | cons n s => rw [rotateBy_eq, Int.zero_emod, Int.toNat_zero, List.rotate_zero, chooseRows_range h]

/-- Chosen rows are rotated as the choice of them is. -/
theorem rotateBy_chooseRows {n : Nat} {s : Shape} {e : Elements Tensor} (h : Full ⟨n :: s, e⟩) {is : List Nat}
    (his : ∀ i ∈ is, i < n) (m : Int) : (Tensor.chooseRows ⟨n :: s, e⟩ is).rotateBy m =
      Tensor.chooseRows ⟨n :: s, e⟩ (is.rotate (m % is.length).toNat) := by
  rw [chooseRows_eq his, rotateBy_eq, ← chooseRows_eq his, chooseRows_chooseRows h his fun i hi => lt_of_mem_rotate hi,
    pick_range_rotate rfl]

theorem rotateBy_add {t : Tensor} (h : t.Full) (m k : Int) : (t.rotateBy m).rotateBy k = t.rotateBy (m + k) := by
  obtain ⟨s, e⟩ := t
  cases s with
  | nil => rfl
  | cons n s =>
    rw [rotateBy_eq, rotateBy_chooseRows h fun i hi => lt_of_mem_rotate hi, rotateBy_eq, List.length_rotate,
      List.length_range, List.rotate_rotate]
    rcases n.eq_zero_or_pos with rfl | hn
    · simp
    · -- only the remainder of a turn by the number of rows counts
      rw [← List.rotate_mod, List.length_range]
      congr 2
      have hm := Int.emod_nonneg m (by omega : (n : Int) ≠ 0)
      have hk := Int.emod_nonneg k (by omega : (n : Int) ≠ 0)
      have hsum := Int.emod_nonneg (m + k) (by omega : (n : Int) ≠ 0)
      zify
      rw [Int.toNat_of_nonneg hm, Int.toNat_of_nonneg hk, Int.toNat_of_nonneg hsum, ← Int.add_emod]

/-- A rotation undone by the opposite one. -/
theorem rotateBy_rotateBy {t : Tensor} (h : t.Full) {m k : Int} (hk : k = -m) :
    (t.rotateBy m).rotateBy k = t := by
  rw [rotateBy_add h, hk, Int.add_right_neg, rotateBy_zero h]

/-! ## Moved axes -/

/-- The rows read column by column. -/
theorem transpose_eq (n m : Nat) (s : Shape) (e : Elements Tensor) : transpose ⟨n :: m :: s, e⟩ =
    select ⟨n :: m :: s, e⟩ (m :: s ++ [n]) (transposedPositions n (Shape.size (m :: s))) :=
  congrArg (Tensor.mk (m :: s ++ [n]))
    (e.move_eq_pick (columns_blocks n _) (picks_transposed n (m :: s)).lt)

theorem selects_transpose : Selects transpose
  | [] | [_] => .inl fun _ => rfl
  | _ :: _ :: _ => .inr ⟨List.cons_ne_nil _ _, _, _, picks_transposed _ _, fun e => transpose_eq _ _ _ e⟩

theorem Full.transpose {t : Tensor} (h : t.Full) : t.transpose.Full := h.selects selects_transpose

theorem picks_last (n m : Nat) (s : Shape) :
    Picks (n :: m :: s) ((m :: s).getLast (by simp) :: n :: (m :: s).dropLast)
      (transposedPositions (Shape.size (n :: (m :: s).dropLast)) ((m :: s).getLast (by simp))) := by
  have hlast := picks_untransposed (n :: (m :: s).dropLast) ((m :: s).getLast (by simp))
  rwa [List.cons_append, List.dropLast_append_getLast] at hlast

/-- The rows along the last axis read column by column. -/
theorem untranspose_eq (n m : Nat) (s : Shape) (e : Elements Tensor) : untranspose ⟨n :: m :: s, e⟩ =
    select ⟨n :: m :: s, e⟩ ((m :: s).getLast (by simp) :: n :: (m :: s).dropLast)
      (transposedPositions (Shape.size (n :: (m :: s).dropLast)) ((m :: s).getLast (by simp))) :=
  congrArg (Tensor.mk _) (e.move_eq_pick (columns_blocks _ _) (picks_last n m s).lt)

theorem selects_untranspose : Selects untranspose
  | [] | [_] => .inl fun _ => rfl
  | _ :: _ :: _ => .inr ⟨List.cons_ne_nil _ _, _, _, picks_last _ _ _, fun e => untranspose_eq _ _ _ e⟩

theorem Full.untranspose {t : Tensor} (h : t.Full) : t.untranspose.Full := h.selects selects_untranspose

section

variable {n : Nat} {s : Shape} {e : Elements Tensor}

theorem select_range (h : Full ⟨s, e⟩) : select ⟨s, e⟩ s (List.range s.size) = ⟨s, e⟩ := by
  have hlength : e.length = s.size := h
  unfold select
  rw [← hlength, Elements.pick_range]

theorem transpose_cons (h : Full ⟨n :: s, e⟩) :
    transpose ⟨n :: s, e⟩ = select ⟨n :: s, e⟩ (s ++ [n]) (transposedPositions n s.size) := by
  cases s with
  | nil =>
    -- a single axis moves nowhere
    have hall : transposedPositions n 1 = List.range (Shape.size [n]) :=
      (transposedPositions_one n).trans (congrArg List.range (Nat.mul_one n).symm)
    show _ = select ⟨[n], e⟩ [n] (transposedPositions n 1)
    rw [hall, select_range h]
    rfl
  | cons m s => exact transpose_eq n m s e

theorem untranspose_concat (h : Full ⟨s ++ [n], e⟩) :
    untranspose ⟨s ++ [n], e⟩ = select ⟨s ++ [n], e⟩ (n :: s) (transposedPositions s.size n) := by
  match s, h with
  | [], h =>
    have h : Full ⟨[n], e⟩ := h
    have hall : transposedPositions 1 n = List.range (Shape.size [n]) :=
      (transposedPositions_one_left n).trans (congrArg List.range (Nat.mul_one n).symm)
    show untranspose ⟨[n], e⟩ = select ⟨[n], e⟩ [n] (transposedPositions 1 n)
    rw [hall, select_range h]
    rfl
  | [m], _ => exact untranspose_eq m n [] e
  | m :: k :: s, _ =>
    have hlast : (k :: (s ++ [n])).getLast (by simp) = n := by simp
    have hinit : (k :: (s ++ [n])).dropLast = k :: s := by
      rw [← List.cons_append, List.dropLast_concat]
    simp only [List.cons_append]
    rw [untranspose_eq, hlast, hinit]

end

theorem untranspose_transpose {t : Tensor} (h : t.Full) : t.transpose.untranspose = t := by
  obtain ⟨s, e⟩ := t
  cases s with
  | nil => rfl
  | cons n s =>
    have hlength : e.length = n * Shape.size s := h
    have hfull := h.transpose
    rw [transpose_cons h] at hfull ⊢
    refine (untranspose_concat hfull).trans (congrArg (Tensor.mk (n :: s)) (Elements.pick_pick_of_eq_range ?_ ?_))
    · exact fun p hp => hlength ▸ lt_of_mem_transposedPositions hp
    · rw [pick_transposedPositions_swap, hlength]

theorem transpose_untranspose {t : Tensor} (h : t.Full) : t.untranspose.transpose = t := by
  obtain ⟨s, e⟩ := t
  rcases List.eq_nil_or_concat' s with rfl | ⟨s, n, rfl⟩
  · rfl
  · have hlength : e.length = Shape.size s * n := h.trans (Shape.size_concat s n)
    have hfull := h.untranspose
    rw [untranspose_concat h] at hfull ⊢
    refine (transpose_cons hfull).trans (congrArg (Tensor.mk (s ++ [n])) (Elements.pick_pick_of_eq_range ?_ ?_))
    · exact fun p hp => hlength ▸ lt_of_mem_transposedPositions hp
    · rw [pick_transposedPositions_swap, hlength]

end Tensor

end Tacit
