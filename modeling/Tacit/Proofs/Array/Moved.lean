/-
Where moved elements come from. Along an axis, by columns or end to end, dense elements are moved as the elements
at certain positions, the same ones whatever the elements are. A box is looked up at the number that has been
moved to its place, and this number is the position: so elements of every kind are picked at the same positions.
-/
import Tacit.Proofs.Array.Cells
import Tacit.Proofs.Array.Pick

namespace Tacit

/-! ## Entries of an axis -/

/-- The flat positions of the entries `is` of an axis of length `n`, between `outer` leading and `inner`
trailing places. -/
def axisPositions (outer n inner : Nat) (is : List Nat) : List Nat :=
  (List.range outer).flatMap fun o =>
    is.flatMap fun i => (List.range inner).map fun k => (o * n + i) * inner + k

theorem axisPositions_one (n k : Nat) (is : List Nat) : axisPositions 1 n k is = blockPositions k is := by
  simp [axisPositions, blockPositions]

theorem length_axisPositions (outer n inner : Nat) (is : List Nat) :
    (axisPositions outer n inner is).length = outer * (is.length * inner) := by
  simp [axisPositions]

theorem lt_of_mem_axisPositions {outer n inner : Nat} {is : List Nat} (his : ∀ i ∈ is, i < n) {p : Nat}
    (hp : p ∈ axisPositions outer n inner is) : p < outer * (n * inner) := by
  obtain ⟨o, ho, hp⟩ := List.mem_flatMap.1 hp
  obtain ⟨i, hi, hp⟩ := List.mem_flatMap.1 hp
  obtain ⟨k, hk, rfl⟩ := List.mem_map.1 hp
  rw [← Nat.mul_assoc]
  exact lt_of_row_column (lt_of_row_column (List.mem_range.1 ho) (his i hi)) (List.mem_range.1 hk)

/-- Under one more leading axis, the positions are those within each of its entries. -/
theorem axisPositions_mul_left (m outer n inner : Nat) (is : List Nat) :
    axisPositions (m * outer) n inner is = (List.range m).flatMap fun r =>
      (axisPositions outer n inner is).map (r * (outer * (n * inner)) + ·) := by
  unfold axisPositions
  rw [← blockPositions_range, blockPositions, List.flatMap_assoc]
  refine List.flatMap_congr fun r _ => ?_
  rw [List.flatMap_map, List.map_flatMap]
  refine List.flatMap_congr fun o _ => ?_
  rw [List.map_flatMap]
  refine List.flatMap_congr fun i _ => ?_
  rw [List.map_map]
  refine List.map_congr_left fun k _ => ?_
  show ((r * outer + o) * n + i) * inner + k = r * (outer * (n * inner)) + ((o * n + i) * inner + k)
  ring

section Dense

variable {α : Type}

/-- Rows within rows down to the axis, so entries of the axis at every place before it. -/
theorem takeAxis_eq_pick (front back : Shape) {n : Nat} {is : List Nat} (his : ∀ i ∈ is, i < n) (xs : List α) :
    takeAxis is front.length (front ++ n :: back) xs = pick (axisPositions front.size n back.size is) xs := by
  induction front generalizing xs with
  | nil =>
    show (pick is (blocks n back.size xs)).flatten = pick (axisPositions 1 n back.size is) xs
    rw [axisPositions_one, pick_blockPositions his]
  | cons m front ih =>
    have hsize : Shape.size (front ++ n :: back) = Shape.size front * (n * back.size) :=
      Shape.size_append front (n :: back)
    show (blocks m (Shape.size (front ++ n :: back)) xs).flatMap (takeAxis is front.length (front ++ n :: back)) =
      pick (axisPositions (m * Shape.size front) n back.size is) xs
    rw [axisPositions_mul_left, pick_flatMap, blocks_eq_map_take, List.flatMap_map, hsize]
    refine List.flatMap_congr fun r _ => ?_
    rw [ih, pick_slice fun p hp => lt_of_mem_axisPositions his hp]

/-! ## Columns -/

theorem columns_eq_flatMap (c : Nat) (rows : List (List α)) :
    columns c rows = (List.range c).flatMap fun j => rows.filterMap (·[j]?) := by
  induction c generalizing rows with
  | zero => rfl
  | succ c ih =>
    rw [columns, ih, List.range_succ_eq_map, List.flatMap_cons, List.flatMap_map]
    congr 1
    · exact List.filterMap_congr fun row _ => List.head?_eq_getElem?
    · refine List.flatMap_congr fun j _ => ?_
      rw [List.filterMap_map]
      exact List.filterMap_congr fun row _ => List.getElem?_tail

theorem columns_blocks (r c : Nat) (xs : List α) : columns c (blocks r c xs) = pick (transposedPositions r c) xs := by
  rw [columns_eq_flatMap, transposedPositions, pick_flatMap]
  refine List.flatMap_congr fun j hj => ?_
  rw [blocks_eq_map_take, pick_eq, List.filterMap_map, List.filterMap_map]
  refine List.filterMap_congr fun i _ => ?_
  show ((xs.drop (i * c)).take c)[j]? = xs[i * c + j]?
  rw [List.getElem?_take_of_lt (List.mem_range.1 hj), List.getElem?_drop]

/-! ## Copies end to end -/

theorem getElem?_copies {xs : List α} {n i : Nat} (hi : i < n * xs.length) :
    (List.replicate n xs).flatten[i]? = xs[i % xs.length]? := by
  induction n generalizing i with
  | zero => omega
  | succ n ih =>
    rw [List.replicate_succ, List.flatten_cons]
    rcases Nat.lt_or_ge i xs.length with hfirst | hlater
    · rw [List.getElem?_append_left hfirst, Nat.mod_eq_of_lt hfirst]
    · rw [Nat.succ_mul] at hi
      rw [List.getElem?_append_right hlater, ih (by omega), ← Nat.mod_eq_sub_mod hlater]

/-- The copies are enough. -/
theorem le_copies_mul {n : Nat} (hn : 0 < n) (count : Nat) : count ≤ (count + n - 1) / n * n := by
  have := Nat.lt_div_mul_add (a := count + n - 1) hn
  omega

theorem lt_of_mem_remainders {n count p : Nat} (hn : 0 < n) (hp : p ∈ (List.range count).map (· % n)) : p < n := by
  obtain ⟨i, -, rfl⟩ := List.mem_map.1 hp
  exact Nat.mod_lt i hn

/-- Each place has the element at its remainder. -/
theorem tile_eq_pick (count : Nat) {xs : List α} (hne : 0 < xs.length) :
    tile count xs = pick ((List.range count).map (· % xs.length)) xs := by
  have henough := le_copies_mul hne count
  refine List.ext_getElem? fun i => ?_
  rw [getElem?_pick fun _ => lt_of_mem_remainders hne, List.getElem?_map, tile]
  rcases Nat.lt_or_ge i count with hi | hi
  · rw [List.getElem?_take_of_lt hi, getElem?_copies (by omega), List.getElem?_range hi]
    rfl
  · rw [List.getElem?_take_eq_none hi, List.getElem?_eq_none (by simpa using hi)]
    rfl

end Dense

/-! ## Positions for a shape -/

/-- Positions in the shape `s`, one for each place of the shape `s'`. -/
structure Picks (s s' : Shape) (ps : List Nat) : Prop where
  lt : ∀ p ∈ ps, p < s.size
  length_eq : ps.length = s'.size

section Picks

variable {n : Nat} {s : Shape}

theorem picks_rows {is : List Nat} (his : ∀ i ∈ is, i < n) :
    Picks (n :: s) (is.length :: s) (blockPositions s.size is) :=
  ⟨fun _ => lt_of_mem_blockPositions his, length_blockPositions _ _⟩

theorem picks_row {i : Nat} (hi : i < n) : Picks (n :: s) s (blockPositions s.size [i]) :=
  ⟨fun _ => lt_of_mem_blockPositions (by simpa using hi), by simp [length_blockPositions]⟩

theorem picks_axis (front back : Shape) {is : List Nat} (his : ∀ i ∈ is, i < n) :
    Picks (front ++ n :: back) (front ++ is.length :: back) (axisPositions front.size n back.size is) := by
  constructor
  · intro p hp
    rw [Shape.size_append]
    exact lt_of_mem_axisPositions his hp
  · rw [length_axisPositions, Shape.size_append]
    rfl

theorem picks_transposed (n : Nat) (s : Shape) : Picks (n :: s) (s ++ [n]) (transposedPositions n s.size) :=
  ⟨fun _ => lt_of_mem_transposedPositions, by rw [length_transposedPositions, Shape.size_concat, Nat.mul_comm]⟩

theorem picks_untransposed (s : Shape) (n : Nat) : Picks (s ++ [n]) (n :: s) (transposedPositions s.size n) := by
  constructor
  · intro p hp
    rw [Shape.size_concat]
    exact lt_of_mem_transposedPositions hp
  · rw [length_transposedPositions, Nat.mul_comm]
    rfl

theorem picks_remainders (hs : 0 < s.size) (s' : Shape) : Picks s s' ((List.range s'.size).map (· % s.size)) :=
  ⟨fun _ => lt_of_mem_remainders hs, by simp⟩

end Picks

/-! ## Elements of every kind -/

namespace Elements

variable {α : Type}

/-- The elements at the positions `ps`, whatever their kind. -/
def pick (ps : List Nat) : Elements α → Elements α
  | numbers xs => numbers (xs.rearrange (Tacit.pick ps))
  | characters xs => characters (Tacit.pick ps xs)
  | boxes xs => boxes (Tacit.pick ps xs)

theorem pick_range (e : Elements α) : e.pick (List.range e.length) = e := by
  cases e with
  | numbers xs =>
    cases xs with
    | bools xs => exact congrArg (fun ys => numbers (.bools ys)) (Tacit.pick_range xs)
    | ints xs => exact congrArg (fun ys => numbers (.ints ys)) (Tacit.pick_range xs)
    | floats xs => exact congrArg (fun ys => numbers (.floats ys)) (Tacit.pick_range xs)
  | characters xs => exact congrArg characters (Tacit.pick_range xs)
  | boxes xs => exact congrArg boxes (Tacit.pick_range xs)

theorem length_pick {e : Elements α} {ps : List Nat} (h : ∀ p ∈ ps, p < e.length) :
    (e.pick ps).length = ps.length := by
  cases e with
  | numbers xs => cases xs <;> exact Tacit.length_pick h
  | characters xs => exact Tacit.length_pick h
  | boxes xs => exact Tacit.length_pick h

theorem pick_pick {e : Elements α} (qs : List Nat) {ps : List Nat} (h : ∀ p ∈ ps, p < e.length) :
    (e.pick ps).pick qs = e.pick (Tacit.pick qs ps) := by
  cases e with
  | numbers xs =>
    cases xs with
    | bools xs => exact congrArg (fun ys => numbers (.bools ys)) (Tacit.pick_pick qs h)
    | ints xs => exact congrArg (fun ys => numbers (.ints ys)) (Tacit.pick_pick qs h)
    | floats xs => exact congrArg (fun ys => numbers (.floats ys)) (Tacit.pick_pick qs h)
  | characters xs => exact congrArg characters (Tacit.pick_pick qs h)
  | boxes xs => exact congrArg boxes (Tacit.pick_pick qs h)

/-- A rearrangement undone by another. -/
theorem pick_pick_of_eq_range {e : Elements α} {ps qs : List Nat} (h : ∀ p ∈ ps, p < e.length)
    (hq : Tacit.pick qs ps = List.range e.length) : (e.pick ps).pick qs = e := by
  rw [pick_pick qs h, hq, pick_range]

/-- What takes dense elements to the positions `ps` takes boxes there too: the numbers of their places come out
as these positions. -/
theorem move_eq_pick (e : Elements α) {size : Nat} {f : {β : Type} → List β → List β} {ps : List Nat}
    (hf : ∀ {β : Type} (xs : List β), f xs = Tacit.pick ps xs) (hps : ∀ p ∈ ps, p < size) :
    e.move size f = e.pick ps := by
  cases e with
  | numbers xs => cases xs <;> simp only [move, pick, Numbers.rearrange, hf]
  | characters xs => exact congrArg characters (hf xs)
  | boxes xs =>
    have hplaces : f (List.range size) = ps := (hf _).trans (pick_numbers hps)
    simp only [move, pick, hplaces]

/-- Tiling and cutting dense elements and looking boxes up by remainders pick at the same positions. -/
theorem cycle_eq_pick {e : Elements α} (hne : 0 < e.length) (count : Nat) :
    e.cycle count = e.pick ((List.range count).map (· % e.length)) := by
  cases e with
  | numbers xs =>
    cases xs with
    | bools xs | ints xs | floats xs => simp only [cycle, pick, Numbers.rearrange, tile_eq_pick count hne]; rfl
  | characters xs => exact congrArg characters (tile_eq_pick count hne)
  | boxes xs => rfl

theorem blocks_boxes (n k : Nat) (xs : List α) : (boxes xs).blocks n k = (Tacit.blocks n k xs).map boxes :=
  congrArg (List.map boxes) (slices_eq_blocks n k xs)

theorem length_blocks (e : Elements α) (n k : Nat) : (e.blocks n k).length = n := by
  cases e with
  | numbers xs => cases xs <;> simp [blocks]
  | characters xs => simp [blocks]
  | boxes xs => simp [blocks_boxes]

theorem blocks_eq_map (e : Elements α) (n k : Nat) :
    e.blocks n k = (List.range n).map fun i => e.pick (blockPositions k [i]) := by
  cases e with
  | numbers xs =>
    cases xs with
    | bools xs | ints xs | floats xs =>
      change (Tacit.blocks n k xs).map _ = _
      rw [Tacit.blocks_eq_map, List.map_map]
      rfl
  | characters xs =>
    change (Tacit.blocks n k xs).map _ = _
    rw [Tacit.blocks_eq_map, List.map_map]
    rfl
  | boxes xs =>
    rw [blocks_boxes, Tacit.blocks_eq_map, List.map_map]
    rfl

theorem blocks_pick {e : Elements α} {n k : Nat} (he : e.length = n * k) {is : List Nat}
    (h : ∀ i ∈ is, i < n) :
    (e.pick (blockPositions k is)).blocks is.length k = Tacit.pick is (e.blocks n k) := by
  cases e with
  | numbers xs =>
    cases xs with
    | bools xs | ints xs | floats xs =>
      change (Tacit.blocks is.length k (Tacit.pick (blockPositions k is) xs)).map _ = _
      rw [Tacit.blocks_pick he h, ← pick_map]
      rfl
  | characters xs =>
    change (Tacit.blocks is.length k (Tacit.pick (blockPositions k is) xs)).map _ = _
    rw [Tacit.blocks_pick he h, ← pick_map]
    rfl
  | boxes xs =>
    show (boxes (Tacit.pick (blockPositions k is) xs)).blocks is.length k = _
    rw [blocks_boxes, blocks_boxes, Tacit.blocks_pick he h, ← pick_map]

end Elements

end Tacit
