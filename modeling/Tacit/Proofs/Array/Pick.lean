/-
Lists of positions. Picking twice is picking at picked positions, so a rearrangement is undone by
another if picking the positions of one at those of the other counts from zero; for blocks of elements
this is a question about the numbers of the blocks. Slices are blocks.
-/
import Tacit.Tensor.Select
import Mathlib.Tactic

namespace Tacit

variable {α β : Type}

/-! ## Picking -/

theorem pick_eq (ps : List Nat) (xs : List α) : pick ps xs = ps.filterMap (xs[·]?) := by
  simp [pick]

@[simp] theorem pick_nil (xs : List α) : pick [] xs = [] := rfl

theorem pick_cons (p : Nat) (ps : List Nat) (xs : List α) :
    pick (p :: ps) xs = xs[p]?.toList ++ pick ps xs := by
  rw [pick_eq, pick_eq, List.filterMap_cons]
  cases xs[p]? <;> rfl

theorem pick_append (ps qs : List Nat) (xs : List α) :
    pick (ps ++ qs) xs = pick ps xs ++ pick qs xs := by
  rw [pick_eq, pick_eq, pick_eq, List.filterMap_append]

theorem pick_flatMap {γ : Type} (is : List γ) (f : γ → List Nat) (xs : List α) :
    pick (is.flatMap f) xs = is.flatMap fun i => pick (f i) xs := by
  simp only [pick_eq, List.filterMap_flatMap]

theorem pick_map (f : α → β) (ps : List Nat) (xs : List α) :
    pick ps (xs.map f) = (pick ps xs).map f := by
  induction ps with
  | nil => rfl
  | cons p ps ih =>
    rw [pick_cons, pick_cons, ih, List.map_append, List.getElem?_map]
    cases xs[p]? <;> rfl

theorem mem_of_mem_pick {ps : List Nat} {xs : List α} {x : α} (h : x ∈ pick ps xs) : x ∈ xs := by
  rw [pick_eq] at h
  obtain ⟨p, -, hp⟩ := List.mem_filterMap.1 h
  exact List.mem_of_getElem? hp

theorem lt_of_mem_interval {start stop n i : Nat} (hstop : stop ≤ n)
    (hi : i ∈ (List.range (stop - start)).map (start + ·)) : i < n := by
  obtain ⟨j, hj, rfl⟩ := List.mem_map.1 hi
  have hj : j < stop - start := List.mem_range.1 hj
  omega

/-- Neighbouring positions pick a slice. -/
theorem pick_interval (k a : Nat) (xs : List α) :
    pick ((List.range k).map (a + ·)) xs = (xs.drop a).take k := by
  induction k generalizing a with
  | zero => simp
  | succ k ih =>
    have hrange : (List.range (k + 1)).map (a + ·) = a :: (List.range k).map (a + 1 + ·) := by
      rw [List.range_succ_eq_map, List.map_cons, List.map_map]
      congr 1
      refine List.map_congr_left fun i _ => ?_
      simp only [Function.comp_apply]
      omega
    rw [hrange, pick_cons, ih]
    by_cases ha : a < xs.length
    · rw [List.drop_eq_getElem_cons ha, List.getElem?_eq_getElem ha]
      rfl
    · rw [List.getElem?_eq_none (by omega), List.drop_eq_nil_of_le (by omega),
        List.drop_eq_nil_of_le (by omega)]
      simp

/-- Positions within a slice, counted from its start. -/
theorem pick_slice {k : Nat} {ps : List Nat} (hps : ∀ p ∈ ps, p < k) (a : Nat) (xs : List α) :
    pick ps ((xs.drop a).take k) = pick (ps.map (a + ·)) xs := by
  rw [pick_eq, pick_eq, List.filterMap_map]
  refine List.filterMap_congr fun p hp => ?_
  rw [List.getElem?_take_of_lt (hps p hp), List.getElem?_drop]
  rfl

theorem pick_range (xs : List α) : pick (List.range xs.length) xs = xs := by
  have h := pick_interval xs.length 0 xs
  simpa using h

theorem getElem?_pick {ps : List Nat} {xs : List α} (h : ∀ p ∈ ps, p < xs.length) (i : Nat) :
    (pick ps xs)[i]? = ps[i]?.bind (xs[·]?) := by
  induction ps generalizing i with
  | nil => rfl
  | cons p ps ih =>
    have hp : p < xs.length := h p (by simp)
    rw [pick_cons, List.getElem?_eq_getElem hp]
    cases i with
    | zero => simp [hp]
    | succ i =>
      have := ih (fun q hq => h q (by simp [hq])) i
      simpa using this

theorem length_pick {ps : List Nat} {xs : List α} (h : ∀ p ∈ ps, p < xs.length) :
    (pick ps xs).length = ps.length := by
  induction ps with
  | nil => rfl
  | cons p ps ih =>
    have hp : p < xs.length := h p (by simp)
    rw [pick_cons, List.length_append, ih fun q hq => h q (by simp [hq]),
      List.getElem?_eq_getElem hp]
    simp [Nat.add_comm]

/-- Picking from what was picked is picking at picked positions. -/
theorem pick_pick (qs : List Nat) {ps : List Nat} {xs : List α} (h : ∀ p ∈ ps, p < xs.length) :
    pick qs (pick ps xs) = pick (pick qs ps) xs := by
  induction qs with
  | nil => rfl
  | cons q qs ih =>
    rw [pick_cons, pick_cons, pick_append, ih, getElem?_pick h]
    congr 1
    cases ps[q]? with
    | none => rfl
    | some p =>
      change xs[p]?.toList = pick [p] xs
      rw [pick_cons, pick_nil, List.append_nil]

/-- Rotated positions pick the elements rotated. -/
theorem pick_rotate {ps : List Nat} {xs : List α} (h : ∀ p ∈ ps, p < xs.length) (k : Nat) :
    pick (ps.rotate k) xs = (pick ps xs).rotate k := by
  rcases eq_or_ne ps [] with rfl | hne
  · simp
  · have hsplit : pick ps xs = pick (ps.take (k % ps.length)) xs ++ pick (ps.drop (k % ps.length)) xs := by
      rw [← pick_append, List.take_append_drop]
    have hlength : (pick (ps.take (k % ps.length)) xs).length = k % ps.length := by
      have hlt := Nat.mod_lt k (List.length_pos_iff.2 hne)
      rw [length_pick fun p hp => h p (List.mem_of_mem_take hp), List.length_take]
      omega
    rw [List.rotate_eq_drop_append_take_mod, List.rotate_eq_drop_append_take_mod, length_pick h, pick_append, hsplit,
      List.drop_left' hlength, List.take_left' hlength]

/-- The numbers of the elements, rotated. -/
theorem pick_range_rotate {n : Nat} {xs : List α} (h : xs.length = n) (k : Nat) :
    pick ((List.range n).rotate k) xs = xs.rotate k := by
  subst h
  rw [pick_rotate fun p hp => List.mem_range.1 hp, pick_range]

/-- Numbers picked by themselves. -/
theorem pick_numbers {n : Nat} {ps : List Nat} (hps : ∀ p ∈ ps, p < n) : pick ps (List.range n) = ps := by
  induction ps with
  | nil => rfl
  | cons p ps ih =>
    obtain ⟨hp, hps⟩ := List.forall_mem_cons.1 hps
    rw [pick_cons, ih hps, List.getElem?_range hp]
    rfl

/-! ## Blocks -/

/-- The flat positions of the blocks `is` of `k` elements. -/
def blockPositions (k : Nat) (is : List Nat) : List Nat :=
  is.flatMap fun i => (List.range k).map fun j => i * k + j

theorem length_blockPositions (k : Nat) (is : List Nat) : (blockPositions k is).length = is.length * k := by
  simp [blockPositions]

theorem blockPositions_range (n k : Nat) : blockPositions k (List.range n) = List.range (n * k) := by
  induction n with
  | zero => simp [blockPositions]
  | succ n ih =>
    unfold blockPositions at ih ⊢
    rw [List.range_succ, List.flatMap_append, ih, Nat.succ_mul, List.range_add]
    simp

/-- Place `j` of row `i` is among the places of all rows. -/
theorem lt_of_row_column {n k i j : Nat} (hi : i < n) (hj : j < k) : i * k + j < n * k := by
  rw [Nat.mul_comm i k]
  exact Nat.mul_add_lt_mul_of_lt_of_lt hi hj

theorem lt_of_mem_blockPositions {n k p : Nat} {is : List Nat} (h : ∀ i ∈ is, i < n)
    (hp : p ∈ blockPositions k is) : p < n * k := by
  obtain ⟨i, hi, hp⟩ := List.mem_flatMap.1 hp
  obtain ⟨j, hj, rfl⟩ := List.mem_map.1 hp
  exact lt_of_row_column (h i hi) (List.mem_range.1 hj)

/-- Entry `r` of block `j` of blocks that are all of one length. -/
theorem getElem?_flatMap_of_length {γ : Type} {f : γ → List α} {k : Nat}
    (hf : ∀ a, (f a).length = k) {r : Nat} (hr : r < k) (is : List γ) (j : Nat) :
    (is.flatMap f)[j * k + r]? = is[j]?.bind fun a => (f a)[r]? := by
  induction is generalizing j with
  | nil => rfl
  | cons a is ih =>
    rw [List.flatMap_cons]
    cases j with
    | zero =>
      rw [List.getElem?_append_left (by rw [hf]; omega)]
      simp
    | succ j =>
      rw [List.getElem?_append_right (by rw [hf, Nat.succ_mul]; omega), hf]
      have hsub : (j + 1) * k + r - k = j * k + r := by rw [Nat.succ_mul]; omega
      rw [hsub, ih]
      rfl

/-- Positions within a block, picked from blocks. -/
theorem pick_within_block {k : Nat} {ps : List Nat} (hps : ∀ p ∈ ps, p < k) (is : List Nat) (j : Nat) :
    pick (ps.map (j * k + ·)) (blockPositions k is) = is[j]?.toList.flatMap fun i => ps.map (i * k + ·) := by
  rw [pick_eq, List.filterMap_map]
  have hentry : ∀ p ∈ ps, (((blockPositions k is)[·]?) ∘ (j * k + ·)) p = is[j]?.map fun i => i * k + p := by
    intro p hp
    rw [Function.comp_apply, blockPositions, getElem?_flatMap_of_length (fun _ => by simp) (hps p hp)]
    cases is[j]? with
    | none => rfl
    | some i => simp [hps p hp]
  rw [List.filterMap_congr hentry]
  cases is[j]? with
  | none => simp
  | some i => simp

/-- Blocks picked from picked blocks. -/
theorem pick_blockPositions_blockPositions (k : Nat) (js is : List Nat) :
    pick (blockPositions k js) (blockPositions k is) = blockPositions k (pick js is) := by
  induction js with
  | nil => rfl
  | cons j js ih =>
    have hblock := pick_within_block (k := k) (fun p hp => List.mem_range.1 hp) is j
    rw [pick_cons]
    unfold blockPositions at ih hblock ⊢
    rw [List.flatMap_cons, pick_append, ih, hblock, List.flatMap_append]

@[simp] theorem length_blocks (n k : Nat) (xs : List α) : (blocks n k xs).length = n := by
  induction n generalizing xs with
  | zero => rfl
  | succ n ih => simp [blocks, ih]

theorem getElem?_blocks {n i : Nat} (h : i < n) (k : Nat) (xs : List α) :
    (blocks n k xs)[i]? = some ((xs.drop (i * k)).take k) := by
  induction n generalizing xs i with
  | zero => omega
  | succ n ih =>
    rw [blocks]
    cases i with
    | zero => simp
    | succ i =>
      rw [List.getElem?_cons_succ, ih (by omega), List.drop_drop]
      congr 3
      rw [Nat.succ_mul, Nat.add_comm]

theorem blocks_eq_map_take (n k : Nat) (xs : List α) :
    blocks n k xs = (List.range n).map fun i => (xs.drop (i * k)).take k := by
  refine List.ext_getElem? fun i => ?_
  by_cases h : i < n
  · rw [getElem?_blocks h, List.getElem?_map, List.getElem?_range h, Option.map_some]
  · rw [List.getElem?_eq_none, List.getElem?_eq_none]
    · simpa using h
    · simpa using h

/-- A block is the elements at its positions. -/
theorem blocks_eq_map (n k : Nat) (xs : List α) :
    blocks n k xs = (List.range n).map fun i => pick (blockPositions k [i]) xs := by
  rw [blocks_eq_map_take]
  refine List.map_congr_left fun i _ => ?_
  rw [blockPositions, List.flatMap_singleton, pick_interval]

/-- Between the bounds of a block lies the block. -/
theorem slices_eq_blocks (n k : Nat) (xs : List α) : slices n k xs = blocks n k xs := by
  rw [blocks_eq_map_take]
  refine List.map_congr_left fun i _ => ?_
  rw [Array.toList_extract, List.extract_eq_take_drop, Nat.succ_mul, Nat.add_sub_cancel_left]

theorem length_of_mem_blocks {n k : Nat} {xs b : List α} (h : xs.length = n * k)
    (hb : b ∈ blocks n k xs) : b.length = k := by
  induction n generalizing xs with
  | zero => cases hb
  | succ n ih =>
    rw [Nat.succ_mul] at h
    rcases List.mem_cons.1 hb with rfl | hb
    · rw [List.length_take]; omega
    · exact ih (by rw [List.length_drop]; omega) hb

theorem flatten_blocks {n k : Nat} {xs : List α} (h : xs.length = n * k) :
    (blocks n k xs).flatten = xs := by
  induction n generalizing xs with
  | zero =>
    rw [Nat.zero_mul] at h
    rw [List.length_eq_zero_iff.1 h]; rfl
  | succ n ih =>
    rw [Nat.succ_mul] at h
    rw [blocks, List.flatten_cons, ih (by rw [List.length_drop]; omega), List.take_append_drop]

theorem blocks_flatten {k : Nat} {bs : List (List α)} (h : ∀ b ∈ bs, b.length = k) :
    blocks bs.length k bs.flatten = bs := by
  induction bs with
  | nil => rfl
  | cons b bs ih =>
    have hb : b.length = k := h b (by simp)
    rw [List.length_cons, blocks, List.flatten_cons, List.take_left' hb, List.drop_left' hb,
      ih fun c hc => h c (by simp [hc])]

theorem blocks_append {p q k : Nat} {xs ys : List α} (hx : xs.length = p * k) (hy : ys.length = q * k) :
    blocks (p + q) k (xs ++ ys) = blocks p k xs ++ blocks q k ys := by
  have hlength : ∀ b ∈ blocks p k xs ++ blocks q k ys, b.length = k := fun b hb =>
    (List.mem_append.1 hb).elim (length_of_mem_blocks hx) (length_of_mem_blocks hy)
  have hblocks := blocks_flatten hlength
  rwa [List.length_append, length_blocks, length_blocks, List.flatten_append, flatten_blocks hx, flatten_blocks hy]
    at hblocks

theorem blocks_one (xs : List α) : blocks xs.length 1 xs = xs.map fun x => [x] := by
  have h : blocks (xs.map fun x => [x]).length 1 (xs.map fun x => [x]).flatten = xs.map fun x => [x] :=
    blocks_flatten (by simp)
  rwa [List.length_map, ← List.flatMap_def, List.flatMap_singleton'] at h

/-- The positions of blocks pick the blocks. -/
theorem pick_blockPositions {n k : Nat} {xs : List α} {is : List Nat} (h : ∀ i ∈ is, i < n) :
    pick (blockPositions k is) xs = (pick is (blocks n k xs)).flatten := by
  induction is with
  | nil => rfl
  | cons i is ih =>
    have hi : i < n := h i (by simp)
    unfold blockPositions at ih ⊢
    rw [List.flatMap_cons, pick_append, pick_cons, ih fun j hj => h j (by simp [hj]),
      pick_interval, getElem?_blocks hi]
    rfl

theorem blocks_pick {n k : Nat} {xs : List α} (hxs : xs.length = n * k) {is : List Nat}
    (h : ∀ i ∈ is, i < n) :
    blocks is.length k (pick (blockPositions k is) xs) = pick is (blocks n k xs) := by
  have hlength : (pick is (blocks n k xs)).length = is.length :=
    length_pick fun i hi => by rw [length_blocks]; exact h i hi
  rw [pick_blockPositions h, ← hlength]
  exact blocks_flatten fun b hb => length_of_mem_blocks hxs (mem_of_mem_pick hb)

/-! ## Transposition -/

/-- The positions that turn `r` rows of `c` elements into `c` rows of `r`. -/
def transposedPositions (r c : Nat) : List Nat :=
  (List.range c).flatMap fun j => (List.range r).map fun i => i * c + j

theorem lt_of_mem_transposedPositions {r c p : Nat} (h : p ∈ transposedPositions r c) :
    p < r * c := by
  obtain ⟨j, hj, h⟩ := List.mem_flatMap.1 h
  obtain ⟨i, hi, rfl⟩ := List.mem_map.1 h
  exact lt_of_row_column (List.mem_range.1 hi) (List.mem_range.1 hj)

theorem length_transposedPositions (r c : Nat) : (transposedPositions r c).length = r * c := by
  simp [transposedPositions, Nat.mul_comm]

/-- Entry `i` of column `j`. -/
theorem getElem?_transposedPositions {r c i j : Nat} (hi : i < r) (hj : j < c) :
    (transposedPositions r c)[j * r + i]? = some (i * c + j) := by
  rw [transposedPositions, getElem?_flatMap_of_length (fun _ => by simp) hi]
  simp [hi, hj]

theorem transposedPositions_one (n : Nat) : transposedPositions n 1 = List.range n := by
  simp [transposedPositions]

theorem transposedPositions_one_left (n : Nat) : transposedPositions 1 n = List.range n := by
  simp [transposedPositions]

/-- Of `a` by `b` by `c` elements, the first axis moved to the end and then the second. -/
theorem pick_transposedPositions (a b c : Nat) :
    pick (transposedPositions b (c * a)) (transposedPositions a (b * c)) =
      transposedPositions (a * b) c := by
  have hin : ∀ p ∈ transposedPositions b (c * a), p < (transposedPositions a (b * c)).length := by
    intro p hp
    have hlt := lt_of_mem_transposedPositions hp
    rw [length_transposedPositions]
    calc p < b * (c * a) := hlt
      _ = a * (b * c) := by ring
  refine List.ext_getElem? fun x => ?_
  by_cases hx : x < c * a * b
  · -- the place `x` is that of an index on the axes of length `c`, `a` and `b`
    have hb : 0 < b := Nat.pos_of_lt_mul_left hx
    obtain ⟨q, j, hj, rfl⟩ : ∃ q j, j < b ∧ x = q * b + j :=
      ⟨x / b, x % b, Nat.mod_lt _ hb, (Nat.div_add_mod' x b).symm⟩
    have hq : q < c * a := Nat.lt_of_mul_lt_mul_right (Nat.lt_of_le_of_lt (Nat.le_add_right _ j) hx)
    have ha : 0 < a := Nat.pos_of_lt_mul_left hq
    obtain ⟨k, i, hi, rfl⟩ : ∃ k i, i < a ∧ q = k * a + i :=
      ⟨q / a, q % a, Nat.mod_lt _ ha, (Nat.div_add_mod' q a).symm⟩
    have hk : k < c := Nat.lt_of_mul_lt_mul_right (Nat.lt_of_le_of_lt (Nat.le_add_right _ i) hq)
    have hcolumn : j * (c * a) + (k * a + i) = (j * c + k) * a + i := by ring
    have hrow : (k * a + i) * b + j = k * (a * b) + (i * b + j) := by ring
    rw [getElem?_pick hin, getElem?_transposedPositions hj hq, Option.bind_some, hcolumn,
      getElem?_transposedPositions hi (lt_of_row_column hj hk), hrow,
      getElem?_transposedPositions (lt_of_row_column hi hj) hk]
    exact congrArg some (by ring)
  · rw [List.getElem?_eq_none, List.getElem?_eq_none]
    · rw [length_transposedPositions, Nat.mul_comm (a * b), ← Nat.mul_assoc]
      omega
    · rw [length_pick hin, length_transposedPositions, Nat.mul_comm]
      omega

/-- Columns turned into rows and back. -/
theorem pick_transposedPositions_swap (r c : Nat) :
    pick (transposedPositions c r) (transposedPositions r c) = List.range (r * c) := by
  have h := pick_transposedPositions r c 1
  rwa [Nat.one_mul, Nat.mul_one, transposedPositions_one] at h

end Tacit
