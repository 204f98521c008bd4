/-
Rows replaced. An array with another row in place of one of its own has that row there, its numbers moved to
the type of the numbers around them, and every other row as it was; where that type holds the new numbers
nothing of them is lost.
-/
import Tacit.Proofs.Array.Results
import Tacit.Proofs.Number.Equal

namespace Tacit

/-! ## Stored elements -/

namespace Elements

variable {α : Type}

/-- New elements as they are stored among others: numbers take the type of the numbers there. -/
def storedIn : Elements α → Elements α → Elements α
  | numbers ys, numbers xs => numbers (ys.convert xs.type)
  | e, _ => e

/-- Elements of one kind, the new ones of a type that goes into the type of those there. -/
def Holds : Elements α → Elements α → Prop
  | numbers xs, numbers ys => xs.type.join ys.type = xs.type
  | characters _, characters _ => True
  | _, _ => False

end Elements

namespace Tensor

/-- A new row as an array stores it. -/
def storedIn (v t : Tensor) : Tensor := ⟨v.shape, v.elements.storedIn t.elements⟩

/-- The number of the row that an index names, from the end if the index is negative. -/
def place (t : Tensor) (i : Int) : Int := if i < 0 then i + t.rowCount else i

/-- A row that equals itself equals what is stored of it where the array holds its type. -/
theorem same_storedIn {t v : Tensor} (h : t.elements.Holds v.elements) (hv : v.same v = true) :
    (v.storedIn t).same v = true := by
  obtain ⟨s, e⟩ := v
  obtain ⟨s', e'⟩ := t
  cases e with
  | numbers ys =>
    cases e' with
    | numbers xs =>
      obtain ⟨hshape, hys⟩ := Bool.and_eq_true_iff.1 hv
      exact Bool.and_eq_true_iff.2 ⟨hshape, Numbers.same_convert h hys⟩
    | characters | boxes => exact h.elim
  | characters cs => exact hv
  | boxes => cases e' <;> exact h.elim

/-! ## Blocks -/

theorem blocks_replaceBlock {α : Type} {new : List α} {k : Nat} (hnew : new.length = k) :
    ∀ {n i : Nat} {xs : List α}, i < n → xs.length = n * k →
      blocks n k (replaceBlock xs i k new) = (blocks n k xs).set i new
  | n + 1, 0, xs, _, _ => by
    have hblock : replaceBlock xs 0 k new = new ++ xs.drop k := by
      simp [replaceBlock]
    rw [hblock, blocks, blocks, List.take_left' hnew, List.drop_left' hnew]
    rfl
  | n + 1, i + 1, xs, hi, hx => by
    rw [Nat.succ_mul] at hx
    have hblock : k ≤ (xs.take ((i + 1) * k)).length := by
      have hle : i * k ≤ n * k := Nat.mul_le_mul_right k (by omega)
      rw [List.length_take, Nat.succ_mul]
      omega
    have hfirst : (replaceBlock xs (i + 1) k new).take k = xs.take k := by
      unfold replaceBlock
      rw [List.append_assoc, List.take_append_of_le_length hblock, List.take_take, Nat.succ_mul,
        Nat.min_eq_left (Nat.le_add_left k (i * k))]
    have hrest : (replaceBlock xs (i + 1) k new).drop k = replaceBlock (xs.drop k) i k new := by
      have hend : (i + 1 + 1) * k = k + (i + 1) * k := by rw [Nat.succ_mul (i + 1), Nat.add_comm]
      unfold replaceBlock
      rw [List.append_assoc, List.drop_append_of_le_length hblock, List.drop_take, hend, ← List.drop_drop,
        Nat.succ_mul i, Nat.add_sub_cancel, List.append_assoc]
    rw [blocks, blocks, hfirst, hrest, blocks_replaceBlock hnew (by omega) (by rw [List.length_drop]; omega)]
    rfl

theorem blocks_replaceNumbers {xs ys : Numbers} {n k i : Nat} (hi : i < n) (hx : xs.length = n * k)
    (hy : ys.length = k) : (Elements.numbers (replaceNumbers xs i k ys) : Elements Tensor).blocks n k =
      ((Elements.numbers xs).blocks n k).set i (.numbers (ys.convert xs.type)) := by
  have hblocks {β : Type} {bs new : List β} (hb : bs.length = n * k) (hnew : new.length = ys.length) :
      blocks n k (replaceBlock bs i k new) = (blocks n k bs).set i new :=
    blocks_replaceBlock (hnew.trans hy) hi hb
  cases xs with
  | bools bs => exact (congrArg _ (hblocks hx (Numbers.length_asBools ys))).trans (List.map_set ..)
  | ints ns => exact (congrArg _ (hblocks hx (Numbers.length_asInts ys))).trans (List.map_set ..)
  | floats fs => exact (congrArg _ (hblocks hx (length_asFloats ys))).trans (List.map_set ..)

/-! ## Rows by their places -/

theorem row_eq_place (t : Tensor) (i : Int) : t.row i =
    if t.place i < 0 then .error (.domain (.index i t.rowCount))
    else
      match t.rows[(t.place i).toNat]? with
      | some r => .ok r
      | none => .error (.domain (.index i t.rowCount)) := rfl

theorem row_of_place {t r : Tensor} {i : Int} {p : Nat} (hi : t.place i = p) (hr : t.rows[p]? = some r) :
    t.row i = .ok r := by
  rw [row_eq_place, hi, if_neg (by omega), Int.toNat_natCast, hr]

/-- An index within the number of rows, from either end, names one of them. -/
theorem place_lt {t : Tensor} {i : Int} (hmin : -t.rowCount ≤ i) (hmax : i < t.rowCount) :
    ∃ p : Nat, t.place i = p ∧ p < t.rowCount := by
  have hplace : 0 ≤ t.place i ∧ t.place i < t.rowCount := by
    unfold place
    split <;> omega
  obtain ⟨p, hp⟩ := Int.eq_ofNat_of_zero_le hplace.1
  exact ⟨p, hp, by omega⟩

theorem exists_row {t : Tensor} (haxis : t.shape ≠ []) {i : Int} (hmin : -t.rowCount ≤ i) (hmax : i < t.rowCount) :
    ∃ r, t.row i = .ok r ∧ r.shape = t.shape.row := by
  obtain ⟨p, hp, hlt⟩ := place_lt hmin hmax
  rw [← length_rows] at hlt
  obtain ⟨n, s, e, rfl⟩ := eq_cons_of_shape_ne haxis
  exact ⟨_, row_of_place hp (List.getElem?_eq_getElem hlt), (of_mem_rows (List.getElem_mem hlt)).2⟩

theorem size_row_le {s : Shape} (hrows : 0 < s.rowCount) : s.row.size ≤ s.size := by
  cases s with
  | nil => exact le_rfl
  | cons n s => exact Nat.le_mul_of_pos_left (Shape.size s) hrows

/-! ## Replaced rows -/

/-- The array with a new row has the rows of the array but for that one. -/
theorem rows_replaceRow {n p : Nat} {s : Shape} {e : Elements Tensor} {v : Tensor} {i : Int}
    (ht : Full ⟨n :: s, e⟩) (hv : v.Full) (hbox : e.kind ≠ .box) (hkind : v.kind = e.kind)
    (hshape : v.shape = s) (hp : p < n) (hi : place ⟨n :: s, e⟩ i = p) :
    ∃ e', replaceRow ⟨n :: s, e⟩ i v = .ok ⟨n :: s, e'⟩ ∧ e'.kind = e.kind ∧
      rows ⟨n :: s, e'⟩ = (rows ⟨n :: s, e⟩).set p (v.storedIn ⟨n :: s, e⟩) := by
  obtain ⟨s', ev⟩ := v
  obtain rfl : s' = s := hshape
  have hcount : (rowCount ⟨n :: s', e⟩ : Int) = n := rfl
  obtain ⟨old, hold, rfl⟩ : ∃ old, Tensor.row ⟨n :: s', e⟩ (p : Int) = .ok old ∧ old.shape = s' :=
    exists_row (List.cons_ne_nil n s') (by omega) (by omega)
  have hi' : (if i < 0 then i + (n : Int) else i) = p := hi
  unfold replaceRow
  dsimp only
  rw [hi', hold]
  cases e with
  | boxes => exact absurd rfl hbox
  | characters cs =>
    cases ev with
    | numbers | boxes => cases hkind
    | characters ds =>
      have hblocks : blocks n old.shape.size (replaceBlock cs p old.shape.size ds) =
          (blocks n old.shape.size cs).set p ds := blocks_replaceBlock hv hp ht
      refine ⟨.characters (replaceBlock cs p old.shape.size ds), if_pos rfl, rfl, ?_⟩
      unfold rows
      dsimp only [Elements.blocks]
      rw [hblocks, List.map_set, List.map_set]
      rfl
  | numbers xs =>
    cases ev with
    | characters | boxes => cases hkind
    | numbers ys =>
      have hxs : xs.length = n * old.shape.size := ht
      have hys : ys.length = old.shape.size := hv
      refine ⟨.numbers (replaceNumbers xs p old.shape.size ys), if_pos rfl, rfl, ?_⟩
      unfold rows
      dsimp only
      rw [blocks_replaceNumbers hp hxs hys, List.map_set]
      rfl

/-- In place of any row goes one of the same kind and shape; it is there then as it is stored, and so are all
other rows as they were. -/
theorem row_replaceRow {t v : Tensor} (ht : t.Full) (hv : v.Full) (haxis : t.shape ≠ []) (hbox : t.kind ≠ .box)
    (hkind : v.kind = t.kind) (hshape : v.shape = t.shape.row) {i : Int} (hmin : -t.rowCount ≤ i)
    (hmax : i < t.rowCount) : ∃ r, t.replaceRow i v = .ok r ∧ r.kind = t.kind ∧ r.shape = t.shape ∧
      r.row i = .ok (v.storedIn t) ∧ ∀ j, t.place j ≠ t.place i → r.row j = t.row j := by
  obtain ⟨n, s, e, rfl⟩ := eq_cons_of_shape_ne haxis
  obtain ⟨p, hp, hlt⟩ := place_lt hmin hmax
  obtain ⟨e', hr, hkind', hrows⟩ := rows_replaceRow ht hv hbox hkind hshape hlt hp
  refine ⟨_, hr, hkind', rfl, row_of_place (p := p) hp ?_, fun j hj => ?_⟩
  · rw [hrows, List.getElem?_set_self]
    rw [length_rows]
    exact hlt
  · have hplace : place ⟨n :: s, e'⟩ j = place ⟨n :: s, e⟩ j := rfl
    rw [row_eq_place, row_eq_place, hplace, hrows]
    split
    · rfl
    · have hne : p ≠ (place ⟨n :: s, e⟩ j).toNat := by omega
      rw [List.getElem?_set_ne hne]
      rfl

end Tensor

end Tacit
