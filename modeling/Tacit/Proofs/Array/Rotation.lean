/-
Rotations of the rows. A rotation has the rows of the array in the same cyclic order, so it is what the rows from
some place on make in front of those up to it; and rotations add up, as turns of a circle do: a count counts modulo
the number of rows, whichever way it turns and however often it goes round.
-/
import Tacit.Proofs.Array.Cut

namespace Tacit.Tensor

/-! ## Counts -/

theorem asInt_ofInt {n : Int} {t : Tensor} (h : ofInt n = .ok t) (name : String) : t.asInt name = .ok n := by
  obtain ⟨k, hk, h⟩ := Except.bind_ok h
  cases h
  unfold toInt32 at hk
  split at hk
  · rename_i hrange
    cases hk
    rw [asInt_int, toInt_ofInt_of_range hrange]
  · cases hk

variable {t count : Tensor} {name : String}

theorem rotate_eq {n : Int} (hn : count.asInt name = .ok n) (t : Tensor) : rotate count t = .ok (t.rotateBy n) :=
  Except.bind_of_ok (asInt_ok hn "rotate") rfl

theorem rotateBy_emod (t : Tensor) (n : Int) : t.rotateBy (n % t.rowCount) = t.rotateBy n := by
  obtain ⟨s, e⟩ := t
  cases s with
  | nil => rfl
  | cons k s =>
    have hcount : rowCount ⟨k :: s, e⟩ = k := rfl
    rw [hcount, rotateBy_eq, rotateBy_eq, Int.emod_emod]

/-- A place among the rows takes those before it, and leaves those from it on. -/
theorem take_and_drop (haxis : t.shape ≠ []) {k : Nat} (hk : count.asInt name = .ok (k : Int)) (hle : k ≤ t.rowCount) :
    take count t = .ok (t.slice 0 k) ∧ drop count t = .ok (t.slice k t.rowCount) := by
  constructor
  · have hrange : takeRange k t.rowCount = .ok (0, k) := by
      unfold takeRange
      rw [if_neg (by omega), if_pos (by omega)]
      rfl
    exact (Cut.onTensors_eq_ok_iff (c := .take) haxis).2 ⟨k, 0, k, asInt_ok hk _, hrange, rfl⟩
  · have hrange : dropRange k t.rowCount = (k, t.rowCount) := by
      unfold dropRange
      rw [if_pos (by omega), Int.natAbs_natCast, Nat.min_eq_left hle]
    exact (Cut.onTensors_eq_ok_iff (c := .drop) haxis).2 ⟨k, k, t.rowCount, asInt_ok hk _, congrArg Except.ok hrange, rfl⟩

/-! ## Rows in their cyclic order -/

section

variable {n : Nat} {s : Shape} {e : Elements Tensor} (h : Full ⟨n :: s, e⟩)

include h

theorem rows_rotateBy (m : Int) :
    (Tensor.rotateBy ⟨n :: s, e⟩ m).rows = (rows ⟨n :: s, e⟩).rotate (m % n).toNat := by
  have hlength : (rows ⟨n :: s, e⟩).length = n := length_rows _
  rw [rotateBy_eq, rows_chooseRows h fun i hi => lt_of_mem_rotate hi, pick_range_rotate hlength]

/-- The rows from a place on make the rotation to it with those before it. -/
theorem join_slices {k : Nat} (hk : k < n) :
    (Tensor.slice ⟨n :: s, e⟩ k n).join (Tensor.slice ⟨n :: s, e⟩ 0 k) = .ok (Tensor.rotateBy ⟨n :: s, e⟩ k) := by
  have hlength : (rows ⟨n :: s, e⟩).length = n := length_rows _
  have hplace : ((k : Int) % n).toNat = k := by
    rw [Int.emod_eq_of_lt (by omega) (by omega), Int.toNat_natCast]
  have hrest : ((rows ⟨n :: s, e⟩).drop k).take (n - k) = (rows ⟨n :: s, e⟩).drop k :=
    List.take_of_length_le (by rw [List.length_drop]; omega)
  have hfull := h.rotateBy k
  have hrows := rows_rotateBy h k
  rw [hplace, List.rotate_eq_drop_append_take (by omega)] at hrows
  rw [rotateBy_eq, chooseRows_eq fun i hi => lt_of_mem_rotate hi, List.length_rotate, List.length_range] at hfull hrows ⊢
  refine join_of_rows hfull (slice_rank _ _ _) (slice_rank _ _ _) ?_ (by omega)
  rw [hrows, rows_slice h le_rfl, rows_slice h hk.le, List.drop_zero, Nat.sub_zero, hrest]

end

/-- A rotation is what the rows from a place on make with those before it, the place being the remainder of the
count; and one rotation after another is the rotation by the sum of their counts. -/
theorem rotate_cyclic (ht : t.Full) (haxis : t.shape ≠ []) (hrows : 0 < t.rowCount) {count count' : Tensor} {n m : Int}
    (hn : count.asInt "rotate" = .ok n) (hm : count'.asInt "rotate" = .ok m) :
    ∃ r r', rotate count t = .ok r ∧ rotate count' r = .ok r' ∧
      (∀ cut, cut.asInt "drop" = .ok (n % t.rowCount) →
        ∃ back front, drop cut t = .ok back ∧ take cut t = .ok front ∧ back.join front = .ok r) ∧
      (∀ sum, sum.asInt "rotate" = .ok (m + n) → rotate sum t = .ok r') ∧
      (Int32.minValue.toInt ≤ m + n → m + n ≤ Int32.maxValue.toInt →
        ∃ sum, ofInt (m + n) = .ok sum ∧ rotate sum t = .ok r') := by
  have hadd {sum : Tensor} (hsum : sum.asInt "rotate" = .ok (m + n)) :
      rotate sum t = .ok ((t.rotateBy n).rotateBy m) := by
    rw [rotate_eq hsum, rotateBy_add ht, Int.add_comm]
  refine ⟨_, _, rotate_eq hn t, rotate_eq hm _, fun cut hcut => ?_, fun sum hsum => hadd hsum, fun hmin hmax => ?_⟩
  · have hnonneg := Int.emod_nonneg n (by omega : (t.rowCount : Int) ≠ 0)
    have hlt := Int.emod_lt_of_pos n (by omega : (0 : Int) < t.rowCount)
    obtain ⟨k, hk⟩ := Int.eq_ofNat_of_zero_le hnonneg
    rw [hk] at hcut hlt
    obtain ⟨htake, hdrop⟩ := take_and_drop haxis hcut (by omega)
    refine ⟨_, _, hdrop, htake, ?_⟩
    rw [← rotateBy_emod, hk]
    obtain ⟨rows, s, e, rfl⟩ := eq_cons_of_shape_ne haxis
    exact join_slices ht (Int.ofNat_lt.1 hlt)
  · have hsum : ofInt (m + n) = .ok (int (Int32.ofInt (m + n))) := Except.bind_of_ok (if_pos ⟨hmin, hmax⟩) rfl
    exact ⟨_, hsum, hadd (asInt_ofInt hsum "rotate")⟩

/-- Boxes turned to the right by more than their number, and to the left by an integral float. -/
theorem rotate_cyclic_boxes :
    let t := boxes [string [97], empty, int 5]
    let count := int (-7)
    let count' := ofNumbers [] (.floats [6])
    t.Full ∧ count.asInt "rotate" = .ok (-7) ∧ count'.asInt "rotate" = .ok 6 ∧
      ∃ r r', rotate count t = .ok r ∧ rotate count' r = .ok r' ∧
        (∃ back front, drop (int 2) t = .ok back ∧ take (int 2) t = .ok front ∧ back.join front = .ok r) ∧
        rotate (int (-1)) t = .ok r' := by
  intro t count count'
  have ht : t.Full := rfl
  have hn : count.asInt "rotate" = .ok (-7) := rfl
  have hm : count'.asInt "rotate" = .ok 6 := by decide +kernel
  obtain ⟨r, r', hr, hr', hcut, hsum, -⟩ := rotate_cyclic ht (List.cons_ne_nil _ _) (by decide) hn hm
  have hplace : (-7 : Int) % t.rowCount = 2 := by decide
  rw [hplace] at hcut
  exact ⟨ht, hn, hm, r, r', hr, hr', hcut (int 2) rfl, hsum (int (-1)) rfl⟩

end Tacit.Tensor
