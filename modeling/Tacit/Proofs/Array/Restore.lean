/-
Words put back. What a word sets aside takes its result back into the array that it was made from, and
an inverse word leads from the result to the array; both hold of full arrays and give full arrays.
-/
import Tacit.Proofs.Array.Rows
import Tacit.Proofs.Fault.Tame

namespace Tacit

/-! ## Rotation -/

namespace Tensor

theorem asInt_int (n : Int32) (name : String) : asInt (int n) name = .ok n.toInt := rfl

/-- The name is for the error only. -/
theorem asInt_ok {t : Tensor} {name : String} {n : Int} (h : t.asInt name = .ok n) (name' : String) :
    t.asInt name' = .ok n := by
  unfold asInt at h ⊢
  split at h
  · cases h
  · split at h
    · exact h
    · cases h

theorem toInt_ofInt_of_range {n : Int} (h : Int32.minValue.toInt ≤ n ∧ n ≤ Int32.maxValue.toInt) :
    (Int32.ofInt n).toInt = n := by
  have hmin : Int32.minValue.toInt = -2147483648 := by decide
  have hmax : Int32.maxValue.toInt = 2147483647 := by decide
  have hsize : ((Int32.size : Nat) : Int) = 4294967296 := by decide
  rw [hmin, hmax] at h
  rw [Int32.toInt_ofInt]
  exact Int.bmod_eq_of_le (by omega) (by omega)

/-- The opposite of every 32-bit number but the least is a 32-bit number. -/
theorem neg_toInt_range {n : Int32} (h : n ≠ Int32.minValue) :
    Int32.minValue.toInt ≤ -n.toInt ∧ -n.toInt ≤ Int32.maxValue.toInt := by
  have hne : n.toInt ≠ Int32.minValue.toInt := fun heq => h (Int32.toInt_inj.1 heq)
  have hmin : Int32.minValue.toInt = -2147483648 := by decide
  have hmax : Int32.maxValue.toInt = 2147483647 := by decide
  have hlo := n.le_toInt
  have hhi := n.toInt_lt
  omega

theorem rotate_int (n : Int32) (t : Tensor) : rotate (int n) t = .ok (t.rotateBy n.toInt) := rfl

/-- Turned back by the opposite of the count, which must be a 32-bit number. -/
theorem unrotate_eq {count : Tensor} {name : String} {n : Int} (hn : count.asInt name = .ok n) (t : Tensor) :
    unrotate count t = if Int32.minValue.toInt ≤ -n ∧ -n ≤ Int32.maxValue.toInt then .ok (t.rotateBy (-n))
      else .error (.substrate .integerRange) := by
  unfold unrotate ofInt toInt32
  rw [asInt_ok hn, Except.ok_bind]
  split
  · rename_i hrange
    change rotate (int (Int32.ofInt (-n))) t = _
    rw [rotate_int, toInt_ofInt_of_range hrange]
  · rfl

theorem unrotate_int {n : Int32} (h : n ≠ Int32.minValue) (t : Tensor) :
    unrotate (int n) t = .ok (t.rotateBy (-n.toInt)) := by
  rw [unrotate_eq (asInt_int n "unrotate"), if_pos (neg_toInt_range h)]

/-- A rotation by any count is turned back where the count has an opposite among the 32-bit numbers, and
fails to be where it has none; what is turned back first is restored by the rotation. -/
theorem rotate_and_back {t : Tensor} (ht : t.Full) (count : Tensor) :
    (∀ r, rotate count t = .ok r → ∃ n, count.asInt "rotate" = .ok n ∧ unrotate count r =
      if Int32.minValue.toInt ≤ -n ∧ -n ≤ Int32.maxValue.toInt then .ok t
      else .error (.substrate .integerRange)) ∧
    ∀ r, unrotate count t = .ok r → rotate count r = .ok t := by
  constructor
  · intro r hr
    obtain ⟨n, hn, hr⟩ := Except.bind_ok hr
    cases hr
    refine ⟨n, hn, ?_⟩
    rw [unrotate_eq hn, rotateBy_rotateBy ht rfl]
  · intro r hr
    obtain ⟨n, hn, -⟩ := Except.bind_ok hr
    rw [unrotate_eq hn] at hr
    split at hr
    · cases hr
      have hback : (t.rotateBy (-n)).rotateBy n = t := rotateBy_rotateBy ht (Int.neg_neg n).symm
      refine Except.bind_of_ok (asInt_ok hn "rotate") ?_
      rw [hback]
      rfl
    · cases hr

/-- Three rows turned by more than their number, either way first. -/
theorem rotate_and_back_rows :
    let t := ofInts [3] [1, 2, 3]
    unrotate (int (-7)) (ofInts [3] [3, 1, 2]) = .ok t ∧ rotate (int (-7)) (ofInts [3] [2, 3, 1]) = .ok t := by
  have hfull : (ofInts [3] [1, 2, 3]).Full := rfl
  obtain ⟨hback, hforth⟩ := rotate_and_back hfull (int (-7))
  obtain ⟨n, hn, hn'⟩ := hback _ rfl
  cases hn
  exact ⟨hn', hforth _ rfl⟩

/-- The least count turns an array in one direction only. -/
theorem unrotate_minValue :
    rotate (int Int32.minValue) (ofInts [3] [1, 2, 3]) = .ok (ofInts [3] [2, 3, 1]) ∧
      unrotate (int Int32.minValue) (ofInts [3] [2, 3, 1]) = .error (.substrate .integerRange) :=
  ⟨rfl, rfl⟩

theorem unrotate_rotate {n : Int32} (h : n ≠ Int32.minValue) {t r : Tensor} (ht : t.Full)
    (hr : rotate (int n) t = .ok r) : unrotate (int n) r = .ok t ∧ r.Full := by
  rw [rotate_int] at hr
  cases hr
  rw [unrotate_int h, rotateBy_rotateBy ht rfl]
  exact ⟨rfl, ht.rotateBy _⟩

theorem rotate_unrotate {n : Int32} (h : n ≠ Int32.minValue) {t r : Tensor} (ht : t.Full)
    (hr : unrotate (int n) t = .ok r) : rotate (int n) r = .ok t ∧ r.Full := by
  rw [unrotate_int h] at hr
  cases hr
  rw [rotate_int, rotateBy_rotateBy ht (by omega)]
  exact ⟨rfl, ht.rotateBy _⟩

theorem eq_cons_of_shape_ne {t : Tensor} (h : t.shape ≠ []) : ∃ n s e, t = ⟨n :: s, e⟩ := by
  obtain ⟨s, e⟩ := t
  cases s with
  | nil => exact absurd rfl h
  | cons n s => exact ⟨n, s, e, rfl⟩

theorem Full.box (t : Tensor) : t.box.Full := rfl

theorem unfix_ok {s s' : Shape} (h : s.unfix = .ok s') : s = 1 :: s' := by
  unfold Shape.unfix at h
  split at h <;> cases h
  rfl

end Tensor

/-! ## Inverse words -/

/-- Words of one argument that lose nothing, each with the one that undoes it. -/
inductive Unary.UndoneBy : Unary → Unary → Prop
  | identity : UndoneBy .identity .identity
  | reverse : UndoneBy .reverse .reverse
  | transpose : UndoneBy .transpose .untranspose
  | untranspose : UndoneBy .untranspose .transpose
  | fix : UndoneBy .fix .unfix
  | unfix : UndoneBy .unfix .fix
  | box : UndoneBy .box .unbox

theorem Unary.UndoneBy.onTensor {u v : Unary} (h : u.UndoneBy v) {t r : Tensor} (ht : t.Full)
    (hr : u.onTensor t = .ok r) : v.onTensor r = .ok t ∧ r.Full := by
  cases h with
  | identity => cases hr; exact ⟨rfl, ht⟩
  | reverse => cases hr; exact ⟨congrArg Except.ok (Tensor.reverse_reverse ht), ht.reverse⟩
  | transpose =>
    cases hr
    exact ⟨congrArg Except.ok (Tensor.untranspose_transpose ht), ht.transpose⟩
  | untranspose =>
    cases hr
    exact ⟨congrArg Except.ok (Tensor.transpose_untranspose ht), ht.untranspose⟩
  | fix =>
    obtain ⟨rfl, -, hfull⟩ := ht.reshape hr
    exact ⟨Tensor.reshape_reshape hr, hfull⟩
  | unfix =>
    obtain ⟨s, hs, hr⟩ := Except.bind_ok hr
    obtain ⟨rfl, -, hfull⟩ := ht.reshape hr
    have hback := Tensor.reshape_reshape hr
    rw [Tensor.unfix_ok hs] at hback
    exact ⟨hback, hfull⟩
  | box => cases hr; exact ⟨rfl, .box t⟩

/-! ## Cuts -/

/-- A count that takes gives a slice from an end. -/
theorem Tensor.takeRange_ok {count : Int} {n start stop : Nat}
    (h : takeRange count n = .ok (start, stop)) :
    start ≤ n ∧ stop ≤ n ∧ (start = 0 ∨ stop = n) := by
  unfold takeRange at h
  split at h
  · cases h
  · split at h <;> cases h <;> omega

theorem Tensor.dropRange_bounds (count : Int) (n : Nat) :
    (dropRange count n).1 ≤ n ∧ (dropRange count n).2 ≤ n ∧
      ((dropRange count n).1 = 0 ∨ (dropRange count n).2 = n) := by
  unfold dropRange
  split <;> dsimp only <;> omega

theorem restore_take {front : Bool} {rest r t : Tensor}
    (h : (if front then r.join rest else rest.join r) = .ok t) :
    Keeper.restore (.binary .take) (.part front rest) (.tensor r) = .ok (.tensor t) := by
  cases front <;> exact Except.bind_of_ok rfl (Except.bind_of_ok h rfl)

/-- The rows left out by dropping lie at the other end. -/
theorem restore_drop (front : Bool) (rest r : Tensor) :
    Keeper.restore (.binary .drop) (.part front rest) (.tensor r) =
      Keeper.restore (.binary .take) (.part (!front) rest) (.tensor r) := by
  cases front <;> rfl

/-- A slice from an end and the rows that it leaves out, joined on the side where they were. -/
theorem Tensor.join_leftOut {n start stop : Nat} {s : Shape} {e : Elements Tensor} (h : Full ⟨n :: s, e⟩)
    (hstart : start ≤ n) (hstop : stop ≤ n) : ∀ front : Bool, (front = true → start = 0) →
    (front = false → stop = n) →
    (if front then (slice ⟨n :: s, e⟩ start stop).join (leftOut ⟨n :: s, e⟩ front start stop)
      else (leftOut ⟨n :: s, e⟩ front start stop).join (slice ⟨n :: s, e⟩ start stop)) = .ok ⟨n :: s, e⟩
  | true, hfront, _ => by
    rw [hfront rfl]
    exact join_slice h hstop
  | false, _, hback => by
    rw [hback rfl]
    exact join_slice h hstart

/-- The words that keep the rows at one end. -/
inductive Cut where
  | take
  | drop

namespace Cut

def binary : Cut → Binary
  | take => .take
  | drop => .drop

def keeper : Cut → BinaryKeeper
  | take => .take
  | drop => .drop

def name (c : Cut) : String := c.binary.name

/-- The rows that a count keeps of as many as given: from the first number up to the second. -/
def range : Cut → Int → Nat → Except Fault (Nat × Nat)
  | take, n, rows => Tensor.takeRange n rows
  | drop, n, rows => pure (Tensor.dropRange n rows)

variable {c : Cut} {count t r : Tensor} {saved : Saved} {n : Int} {rows start stop : Nat}

/-- The rows kept lie together at one end. -/
theorem range_bounds (h : c.range n rows = .ok (start, stop)) :
    start ≤ stop ∧ stop ≤ rows ∧ (start = 0 ∨ stop = rows) := by
  cases c with
  | take =>
    have hbounds := Tensor.takeRange_ok h
    omega
  | drop =>
    have hbounds := Tensor.dropRange_bounds n rows
    rw [Except.ok.inj h] at hbounds
    omega

/-- A cut sets aside the rows at the other end, and joins them on there again. -/
theorem exists_stash (haxis : t.shape ≠ []) (hn : count.asInt c.name = .ok n)
    (hrange : c.range n t.rowCount = .ok (start, stop)) : ∃ saved front,
      (front = true → start = 0) ∧ (front = false → stop = t.rowCount) ∧
      c.keeper.stash (.tensor count) (.tensor t) = .ok (saved, t.slice start stop) ∧
      ∀ w r, (if front then w.join (t.leftOut front start stop) else (t.leftOut front start stop).join w) = .ok r →
        Keeper.restore (.binary c.keeper) saved (.tensor w) = .ok (.tensor r) := by
  obtain ⟨hle, hstop, hends⟩ := range_bounds hrange
  obtain ⟨k, s, e, rfl⟩ := Tensor.eq_cons_of_shape_ne haxis
  change stop ≤ k at hstop
  change start = 0 ∨ stop = k at hends
  cases c with
  | take =>
    let front := start == 0
    refine ⟨.part front (Tensor.leftOut ⟨k :: s, e⟩ front start stop), front, by simp [front],
      fun hback => hends.resolve_left (by simpa [front] using hback), ?_, fun w r h => restore_take h⟩
    exact Except.bind_of_ok rfl (Except.bind_of_ok rfl (Except.bind_of_ok hn (Except.bind_of_ok hrange rfl)))
  | drop =>
    -- what is left out lies in front if anything was dropped there, or if nothing was dropped at all
    let dropped := decide (0 < start) || stop == k
    refine ⟨.part dropped (Tensor.leftOut ⟨k :: s, e⟩ (!dropped) start stop), !dropped, ?_, ?_, ?_, fun w r h => ?_⟩
    · simp only [dropped, Bool.not_eq_true', Bool.or_eq_false_iff, decide_eq_false_iff_not]
      omega
    · simp only [dropped, Bool.not_eq_false', Bool.or_eq_true, decide_eq_true_eq, beq_iff_eq]
      change _ → stop = k
      omega
    · have hdrop : Tensor.dropRange n k = (start, stop) := Except.ok.inj hrange
      have hstart : (Tensor.dropRange n k).1 = start := congrArg Prod.fst hdrop
      have hend : (Tensor.dropRange n k).2 = stop := congrArg Prod.snd hdrop
      subst hstart hend
      exact Except.bind_of_ok rfl (Except.bind_of_ok rfl (Except.bind_of_ok hn rfl))
    · exact (restore_drop dropped _ w).trans (restore_take h)

theorem of_stash (haxis : t.shape ≠ []) (hs : c.keeper.stash (.tensor count) (.tensor t) = .ok (saved, r)) :
    ∃ n start stop, count.asInt c.name = .ok n ∧ c.range n t.rowCount = .ok (start, stop) := by
  obtain ⟨k, s, e, rfl⟩ := Tensor.eq_cons_of_shape_ne haxis
  cases c with
  | take =>
    obtain ⟨_, hu, hs⟩ := Except.bind_ok hs
    cases hu
    obtain ⟨_, hu, hs⟩ := Except.bind_ok hs
    cases hu
    obtain ⟨n, hn, hs⟩ := Except.bind_ok hs
    obtain ⟨⟨start, stop⟩, hrange, -⟩ := Except.bind_ok hs
    exact ⟨n, start, stop, hn, hrange⟩
  | drop =>
    obtain ⟨_, hu, hs⟩ := Except.bind_ok hs
    cases hu
    obtain ⟨_, hu, hs⟩ := Except.bind_ok hs
    cases hu
    obtain ⟨n, hn, -⟩ := Except.bind_ok hs
    exact ⟨n, _, _, hn, rfl⟩

theorem restore_stash (ht : t.Full) (haxis : t.shape ≠ [])
    (hs : c.keeper.stash (.tensor count) (.tensor t) = .ok (saved, r)) :
    Keeper.restore (.binary c.keeper) saved (.tensor r) = .ok (.tensor t) ∧ r.Full := by
  obtain ⟨n, start, stop, hn, hrange⟩ := of_stash haxis hs
  obtain ⟨hle, hstop, -⟩ := range_bounds hrange
  obtain ⟨saved', front, hzero, hlast, hstash, hrestore⟩ := exists_stash haxis hn hrange
  obtain ⟨k, s, e, rfl⟩ := Tensor.eq_cons_of_shape_ne haxis
  cases hstash.symm.trans hs
  exact ⟨hrestore _ _ (Tensor.join_leftOut ht (hle.trans hstop) hstop front hzero hlast), ht.slice hstop⟩

end Cut

/-! ## Words that set something aside -/

theorem UnaryKeeper.restore_stash {k : UnaryKeeper} {t r : Tensor} {saved : Saved} (ht : t.Full)
    (hs : k.stash (.tensor t) = .ok (saved, r)) :
    Keeper.restore (.unary k) saved (.tensor r) = .ok (.tensor t) ∧ r.Full := by
  cases k with
  | deshape =>
    obtain ⟨u, hu, hs⟩ := Except.bind_ok hs
    cases hu
    obtain ⟨r', hr, hs⟩ := Except.bind_ok hs
    cases hs
    obtain ⟨-, -, hfull⟩ := ht.reshape hr
    exact ⟨Except.bind_of_ok rfl (Except.bind_of_ok (Tensor.reshape_reshape hr) rfl), hfull⟩
  | first =>
    obtain ⟨u, hu, hs⟩ := Except.bind_ok hs
    cases hu
    obtain ⟨r', hr, hs⟩ := Except.bind_ok hs
    cases hs
    exact ⟨Except.bind_of_ok (Tensor.replaceRow_row ht hr) rfl, ht.row hr⟩

theorem BinaryKeeper.restore_stash {k : BinaryKeeper} {top t r : Tensor} {saved : Saved} (ht : t.Full)
    (hscalar : k = .take ∨ k = .drop → t.shape ≠ [])
    (hs : k.stash (.tensor top) (.tensor t) = .ok (saved, r)) :
    Keeper.restore (.binary k) saved (.tensor r) = .ok (.tensor t) ∧ r.Full := by
  cases k with
  | reshape =>
    obtain ⟨u, hu, hs⟩ := Except.bind_ok hs
    cases hu
    obtain ⟨s, -, hs⟩ := Except.bind_ok hs
    obtain ⟨r', hr, hs⟩ := Except.bind_ok hs
    cases hs
    obtain ⟨-, -, hfull⟩ := ht.reshape hr
    exact ⟨Except.bind_of_ok rfl (Except.bind_of_ok (Tensor.reshape_reshape hr) rfl), hfull⟩
  | indexAt =>
    obtain ⟨u, hu, hs⟩ := Except.bind_ok hs
    cases hu
    obtain ⟨i, -, hs⟩ := Except.bind_ok hs
    obtain ⟨u, hu, hs⟩ := Except.bind_ok hs
    cases hu
    obtain ⟨r', hr, hs⟩ := Except.bind_ok hs
    cases hs
    exact ⟨Except.bind_of_ok (Tensor.replaceRow_row ht hr) rfl, ht.row hr⟩
  | take => exact Cut.restore_stash (c := .take) ht (hscalar (.inl rfl)) hs
  | drop => exact Cut.restore_stash (c := .drop) ht (hscalar (.inr rfl)) hs

/-- The first half gives what the word gives. -/
theorem UnaryKeeper.stash_ok {k : UnaryKeeper} {u : Unary} (hu : (Keeper.unary k).word = .unary u)
    {t r : Tensor} (hr : u.onTensor t = .ok r) : ∃ saved, k.stash (.tensor t) = .ok (saved, r) := by
  cases k <;> cases hu
  · exact ⟨_, Except.bind_of_ok rfl (Except.bind_of_ok hr rfl)⟩
  · exact ⟨_, Except.bind_of_ok rfl (Except.bind_of_ok hr rfl)⟩

theorem BinaryKeeper.stash_ok {k : BinaryKeeper} {b : Binary} (hb : (Keeper.binary k).word = .binary b)
    {top t r : Tensor} (hr : b.onTensors top t = .ok r) :
    ∃ saved, k.stash (.tensor top) (.tensor t) = .ok (saved, r) := by
  cases k <;> cases hb
  · obtain ⟨s, hs, hr⟩ := Except.bind_ok hr
    exact ⟨_, Except.bind_of_ok rfl (Except.bind_of_ok hs (Except.bind_of_ok hr rfl))⟩
  · obtain ⟨i, hi, hr⟩ := Except.bind_ok hr
    exact ⟨_, Except.bind_of_ok rfl (Except.bind_of_ok hi (Except.bind_of_ok rfl
      (Except.bind_of_ok hr rfl)))⟩
  · obtain ⟨i, hi, hr⟩ := Except.bind_ok hr
    obtain ⟨range, hrange, hr⟩ := Except.bind_ok hr
    cases hr
    exact ⟨_, Except.bind_of_ok rfl (Except.bind_of_ok rfl (Except.bind_of_ok hi
      (Except.bind_of_ok hrange rfl)))⟩
  · obtain ⟨i, hi, hr⟩ := Except.bind_ok hr
    cases hr
    exact ⟨_, Except.bind_of_ok rfl (Except.bind_of_ok rfl (Except.bind_of_ok hi rfl))⟩

end Tacit
