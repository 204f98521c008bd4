/-
Floats that stand for integers. The mantissa and the exponent of such a float are those that its integer is rounded
to, so an integer that floats hold equals no float but its own; and two integers that are turned into the same
float are the same, or have more than twenty-four digits both.
-/
import Tacit.Proofs.Number.Rounding

namespace Tacit.Binary32

open Float.Model (Format UnpackedFloat)
open Float.Model.UnpackedFloat
open Binary (Equal)

/-! ## Floats that stand for integers -/

/-- A mantissa has no more than twenty-four digits, and above the least exponent no fewer. -/
theorem mantissa_of_unpack {b : BitVec 32} {s : Sign} {m : Nat} {e : Int} {hm : 0 < m}
    (h : unpack .binary32 b = .finite s m e hm) : m < 2 ^ 24 ∧ (-149 < e → Normal m) := by
  unfold unpack at h
  dsimp only at h
  have hlt : (@unpackMantissa .binary32 b).toNat < 2 ^ 23 := BitVec.isLt _
  by_cases hspecial : @unpackExponent .binary32 b = -1#_
  · rw [if_pos hspecial] at h
    by_cases hinfinity : @unpackMantissa .binary32 b = 0#_
    · rw [if_pos hinfinity] at h
      cases h
    · rw [if_neg hinfinity] at h
      cases h
  rw [if_neg hspecial] at h
  by_cases hleast : @unpackExponent .binary32 b = 0#_
  · rw [if_pos hleast] at h
    by_cases hzero : @unpackMantissa .binary32 b = 0#_
    · rw [dif_pos hzero] at h
      cases h
    · rw [dif_neg hzero] at h
      injection h with _ hmantissa hexponent
      rw [hleast] at hexponent
      change (0 : Int) - (127 + 23) + 1 = e at hexponent
      exact ⟨by omega, fun _ => by omega⟩
  · rw [if_neg hleast] at h
    injection h with _ hmantissa
    have hnormal : Normal m := by
      rw [← hmantissa, BitVec.toNat_append, ← Nat.shiftLeft_add_eq_or_of_lt (BitVec.isLt _), Nat.shiftLeft_eq]
      change 2 ^ 23 ≤ 1 * 2 ^ 23 + _ ∧ 1 * 2 ^ 23 + _ < 2 ^ 24
      omega
    exact ⟨hnormal.2, fun _ => hnormal⟩

/-- A value is an integer where its digits after the point are zeros. -/
theorem toInt?_finite {s : Sign} {m : Nat} {e : Int} {hm : 0 < m} {n : Int}
    (h : Binary.toInt? (.finite s m e hm) = some n) :
    n * 2 ^ (-e).toNat = Binary.signed s m * 2 ^ e.toNat := by
  unfold Binary.toInt? at h
  obtain ⟨hwhole, h⟩ := Option.ite_none_right_eq_some.1 h
  have hfloor : Binary.scaled Int.fdiv (Binary.signed s m) e = n := Option.some.inj h
  have hceiling : Binary.scaled (fun a b => -Int.fdiv (-a) b) (Binary.signed s m) e = n :=
    Option.some.inj (hwhole.symm.trans h)
  unfold Binary.scaled at hfloor hceiling
  by_cases he : 0 ≤ e
  · rw [if_pos he] at hfloor
    rw [show (-e).toNat = 0 by omega, pow_zero, mul_one]
    exact hfloor.symm
  · rw [if_neg he] at hfloor hceiling
    rw [show e.toNat = 0 by omega, pow_zero, mul_one]
    generalize Binary.signed s m = a at *
    have hpow : (0 : Int) < 2 ^ (-e).toNat := by positivity
    have hle := Int.ediv_mul_le a hpow.ne'
    have hge := Int.ediv_mul_le (-a) hpow.ne'
    change Int.fdiv a (2 ^ (-e).toNat) = n at hfloor
    change -Int.fdiv (-a) (2 ^ (-e).toNat) = n at hceiling
    rw [Int.fdiv_eq_ediv_of_nonneg _ hpow.le] at hfloor hceiling
    rw [hfloor] at hle
    rw [neg_eq_iff_eq_neg.1 hceiling] at hge
    linarith

namespace Nearest

variable {n k m m' : Nat} {e e' : Int}

/-- An integer that a float holds has one mantissa and one exponent. -/
theorem unique (h : Nearest n m e) (h' : Nearest n m' e') (hn : Holds n) : m = m' ∧ e = e' := by
  obtain ⟨hm, he⟩ := h.exact hn
  obtain ⟨hm', he'⟩ := h'.exact hn
  exact ⟨Nat.eq_of_mul_eq_mul_right (Nat.two_pow_pos _) (hm.trans hm'.symm), he.trans he'.symm⟩

/-- Two integers that floats hold are held by different ones. -/
theorem injective (h : Nearest n m e) (h' : Nearest k m e) (hn : Holds n) (hk : Holds k) : n = k := by
  obtain ⟨hm, he⟩ := h.exact hn
  obtain ⟨hm', he'⟩ := h'.exact hk
  have hlog : n.log2 = k.log2 := by omega
  rw [hlog, hm'] at hm
  exact (Nat.eq_of_mul_eq_mul_right (by decide) hm).symm

/-- A number of more than twenty-four digits is not rounded to one of twenty-four or fewer. -/
theorem lt (h : Nearest n m e) (h' : Nearest k m e) (hn : n < 2 ^ 24) : k < 2 ^ 24 := by
  have hlog : n.log2 < 24 := by
    by_cases hzero : n = 0
    · rw [hzero, Nat.log2_zero]
      decide
    · exact (Nat.log2_lt hzero).2 hn
  have he := (h.exact (holds_of_lt hn)).2
  have hle := h'.le
  exact Nat.lt_log2_self.trans_le (pow_le_pow_right₀ (by decide) (by omega))

/-- The mantissa and the exponent of a value that is an integer. -/
theorem of_eq {a : Nat} (hn : n ≠ 0) (hm : Normal m) (heq : n * 2 ^ 23 = m * 2 ^ a) :
    Nearest n m (a - 23) ∧ Holds n := by
  have hlog : n.log2 = a := by
    have := congrArg Nat.log2 heq
    rw [log2_mul_two_pow hn, log2_mul_two_pow hm.pos.ne', hm.log2] at this
    omega
  subst hlog
  exact ⟨⟨hm, by omega, by omega, fun _ => ⟨heq.symm, rfl⟩⟩, Dvd.intro_left m heq.symm⟩

end Nearest

/-- A positive integer that a float stands for is one that floats hold. -/
theorem unpack_of_toInt? {x : Float32} {n : Int} (h : toInt? x = some n) (hn : 0 < n) :
    ∃ m e hm, x.toModel.unpack = .finite .positive m e hm ∧ Nearest n.natAbs m e ∧ Holds n.natAbs := by
  unfold toInt? at h
  cases hx : x.toModel.unpack with
  | notANumber | infinity s => rw [hx] at h; cases h
  | zero s => rw [hx] at h; cases h; omega
  | finite s m e hm =>
    rw [hx] at h
    obtain ⟨hlt, hnormal⟩ := mantissa_of_unpack hx
    have heq := toInt?_finite h
    obtain ⟨n, rfl⟩ := Int.eq_ofNat_of_zero_le hn.le
    obtain rfl : s = .positive := by
      cases s with
      | positive => rfl
      | negative =>
        have hleft : (0 : Int) < n * 2 ^ (-e).toNat := by positivity
        have hright : (0 : Int) < m * 2 ^ e.toNat := by positivity
        change (n : Int) * 2 ^ (-e).toNat = -m * 2 ^ e.toNat at heq
        linarith
    replace heq : n * 2 ^ (-e).toNat = m * 2 ^ e.toNat := by
      change (n : Int) * 2 ^ (-e).toNat = m * 2 ^ e.toNat at heq
      exact_mod_cast heq
    have hpos : 0 < n := by omega
    -- a value below one would have an exponent below the digits of its mantissa
    have he : -23 ≤ e := by
      by_contra hlow
      have hpow : 2 ^ 24 ≤ 2 ^ (-e).toNat := pow_le_pow_right₀ (by decide) (by omega)
      rw [show e.toNat = 0 by omega, pow_zero, mul_one] at heq
      have := Nat.mul_le_mul hpos hpow
      omega
    obtain ⟨a, rfl⟩ : ∃ a : Nat, e = a - 23 := ⟨(e + 23).toNat, by omega⟩
    have hscaled : n * 2 ^ 23 = m * 2 ^ a := by
      refine Nat.eq_of_mul_eq_mul_right (Nat.two_pow_pos ((a : Int) - 23).toNat) ?_
      calc n * 2 ^ 23 * 2 ^ ((a : Int) - 23).toNat
        _ = n * 2 ^ (-((a : Int) - 23)).toNat * 2 ^ a := by
          rw [mul_assoc, mul_assoc, ← pow_add, ← pow_add]
          congr 2
          omega
        _ = m * 2 ^ a * 2 ^ ((a : Int) - 23).toNat := by rw [heq, mul_right_comm]
    obtain ⟨hnear, hholds⟩ := Nearest.of_eq hpos.ne' (hnormal (by omega)) hscaled
    exact ⟨m, _, hm, rfl, hnear, hholds⟩

/-- An integer that is not below one is positive. -/
theorem pos_of_not_lt {x : Float32} {n : Int} (h : toInt? x = some n) (hx : ¬x < 1) : 0 < n := by
  have hone : (1 : Float32).toModel.unpack = .finite .positive (2 ^ 23) (-23) (by decide) := rfl
  have hcompare : (x.toModel.unpack.compare (.finite .positive (2 ^ 23) (-23) (by decide))) ≠ some .lt :=
    fun hlt => hx (decide_eq_true (beq_iff_eq.2 (hone ▸ hlt)))
  unfold toInt? at h
  cases hunpack : x.toModel.unpack with
  | notANumber | infinity s => rw [hunpack] at h; cases h
  | zero s => rw [hunpack] at hcompare; exact absurd rfl hcompare
  | finite s m e hm =>
    rw [hunpack] at h hcompare
    cases s with
    | negative => exact absurd rfl hcompare
    | positive =>
      have heq : n * 2 ^ (-e).toNat = m * 2 ^ e.toNat := toInt?_finite h
      have hpos : (0 : Int) < m * 2 ^ e.toNat := by positivity
      rw [← heq] at hpos
      exact (mul_pos_iff_of_pos_right (by positivity)).1 hpos

/-! ## Integers beside floats -/

theorem unpack_ofInt_zero : (Float32.ofInt 0).toModel.unpack = .zero .positive := rfl

/-- An integer that floats hold is turned into the float that stands for it, and into no other. -/
theorem beq_ofInt_iff {x : Float32} {n k : Int} (h : toInt? x = some n) (hn : 0 < n) (hk : Holds k.natAbs)
    (hlt : k.natAbs < 2 ^ 126) : (Float32.ofInt k == x) = true ↔ k = n := by
  obtain ⟨m, e, hm, hx, hnear, hholds⟩ := unpack_of_toInt? h hn
  rw [beq_iff, hx]
  by_cases hzero : k = 0
  · subst hzero
    rw [unpack_ofInt_zero]
    exact iff_of_false nofun (by omega)
  obtain ⟨s, m', e', hm', hof, hnear', hs⟩ := unpack_ofInt hzero hlt
  rw [hof]
  constructor
  · rintro (_ | _ | _)
    have habs := hnear'.injective hnear hk hholds
    have := hs.1 rfl
    omega
  · rintro rfl
    obtain ⟨rfl, rfl⟩ := hnear'.unique hnear hk
    obtain rfl := hs.2 hn
    exact .finite _ _ _ _

/-- Of two integers that are turned into the same float, neither is small unless they are the same. -/
theorem eq_of_ofInt {n k : Int} (hlt : n.natAbs < 2 ^ 24) (hlt' : k.natAbs < 2 ^ 126)
    (h : Equal (Float32.ofInt n).toModel.unpack (Float32.ofInt k).toModel.unpack) : n = k := by
  by_cases hn : n = 0
  · by_cases hk : k = 0
    · rw [hn, hk]
    · obtain ⟨s, m, e, hm, hof, -⟩ := unpack_ofInt hk hlt'
      rw [hn, unpack_ofInt_zero, hof] at h
      cases h
  obtain ⟨s, m, e, hm, hof, hnear, hs⟩ := unpack_ofInt hn (by omega)
  rw [hof] at h
  by_cases hk : k = 0
  · rw [hk, unpack_ofInt_zero] at h
    cases h
  obtain ⟨s', m', e', hm', hof', hnear', hs'⟩ := unpack_ofInt hk hlt'
  rw [hof'] at h
  cases h
  have habs := hnear.injective hnear' (holds_of_lt hlt) (holds_of_lt (hnear.lt hnear' hlt))
  rw [hs] at hs'
  omega

/-! ## Integers of 32 bits -/

/-- The remainder of a wide integer that floats hold is one that they hold: what wraps are the digits in front. -/
theorem holds_toInt_ofInt {n : Int} (hn : 0 < n) (h : Holds n.natAbs) : Holds (Int32.ofInt n).toInt.natAbs := by
  by_cases hlt : n < 2 ^ 31
  · rwa [Int32.toInt_ofInt_of_le (by omega) hlt]
  have hdvd : 2 ^ 8 ∣ n.natAbs := by
    have hlog : 31 ≤ n.natAbs.log2 := (Nat.le_log2 (by omega)).2 (by omega)
    have hdigits : 2 ^ 8 * 2 ^ 23 ∣ n.natAbs * 2 ^ 23 := (pow_dvd_pow 2 hlog).trans h
    exact Nat.dvd_of_mul_dvd_mul_right (by decide) hdigits
  have hmod : (Int32.ofInt n).toInt = n % 2 ^ 32 ∨ (Int32.ofInt n).toInt = n % 2 ^ 32 - 2 ^ 32 := by
    rw [Int32.toInt_ofInt, Int.bmod_def]
    split
    · exact .inl rfl
    · exact .inr rfl
  have hge := (Int32.ofInt n).le_toInt
  have hlt := (Int32.ofInt n).toInt_lt
  generalize hk : (Int32.ofInt n).toInt.natAbs = k
  have hdvd' : 2 ^ 8 ∣ k := by omega
  have hle : k ≤ 2 ^ 31 := by omega
  by_cases hzero : k = 0
  · exact hzero ▸ holds_of_lt (by decide)
  have hlog : k.log2 ≤ 31 := Nat.lt_succ_iff.1 ((Nat.log2_lt hzero).2 (by omega))
  exact (pow_dvd_pow 2 hlog).trans (Nat.mul_dvd_mul_right hdvd' (2 ^ 23))

/-- A float that stands for a positive integer equals that integer modulo `2 ^ 32` just where nothing wraps. -/
theorem beq_toFloat_iff {x : Float32} {n : Int} (h : toInt? x = some n) (hn : 0 < n) :
    (Numbers.toFloat (Int32.ofInt n) == x) = true ↔ n < 2 ^ 31 := by
  obtain ⟨-, -, -, -, -, hholds⟩ := unpack_of_toInt? h hn
  have hlt := (Int32.ofInt n).toInt_lt
  have hle := (Int32.ofInt n).le_toInt
  refine (beq_ofInt_iff h hn (holds_toInt_ofInt hn hholds) (by omega)).trans ⟨fun heq => heq ▸ hlt, fun hlt => ?_⟩
  exact Int32.toInt_ofInt_of_le (by omega) hlt

end Tacit.Binary32
