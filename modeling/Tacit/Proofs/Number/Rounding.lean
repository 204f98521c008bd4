/-
Integers as binary32 floats. An integer other than zero is rounded to a mantissa of twenty-four binary digits, the
first of them one, with the exponent that puts them in its place; it is turned into the float that stands for it
exactly if its own digits, but for zeros at the end, are no more than twenty-four.
-/
import Tacit.Proofs.Number.Equal

namespace Tacit.Binary32

open Float.Model (Format UnpackedFloat)
open Float.Model.UnpackedFloat

/-! ## Rounding -/

theorem mantissa_shiftRight (em : ExtendedMantissa) (k : Nat) : (em >>> k).mantissa = em.mantissa / 2 ^ k := by
  show (Nat.repeat ExtendedMantissa.shiftRightOne k em).mantissa = _
  induction k with
  | zero => rw [pow_zero, Nat.div_one]; rfl
  | succ k ih =>
    show (Nat.repeat ExtendedMantissa.shiftRightOne k em).mantissa / 2 = _
    rw [ih, Nat.div_div_eq_div_mul, ← pow_succ]

/-- Where the digits shifted out are zeros, nothing is left to round. -/
theorem shiftRight_exact {m k : Nat} (h : 2 ^ k ∣ m) :
    (⟨m, false, false⟩ : ExtendedMantissa) >>> k = ⟨m / 2 ^ k, false, false⟩ := by
  show Nat.repeat ExtendedMantissa.shiftRightOne k _ = _
  induction k with
  | zero => rw [pow_zero, Nat.div_one]; rfl
  | succ k ih =>
    have hk : 2 ^ k ∣ m := (pow_dvd_pow 2 (Nat.le_succ k)).trans h
    show (Nat.repeat ExtendedMantissa.shiftRightOne k _).shiftRightOne = _
    rw [ih hk]
    have heven : m / 2 ^ k % 2 = 0 := by
      rw [pow_succ] at h
      exact Nat.mod_eq_zero_of_dvd ((Nat.dvd_div_iff_mul_dvd hk).2 h)
    simp only [ExtendedMantissa.shiftRightOne, heven, Nat.div_div_eq_div_mul, ← pow_succ]
    rfl

theorem roundedMantissa_bounds (em : ExtendedMantissa) :
    em.mantissa ≤ em.roundedMantissa ∧ em.roundedMantissa ≤ em.mantissa + 1 := by
  obtain ⟨m, round, sticky⟩ := em
  have heven : m % 2 ≤ 1 := by omega
  cases round <;> cases sticky <;>
    simp [ExtendedMantissa.roundedMantissa, ExtendedMantissa.accuracy, Accuracy.roundToNearestEven, heven]

theorem finite_congr {s s' : Sign} {m m' : Nat} {e e' : Int} {hm : 0 < m} {hm' : 0 < m'} (hs : s = s') (h : m = m')
    (he : e = e') : UnpackedFloat.finite s m e hm = .finite s' m' e' hm' := by
  subst hs h he
  rfl

theorem targetExponent_eq (m : Nat) (e : Int) :
    Format.binary32.targetExponent (Float.Model.totalExponent m e) = max (m.log2 + e - 23) (-149) := by
  have hbits : (Format.binary32.mantissaBits : Int) = 24 := rfl
  have hmin : Format.binary32.minExponent = -149 := rfl
  show max ((m.log2 + 1 + e : Int) - Format.binary32.mantissaBits) Format.binary32.minExponent = _
  rw [hbits, hmin]
  omega

/-- A mantissa of twenty-four digits or more loses those past the first twenty-four. -/
theorem shiftToTargetExponent_eq {m k : Nat} {e : Int} (hlog : m.log2 = 23 + k) (he : -149 ≤ e + k) :
    shiftToTargetExponent .binary32 m e .exact = ((⟨m, false, false⟩ : ExtendedMantissa) >>> k, e + k) := by
  have htarget : Format.binary32.targetExponent (Float.Model.totalExponent m e) = e + k := by
    rw [targetExponent_eq]
    omega
  unfold shiftToTargetExponent shiftToExponent
  dsimp only
  rw [htarget, show (e + k - e).toNat = k by omega]
  rfl

theorem log2_eq_of_bounds {m k : Nat} (hle : 2 ^ k ≤ m) (hlt : m < 2 ^ (k + 1)) : m.log2 = k := by
  have hne : m ≠ 0 := by have := Nat.two_pow_pos k; omega
  exact (Nat.log2_eq_iff hne).2 ⟨hle, hlt⟩

/-- Twenty-four digits, the first of them one. -/
def Normal (m : Nat) : Prop := 2 ^ 23 ≤ m ∧ m < 2 ^ 24

theorem Normal.pos {m : Nat} (h : Normal m) : 0 < m := lt_of_lt_of_le (by decide) h.1

theorem Normal.log2 {m : Nat} (h : Normal m) : m.log2 = 23 := log2_eq_of_bounds h.1 h.2

theorem Normal.div {m k : Nat} (hlog : m.log2 = 23 + k) : Normal (m / 2 ^ k) := by
  have hne : m ≠ 0 := by
    rintro rfl
    rw [Nat.log2_zero] at hlog
    omega
  obtain ⟨hle, hlt⟩ := (Nat.log2_eq_iff hne).1 hlog
  refine ⟨(Nat.le_div_iff_mul_le (Nat.two_pow_pos k)).2 ?_, (Nat.div_lt_iff_lt_mul (Nat.two_pow_pos k)).2 ?_⟩
  · rwa [← pow_add]
  · rwa [← pow_add, show 24 + k = 23 + k + 1 by omega]

/-- Rounded to twenty-four digits, a number keeps its leading digit or gains one; it stays what it is if the
digits past these are zeros. -/
theorem roundWithAccuracy_normal (s : Sign) {m k : Nat} {e : Int} (hlog : m.log2 = 23 + k) (he : -149 ≤ e + k) :
    ∃ m' e' h, roundWithAccuracy .binary32 s m e .exact = .finite s m' e' h ∧ Normal m' ∧
      e + k ≤ e' ∧ e' ≤ e + k + 1 ∧ (2 ^ k ∣ m → m' * 2 ^ k = m ∧ e' = e + k) := by
  have hdiv := Normal.div hlog
  obtain ⟨hle, hlt⟩ := roundedMantissa_bounds ((⟨m, false, false⟩ : ExtendedMantissa) >>> k)
  rw [mantissa_shiftRight] at hle hlt
  dsimp only at hle hlt
  have hexact : 2 ^ k ∣ m → ((⟨m, false, false⟩ : ExtendedMantissa) >>> k).roundedMantissa = m / 2 ^ k := by
    intro hdvd
    rw [shiftRight_exact hdvd]
    rfl
  unfold roundWithAccuracy
  rw [shiftToTargetExponent_eq hlog he]
  dsimp only
  generalize ((⟨m, false, false⟩ : ExtendedMantissa) >>> k).roundedMantissa = r at hle hlt hexact
  by_cases hcarry : r < 2 ^ 24
  · have hr : Normal r := ⟨hdiv.1.trans hle, hcarry⟩
    have hshift : r / 2 ^ 0 = r := by rw [pow_zero, Nat.div_one]
    rw [shiftToTargetExponent_eq (k := 0) hr.log2 (by omega), shiftRight_exact (one_dvd r)]
    dsimp only
    rw [dif_neg (hshift.symm ▸ hr.pos.ne')]
    refine ⟨r, e + k, hr.pos, finite_congr rfl hshift (by omega), hr, by omega, by omega, fun hdvd => ⟨?_, rfl⟩⟩
    rw [hexact hdvd, Nat.div_mul_cancel hdvd]
  · -- the carry of a mantissa of ones, which is no exact result
    obtain rfl : r = 2 ^ 24 := by have := hdiv.2; omega
    rw [shiftToTargetExponent_eq (k := 1) (by decide) (by omega), shiftRight_exact (by decide)]
    dsimp only
    rw [dif_neg (by decide)]
    refine ⟨_, _, _, rfl, ⟨by decide, by decide⟩, by omega, by omega, fun hdvd => ?_⟩
    have := hexact hdvd
    have := hdiv.2
    omega

/-! ## Packing -/

theorem unpackSign_packComponents (s : Sign) (e : BitVec 8) (m : BitVec 23) :
    Sign.ofBitVec (unpackSign (packComponents .binary32 s e m)) = s := by
  have hsign : unpackSign (packComponents .binary32 s e m) = s.toBitVec := by
    show (s.toBitVec ++ e ++ m).extractLsb' 31 1 = s.toBitVec
    rw [BitVec.extractLsb'_append_eq_of_le (by decide), BitVec.extractLsb'_append_eq_of_le (by decide)]
    exact BitVec.extractLsb'_eq_self
  rw [hsign]
  cases s <;> rfl

/-- What packs without loss is unpacked as it was. -/
theorem unpack_pack_normal (s : Sign) {m : Nat} {e : Int} (hm : Normal m) (hmin : -149 ≤ e) (hmax : e ≤ 104)
    (hpos : 0 < m) : unpack .binary32 (pack .binary32 (.finite s m e hpos)) = .finite s m e hpos := by
  obtain ⟨b, rfl⟩ : ∃ b : Nat, e = b - 150 := ⟨(e + 150).toNat, by omega⟩
  have hbiased : ((b - 150 : Int) + Format.binary32.exponentBias +
      Format.binary32.mantissaBitsWithoutImplicit).toNat = b := by
    show ((b - 150 : Int) + 127 + 23).toNat = b
    omega
  have hexponent : (BitVec.ofNat 8 b).toNat = b := by
    rw [BitVec.toNat_ofNat, Nat.mod_eq_of_lt (by omega)]
  have hne {c : BitVec 8} (hc : c.toNat ≠ b) : BitVec.ofNat 8 b ≠ c := fun h => hc (by rw [← h, hexponent])
  have hmantissa : (1#1 ++ BitVec.ofNat 23 m).toNat = m := by
    obtain ⟨hle, hlt⟩ := hm
    rw [BitVec.toNat_append, ← Nat.shiftLeft_add_eq_or_of_lt (BitVec.isLt _), BitVec.toNat_ofNat,
      BitVec.toNat_ofNat, Nat.shiftLeft_eq]
    omega
  have hpack : pack .binary32 (.finite s m (b - 150) hpos) =
      packComponents .binary32 s (BitVec.ofNat 8 b) (BitVec.ofNat 23 m) := by
    unfold pack
    dsimp only
    rw [hbiased, hm.log2, if_neg (by show ¬256 ≤ b + 1; omega), if_pos (by rfl)]
  rw [hpack]
  have he : unpackExponent (packComponents .binary32 s (BitVec.ofNat 8 b) (BitVec.ofNat 23 m)) =
      BitVec.ofNat 8 b := unpackExponent_packComponents
  unfold unpack
  dsimp only
  rw [if_neg (by rw [he]; exact hne (by show 255 ≠ b; omega)), if_neg (by rw [he]; exact hne (by show 0 ≠ b; omega))]
  refine finite_congr (unpackSign_packComponents s _ _) ?_ ?_
  · rw [unpackMantissa_packComponents]
    exact hmantissa
  · rw [he, hexponent]
    rfl

/-! ## Integers -/

/-- The first digit of `n` and the last that is not zero are among twenty-four digits in a row. -/
def Holds (n : Nat) : Prop := 2 ^ n.log2 ∣ n * 2 ^ 23

theorem holds_of_lt {n : Nat} (h : n < 2 ^ 24) : Holds n := by
  by_cases hn : n = 0
  · subst hn
    simp [Holds]
  · have hlog : n.log2 ≤ 23 := Nat.lt_succ_iff.1 ((Nat.log2_lt hn).2 h)
    exact (pow_dvd_pow 2 hlog).trans (Nat.dvd_mul_left _ n)

/-- A mantissa and an exponent for `n`: its first digit stays in its place or moves up by one, and where floats hold
the number it is not changed. -/
structure Nearest (n m : Nat) (e : Int) : Prop where
  normal : Normal m
  le : n.log2 ≤ e + 23
  ge : e ≤ n.log2 - 22
  exact : Holds n → m * 2 ^ n.log2 = n * 2 ^ 23 ∧ e = n.log2 - 23

/-- What an integer is rounded to packs without loss, with either sign. -/
theorem Nearest.unpack_pack {n m : Nat} {e : Int} (h : Nearest n m e) (hn : n ≠ 0) (hlt : n < 2 ^ 126) (s : Sign)
    (hpos : 0 < m) : unpack .binary32 (pack .binary32 (.finite s m e hpos)) = .finite s m e hpos := by
  have hlog : n.log2 < 126 := (Nat.log2_lt hn).2 hlt
  have he := h.le
  have he' := h.ge
  exact unpack_pack_normal s h.normal (by omega) (by omega) hpos

theorem log2_mul_two_pow {n : Nat} (h : n ≠ 0) (k : Nat) : (n * 2 ^ k).log2 = n.log2 + k := by
  obtain ⟨hle, hlt⟩ := (Nat.log2_eq_iff h).1 rfl
  refine log2_eq_of_bounds ?_ ?_
  · rw [pow_add]
    exact Nat.mul_le_mul_right _ hle
  · rw [show n.log2 + k + 1 = n.log2 + 1 + k by omega, pow_add _ (n.log2 + 1)]
    exact Nat.mul_lt_mul_of_pos_right hlt (Nat.two_pow_pos k)

/-- Rounding `n` with digits after the point: their number and the exponent cancel. -/
theorem round_natCast {n a k : Nat} (hn : n ≠ 0) (hlog : n.log2 + a = 23 + k) :
    ∃ m e h, roundWithAccuracy .binary32 .positive (n * 2 ^ a) (-a) .exact = .finite .positive m e h ∧
      Nearest n m e := by
  have hlog' : (n * 2 ^ a).log2 = 23 + k := by rw [log2_mul_two_pow hn, hlog]
  obtain ⟨m, e, hpos, hround, hm, hle, hge, hexact⟩ :=
    roundWithAccuracy_normal .positive (e := -a) hlog' (by omega)
  refine ⟨m, e, hpos, hround, hm, by omega, by omega, fun hholds => ?_⟩
  have hdvd : 2 ^ k ∣ n * 2 ^ a := by
    have := mul_dvd_mul_right hholds (2 ^ a)
    rw [← pow_add, hlog, Nat.mul_right_comm, pow_add, mul_comm (2 ^ 23)] at this
    exact (Nat.mul_dvd_mul_iff_right (by decide)).1 this
  obtain ⟨heq, he⟩ := hexact hdvd
  refine ⟨Nat.eq_of_mul_eq_mul_right (Nat.two_pow_pos a) ?_, by omega⟩
  rw [mul_assoc, ← pow_add, hlog, add_comm 23 k, pow_add, ← mul_assoc, heq, mul_right_comm]

/-- A small number is shifted until it has twenty-four digits. -/
theorem ofInt_natCast {n : Nat} (hn : n ≠ 0) (hlt : n < 2 ^ 23) :
    ∃ m e h, UnpackedFloat.ofInt .binary32 n = .finite .positive m e h ∧ Nearest n m e := by
  have hlog : n.log2 < 23 := (Nat.log2_lt hn).2 hlt
  obtain ⟨a, ha⟩ : ∃ a, n.log2 + a = 23 := ⟨23 - n.log2, by omega⟩
  have htarget : Format.binary32.targetExponent (Float.Model.totalExponent n 0) = -a := by
    rw [targetExponent_eq]
    omega
  obtain ⟨m, e, hpos, hround, hnear⟩ := round_natCast (k := 0) hn ha
  refine ⟨m, e, hpos, ?_, hnear⟩
  have hshift : (0 - (-a : Int)).toNat = a := by omega
  unfold UnpackedFloat.ofInt UnpackedFloat.normalize
  rw [Int.compare_eq_gt.2 (by omega)]
  unfold UnpackedFloat.round decreaseExponent
  dsimp only
  rw [Int.toNat_natCast, htarget, hshift, Nat.shiftLeft_eq, zero_sub, hround]

/-- A multiple of one. -/
theorem mul_one_normal {m : Nat} {e : Int} (hm : Normal m) (he : -149 ≤ e) (hpos : 0 < m) :
    mul .binary32 (.finite .positive m e hpos) (.finite .positive (2 ^ 23) (-23) (by decide)) =
      .finite .positive m e hpos := by
  have hlog : (m * 2 ^ 23).log2 = 23 + 23 := by rw [log2_mul_two_pow hpos.ne', hm.log2]
  obtain ⟨m', e', hpos', hround, -, -, -, hexact⟩ :=
    roundWithAccuracy_normal .positive (e := e + -23) hlog (by omega)
  obtain ⟨heq, he'⟩ := hexact (Nat.dvd_mul_left _ m)
  obtain rfl : m' = m := Nat.eq_of_mul_eq_mul_right (by decide) heq
  obtain rfl : e' = e := by omega
  exact hround

/-- Small numbers are converted and then multiplied by one, others are rounded with digits after the point. -/
theorem unpack_ofNat {n : Nat} (hn : n ≠ 0) (hlt : n < 2 ^ 126) :
    ∃ m e h, (Float32.ofNat n).toModel.unpack = .finite .positive m e h ∧ Nearest n m e := by
  unfold Float32.ofNat
  show ∃ m e h, (Float32.ofScientific n false 0).toModel.unpack = _ ∧ _
  unfold Float32.ofScientific
  by_cases h : n < 2 ^ 23 ∧ 0 ≤ 10
  case pos =>
    rw [dif_pos h]
    obtain ⟨m, e, hpos, hof, hnear⟩ := ofInt_natCast hn h.1
    have he := hnear.le
    have hpack := hnear.unpack_pack hn hlt .positive hpos
    have hword : n.toUInt64.toNat = n := by
      rw [Nat.toUInt64_eq, UInt64.toNat_ofNat', Nat.mod_eq_of_lt (by omega)]
    have hone : Float32.exactlyRepresentablePowersOfTen[0].toModel.unpack =
      .finite .positive (2 ^ 23) (-23) (by decide) := rfl
    refine ⟨m, e, hpos, ?_, hnear⟩
    show unpack .binary32 (pack .binary32 (mul .binary32
      (unpack .binary32 (pack .binary32 (UnpackedFloat.ofInt .binary32 n.toUInt64.toNat)))
      Float32.exactlyRepresentablePowersOfTen[0].toModel.unpack)) = _
    rw [hword, hof, hpack, hone, mul_one_normal hnear.normal (by omega) hpos, hpack]
  case neg =>
    rw [dif_neg h]
    have hbig : ¬n < 2 ^ 23 := fun h' => h ⟨h', by decide⟩
    have hlow : 23 ≤ n.log2 := (Nat.le_log2 hn).2 (by omega)
    obtain ⟨m, e, hpos, hround, hnear⟩ := round_natCast (a := 24) (k := n.log2 + 1) hn (by omega)
    refine ⟨m, e, hpos, ?_, hnear⟩
    have hof : ofScientific .binary32 n 0 = .finite .positive m e hpos := by
      have hbound : (0 : Int) < 2 ^ Format.binary32.exponentBits := by decide
      unfold ofScientific
      rw [dif_neg hn, if_neg (by omega), if_neg (by omega), if_pos (le_refl _), ← hround]
      show roundWithAccuracy .binary32 .positive (n <<< 24 * 1) (-24 + 0) .exact = _
      rw [Nat.shiftLeft_eq, mul_one, add_zero]
      rfl
    show unpack .binary32 (pack .binary32 (ofScientific .binary32 n 0)) = _
    rw [hof]
    exact hnear.unpack_pack hn hlt .positive hpos

/-- An integer other than zero becomes a float of its sign, with the mantissa and the exponent nearest to its
magnitude. -/
theorem unpack_ofInt {n : Int} (hn : n ≠ 0) (hlt : n.natAbs < 2 ^ 126) :
    ∃ s m e h, (Float32.ofInt n).toModel.unpack = .finite s m e h ∧ Nearest n.natAbs m e ∧
      (s = .positive ↔ 0 < n) := by
  cases n with
  | ofNat n =>
    have hn' : n ≠ 0 := fun h => hn (congrArg Int.ofNat h)
    obtain ⟨m, e, hpos, hof, hnear⟩ := unpack_ofNat hn' hlt
    exact ⟨.positive, m, e, hpos, hof, hnear, iff_of_true rfl (Int.natCast_pos.2 (Nat.pos_of_ne_zero hn'))⟩
  | negSucc n =>
    obtain ⟨m, e, hpos, hof, hnear⟩ := unpack_ofNat n.succ_ne_zero hlt
    refine ⟨.negative, m, e, hpos, ?_, hnear, iff_of_false nofun (by omega)⟩
    show unpack .binary32 (pack .binary32 (neg (Float32.ofNat n.succ).toModel.unpack)) = _
    rw [hof]
    exact hnear.unpack_pack n.succ_ne_zero hlt .negative hpos

end Tacit.Binary32
