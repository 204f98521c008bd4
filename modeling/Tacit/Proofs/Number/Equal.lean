/-
Equal numbers. Floats compare as equal where they are the same when unpacked, but for the sign of zero. Every float
but the one that is not a number equals itself, and an integer is never rounded to that one, so numbers moved to a
type that holds theirs equal the numbers that they were.
-/
import Tacit.Number.Numbers
import Mathlib.Tactic

namespace Tacit

/-! ## Unpacked floats -/

section

open Float.Model (Format UnpackedFloat)
open Float.Model.UnpackedFloat

theorem compare_unpacked_self {x : UnpackedFloat} (h : x ≠ .notANumber) : x.compare x = some .eq := by
  have hself (m : Nat) (e : Int) : (compare e e).then (compare m m) = .eq := by
    rw [Std.compare_self, Std.compare_self]
    rfl
  match x with
  | .notANumber => exact absurd rfl h
  | .infinity .positive | .infinity .negative | .zero _ => rfl
  | .finite .positive m e _ => exact congrArg some (hself m e)
  | .finite .negative m e _ => exact congrArg (some ∘ Ordering.swap) (hself m e)

namespace Binary

/-- Floats that compare as equal are the same when unpacked, but for the sign of zero. -/
inductive Equal : UnpackedFloat → UnpackedFloat → Prop
  | infinity (s : Sign) : Equal (.infinity s) (.infinity s)
  | zero (s s' : Sign) : Equal (.zero s) (.zero s')
  | finite (s : Sign) (m : Nat) (e : Int) (h : 0 < m) : Equal (.finite s m e h) (.finite s m e h)

theorem compare_eq_iff {x y : UnpackedFloat} : x.compare y = some .eq ↔ Equal x y := by
  constructor
  · intro h
    cases x with
    | notANumber => cases h
    | infinity s =>
      cases y with
      | infinity s' =>
        cases s <;> cases s' <;> first | exact .infinity _ | cases h
      | _ => cases s <;> cases h
    | zero s =>
      cases y with
      | zero s' => exact .zero s s'
      | notANumber => cases h
      | infinity s' | finite s' => cases s' <;> cases h
    | finite s m e hm =>
      cases y with
      | notANumber => cases s <;> cases h
      | infinity s' => cases s <;> cases s' <;> cases h
      | zero s' => cases s <;> cases h
      | finite s' m' e' hm' =>
        -- between the same signs, exponents come first and mantissas after
        have hsame (h : (compare e e').then (compare m m') = .eq) : e = e' ∧ m = m' := by
          rw [Ordering.then_eq_eq] at h
          exact ⟨Int.compare_eq_eq.1 h.1, Nat.compare_eq_eq.1 h.2⟩
        cases s <;> cases s'
        · obtain ⟨rfl, rfl⟩ := hsame (by simpa using Option.some.inj h)
          exact .finite _ _ _ _
        · cases h
        · cases h
        · obtain ⟨rfl, rfl⟩ := hsame (Option.some.inj h)
          exact .finite _ _ _ _
  · rintro (s | ⟨s, s'⟩ | ⟨s, m, e, hm⟩)
    · exact compare_unpacked_self UnpackedFloat.noConfusion
    · rfl
    · exact compare_unpacked_self UnpackedFloat.noConfusion

namespace Equal

variable {x y z : UnpackedFloat}

theorem symm (h : Equal x y) : Equal y x := by
  cases h with
  | infinity s => exact .infinity s
  | zero s s' => exact .zero s' s
  | finite s m e hm => exact .finite s m e hm

theorem trans (h : Equal x y) (h' : Equal y z) : Equal x z := by
  cases h with
  | infinity | finite => exact h'
  | zero s s' =>
    cases h' with
    | zero _ s'' => exact .zero s s''

end Equal
end Binary

namespace Binary32

variable {x y z : Float32}

theorem beq_iff : (x == y) = true ↔ Binary.Equal x.toModel.unpack y.toModel.unpack := by
  rw [← Binary.compare_eq_iff]
  show (x.toModel.unpack.compare y.toModel.unpack == some .eq) = true ↔ _
  exact beq_iff_eq

theorem beq_symm (h : (x == y) = true) : (y == x) = true := beq_iff.2 (beq_iff.1 h).symm

theorem beq_trans (h : (x == y) = true) (h' : (y == z) = true) : (x == z) = true :=
  beq_iff.2 ((beq_iff.1 h).trans (beq_iff.1 h'))

end Binary32

/-- A test that chooses between two numbers. -/
theorem choice_ne {p : Prop} [Decidable p] {x : p → UnpackedFloat} {y : ¬p → UnpackedFloat}
    (hx : ∀ h, x h ≠ .notANumber) (hy : ∀ h, y h ≠ .notANumber) : dite p x y ≠ .notANumber := by
  by_cases h : p
  · rw [dif_pos h]
    exact hx h
  · rw [dif_neg h]
    exact hy h

/-- Only the greatest exponent stands for what is not a number. -/
theorem unpack_ne {b : BitVec Format.binary32.numBits} (hb : unpackExponent b ≠ -1#8) :
    UnpackedFloat.unpack .binary32 b ≠ .notANumber := by
  unfold UnpackedFloat.unpack
  dsimp only
  rw [if_neg hb]
  by_cases hleast : unpackExponent b = 0#8
  · rw [if_pos hleast]
    exact choice_ne (fun _ => UnpackedFloat.noConfusion) fun _ => UnpackedFloat.noConfusion
  · rw [if_neg hleast]
    exact UnpackedFloat.noConfusion

theorem unpack_packComponents_ne {e : BitVec 8} (he : e ≠ -1#8) (s : Sign) (m : BitVec 23) :
    UnpackedFloat.unpack .binary32 (packComponents .binary32 s e m) ≠ .notANumber := by
  have hexponent : unpackExponent (packComponents .binary32 s e m) = e := unpackExponent_packComponents
  exact unpack_ne fun h => he (hexponent.symm.trans h)

theorem unpack_packedInfinity_ne (s : Sign) :
    UnpackedFloat.unpack .binary32 (packedInfinity .binary32 s) ≠ .notANumber := by
  have hexponent : unpackExponent (packedInfinity .binary32 s) = -1#8 := unpackExponent_packComponents
  have hmantissa : unpackMantissa (packedInfinity .binary32 s) = 0#23 := unpackMantissa_packComponents
  unfold UnpackedFloat.unpack
  dsimp only
  rw [if_pos hexponent, if_pos hmantissa]
  exact UnpackedFloat.noConfusion

/-- A number packs into a number. -/
theorem unpack_pack_ne {x : UnpackedFloat} (h : x ≠ .notANumber) :
    unpack .binary32 (pack .binary32 x) ≠ .notANumber := by
  unfold pack
  split
  · exact absurd rfl h
  · exact unpack_packedInfinity_ne _
  · exact unpack_packComponents_ne (by decide) _ _
  · rename_i s m e _
    dsimp only
    split
    · exact unpack_packedInfinity_ne _
    · rename_i hbound
      split
      · -- what overflows the exponent has become an infinity above
        refine unpack_packComponents_ne (fun hmax => ?_) _ _
        have hnat := congrArg BitVec.toNat hmax
        rw [BitVec.toNat_ofNat, Nat.mod_eq_of_lt (by omega)] at hnat
        change _ = 255 at hnat
        omega
      · exact unpack_packComponents_ne (by decide) _ _

/-! ## Rounding -/

theorem roundWithAccuracy_ne (spec : Format) (s : Sign) (m : Nat) (e : Int) (a : Accuracy) :
    roundWithAccuracy spec s m e a ≠ .notANumber := by
  unfold roundWithAccuracy
  exact choice_ne (fun _ => UnpackedFloat.noConfusion) fun _ => UnpackedFloat.noConfusion

theorem ofInt_ne (spec : Format) (n : Int) : UnpackedFloat.ofInt spec n ≠ .notANumber := by
  unfold UnpackedFloat.ofInt UnpackedFloat.normalize
  split
  · exact roundWithAccuracy_ne _ _ _ _ _
  · exact UnpackedFloat.noConfusion
  · exact roundWithAccuracy_ne _ _ _ _ _

/-- A multiple of a finite number. -/
theorem mul_finite_ne {x : UnpackedFloat} (h : x ≠ .notANumber) (spec : Format) (s : Sign) (m : Nat) (e : Int)
    (hm : 0 < m) : mul spec x (.finite s m e hm) ≠ .notANumber := by
  cases x with
  | notANumber => exact absurd rfl h
  | infinity | zero => exact UnpackedFloat.noConfusion
  | finite => exact roundWithAccuracy_ne _ _ _ _ _

theorem ofScientific_ne (spec : Format) (n : Nat) : ofScientific spec n 0 ≠ .notANumber := by
  have hbound : (0 : Int) < 2 ^ spec.exponentBits := by positivity
  unfold ofScientific
  refine choice_ne (fun _ => UnpackedFloat.noConfusion) fun _ => ?_
  rw [if_neg (by omega), if_neg (by omega), if_pos (le_refl (0 : Int))]
  exact roundWithAccuracy_ne _ _ _ _ _

/-! ## Floats made of integers -/

theorem beq_self_of_unpack {x : Float32} (h : x.toModel.unpack ≠ .notANumber) : (x == x) = true := by
  show (x.toModel.unpack.compare x.toModel.unpack == some .eq) = true
  rw [compare_unpacked_self h]
  rfl

theorem unpack_ofNat_ne (n : Nat) : (Float32.ofNat n).toModel.unpack ≠ .notANumber := by
  have hone : Float32.exactlyRepresentablePowersOfTen[0].toModel.unpack =
      .finite .positive (2 ^ 23) (-23) (by decide) := rfl
  unfold Float32.ofNat
  show (Float32.ofScientific n false 0).toModel.unpack ≠ .notANumber
  unfold Float32.ofScientific
  split
  · -- a small integer is converted exactly and multiplied by one
    refine unpack_pack_ne ?_
    rw [hone]
    exact mul_finite_ne (unpack_pack_ne (ofInt_ne _ _)) _ _ _ _ _
  · exact unpack_pack_ne (ofScientific_ne _ n)

theorem beq_self_ofInt (n : Int) : (Float32.ofInt n == Float32.ofInt n) = true := by
  refine beq_self_of_unpack ?_
  cases n with
  | ofNat n => exact unpack_ofNat_ne n
  | negSucc n =>
    refine unpack_pack_ne ?_
    have hn := unpack_ofNat_ne n.succ
    generalize (Float32.ofNat n.succ).toModel.unpack = x at hn
    cases x with
    | notANumber => exact absurd rfl hn
    | _ => exact UnpackedFloat.noConfusion

end

/-! ## Conversion -/

namespace Numbers

theorem convert_self (xs : Numbers) : convert xs.type xs = xs := by cases xs <;> rfl

theorem isEqv_iff_forall₂ {xs ys : List Float32} :
    xs.isEqv ys (· == ·) = true ↔ List.Forall₂ (fun x y => (x == y) = true) xs ys := by
  induction xs generalizing ys with
  | nil => cases ys <;> simp [List.isEqv]
  | cons x xs ih => cases ys <;> simp [List.isEqv, ih]

theorem isEqv_self {xs : List Float32} (h : ∀ x ∈ xs, (x == x) = true) : xs.isEqv xs (· == ·) = true :=
  isEqv_iff_forall₂.2 (List.forall₂_same.2 h)

/-- Numbers that equal themselves equal what they are in a type that holds theirs. -/
theorem same_convert {type : NumberType} {xs : Numbers} (htype : type.join xs.type = type)
    (hxs : xs.same xs = true) : (convert type xs).same xs = true := by
  by_cases hself : type = xs.type
  · rw [hself, convert_self]
    exact hxs
  · cases xs with
    | bools bs =>
      cases type with
      | bool => exact absurd rfl hself
      | int => exact beq_self_eq_true (bs.map ofBool)
      | float =>
        refine isEqv_self fun x hx => ?_
        obtain ⟨b, -, rfl⟩ := List.mem_map.1 hx
        cases b with
        | true => exact beq_self_ofInt 1
        | false => exact beq_self_ofInt 0
    | ints ns =>
      cases type with
      | bool => cases htype
      | int => exact absurd rfl hself
      | float =>
        refine isEqv_self fun x hx => ?_
        obtain ⟨n, -, rfl⟩ := List.mem_map.1 hx
        exact beq_self_ofInt n.toInt
    | floats fs => cases type <;> first | exact absurd rfl hself | cases htype

end Numbers

end Tacit
