/-
Rows of numbers in their joint type. The three types are a chain, so the joint type of rows does not depend on how
they are grouped, and neither does any number in it: on its way up the chain a value may rest at a type between,
and comes to the same. Rows put one after another are therefore a monoid, and stacking them goes over to it.
-/
import Tacit.Number.Numbers
import Mathlib.Tactic

namespace Tacit

/-! ## The chain of types -/

namespace NumberType

variable (t u v : NumberType)

theorem join_assoc : (t.join u).join v = t.join (u.join v) := by
  cases t <;> cases u <;> cases v <;> rfl

theorem join_self : t.join t = t := by cases t <;> rfl

theorem bool_join : bool.join t = t := by cases t <;> rfl

theorem join_bool : t.join .bool = t := by cases t <;> rfl

instance : Std.Associative NumberType.join := ⟨join_assoc⟩

variable {t u}

theorem join_eq_bool_iff : t.join u = .bool ↔ t = .bool ∧ u = .bool := by
  cases t <;> cases u <;> simp [join]

theorem join_eq_float_iff : t.join u = .float ↔ t = .float ∨ u = .float := by
  cases t <;> cases u <;> simp [join]

end NumberType

namespace Numbers

variable {xs : Numbers} {rows : List Numbers} {type : NumberType}

/-! ## The joint type -/

theorem jointType_cons (xs : Numbers) (rows : List Numbers) : jointType (xs :: rows) = xs.type.join (jointType rows) := by
  have hfold (rows : List Numbers) : jointType rows = (rows.map type).foldl .join .bool := by
    rw [jointType, List.foldl_map]
  have hfront : (rows.map type).foldl .join (xs.type.join .bool) = xs.type.join ((rows.map type).foldl .join .bool) :=
    List.foldl_assoc
  rw [hfold, hfold, List.map_cons, List.foldl_cons, NumberType.bool_join, ← hfront, NumberType.join_bool]

theorem jointType_append (rows rows' : List Numbers) :
    jointType (rows ++ rows') = (jointType rows).join (jointType rows') := by
  induction rows with
  | nil => exact (NumberType.bool_join _).symm
  | cons xs rows ih => rw [List.cons_append, jointType_cons, jointType_cons, ih, NumberType.join_assoc]

theorem jointType_eq_bool_iff : jointType rows = .bool ↔ ∀ xs ∈ rows, xs.type = .bool := by
  induction rows with
  | nil => simp [jointType]
  | cons xs rows ih => rw [jointType_cons, NumberType.join_eq_bool_iff, ih, List.forall_mem_cons]

theorem jointType_ne_float_iff : jointType rows ≠ .float ↔ ∀ xs ∈ rows, xs.type ≠ .float := by
  induction rows with
  | nil => simp [jointType]
  | cons xs rows ih =>
    rw [jointType_cons, Ne, NumberType.join_eq_float_iff, not_or, List.forall_mem_cons]
    exact and_congr_right fun _ => ih

theorem jointType_of_forall (h : ∀ xs ∈ rows, xs.type = type) (hne : rows ≠ []) : jointType rows = type := by
  induction rows with
  | nil => exact absurd rfl hne
  | cons xs rows ih =>
    obtain ⟨hxs, hrows⟩ := List.forall_mem_cons.1 h
    rw [jointType_cons, hxs]
    rcases eq_or_ne rows [] with rfl | hrest
    · exact type.join_bool
    · rw [ih hrows hrest, type.join_self]

/-- The joint type takes in the type of every row. -/
theorem join_jointType (h : xs ∈ rows) : (jointType rows).join xs.type = jointType rows := by
  induction rows with
  | nil => cases h
  | cons ys rows ih =>
    rw [jointType_cons, NumberType.join_assoc]
    rcases List.mem_cons.1 h with rfl | h
    · cases xs.type <;> cases jointType rows <;> rfl
    · rw [ih h]

theorem type_concat (rows : List Numbers) : (concat rows).type = jointType rows := by
  unfold concat
  cases jointType rows <;> rfl

/-! ## Values moved up the chain -/

theorem asInts_of_bool (h : xs.type = .bool) : xs.asInts = xs.asBools.map ofBool := by
  cases xs with
  | bools bs => rfl
  | ints | floats => cases h

/-- As floats, integers are what their truth values are. -/
theorem asFloats_of_asInts (h : xs.type ≠ .float) : xs.asFloats = xs.asInts.map toFloat := by
  cases xs with
  | floats => exact absurd rfl h
  | ints => rfl
  | bools bs =>
    rw [asInts, List.map_map]
    exact List.map_congr_left fun b _ => by cases b <;> rfl

theorem concat_of_bool (h : jointType rows = .bool) : concat rows = .bools (rows.flatMap asBools) := by
  unfold concat
  rw [h]

theorem concat_of_int (h : jointType rows = .int) : concat rows = .ints (rows.flatMap asInts) := by
  unfold concat
  rw [h]

theorem concat_of_float (h : jointType rows = .float) : concat rows = .floats (rows.flatMap asFloats) := by
  unfold concat
  rw [h]

theorem concat_of_bools (h : ∀ xs ∈ rows, xs.type = .bool) : concat rows = .bools (rows.flatMap asBools) :=
  concat_of_bool (jointType_eq_bool_iff.2 h)

theorem concat_of_ints (h : ∀ xs ∈ rows, xs.type ≠ .float) (hint : ¬∀ xs ∈ rows, xs.type = .bool) :
    concat rows = .ints (rows.flatMap asInts) := by
  refine concat_of_int ?_
  rw [← jointType_eq_bool_iff] at hint
  rw [← jointType_ne_float_iff] at h
  cases hjoint : jointType rows with
  | int => rfl
  | bool => exact absurd hjoint hint
  | float => exact absurd hjoint h

theorem asInts_concat (h : ∀ xs ∈ rows, xs.type ≠ .float) : (concat rows).asInts = rows.flatMap asInts := by
  by_cases hbool : ∀ xs ∈ rows, xs.type = .bool
  · rw [concat_of_bools hbool, asInts, List.map_flatMap]
    exact List.flatMap_congr fun xs hxs => (asInts_of_bool (hbool xs hxs)).symm
  · rw [concat_of_ints h hbool, asInts]

theorem asFloats_concat (rows : List Numbers) : (concat rows).asFloats = rows.flatMap asFloats := by
  by_cases h : ∀ xs ∈ rows, xs.type ≠ .float
  · have hne : (concat rows).type ≠ .float := by
      rw [type_concat]
      exact jointType_ne_float_iff.2 h
    rw [asFloats_of_asInts hne, asInts_concat h, List.map_flatMap]
    exact List.flatMap_congr fun xs hxs => (asFloats_of_asInts (h xs hxs)).symm
  · have hjoint : jointType rows = .float := by
      by_contra hne
      exact h (jointType_ne_float_iff.1 hne)
    rw [concat_of_float hjoint, asFloats]

/-! ## Rows one after another -/

theorem concat_singleton (xs : Numbers) : concat [xs] = xs := by
  cases xs <;> simp [concat, jointType, type, NumberType.join, asBools, asInts, asFloats]

/-- Parts that were put together first. -/
theorem concat_append (rows rows' : List Numbers) : concat (rows ++ rows') = concat [concat rows, concat rows'] := by
  have hparts : jointType [concat rows, concat rows'] = jointType (rows ++ rows') := by
    rw [jointType_append, jointType_cons, jointType_cons, type_concat, type_concat]
    exact congrArg _ (NumberType.join_bool _)
  cases hjoint : jointType (rows ++ rows') with
  | bool =>
    obtain ⟨hrows, hrows'⟩ := List.forall_mem_append.1 (jointType_eq_bool_iff.1 hjoint)
    rw [concat_of_bool hjoint, concat_of_bool (hparts.trans hjoint), concat_of_bools hrows, concat_of_bools hrows']
    simp [asBools]
  | int =>
    have hne : jointType (rows ++ rows') ≠ .float := by
      rw [hjoint]
      exact NumberType.noConfusion
    obtain ⟨hrows, hrows'⟩ := List.forall_mem_append.1 (jointType_ne_float_iff.1 hne)
    rw [concat_of_int hjoint, concat_of_int (hparts.trans hjoint)]
    simp [asInts_concat hrows, asInts_concat hrows']
  | float =>
    rw [concat_of_float hjoint, concat_of_float (hparts.trans hjoint)]
    simp [asFloats_concat]

end Numbers

end Tacit
