/-
The numeric operations pair by pair. Whether two rows of numbers have a result, and of which type it is,
depends on their types alone; the result is then made from one pair of numbers at a time.
-/
import Tacit.Number.Kernel
import Mathlib.Tactic

namespace Tacit

/-! ## Rows of one type -/

/-- The values of a type of number. -/
def NumberType.Value : NumberType → Type
  | .bool => Bool
  | .int => Int32
  | .float => Float32

/-- Whether a value is without a fraction. -/
def NumberType.isWhole : (t : NumberType) → t.Value → Bool
  | .float, x => Binary32.isWhole x
  | _, _ => true

namespace Numbers

def ofType : (t : NumberType) → List t.Value → Numbers
  | .bool, xs => bools xs
  | .int, xs => ints xs
  | .float, xs => floats xs

theorem exists_ofType (xs : Numbers) : ∃ t values, xs = ofType t values := by
  cases xs with
  | bools bs => exact ⟨.bool, bs, rfl⟩
  | ints ns => exact ⟨.int, ns, rfl⟩
  | floats fs => exact ⟨.float, fs, rfl⟩

@[simp] theorem type_ofType (t : NumberType) (xs : List t.Value) : (ofType t xs).type = t := by
  cases t <;> rfl

@[simp] theorem length_ofType (t : NumberType) (xs : List t.Value) : (ofType t xs).length = xs.length := by
  cases t <;> rfl

theorem rearrange_ofType (f : {α : Type} → List α → List α) (t : NumberType) (xs : List t.Value) :
    (ofType t xs).rearrange f = ofType t (f xs) := by
  cases t <;> rfl

theorem areWhole_ofType (t : NumberType) (xs : List t.Value) :
    (ofType t xs).areWhole = xs.all t.isWhole := by
  cases t with
  | float => rfl
  | bool => exact (List.all_eq_true.2 fun _ _ => rfl).symm
  | int => exact (List.all_eq_true.2 fun _ _ => rfl).symm

/-- The row is made value by value. -/
def ByValues {α β : Type} (g : List α → List β) : Prop := ∃ f : α → β, ∀ xs, g xs = xs.map f

theorem byValues_asInts (t : NumberType) : ByValues fun xs => (ofType t xs).asInts := by
  cases t with
  | bool => exact ⟨ofBool, fun _ => rfl⟩
  | int => exact ⟨id, fun xs => (List.map_id xs).symm⟩
  | float => exact ⟨Binary32.toInt32, fun _ => rfl⟩

theorem byValues_asFloats (t : NumberType) : ByValues fun xs => (ofType t xs).asFloats := by
  cases t with
  | bool => exact ⟨fun b => bif b then 1 else 0, fun xs => List.map_congr_left fun b _ => by cases b <;> rfl⟩
  | int => exact ⟨toFloat, fun _ => rfl⟩
  | float => exact ⟨id, fun xs => (List.map_id xs).symm⟩

end Numbers

/-! ## Pairs -/

open Numbers

/-- The numbers are made of one pair of values at a time, and all of one type. -/
def ByPairs {α β : Type} (k : List α → List β → Numbers) : Prop :=
  ∃ (t : NumberType) (f : α → β → t.Value), ∀ xs ys, k xs ys = ofType t (xs.zipWith f ys)

theorem ByPairs.comp {α β γ δ : Type} {k : List α → List β → Numbers} (h : ByPairs k)
    {left : List γ → List α} {right : List δ → List β} (hl : ByValues left) (hr : ByValues right) :
    ByPairs fun xs ys => k (left xs) (right ys) := by
  obtain ⟨t, pair, hpair⟩ := h
  obtain ⟨f, hf⟩ := hl
  obtain ⟨g, hg⟩ := hr
  refine ⟨t, fun x y => pair (f x) (g y), fun xs ys => ?_⟩
  show k (left xs) (right ys) = _
  rw [hf, hg, hpair, List.zipWith_map]

namespace Dyadic

theorem byPairs_onInts (op : Dyadic) : ByPairs op.onInts := by
  cases op with
  | divide => exact ⟨.float, _, fun _ _ => rfl⟩
  | _ => exact ⟨.int, _, fun _ _ => rfl⟩

theorem byPairs_onFloats (op : Dyadic) : ByPairs op.onFloats := by
  cases op with
  | equal | notEqual | less | lessEqual | greater | greaterEqual => exact ⟨.int, _, fun _ _ => rfl⟩
  | _ => exact ⟨.float, _, fun _ _ => rfl⟩

/-- Truth values have no sums, differences and products. -/
theorem onBools_cases (op : Dyadic) :
    (∀ xs ys, op.onBools xs ys = .error (.substrate .booleanArithmetic)) ∨
    ∃ k, ByPairs k ∧ ∀ xs ys, op.onBools xs ys = .ok (k xs ys) := by
  cases op with
  | add | subtract | multiply => exact .inl fun _ _ => rfl
  | divide => exact .inr ⟨_, ⟨.float, _, fun _ _ => rfl⟩, fun _ _ => rfl⟩
  | minimum | maximum => exact .inr ⟨_, ⟨.bool, _, fun _ _ => rfl⟩, fun _ _ => rfl⟩
  | _ => exact .inr ⟨_, ⟨.int, _, fun _ _ => rfl⟩, fun _ _ => rfl⟩

/-- Only truth values can be without a result; everything else is done pair by pair. -/
theorem kernel_cases (op : Dyadic) (t u : NumberType) :
    (t = .bool ∧ u = .bool ∧
      ∀ xs ys, op.kernel (ofType t xs) (ofType u ys) = .error (.substrate .booleanArithmetic)) ∨
    ∃ k, ByPairs k ∧ ∀ xs ys, op.kernel (ofType t xs) (ofType u ys) = .ok (k xs ys) := by
  unfold kernel
  simp only [type_ofType]
  cases hjoin : t.join u with
  | int =>
    exact .inr ⟨_, op.byPairs_onInts.comp (byValues_asInts t) (byValues_asInts u), fun _ _ => rfl⟩
  | float =>
    exact .inr ⟨_, op.byPairs_onFloats.comp (byValues_asFloats t) (byValues_asFloats u), fun _ _ => rfl⟩
  | bool =>
    obtain ⟨rfl, rfl⟩ : t = .bool ∧ u = .bool := by cases t <;> cases u <;> simp_all [NumberType.join]
    rcases op.onBools_cases with h | ⟨k, hk, h⟩
    · exact .inl ⟨rfl, rfl, fun xs ys => h xs ys⟩
    · exact .inr ⟨k, hk, fun xs ys => h xs ys⟩

end Dyadic

end Tacit
