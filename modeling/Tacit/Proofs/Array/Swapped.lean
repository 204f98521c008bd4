/-
Operands exchanged. Sums, products, extremes and equality are the same whichever operand comes first, and an
order is the opposite order with the operands exchanged: for plain arrays of all kinds and shapes, and
through boxes at any depth. Where one order of the operands fails, so does the other.
-/
import Tacit.Proofs.Array.Results

namespace Tacit

/-- A binary32 number, whatever it is. -/
def Number.IsFloat : Number → Prop
  | .float _ => True
  | _ => False

/-! ## Rows of numbers -/

namespace Dyadic

/-- Two operations that do the same when the operands of one change places. -/
inductive SwapsTo : Dyadic → Dyadic → Prop
  | add : SwapsTo .add .add
  | multiply : SwapsTo .multiply .multiply
  | minimum : SwapsTo .minimum .minimum
  | maximum : SwapsTo .maximum .maximum
  | equal : SwapsTo .equal .equal
  | notEqual : SwapsTo .notEqual .notEqual
  | less : SwapsTo .less .greater
  | lessEqual : SwapsTo .lessEqual .greaterEqual

namespace SwapsTo

variable {op op' : Dyadic}

theorem onBools (h : op.SwapsTo op') (xs ys : List Bool) : op.onBools xs ys = op'.onBools ys xs := by
  cases h with
  | add | multiply => rfl
  | minimum => exact congrArg (pure <| Numbers.bools ·) (zipWith_swap Bool.and_comm xs ys)
  | maximum => exact congrArg (pure <| Numbers.bools ·) (zipWith_swap Bool.or_comm xs ys)
  | equal | notEqual | less | lessEqual =>
    refine congrArg (pure <| Numbers.ints ·) (zipWith_swap (fun x y => ?_) xs ys)
    cases x <;> cases y <;> rfl

/-- On integers no operand comes first. -/
theorem onInts (h : op.SwapsTo op') (xs ys : List Int32) : op.onInts xs ys = op'.onInts ys xs := by
  cases h with
  | add => exact congrArg Numbers.ints (zipWith_swap Int32.add_comm xs ys)
  | multiply => exact congrArg Numbers.ints (zipWith_swap Int32.mul_comm xs ys)
  | minimum | maximum =>
    refine congrArg Numbers.ints (zipWith_swap (fun x y => ?_) xs ys)
    -- where neither is the lesser, both are the same
    grind
  | equal | notEqual =>
    refine congrArg Numbers.ints (zipWith_swap (fun x y => ?_) xs ys)
    simp only [compares, Bool.beq_comm]
  | less | lessEqual =>
    refine congrArg Numbers.ints (zipWith_swap (fun x y => ?_) xs ys)
    simp only [compares, Bool.beq_comm]

theorem onFloats_nil (h : op.SwapsTo op') {xs ys : List Float32} (hnil : xs = [] ∨ ys = []) :
    op.onFloats xs ys = op'.onFloats ys xs := by
  rcases hnil with rfl | rfl <;> cases h <;> simp [onFloats]

/-- Floats apart, which of two rows comes first is all one. -/
theorem kernel (h : op.SwapsTo op') {xs ys : Numbers} (hx : xs.type = .float → xs.length = 0)
    (hy : ys.type = .float → ys.length = 0) : op.kernel xs ys = op'.kernel ys xs := by
  have hjoin : ys.type.join xs.type = xs.type.join ys.type := by cases xs.type <;> cases ys.type <;> rfl
  unfold Dyadic.kernel
  rw [hjoin]
  cases htype : xs.type.join ys.type with
  | bool => exact h.onBools _ _
  | int => exact congrArg pure (h.onInts _ _)
  | float =>
    -- a joint type of floats is that of a row of floats, which then is empty
    have hfloat : xs.type = .float ∨ ys.type = .float := by
      revert htype
      cases xs.type <;> cases ys.type <;> decide
    refine congrArg pure (h.onFloats_nil (hfloat.imp (fun hf => ?_) fun hf => ?_))
    · exact List.eq_nil_of_length_eq_zero ((Tensor.length_asFloats xs).trans (hx hf))
    · exact List.eq_nil_of_length_eq_zero ((Tensor.length_asFloats ys).trans (hy hf))

end SwapsTo
end Dyadic

/-! ## Plain arrays -/

namespace Tensor

/-- What is spread is of the type of the elements, and without floats it is of the type of floats only where
there is nothing. -/
theorem length_spreadOver {t : Tensor} (ht : t.EveryNumber fun x => ¬x.IsFloat) (s : Shape) :
    (t.spreadOver s).type = .float → (t.spreadOver s).length = 0 := by
  intro htype
  cases ht with
  | characters | boxes => cases htype
  | @numbers s' xs hxs =>
    cases xs with
    | bools | ints => cases htype
    | floats fs =>
      have hnil : fs = [] := List.eq_nil_iff_forall_not_mem.2 fun x hx =>
        hxs (.float x) (List.mem_map_of_mem hx) trivial
      subst hnil
      rfl

section

variable {op op' : Dyadic}

theorem resultKind_swap (h : op.SwapsTo op') (left right : Kind) :
    resultKind op left right = resultKind op' right left := by
  cases h <;> cases left <;> cases right <;> rfl

theorem applyPlain_swap (h : op.SwapsTo op') {t u : Tensor} (ht : t.EveryNumber fun x => ¬x.IsFloat)
    (hu : u.EveryNumber fun x => ¬x.IsFloat) (s : Shape) (c : Tensor) :
    applyPlain op t u s = .ok c ↔ applyPlain op' u t s = .ok c := by
  unfold applyPlain
  rw [resultKind_swap h]
  cases resultKind op' u.kind t.kind with
  | none =>
    cases h with
    | equal | notEqual => exact Iff.rfl
    | _ => exact ⟨nofun, nofun⟩
  | some kind =>
    dsimp only
    rw [h.kernel (length_spreadOver ht s) (length_spreadOver hu s)]
    by_cases hfraction : kind = .character ∧ (t.hasFraction = true ∨ u.hasFraction = true)
    · rw [if_pos hfraction, if_pos ⟨hfraction.1, hfraction.2.symm⟩]
      exact ⟨nofun, nofun⟩
    · rw [if_neg hfraction, if_neg fun h' => hfraction ⟨h'.1, h'.2.symm⟩]

/-! ## Through boxes -/

/-- By induction on the boxes of both operands: plain arrays meet at once, and pairs of elements are the same
pairs with their sides exchanged. -/
theorem apply_swap (h : op.SwapsTo op') {t u : Tensor} (ht : t.WellFormed) (hu : u.WellFormed) :
    t.EveryNumber (¬·.IsFloat) → u.EveryNumber (¬·.IsFloat) →
      ∀ c, apply op t u = .ok c ↔ apply op' u t = .ok c := by
  refine ht.pairs (P := fun t u => t.EveryNumber (¬·.IsFloat) → u.EveryNumber (¬·.IsFloat) →
    ∀ c, apply op t u = .ok c ↔ apply op' u t = .ok c) ?_ ?_ hu
  · intro t u _ _ htk huk htf huf c
    unfold apply
    rw [pervade_plain _ _ htk huk, pervade_plain _ _ huk htk, Except.bind_eq_ok_iff, Except.bind_eq_ok_iff]
    exact exists_congr fun s => and_congr Shape.agree_swap (applyPlain_swap h htf huf s c)
  · intro t u ht hu hbox ih htf huf c
    unfold apply at ih ⊢
    rw [pervade_boxes_eq_ok_iff _ _ ht.full hu.full hbox, pervade_boxes_eq_ok_iff _ _ hu.full ht.full hbox.symm]
    refine exists_congr fun s => and_congr Shape.agree_swap (exists_congr fun cs => and_congr_left' ?_)
    rw [← List.zip_swap, List.mapM_map]
    refine Except.mapM_eq_ok_congr (fun p hp => ?_) cs
    obtain ⟨hleft, hright⟩ := List.of_mem_zip hp
    have hp₁ := mem_of_mem_spreadTo hleft
    have hp₂ := mem_of_mem_spreadTo hright
    exact ih p.2 hp₂ p.1 hp₁ (htf.boxedElements p.2 hp₂) (huf.boxedElements p.1 hp₁)

theorem applyNamed_name (op : Dyadic) : applyNamed op.name = apply op := by cases op <;> rfl

end

/-- Without floats, sums, products, extremes and equality do not depend on which operand comes first, and
`less` and `less_equal` are `greater` and `greater_equal` with the operands exchanged: whatever the kinds,
the shapes and the boxes of two arrays, both fail or both give the same array. -/
theorem applyNamed_swap {op op' : Dyadic} (h : op.SwapsTo op') {a b : Tensor} (ha : a.WellFormed)
    (hb : b.WellFormed) (hafloat : a.EveryNumber (¬·.IsFloat)) (hbfloat : b.EveryNumber (¬·.IsFloat))
    (c : Tensor) : applyNamed op.name a b = .ok c ↔ applyNamed op'.name b a = .ok c := by
  rw [applyNamed_name, applyNamed_name]
  exact apply_swap h ha hb hafloat hbfloat c

/-- Integers and truth values in boxes beside integers: the second row meets a box. -/
theorem applyNamed_swap_nested :
    let a := boxes [ofInts [2] [1, 5], box (ofNumbers [] (.bools [true]))]
    let b := ofInts [2] [3, 2]
    let c := boxes [ofInts [2] [1, 0], box (int 1)]
    applyNamed "less" a b = .ok c ∧ applyNamed "greater" b a = .ok c := by
  intro a b c
  have ha : a.WellFormed := by
    refine wellFormed_boxes ?_
    simp only [List.mem_cons, List.not_mem_nil, or_false]
    rintro t (rfl | rfl)
    · exact wellFormed_ofInts rfl
    · exact WellFormed.box (.of_plain rfl (by decide))
  have hafloat : a.EveryNumber (¬·.IsFloat) := by
    refine .boxes ?_
    simp only [List.mem_cons, List.not_mem_nil, or_false]
    rintro t (rfl | rfl)
    · exact .numbers (by simp [Numbers.toList, Number.IsFloat])
    · exact .boxes (by simpa using .numbers (by simp [Numbers.toList, Number.IsFloat]))
  have hbfloat : b.EveryNumber (¬·.IsFloat) := .numbers (by simp [Numbers.toList, Number.IsFloat])
  have hless : applyNamed "less" a b = .ok c := rfl
  exact ⟨hless, (applyNamed_swap .less ha (wellFormed_ofInts rfl) hafloat hbfloat c).1 hless⟩

end Tensor

end Tacit
