/-
An operation that reaches every element does the same to elements in boxes. On plain arrays it is one
pass over rows of numbers, each row spread over the longer shape; through boxes it is one call for each
pair of elements. The two agree because what a pass makes of two rows is told by the types of the
elements and by what it makes of single elements.
-/
import Tacit.Proofs.Array.Cells
import Tacit.Proofs.Array.Rows
import Tacit.Proofs.Fault.Tame
import Tacit.Proofs.Number.Pairwise

namespace Tacit

/-! ## Types of elements -/

/-- What the elements of an array without boxes are. -/
inductive Leaf where
  | number (type : NumberType)
  | character

namespace Leaf

/-- Characters count as integers. -/
def type : Leaf → NumberType
  | number t => t
  | character => .int

abbrev Value (l : Leaf) : Type := l.type.Value

def kind : Leaf → Kind
  | number _ => .number
  | character => .character

def isWhole : (l : Leaf) → l.Value → Bool
  | number t, x => t.isWhole x
  | character, _ => true

def elements : (l : Leaf) → List l.Value → Elements Tensor
  | number t, xs => .numbers (.ofType t xs)
  | character, xs => .characters xs

/-- The array with the elements given. -/
def array (l : Leaf) (s : Shape) (xs : List l.Value) : Tensor := ⟨s, l.elements xs⟩

def scalar (l : Leaf) (x : l.Value) : Tensor := l.array [] [x]

variable (l : Leaf) (s : Shape) (xs : List l.Value)

theorem length_elements : (l.elements xs).length = xs.length := by
  cases l with
  | number t => exact Numbers.length_ofType t xs
  | character => rfl

theorem kind_array : (l.array s xs).kind = l.kind := by cases l <;> rfl

theorem hasFraction_array : (l.array s xs).hasFraction = !xs.all l.isWhole := by
  cases l with
  | number t => exact congrArg (!·) (Numbers.areWhole_ofType t xs)
  | character =>
    have hall : xs.all (isWhole character) = true := List.all_eq_true.2 fun _ _ => rfl
    rw [hall]
    rfl

theorem spreadOver_array (s' : Shape) :
    (l.array s xs).spreadOver s' = .ofType l.type (spreadTo s s' xs) := by
  cases l with
  | number t => exact Numbers.rearrange_ofType _ t xs
  | character => rfl

theorem blocks_elements (n k : Nat) : (l.elements xs).blocks n k = (Tacit.blocks n k xs).map l.elements := by
  cases l with
  | number t => cases t <;> rfl
  | character => rfl

theorem pick_elements (ps : List Nat) : (l.elements xs).pick ps = l.elements (pick ps xs) := by
  cases l with
  | number t => exact congrArg Elements.numbers (Numbers.rearrange_ofType (pick ps) t xs)
  | character => rfl

theorem rows_array (n : Nat) : (l.array (n :: s) xs).rows = (Tacit.blocks n s.size xs).map (l.array s) := by
  show ((l.elements xs).blocks n s.size).map (Tensor.mk s) = _
  rw [blocks_elements, List.map_map]
  rfl

theorem scalars_array : (l.array s xs).scalars = xs.map l.scalar := by
  show ((l.elements xs).blocks (l.elements xs).length 1).map (Tensor.mk []) = _
  rw [length_elements, blocks_elements, blocks_one, List.map_map, List.map_map]
  rfl

theorem boxedElements_array : (l.array s xs).boxedElements = xs.map l.scalar := by
  rw [← l.scalars_array s xs]
  cases l <;> rfl

theorem exists_array {t : Tensor} (h : t.kind ≠ .box) : ∃ l s xs, t = array l s xs := by
  obtain ⟨s, e⟩ := t
  cases e with
  | numbers ns =>
    obtain ⟨type, values, rfl⟩ := ns.exists_ofType
    exact ⟨number type, s, values, rfl⟩
  | characters cs => exact ⟨character, s, cs, rfl⟩
  | boxes ts => exact absurd rfl h

end Leaf

namespace Tensor

/-! ## Plain operations pair by pair -/

section

variable (plain : Tensor → Tensor → Shape → Except Fault Tensor) {l r : Leaf}

/-- The operation makes an element of each pair by `f`, if `p` and `q` permit all elements. -/
def PairsBy {out : Leaf} (f : l.Value → r.Value → out.Value) (p : l.Value → Bool) (q : r.Value → Bool)
    (fault : Fault) : Prop :=
  ∀ s₁ s₂ s xs ys, (spreadTo s₁ s xs).length = s.size → (spreadTo s₂ s ys).length = s.size →
    plain (l.array s₁ xs) (r.array s₂ ys) s =
      if (∀ x ∈ xs, p x) ∧ ∀ y ∈ ys, q y then
        .ok (out.array s (List.zipWith f (spreadTo s₁ s xs) (spreadTo s₂ s ys)))
      else .error fault

variable (l r) in
/-- What a plain operation makes of elements of two types: a fault, whatever they are, or an element of
each pair. -/
inductive Elementwise : Prop
  | fails (fault : Fault) (h : ∀ s₁ s₂ s xs ys, plain (l.array s₁ xs) (r.array s₂ ys) s = .error fault)
  | pairs {out : Leaf} {f : l.Value → r.Value → out.Value} {p : l.Value → Bool} {q : r.Value → Bool}
      {fault : Fault} (h : PairsBy plain f p q fault)

end

section

variable {op : Dyadic} {l r : Leaf}

/-- What a comparison gives for elements of different kinds. -/
def unlike? : Dyadic → Option Int32
  | .equal => some 0
  | .notEqual => some 1
  | _ => none

theorem applyPlain_none (h : resultKind op l.kind r.kind = none) (s₁ s₂ s : Shape) (xs : List l.Value)
    (ys : List r.Value) : applyPlain op (l.array s₁ xs) (r.array s₂ ys) s =
      match unlike? op with
      | some n => pure (ofInts s (List.replicate s.size n))
      | none => throw (.domain (.kinds op.name l.kind r.kind)) := by
  unfold applyPlain
  rw [l.kind_array, r.kind_array, h]
  cases op <;> rfl

theorem applyPlain_some {kind : Kind} (h : resultKind op l.kind r.kind = some kind) (s₁ s₂ s : Shape)
    (xs : List l.Value) (ys : List r.Value) : applyPlain op (l.array s₁ xs) (r.array s₂ ys) s =
      if kind = .character ∧ ¬((∀ x ∈ xs, l.isWhole x) ∧ ∀ y ∈ ys, r.isWhole y) then
        throw (.domain (.fractionalOffset op.name))
      else return ⟨s, ofKind kind (← op.kernel (.ofType l.type (spreadTo s₁ s xs))
        (.ofType r.type (spreadTo s₂ s ys)))⟩ := by
  have hguard : ((l.array s₁ xs).hasFraction = true ∨ (r.array s₂ ys).hasFraction = true) ↔
      ¬((∀ x ∈ xs, l.isWhole x) ∧ ∀ y ∈ ys, r.isWhole y) := by
    rw [l.hasFraction_array, r.hasFraction_array, Bool.not_eq_true', Bool.not_eq_true', not_and_or,
      ← List.all_eq_true, ← List.all_eq_true, Bool.not_eq_true, Bool.not_eq_true]
  unfold applyPlain
  rw [l.kind_array, r.kind_array, h, l.spreadOver_array, r.spreadOver_array]
  simp only [hguard]

theorem elementwise_none (h : resultKind op l.kind r.kind = none) : Elementwise (applyPlain op) l r := by
  cases hunlike : unlike? op with
  | none =>
    refine .fails (.domain (.kinds op.name l.kind r.kind)) fun s₁ s₂ s xs ys => ?_
    rw [applyPlain_none h, hunlike]
    rfl
  | some n =>
    let fill : l.Value → r.Value → (Leaf.number .int).Value := fun _ _ => n
    have hfill : PairsBy (applyPlain op) fill (fun _ => true) (fun _ => true) .functionValue := by
      intro s₁ s₂ s xs ys hx hy
      rw [applyPlain_none h, hunlike, if_pos (by simp)]
      exact congrArg (fun ns => Except.ok (ofInts s ns)) (zipWith_const n hx hy).symm
    exact .pairs hfill

theorem elementwise_applyPlain (op : Dyadic) (l r : Leaf) : Elementwise (applyPlain op) l r := by
  cases hkind : resultKind op l.kind r.kind with
  | none => exact elementwise_none hkind
  | some kind =>
    rcases op.kernel_cases l.type r.type with ⟨hl, hr, hk⟩ | ⟨k, ⟨t, f, hf⟩, hk⟩
    · refine .fails (.substrate .booleanArithmetic) fun s₁ s₂ s xs ys => ?_
      -- truth values on both sides never make characters, so no fraction is looked for first
      have hne : kind ≠ .character := by
        cases l with
        | character => cases hl
        | number =>
          cases r with
          | character => cases hr
          | number =>
            rintro rfl
            cases op <;> cases hkind
      rw [applyPlain_some hkind, if_neg (by simp [hne]), hk]
      rfl
    · cases kind with
      | character =>
        obtain ⟨g, hg⟩ := Numbers.byValues_asInts t
        let pair : l.Value → r.Value → Leaf.character.Value := fun x y => g (f x y)
        have hpairs : PairsBy (applyPlain op) pair l.isWhole r.isWhole (.domain (.fractionalOffset op.name)) := by
          intro s₁ s₂ s xs ys _ _
          rw [applyPlain_some hkind]
          by_cases hwhole : (∀ x ∈ xs, l.isWhole x) ∧ ∀ y ∈ ys, r.isWhole y
          · rw [if_neg fun h => h.2 hwhole, if_pos hwhole, hk, hf]
            exact congrArg (fun cs => Except.ok (Tensor.mk s (.characters cs))) ((hg _).trans List.map_zipWith)
          · rw [if_pos ⟨rfl, hwhole⟩, if_neg hwhole]
            rfl
        exact .pairs hpairs
      | number | box =>
        let pair : l.Value → r.Value → (Leaf.number t).Value := f
        have hpairs : PairsBy (applyPlain op) pair (fun _ => true) (fun _ => true) .functionValue := by
          intro s₁ s₂ s xs ys _ _
          rw [applyPlain_some hkind, if_neg (by simp), if_pos (by simp), hk, hf]
          rfl
        exact .pairs hpairs

theorem elementwise_applyUnknown (name : String) (l r : Leaf) :
    Elementwise (fun left right _ => applyUnknown name left right) l r := by
  refine .fails (if l.kind = .number ∧ r.kind = .number then .domain (.unknownOperation name)
    else .domain (.kinds name l.kind r.kind)) fun s₁ s₂ s xs ys => ?_
  unfold applyUnknown
  rw [l.kind_array, r.kind_array]
  split <;> rfl

end

/-! ## Elements in boxes -/

/-- Each element in a box of its own. -/
def boxEach (t : Tensor) : Tensor := ⟨t.shape, .boxes t.scalars⟩

/-- The operation on single elements, one pair after another. -/
def pairUp (plain : Tensor → Tensor → Shape → Except Fault Tensor) (l r : Leaf) (xs : List l.Value)
    (ys : List r.Value) : Except Fault (List Tensor) :=
  (xs.zip ys).mapM fun p => plain (l.scalar p.1) (r.scalar p.2) []

section

variable {plain : Tensor → Tensor → Shape → Except Fault Tensor} {l r : Leaf} {s₁ s₂ s : Shape}
  {xs : List l.Value} {ys : List r.Value}

namespace PairsBy

variable {out : Leaf} {f : l.Value → r.Value → out.Value} {p : l.Value → Bool} {q : r.Value → Bool}
  {fault : Fault}

theorem scalar (h : PairsBy plain f p q fault) (x : l.Value) (y : r.Value) :
    plain (l.scalar x) (r.scalar y) [] = if p x ∧ q y then .ok (out.scalar (f x y)) else .error fault := by
  refine (h [] [] [] [x] [y] rfl rfl).trans ?_
  simp only [List.forall_mem_singleton]
  rfl

theorem pairUp (h : PairsBy plain f p q fault) (hlength : xs.length = ys.length) (s : Shape) :
    pairUp plain l r xs ys =
      if (∀ x ∈ xs, p x) ∧ ∀ y ∈ ys, q y then .ok (out.array s (List.zipWith f xs ys)).scalars
      else .error fault := by
  unfold Tensor.pairUp
  simp only [h.scalar]
  rw [Except.mapM_ite (p := fun z : l.Value × r.Value => p z.1 ∧ q z.2), out.scalars_array,
    List.map_zipWith, List.map_zip_eq_zipWith]
  simp only [forall_zip hlength]
  rfl

end PairsBy

namespace Elementwise

/-- What one pass over the spread elements gives, one call for each pair gives too. -/
theorem pairUp_ok (h : Elementwise plain l r) (hx : (spreadTo s₁ s xs).length = s.size)
    (hy : (spreadTo s₂ s ys).length = s.size) {c : Tensor}
    (hc : plain (l.array s₁ xs) (r.array s₂ ys) s = .ok c) :
    c.shape = s ∧ pairUp plain l r (spreadTo s₁ s xs) (spreadTo s₂ s ys) = .ok c.scalars := by
  cases h with
  | fails fault h =>
    rw [h] at hc
    cases hc
  | @pairs _ _ p q _ h =>
    rw [h _ _ _ _ _ hx hy] at hc
    by_cases hall : (∀ x ∈ xs, p x) ∧ ∀ y ∈ ys, q y
    · rw [if_pos hall] at hc
      cases hc
      refine ⟨rfl, (h.pairUp (hx.trans hy.symm) s).trans (if_pos ?_)⟩
      exact ⟨fun x hx => hall.1 x (mem_of_mem_spreadTo hx), fun y hy => hall.2 y (mem_of_mem_spreadTo hy)⟩
    · rw [if_neg hall] at hc
      cases hc

/-- A fault of the pass is the fault of some pair, if there is one: every element then stands in a pair. -/
theorem pairUp_error (h : Elementwise plain l r) (hx : (spreadTo s₁ s xs).length = s.size)
    (hy : (spreadTo s₂ s ys).length = s.size) (hsize : 0 < s.size) {fault : Fault}
    (hfault : plain (l.array s₁ xs) (r.array s₂ ys) s = .error fault) :
    pairUp plain l r (spreadTo s₁ s xs) (spreadTo s₂ s ys) = .error fault := by
  cases h with
  | fails fault' h =>
    rw [h] at hfault
    cases hfault
    have hpair : (fun z : l.Value × r.Value => plain (l.scalar z.1) (r.scalar z.2) []) = fun _ => .error fault :=
      funext fun z => h [] [] [] [z.1] [z.2]
    unfold pairUp
    rw [hpair]
    refine Except.mapM_error fault (List.ne_nil_of_length_pos ?_)
    rw [List.length_zip, hx, hy, Nat.min_self]
    exact hsize
  | @pairs _ _ p q _ h =>
    rw [h _ _ _ _ _ hx hy] at hfault
    by_cases hall : (∀ x ∈ xs, p x) ∧ ∀ y ∈ ys, q y
    · rw [if_pos hall] at hfault
      cases hfault
    · rw [if_neg hall] at hfault
      cases hfault
      refine (h.pairUp (hx.trans hy.symm) s).trans (if_neg fun hspread => hall ?_)
      constructor
      · intro x hmem
        exact hspread.1 x ((mem_spreadTo (by rwa [hx])).2 hmem)
      · intro y hmem
        exact hspread.2 y ((mem_spreadTo (by rwa [hy])).2 hmem)

end Elementwise

end

section

variable (name : String) (plain : Tensor → Tensor → Shape → Except Fault Tensor)

variable {l r : Leaf} {s₁ s₂ : Shape} {xs : List l.Value} {ys : List r.Value}

theorem pervade_array : pervade name plain (l.array s₁ xs) (r.array s₂ ys) =
    (do plain (l.array s₁ xs) (r.array s₂ ys) (← s₁.agree s₂ name)) := by
  cases l <;> cases r <;> rfl

theorem pervadeRight_scalar (x : l.Value) (y : r.Value) :
    pervadeRight name plain (l.scalar x) (r.scalar y) = plain (l.scalar x) (r.scalar y) [] := by
  cases r <;> rfl

theorem pervade_scalar (x : l.Value) (y : r.Value) :
    pervade name plain (l.scalar x) (r.scalar y) = plain (l.scalar x) (r.scalar y) [] :=
  pervade_array name plain

theorem spread_lengths {s : Shape} (hagree : s₁.agree s₂ name = .ok s) (hx : (l.array s₁ xs).Full)
    (hy : (r.array s₂ ys).Full) :
    (spreadTo s₁ s xs).length = s.size ∧ (spreadTo s₂ s ys).length = s.size := by
  obtain ⟨hleft, hright⟩ := Shape.prefix_of_agree hagree
  exact ⟨length_spreadTo hleft ((l.length_elements xs).symm.trans hx),
    length_spreadTo hright ((r.length_elements ys).symm.trans hy)⟩

theorem zip_scalars (s : Shape) : (spreadTo s₁ s (xs.map l.scalar)).zip (spreadTo s₂ s (ys.map r.scalar)) =
    ((spreadTo s₁ s xs).zip (spreadTo s₂ s ys)).map (Prod.map l.scalar r.scalar) := by
  unfold spreadTo
  rw [← map_spread, ← map_spread, List.zip_map]

/-- Boxes on the left that hold single elements. -/
theorem pervadeLefts_scalars {s : Shape} (h : (spreadTo s₁ s xs).length = (spreadTo s₂ s ys).length) :
    pervadeLefts name plain (xs.map l.scalar) (Shape.size (s.drop s₁.length)) (spreadTo s₂ s (ys.map r.scalar)) =
      pairUp plain l r (spreadTo s₁ s xs) (spreadTo s₂ s ys) := by
  have hlength : (spreadTo s₂ s (ys.map r.scalar)).length =
      (xs.map l.scalar).length * Shape.size (s.drop s₁.length) := by
    rw [spreadTo, ← map_spread, List.length_map, List.length_map, ← length_spread]
    exact h.symm
  rw [pervadeLefts_eq name plain _ _ _ hlength]
  show ((spreadTo s₁ s (xs.map l.scalar)).zip (spreadTo s₂ s (ys.map r.scalar))).mapM _ = _
  rw [zip_scalars, List.mapM_map]
  exact congrArg (List.mapM · _) (funext fun p => pervade_scalar name plain p.1 p.2)

/-- Boxes on the right that hold single elements. -/
theorem pervadeRights_scalars {s : Shape} (h : (spreadTo s₁ s xs).length = (spreadTo s₂ s ys).length) :
    pervadeRights name plain (spreadTo s₁ s (xs.map l.scalar)) (Shape.size (s.drop s₂.length)) (ys.map r.scalar) =
      pairUp plain l r (spreadTo s₁ s xs) (spreadTo s₂ s ys) := by
  have hlength : (spreadTo s₁ s (xs.map l.scalar)).length =
      (ys.map r.scalar).length * Shape.size (s.drop s₂.length) := by
    rw [spreadTo, ← map_spread, List.length_map, List.length_map, ← length_spread]
    exact h
  rw [pervadeRights_eq name plain _ _ _ hlength]
  show ((spreadTo s₁ s (xs.map l.scalar)).zip (spreadTo s₂ s (ys.map r.scalar))).mapM _ = _
  rw [zip_scalars, List.mapM_map]
  exact congrArg (List.mapM · _) (funext fun p => pervadeRight_scalar name plain p.1 p.2)

/-- The boxes of the pairs over the shape that the operands agree on. -/
def pairBoxes (l r : Leaf) (s₁ s₂ : Shape) (xs : List l.Value) (ys : List r.Value) : Except Fault Tensor := do
  let s ← s₁.agree s₂ name
  return ⟨s, .boxes (← pairUp plain l r (spreadTo s₁ s xs) (spreadTo s₂ s ys))⟩

/-- The elements of the left in boxes; those of the right may be in boxes too. -/
theorem pervade_boxEach_left (hx : (l.array s₁ xs).Full) (hy : (r.array s₂ ys).Full) {right : Tensor}
    (hshape : right.shape = s₂) (helements : right.boxedElements = ys.map r.scalar) :
    pervade name plain (l.array s₁ xs).boxEach right = pairBoxes name plain l r s₁ s₂ xs ys := by
  unfold boxEach pairBoxes
  rw [l.scalars_array]
  show pervade name plain ⟨s₁, .boxes (xs.map l.scalar)⟩ right = _
  rw [pervade, rank, hshape, helements]
  cases hagree : s₁.agree s₂ name with
  | error fault => rfl
  | ok s =>
    obtain ⟨hleft, hright⟩ := spread_lengths name hagree hx hy
    show (pervadeLefts name plain _ _ (spreadTo s₂ s (ys.map r.scalar)) >>= fun cells => pure (Tensor.mk s _)) = _
    rw [pervadeLefts_scalars name plain (hleft.trans hright.symm)]
    rfl

theorem pervade_boxEach_right (hx : (l.array s₁ xs).Full) (hy : (r.array s₂ ys).Full) :
    pervade name plain (l.array s₁ xs) (r.array s₂ ys).boxEach = pairBoxes name plain l r s₁ s₂ xs ys := by
  have hright : pervade name plain (l.array s₁ xs) (r.array s₂ ys).boxEach =
      pervadeRight name plain (l.array s₁ xs) ⟨s₂, .boxes (ys.map r.scalar)⟩ := by
    unfold boxEach
    rw [r.scalars_array]
    cases l <;> rfl
  rw [hright, pervadeRight, l.scalars_array]
  unfold pairBoxes
  cases hagree : s₁.agree s₂ name with
  | error fault =>
    show (s₁.agree s₂ name >>= fun s => _) = _
    rw [hagree]
    rfl
  | ok s =>
    obtain ⟨hleft, hright⟩ := spread_lengths name hagree hx hy
    show (s₁.agree s₂ name >>= fun s => _) = _
    rw [hagree]
    show (pervadeRights name plain (spreadTo s₁ s (xs.map l.scalar)) _ _ >>= fun cells => pure (Tensor.mk s _)) = _
    rw [pervadeRights_scalars name plain (hleft.trans hright.symm)]
    rfl

/-- A call through boxes gives the result of the plain call with its elements in boxes; where the result
has elements, a fault of the one is the fault of the other. -/
theorem pairBoxes_eq (h : Elementwise plain l r) (hx : (l.array s₁ xs).Full) (hy : (r.array s₂ ys).Full) :
    (∀ c, pervade name plain (l.array s₁ xs) (r.array s₂ ys) = .ok c →
      pairBoxes name plain l r s₁ s₂ xs ys = .ok c.boxEach) ∧
    ((∀ s, s₁.agree s₂ name = .ok s → 0 < s.size) → ∀ fault,
      pervade name plain (l.array s₁ xs) (r.array s₂ ys) = .error fault ↔
        pairBoxes name plain l r s₁ s₂ xs ys = .error fault) := by
  rw [pervade_array]
  unfold pairBoxes
  cases hagree : s₁.agree s₂ name with
  | error fault => exact ⟨fun c hc => (nomatch hc), fun _ _ => Iff.rfl⟩
  | ok s =>
    obtain ⟨hleft, hright⟩ := spread_lengths name hagree hx hy
    simp only [Except.ok_bind]
    constructor
    · intro c hc
      obtain ⟨hshape, hpairs⟩ := h.pairUp_ok hleft hright hc
      rw [hpairs, ← hshape]
      rfl
    · intro hsize fault
      constructor
      · intro hplain
        rw [h.pairUp_error hleft hright (hsize s rfl) hplain]
        rfl
      · intro hboxed
        cases hplain : plain (l.array s₁ xs) (r.array s₂ ys) s with
        | ok c =>
          rw [(h.pairUp_ok hleft hright hplain).2] at hboxed
          cases hboxed
        | error fault' =>
          rw [h.pairUp_error hleft hright (hsize s rfl) hplain] at hboxed
          cases hboxed
          rfl

end

/-! ## Named operations -/

theorem exists_elementwise (name : String) :
    ∃ plain, applyNamed name = pervade name plain ∧ ∀ l r, Elementwise plain l r := by
  unfold applyNamed
  cases hname : Dyadic.ofName? name with
  | some op =>
    have heq : op.name = name := by simpa using List.find?_some hname
    subst heq
    exact ⟨applyPlain op, rfl, elementwise_applyPlain op⟩
  | none => exact ⟨_, rfl, elementwise_applyUnknown name⟩

/-- With the elements of either operand or of both in boxes, an operation gives what it gives on the
plain arrays, with the elements in boxes; and where the shapes disagree or agree on one with elements,
the faults are the same. -/
theorem applyNamed_boxEach (name : String) {a b : Tensor} (ha : a.Full) (hb : b.Full) (hakind : a.kind ≠ .box)
    (hbkind : b.kind ≠ .box) : ∀ boxed ∈ [applyNamed name a.boxEach b, applyNamed name a b.boxEach,
      applyNamed name a.boxEach b.boxEach],
    (∀ c, applyNamed name a b = .ok c → boxed = .ok c.boxEach) ∧
    ((∀ s, a.shape.agree b.shape name = .ok s → 0 < s.size) →
      ∀ fault, applyNamed name a b = .error fault ↔ boxed = .error fault) := by
  obtain ⟨l, s₁, xs, rfl⟩ := Leaf.exists_array hakind
  obtain ⟨r, s₂, ys, rfl⟩ := Leaf.exists_array hbkind
  obtain ⟨plain, happly, helementwise⟩ := exists_elementwise name
  have hpairs := pairBoxes_eq name plain (helementwise l r) ha hb
  rw [happly]
  intro boxed hboxed
  simp only [List.mem_cons, List.not_mem_nil, or_false] at hboxed
  rcases hboxed with rfl | rfl | rfl
  · rw [pervade_boxEach_left name plain ha hb rfl (r.boxedElements_array s₂ ys)]
    exact hpairs
  · rw [pervade_boxEach_right name plain ha hb]
    exact hpairs
  · have hshape : (r.array s₂ ys).boxEach.shape = s₂ := rfl
    rw [pervade_boxEach_left name plain ha hb hshape (r.scalars_array s₂ ys)]
    exact hpairs

/-- Letters moved on by an integer for each row; products of letters are a fault, boxed or not. -/
theorem applyNamed_boxEach_letters :
    let a := ofInts [2] [1, 2]
    let b : Tensor := ⟨[2, 2], .characters [97, 98, 99, 100]⟩
    let c : Tensor := ⟨[2, 2], .characters [98, 99, 101, 102]⟩
    let fault := Fault.domain (.kinds "multiply" .number .character)
    applyNamed "add" a b = .ok c ∧ applyNamed "add" a.boxEach b = .ok c.boxEach ∧
      applyNamed "add" a b.boxEach = .ok c.boxEach ∧ applyNamed "add" a.boxEach b.boxEach = .ok c.boxEach ∧
      applyNamed "multiply" a b = .error fault ∧ applyNamed "multiply" a.boxEach b = .error fault := by
  intro a b c fault
  have hadd : applyNamed "add" a b = .ok c := rfl
  have hmultiply : applyNamed "multiply" a b = .error fault := rfl
  have ha : a.Full := rfl
  have hb : b.Full := rfl
  have hboxed := applyNamed_boxEach "add" ha hb (by decide) (by decide)
  have hfails := applyNamed_boxEach "multiply" ha hb (by decide) (by decide)
  have hsize : ∀ s, a.shape.agree b.shape "multiply" = .ok s → 0 < s.size := by
    rintro s ⟨⟩
    decide
  refine ⟨hadd, (hboxed _ ?_).1 c hadd, (hboxed _ ?_).1 c hadd, (hboxed _ ?_).1 c hadd, hmultiply,
    ((hfails _ ?_).2 hsize fault).1 hmultiply⟩ <;> simp

end Tensor

end Tacit
