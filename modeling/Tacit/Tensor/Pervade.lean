/-
Operations that reach every element. Two shapes agree if one leads the other: each element of the
array with fewer axes then pairs with a whole cell of the other. Boxes are entered, and the result
stays boxed.
-/
import Tacit.Number.Kernel
import Tacit.Tensor.Basic

namespace Tacit

/-- The longer of two shapes that agree. -/
def Shape.agree (left right : Shape) (name : String) : Except Fault Shape :=
  let (short, long) := if left.length ≤ right.length then (left, right) else (right, left)
  if short.isPrefixOf long then pure long else throw (.shape (.disagree name left right))

namespace Tensor

/-! ## Plain arrays -/

/-- The kind of the result; none if the operation has no meaning for the operands' kinds. -/
def resultKind (op : Dyadic) (left right : Kind) : Option Kind :=
  if op.isComparison then if left = right then some .number else none
  else
    match op, left, right with
    | _, .number, .number => some .number
    | .add, .character, .number | .add, .number, .character => some .character
    | .subtract, .character, .character => some .number
    | .subtract, .character, _ => some .character
    | .minimum, .character, .character | .maximum, .character, .character => some .character
    | _, _, _ => none

/-- Elements as numbers: characters count as their code points. -/
def measure : Elements Tensor → Numbers
  | .numbers xs => xs
  | .characters xs => .ints xs
  | .boxes _ => .ints []

def ofKind (kind : Kind) (xs : Numbers) : Elements Tensor :=
  match kind with
  | .character => .characters xs.asInts
  | _ => .numbers xs

/-- The elements of `t`, each repeated over its cell of the shape `s`. -/
def spreadOver (t : Tensor) (s : Shape) : Numbers :=
  (measure t.elements).rearrange (spread (Shape.size (s.drop t.rank)))

/-- A numeric operand whose values are not whole moves no character. -/
def hasFraction (t : Tensor) : Bool := t.kind == .number && !t.isWhole

/-- The operation on two plain arrays whose shapes agree on `s`. -/
def applyPlain (op : Dyadic) (left right : Tensor) (s : Shape) : Except Fault Tensor :=
  match resultKind op left.kind right.kind with
  | none =>
    match op with
    | .equal => pure (ofInts s (List.replicate s.size 0))
    | .notEqual => pure (ofInts s (List.replicate s.size 1))
    | _ => throw (.domain (.kinds op.name left.kind right.kind))
  | some kind =>
    if kind = .character ∧ (left.hasFraction ∨ right.hasFraction) then
      throw (.domain (.fractionalOffset op.name))
    else return ⟨s, ofKind kind (← op.kernel (left.spreadOver s) (right.spreadOver s))⟩

/-- A name without an operation still fails first on kinds that no arithmetic has. -/
def applyUnknown (name : String) (left right : Tensor) : Except Fault Tensor :=
  if left.kind = .number ∧ right.kind = .number then throw (.domain (.unknownOperation name))
  else throw (.domain (.kinds name left.kind right.kind))

/-! ## Boxes -/

/-- A box's contents, or the elements of a plain array as scalars. -/
def boxedElements (t : Tensor) : List Tensor :=
  match t.elements with
  | .boxes xs => xs
  | _ => t.scalars

section Cells

variable (name : String) (plain : Tensor → Tensor → Shape → Except Fault Tensor)

mutual

/-- The operation with a plain array on the left. -/
def pervadeRight (left : Tensor) : Tensor → Except Fault Tensor
  | ⟨s, .boxes rights⟩ => do
    let shape ← left.shape.agree s name
    let lefts := spread (Shape.size (shape.drop left.rank)) left.scalars
    return ⟨shape, .boxes (← pervadeRights lefts (Shape.size (shape.drop s.length)) rights)⟩
  | ⟨s, xs⟩ => do plain left ⟨s, xs⟩ (← left.shape.agree s name)

/-- Each box on the right with its `k` elements on the left. -/
def pervadeRights (lefts : List Tensor) (k : Nat) : List Tensor → Except Fault (List Tensor)
  | [] => pure []
  | r :: rights => do
    let cell ← (lefts.take k).mapM fun l => pervadeRight l r
    return cell ++ (← pervadeRights (lefts.drop k) k rights)

end

mutual

def pervade : Tensor → Tensor → Except Fault Tensor
  | ⟨s, .boxes lefts⟩, right => do
    let shape ← s.agree right.shape name
    let rights := spread (Shape.size (shape.drop right.rank)) right.boxedElements
    return ⟨shape, .boxes (← pervadeLefts lefts (Shape.size (shape.drop s.length)) rights)⟩
  | ⟨s, xs⟩, right => pervadeRight name plain ⟨s, xs⟩ right

/-- Each box on the left with its `k` elements on the right. -/
def pervadeLefts : List Tensor → Nat → List Tensor → Except Fault (List Tensor)
  | [], _, _ => pure []
  | l :: lefts, k, rights => do
    let cell ← (rights.take k).mapM (pervade l)
    return cell ++ (← pervadeLefts lefts k (rights.drop k))

end

end Cells

/-- A dyadic operation on any two arrays. -/
def apply (op : Dyadic) : Tensor → Tensor → Except Fault Tensor := pervade op.name (applyPlain op)

/-- The operation that a name stands for, on any two arrays. -/
def applyNamed (name : String) : Tensor → Tensor → Except Fault Tensor :=
  match Dyadic.ofName? name with
  | some op => apply op
  | none => pervade name fun left right _ => applyUnknown name left right

section Elementwise

variable (name : String) (kernel : Numbers → Except Fault Numbers)

mutual

def pervadeEach : Tensor → Except Fault Tensor
  | ⟨s, .numbers xs⟩ => return ⟨s, .numbers (← kernel xs)⟩
  | ⟨_, .characters _⟩ => throw (.domain (.kind name .character))
  | ⟨s, .boxes xs⟩ => return ⟨s, .boxes (← pervadeAll xs)⟩

def pervadeAll : List Tensor → Except Fault (List Tensor)
  | [] => pure []
  | t :: ts => return (← pervadeEach t) :: (← pervadeAll ts)

end

end Elementwise

/-- A monadic operation on any array. -/
def map (op : Monadic) : Tensor → Except Fault Tensor := pervadeEach op.name op.kernel

/-- The operation that a name stands for, on any array. -/
def mapNamed (name : String) : Tensor → Except Fault Tensor :=
  match Monadic.ofName? name with
  | some op => map op
  | none => pervadeEach name fun _ => throw (.domain (.unknownOperation name))

/-- A zero at any depth. -/
def hasZero (t : Tensor) : Bool :=
  match t with
  | ⟨_, .numbers xs⟩ => xs.anyZero
  | ⟨_, .characters _⟩ => false
  | ⟨_, .boxes xs⟩ => anyHasZero xs
where
  anyHasZero : List Tensor → Bool
    | [] => false
    | t :: ts => t.hasZero || anyHasZero ts

end Tensor

end Tacit
