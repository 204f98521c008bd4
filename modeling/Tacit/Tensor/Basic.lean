/-
Arrays: a shape and the elements in row-major order, all of one kind. A box holds an array as one
element. An empty array keeps the type of its elements. Numbers and characters are dense, and rows
are cut off them one after another; boxes are a plain list, of which a row is a slice.
-/
import Tacit.Fault
import Tacit.Number.Numbers

namespace Tacit

/-- Elements of one kind, with contents of type `α` in the boxes; characters are code points, which
arithmetic may take out of the range of Unicode. -/
inductive Elements (α : Type) where
  | numbers (xs : Numbers)
  | characters (xs : List Int32)
  | boxes (xs : List α)

structure Tensor where
  shape : Shape
  elements : Elements Tensor

/-! ## Positions -/

/-- The elements at the positions `ps`, in their order; positions past the end give none. -/
def pick {α : Type} (ps : List Nat) (xs : List α) : List α :=
  let a := xs.toArray
  ps.filterMap (a[·]?)

/-- The first `n` blocks of `k` elements, cut off one after another. -/
def blocks {α : Type} : Nat → Nat → List α → List (List α)
  | 0, _, _ => []
  | n + 1, k, xs => xs.take k :: blocks n k (xs.drop k)

/-- The first `n` slices of `k` elements, each taken between its bounds. -/
def slices {α : Type} (n k : Nat) (xs : List α) : List (List α) :=
  let a := xs.toArray
  (List.range n).map fun i => (a.extract (i * k) ((i + 1) * k)).toList

/-- Each element `k` times in a row. -/
def spread {α : Type} (k : Nat) (xs : List α) : List α := xs.flatMap (List.replicate k)

namespace Elements

variable {α : Type}

def kind : Elements α → Kind
  | numbers _ => .number
  | characters _ => .character
  | boxes _ => .box

def length : Elements α → Nat
  | numbers xs => xs.length
  | characters xs => xs.length
  | boxes xs => xs.length

/-- The first `n` blocks of `k` elements; boxes are sliced. -/
def blocks (n k : Nat) : Elements α → List (Elements α)
  | numbers (.bools xs) => (Tacit.blocks n k xs).map fun b => numbers (.bools b)
  | numbers (.ints xs) => (Tacit.blocks n k xs).map fun b => numbers (.ints b)
  | numbers (.floats xs) => (Tacit.blocks n k xs).map fun b => numbers (.floats b)
  | characters xs => (Tacit.blocks n k xs).map characters
  | boxes xs => (slices n k xs).map boxes

def toNumbers? : Elements α → Option Numbers
  | numbers xs => some xs
  | _ => none

def codePoints : Elements α → List Int32
  | characters xs => xs
  | _ => []

def contents : Elements α → List α
  | boxes xs => xs
  | _ => []

end Elements

namespace Tensor

/-! ## Making arrays -/

def ofNumbers (shape : Shape) (xs : Numbers) : Tensor := ⟨shape, .numbers xs⟩

def ofInts (shape : Shape) (xs : List Int32) : Tensor := ofNumbers shape (.ints xs)

def int (n : Int32) : Tensor := ofInts [] [n]

def truth (b : Bool) : Tensor := int (Numbers.ofBool b)

def box (inner : Tensor) : Tensor := ⟨[], .boxes [inner]⟩

/-- The vector of boxes around `items`. -/
def boxes (items : List Tensor) : Tensor := ⟨[items.length], .boxes items⟩

/-- No rows: integers by convention. -/
def empty : Tensor := ofInts [0] []

def string (t : Text) : Tensor := ⟨[t.length], .characters (t.map fun c => Int32.ofNat c)⟩

/-- The numbers from zero on in the given shape. -/
def range (shape : Shape) : Tensor :=
  ofInts shape ((List.range shape.size).map fun i => Int32.ofNat i)

/-- An integer as a 32-bit number. -/
def toInt32 (n : Int) : Except Fault Int32 :=
  if Int32.minValue.toInt ≤ n ∧ n ≤ Int32.maxValue.toInt then pure (Int32.ofInt n)
  else throw (.substrate .integerRange)

def ofInt (n : Int) : Except Fault Tensor := return int (← toInt32 n)

/-- A vector of integers. -/
def vector (ns : List Int) : Except Fault Tensor :=
  return ofInts [ns.length] (← ns.mapM toInt32)

/-! ## Looking at arrays -/

def kind (t : Tensor) : Kind := t.elements.kind

def rank (t : Tensor) : Nat := t.shape.length

def size (t : Tensor) : Nat := t.shape.size

def rowCount (t : Tensor) : Nat := t.shape.rowCount

def isScalar (t : Tensor) : Bool := t.shape.isEmpty

def isBoxScalar (t : Tensor) : Bool := t.kind == .box && t.isScalar

/-- Numbers without a fractional part. -/
def isWhole (t : Tensor) : Bool :=
  match t.elements with
  | .numbers xs => xs.areWhole
  | _ => false

/-- Along the leading axis; a scalar is its own row. -/
def rows (t : Tensor) : List Tensor :=
  match t.shape with
  | [] => [t]
  | n :: s => (t.elements.blocks n (Shape.size s)).map (Tensor.mk s)

/-- Row `i`, from the end if negative. -/
def row (t : Tensor) (i : Int) : Except Fault Tensor :=
  let j := if i < 0 then i + t.rowCount else i
  if j < 0 then throw (.domain (.index i t.rowCount))
  else
    match t.rows[j.toNat]? with
    | some r => pure r
    | none => throw (.domain (.index i t.rowCount))

/-- The content of a box scalar; other arrays stay as they are. -/
def unbox : Tensor → Tensor
  | ⟨[], .boxes (inner :: _)⟩ => inner
  | t => t

/-- The elements as scalars. -/
def scalars (t : Tensor) : List Tensor := (t.elements.blocks t.elements.length 1).map (Tensor.mk [])

/-! ## Stacking -/

/-- The elements of all rows, which are of the kind given; numbers take their joint type. -/
def concat (kind : Kind) (rows : List Tensor) : Elements Tensor :=
  match kind with
  | .number => .numbers (Numbers.concat (rows.filterMap (·.elements.toNumbers?)))
  | .character => .characters (rows.flatMap (·.elements.codePoints))
  | .box => .boxes (rows.flatMap (·.elements.contents))

/-- A row among boxed rows: a box scalar is not boxed again. -/
def asContent (t : Tensor) : Tensor := if t.isBoxScalar then t.unbox else t

/-- The rows along a new leading axis; rows that differ in kind or shape are boxed. -/
def ofRows : List Tensor → Tensor
  | [] => empty
  | first :: rest =>
    let rows := first :: rest
    if rest.all fun r => r.kind == first.kind && r.shape == first.shape then
      ⟨rows.length :: first.shape, concat first.kind rows⟩
    else boxes (rows.map asContent)

/-! ## Scalars and strings -/

/-- The number in a numeric scalar. -/
def number? : Tensor → Option Number
  | ⟨[], .numbers xs⟩ => xs.head?
  | _ => none

/-- The integer that a numeric scalar stands for. -/
def asInt (t : Tensor) (name : String) : Except Fault Int :=
  match t.number? with
  | none => throw (.domain (.scalarIntegerWanted name))
  | some x =>
    match x.toInt? with
    | some n => pure n
    | none => throw (.domain (.integerWanted name))

/-- A code point of Unicode. -/
def codePoint (c : Int32) : Except Fault Nat :=
  if 0 ≤ c.toInt ∧ c.toInt < 0x110000 then pure c.toInt.toNat
  else throw (.substrate .codePoint)

/-- The text of a character scalar or vector. -/
def text (t : Tensor) : Except Fault Text :=
  match t.elements with
  | .characters cs =>
    if t.rank ≤ 1 then cs.mapM codePoint else throw (.domain (.stringWanted .character t.shape))
  | _ => throw (.domain (.stringWanted t.kind t.shape))

/-! ## Nesting -/

mutual

/-- How deep boxes are nested. -/
def depth : Tensor → Nat
  | ⟨_, .boxes xs⟩ => 1 + depths xs
  | _ => 0

def depths : List Tensor → Nat
  | [] => 0
  | t :: ts => max t.depth (depths ts)

end

mutual

/-- Equal shapes, kinds and elements; boxes are compared by their contents. -/
def same : Tensor → Tensor → Bool
  | ⟨s, .boxes xs⟩, ⟨s', .boxes ys⟩ => s == s' && sameAll xs ys
  | ⟨s, .numbers xs⟩, ⟨s', .numbers ys⟩ => s == s' && xs.same ys
  | ⟨s, .characters xs⟩, ⟨s', .characters ys⟩ => s == s' && xs == ys
  | _, _ => false

def sameAll : List Tensor → List Tensor → Bool
  | [], [] => true
  | x :: xs, y :: ys => x.same y && sameAll xs ys
  | _, _ => false

end

end Tensor

end Tacit
