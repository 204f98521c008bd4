/-
What is told of arrays and functions without a look inside: the kind of elements and the type of
numbers, where a truth value can stand for an integer and an integer for a floating point number; the
shape, leading axis first, with elements in row-major order, so that a row is a block of `rowSize`
elements and an array has `size` of them; and the stack effect, how many values a function takes from
the stack and how many it leaves there.
-/
namespace Tacit

/-! ## Kinds of elements -/

inductive Kind where
  | number
  | character
  | box
  deriving DecidableEq, Repr

def Kind.text : Kind → String
  | .number => "number"
  | .character => "character"
  | .box => "box"

inductive NumberType where
  | bool
  | int
  | float
  deriving DecidableEq, Repr

/-- The type that holds the values of both. -/
def NumberType.join : NumberType → NumberType → NumberType
  | .float, _ | _, .float => .float
  | .int, _ | _, .int => .int
  | .bool, .bool => .bool

/-! ## Shapes -/

abbrev Shape := List Nat

namespace Shape

def size (s : Shape) : Nat := s.foldr (· * ·) 1

/-- A scalar is its own single row. -/
def rowCount : Shape → Nat
  | [] => 1
  | n :: _ => n

def row (s : Shape) : Shape := s.tail

def rowSize (s : Shape) : Nat := s.row.size

/-- The shape of the same elements as one vector. -/
def deshape (s : Shape) : Shape := [s.size]

/-- The shape with one more leading axis, of length one. -/
def fix (s : Shape) : Shape := 1 :: s

def text (s : Shape) : String := "[" ++ " × ".intercalate (s.map toString) ++ "]"

end Shape

/-! ## Stack effects -/

structure Signature where
  args : Nat
  outputs : Nat
  deriving DecidableEq, Repr

namespace Signature

def empty : Signature := ⟨0, 0⟩

/-- First `s`, then `t`: `t` takes what `s` left before it reaches deeper into the stack. -/
def andThen (s t : Signature) : Signature :=
  ⟨s.args + (t.args - s.outputs), t.outputs + (s.outputs - t.args)⟩

def text (s : Signature) : String := s!"|{s.args}.{s.outputs}"

end Signature

end Tacit
