/-
The numeric operations, on rows of numbers of equal length. Two operands first move to their joint
type. Integers wrap at 32 bits; truth values have comparisons, extremes, division, remainder and
power, but no sum, difference, product, negation or sign.
-/
import Tacit.Fault
import Tacit.Number.Numbers

namespace Tacit

open Numbers (ofBool toFloat)

/-- Operations of two numbers, the deeper operand on the left. -/
inductive Dyadic where
  | add
  | subtract
  | multiply
  | divide
  | modulus
  | power
  | minimum
  | maximum
  | equal
  | notEqual
  | less
  | lessEqual
  | greater
  | greaterEqual
  deriving DecidableEq, Repr

/-- Operations of one number. -/
inductive Monadic where
  | negate
  | not
  | reciprocal
  | sqrt
  | square
  | abs
  | sign
  | floor
  | ceiling
  deriving DecidableEq, Repr

namespace Dyadic

def name : Dyadic → String
  | add => "add"
  | subtract => "subtract"
  | multiply => "multiply"
  | divide => "divide"
  | modulus => "modulus"
  | power => "power"
  | minimum => "minimum"
  | maximum => "maximum"
  | equal => "equal"
  | notEqual => "not_equal"
  | less => "less"
  | lessEqual => "less_equal"
  | greater => "greater"
  | greaterEqual => "greater_equal"

def all : List Dyadic :=
  [add, subtract, multiply, divide, modulus, power, minimum, maximum, equal, notEqual, less,
    lessEqual, greater, greaterEqual]

def ofName? (name : String) : Option Dyadic := all.find? (·.name == name)

def isComparison : Dyadic → Bool
  | equal | notEqual | less | lessEqual | greater | greaterEqual => true
  | _ => false

end Dyadic

namespace Monadic

def name : Monadic → String
  | negate => "negate"
  | not => "not"
  | reciprocal => "reciprocal"
  | sqrt => "sqrt"
  | square => "square"
  | abs => "abs"
  | sign => "sign"
  | floor => "floor"
  | ceiling => "ceiling"

def all : List Monadic := [negate, not, reciprocal, sqrt, square, abs, sign, floor, ceiling]

def ofName? (name : String) : Option Monadic := all.find? (·.name == name)

end Monadic

/-! ## Integers -/

/-- The remainder with the sign of the divisor; a divisor of zero leaves nothing. -/
def intModulus (x y : Int32) : Int32 :=
  if y = 0 then 0 else Int32.ofInt (Int.fmod x.toInt y.toInt)

/-- The exponent counts modulo 64; zero raised to a nonzero exponent stays zero. -/
def intPower (x y : Int32) : Int32 :=
  if x = 0 ∧ y ≠ 0 then 0 else Int32.ofInt (Int.pow x.toInt (y.toInt % 64).toNat)

def intSign (x : Int32) : Int32 := if 0 < x then 1 else if x < 0 then -1 else 0

def intAbs (x : Int32) : Int32 := if x < 0 then -x else x

/-! ## Two operands -/

/-- A comparison by what the operands' order makes true. -/
def Dyadic.compares (op : Dyadic) (lt eq gt : Bool) : Bool :=
  match op with
  | equal => eq
  | notEqual => !eq
  | less => lt
  | lessEqual => lt || eq
  | greater => gt
  | _ => gt || eq

def Dyadic.onBools (op : Dyadic) (xs ys : List Bool) : Except Fault Numbers :=
  match op with
  | add | subtract | multiply => throw (.substrate .booleanArithmetic)
  | divide =>
    pure (.floats (xs.zipWith (fun x y => toFloat (ofBool x) / toFloat (ofBool y)) ys))
  | modulus => pure (.ints (xs.zipWith (fun x y => intModulus (ofBool x) (ofBool y)) ys))
  | power => pure (.ints (xs.zipWith (fun x y => intPower (ofBool x) (ofBool y)) ys))
  | minimum => pure (.bools (xs.zipWith (· && ·) ys))
  | maximum => pure (.bools (xs.zipWith (· || ·) ys))
  | op =>
    pure (.ints (xs.zipWith (fun x y => ofBool (op.compares (!x && y) (x == y) (x && !y))) ys))

def Dyadic.onInts (op : Dyadic) (xs ys : List Int32) : Numbers :=
  match op with
  | add => .ints (xs.zipWith (· + ·) ys)
  | subtract => .ints (xs.zipWith (· - ·) ys)
  | multiply => .ints (xs.zipWith (· * ·) ys)
  | divide => .floats (xs.zipWith (fun x y => toFloat x / toFloat y) ys)
  | modulus => .ints (xs.zipWith intModulus ys)
  | power => .ints (xs.zipWith intPower ys)
  | minimum => .ints (xs.zipWith (fun x y => if y < x then y else x) ys)
  | maximum => .ints (xs.zipWith (fun x y => if x < y then y else x) ys)
  | op => .ints (xs.zipWith (fun x y => ofBool (op.compares (x < y) (x == y) (y < x))) ys)

def Dyadic.onFloats (op : Dyadic) (xs ys : List Float32) : Numbers :=
  match op with
  | add => .floats (xs.zipWith (· + ·) ys)
  | subtract => .floats (xs.zipWith (· - ·) ys)
  | multiply => .floats (xs.zipWith (· * ·) ys)
  | divide => .floats (xs.zipWith (· / ·) ys)
  | modulus => .floats (xs.zipWith Binary32.modulus ys)
  | power => .floats (xs.zipWith Binary32.power ys)
  | minimum => .floats (xs.zipWith Binary32.minimum ys)
  | maximum => .floats (xs.zipWith Binary32.maximum ys)
  | op => .ints (xs.zipWith (fun x y => ofBool (op.compares (x < y) (x == y) (y < x))) ys)

/-- The operation on each pair, in the joint type of the operands. -/
def Dyadic.kernel (op : Dyadic) (xs ys : Numbers) : Except Fault Numbers :=
  match xs.type.join ys.type with
  | .bool => op.onBools xs.asBools ys.asBools
  | .int => pure (op.onInts xs.asInts ys.asInts)
  | .float => pure (op.onFloats xs.asFloats ys.asFloats)

/-! ## One operand -/

def Monadic.onBools (op : Monadic) (xs : List Bool) : Except Fault Numbers :=
  match op with
  | negate | sign => throw (.substrate .booleanArithmetic)
  | not => pure (.ints (xs.map fun x => ofBool !x))
  | reciprocal => pure (.floats (xs.map fun x => 1 / toFloat (ofBool x)))
  | sqrt => pure (.floats (xs.map fun x => (toFloat (ofBool x)).sqrt))
  | square | abs | floor | ceiling => pure (.bools xs)

def Monadic.onInts (op : Monadic) (xs : List Int32) : Numbers :=
  match op with
  | negate => .ints (xs.map (- ·))
  | not => .ints (xs.map (1 - ·))
  | reciprocal => .floats (xs.map fun x => 1 / toFloat x)
  | sqrt => .floats (xs.map fun x => (toFloat x).sqrt)
  | square => .ints (xs.map fun x => x * x)
  | abs => .ints (xs.map intAbs)
  | sign => .ints (xs.map intSign)
  | floor | ceiling => .ints xs

def Monadic.onFloats (op : Monadic) (xs : List Float32) : Numbers :=
  match op with
  | negate => .floats (xs.map (- ·))
  | not => .floats (xs.map (1 - ·))
  | reciprocal => .floats (xs.map (1 / ·))
  | sqrt => .floats (xs.map (·.sqrt))
  | square => .floats (xs.map fun x => x * x)
  | abs => .floats (xs.map (·.abs))
  | sign => .floats (xs.map Binary32.sign)
  | floor => .floats (xs.map Binary32.floor)
  | ceiling => .floats (xs.map Binary32.ceiling)

def Monadic.kernel (op : Monadic) : Numbers → Except Fault Numbers
  | .bools xs => op.onBools xs
  | .ints xs => pure (op.onInts xs)
  | .floats xs => pure (op.onFloats xs)

end Tacit
