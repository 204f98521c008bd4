/-
Numbers in a row, all of one type: truth values, wrapping 32-bit integers or binary32 floats. Where
types meet, values move to the joint type; moving an integer to a float rounds to nearest even.
-/
import Tacit.Basic
import Tacit.Number.Decimal

namespace Tacit

/-! ## One number -/

inductive Number where
  | bool (b : Bool)
  | int (n : Int32)
  | float (x : Float32)
  deriving DecidableEq

namespace Number

/-- The integer that a number equals. -/
def toInt? : Number → Option Int
  | bool b => some (if b then 1 else 0)
  | int n => some n.toInt
  | float x => Binary32.toInt? x

def isZero : Number → Bool
  | bool b => !b
  | int n => n == 0
  | float x => x == 0

def text : Number → String
  | bool b => if b then "True" else "False"
  | int n => toString n.toInt
  | float x => floatText (widen x)

end Number

/-! ## Numbers of one type -/

inductive Numbers where
  | bools (xs : List Bool)
  | ints (xs : List Int32)
  | floats (xs : List Float32)
  deriving DecidableEq

namespace Numbers

def type : Numbers → NumberType
  | bools _ => .bool
  | ints _ => .int
  | floats _ => .float

def length : Numbers → Nat
  | bools xs => xs.length
  | ints xs => xs.length
  | floats xs => xs.length

def toList : Numbers → List Number
  | bools xs => xs.map .bool
  | ints xs => xs.map .int
  | floats xs => xs.map .float

def head? : Numbers → Option Number
  | bools xs => xs.head?.map .bool
  | ints xs => xs.head?.map .int
  | floats xs => xs.head?.map .float

/-- The same rearrangement of the elements for every type. -/
def rearrange (f : {α : Type} → List α → List α) : Numbers → Numbers
  | bools xs => bools (f xs)
  | ints xs => ints (f xs)
  | floats xs => floats (f xs)

/-! ## Conversion -/

def ofBool (b : Bool) : Int32 := if b then 1 else 0

def toFloat (n : Int32) : Float32 := Float32.ofInt n.toInt

def asBools : Numbers → List Bool
  | bools xs => xs
  | ints xs => xs.map (· != 0)
  | floats xs => xs.map fun x => !(x == 0)

/-- Floats lose their fraction and go to the nearer end of the range if they lie outside. -/
def asInts : Numbers → List Int32
  | bools xs => xs.map ofBool
  | ints xs => xs
  | floats xs => xs.map Binary32.toInt32

def asFloats : Numbers → List Float32
  | bools xs => xs.map fun b => if b then 1 else 0
  | ints xs => xs.map toFloat
  | floats xs => xs

def convert : NumberType → Numbers → Numbers
  | .bool, xs => bools xs.asBools
  | .int, xs => ints xs.asInts
  | .float, xs => floats xs.asFloats

/-- The joint type of several rows of numbers. -/
def jointType (rows : List Numbers) : NumberType :=
  rows.foldl (fun t xs => t.join xs.type) .bool

/-- The rows one after another in their joint type. -/
def concat (rows : List Numbers) : Numbers :=
  match jointType rows with
  | .bool => bools (rows.flatMap asBools)
  | .int => ints (rows.flatMap asInts)
  | .float => floats (rows.flatMap asFloats)

/-! ## Questions -/

/-- Without a fractional part, as infinities are and every integer is. -/
def areWhole : Numbers → Bool
  | floats xs => xs.all Binary32.isWhole
  | _ => true

def anyZero : Numbers → Bool
  | bools xs => xs.any (!·)
  | ints xs => xs.any (· == 0)
  | floats xs => xs.any (· == 0)

/-- Equal lengths and equal values in the joint type; a float that is not a number equals none. -/
def same (xs ys : Numbers) : Bool :=
  match xs.type.join ys.type with
  | .bool => xs.asBools == ys.asBools
  | .int => xs.asInts == ys.asInts
  | .float => xs.asFloats.isEqv ys.asFloats (· == ·)

end Numbers

end Tacit
