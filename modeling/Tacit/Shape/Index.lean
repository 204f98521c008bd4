/-
Making shapes and finding places in them: shapes from host numbers, dropping a leading axis of
length one, and the passage between a flat position and an index with one entry per axis.
-/
import Tacit.Fault

namespace Tacit

/-- A host number given as a dimension. -/
inductive Dimension where
  | int (n : Int)
  | float (x : Float)

/-- Integral and not negative. -/
def Dimension.check : Dimension → Except Fault Nat
  | int n => if n < 0 then throw (.domain .negativeDimension) else pure n.toNat
  | float x =>
    match Binary64.toInt? x with
    | none => throw (.domain .fractionalDimension)
    | some n => if n < 0 then throw (.domain .negativeDimension) else pure n.toNat

namespace Shape

def ofDimensions (dims : List Dimension) : Except Fault Shape := dims.mapM Dimension.check

/-- One dimension that stands for a shape; a float does not, even if it is integral. -/
def ofDimension : Dimension → Except Fault Shape
  | .int n => ofDimensions [.int n]
  | .float _ => throw (.substrate .loneDimension)

/-- The shape without its leading axis, which has to have length one. -/
def unfix : Shape → Except Fault Shape
  | [] => throw (.domain .unfixScalar)
  | 1 :: s => pure s
  | n :: _ :: _ => throw (.domain (.unfixLength n))
  | [0] => throw (.domain .unfixEmpty)
  | [n] => throw (.domain (.unfixShape [n]))

/-- The entries of the place `flat`, from the last axis of `dims` to the first, before `index`. -/
def indexFrom : List Nat → Int → List Nat → Except Fault (List Nat)
  | [], _, index => pure index
  | 0 :: _, _, _ => throw (.substrate .zeroDimension)
  | d :: dims, flat, index => indexFrom dims (flat / d) ((flat % d).toNat :: index)

/-- The index of a flat position, which counts modulo the number of elements. -/
def toIndex (s : Shape) (flat : Int) : Except Fault (List Nat) := indexFrom s.reverse flat []

/-- The position of an index below `flat` leading rows; axes or entries without a partner do not
count. -/
def flatFrom : Nat → Shape → List Int → Option Nat
  | flat, d :: s, i :: index =>
    if i < 0 ∨ (d : Int) ≤ i then none else flatFrom (flat * d + i.toNat) s index
  | flat, _, _ => some flat

/-- The flat position of an index, none if an entry is out of range. -/
def toFlat? (s : Shape) (index : List Int) : Option Nat := flatFrom 0 s index

end Shape

end Tacit
