/-
Keeping rows by count, and scaling axes. A scalar count `c` resamples `n` rows to `⌊n · c⌋`, with row
`⌊i / c⌋` at place `i`; a vector of counts says how often each row appears. Counts are read as
binary64, and a slack of `10 ^ -9` under each floor takes up what rounding lost.
-/
import Tacit.Tensor.Select

namespace Tacit.Tensor

/-- The number at the front of a row, as binary64. -/
def leadingFloat : Numbers → Float
  | .bools (b :: _) => if b then 1 else 0
  | .ints (n :: _) => Float.ofInt n.toInt
  | .floats (x :: _) => widen x
  | _ => 0

/-- A scalar count: finite and not negative. -/
def keepFactor (count : Numbers) : Except Fault Float :=
  let factor := leadingFloat count
  if !factor.isFinite then throw (.domain (.keepInfinite factor))
  else if factor < 0 then throw (.domain .keepNegative)
  else pure factor

/-- One of a vector of counts: integral and not negative. -/
def keepCount : Dimension → Except Fault Nat
  | .int n => if n < 0 then throw (.domain .keepFractional) else pure n.toNat
  | .float x =>
    match Binary64.toInt? x with
    | some n => if n < 0 then throw (.domain .keepFractional) else pure n.toNat
    | none => throw (.domain .keepFractional)

/-- A vector of counts, one for each of `length` rows. -/
def keepCounts (length : Nat) (counts : Tensor) (xs : Numbers) : Except Fault (List Nat) :=
  match counts.shape with
  | [n] =>
    if n ≠ length then throw (.shape (.keepCounts n length))
    else (dimensions xs).mapM keepCount
  | _ => throw (.domain .keepRank)

/-- The floor of a finite value that lost up to `10 ^ -9` to rounding. -/
def floorWithSlack (x : Float) : Int := (Binary64.floor? (x + 1e-9)).getD 0

/-- How many of `length` rows `counts` keeps, found without selecting them. -/
def keepLength (length : Nat) (counts : Tensor) : Except Fault Nat :=
  match counts.elements with
  | .numbers xs =>
    if counts.isScalar then do
      return (floorWithSlack (Float.ofNat length * (← keepFactor xs))).toNat
    else return (← keepCounts length counts xs).foldr (· + ·) 0
  | _ => throw (.domain .keepKind)

/-- Which of `length` rows `counts` keeps, each as often as it appears. -/
def keepIndices (length : Nat) (counts : Tensor) : Except Fault (List Nat) :=
  match counts.elements with
  | .numbers xs =>
    if counts.isScalar then do
      let factor ← keepFactor xs
      let n ← keepLength length counts
      return (List.range n).map fun i =>
        (min ((length : Int) - 1) (floorWithSlack (Float.ofNat i / factor))).toNat
    else do
      let ns ← keepCounts length counts xs
      return (ns.zipIdx).flatMap fun (n, row) => List.replicate n row
  | _ => throw (.domain .keepKind)

/-- The element count of `keep`. -/
def keepSize (counts t : Tensor) : Except Fault Nat :=
  return (← keepLength t.asList.rowCount counts) * t.asList.shape.rowSize

def keep (counts t : Tensor) : Except Fault Tensor := do
  t.asList.gather (← keepIndices t.asList.rowCount counts) 0

/-! ## Scaling -/

/-- One count for each axis to resample: a scalar for every axis, a vector for the leading ones. -/
def scaleFactors (factors t : Tensor) : Except Fault (List Tensor) :=
  if factors.kind ≠ .number ∨ 1 < factors.rank then throw (.domain .scaleFactors)
  else if factors.isScalar then pure (List.replicate t.rank factors)
  else if t.rank < factors.rowCount then throw (.shape (.scaleCount factors.rowCount t.rank))
  else pure factors.rows

/-- Lengths resampled from the leading axis on. -/
def scaleDims : Shape → List Tensor → Except Fault Shape
  | n :: s, f :: fs => return (← keepLength n f) :: (← scaleDims s fs)
  | s, _ => pure s

/-- The shape of `scale`, found without resampling. -/
def scaleShape (factors t : Tensor) : Except Fault Shape := do
  scaleDims t.shape (← scaleFactors factors t)

/-- Resamples the axes from `axis` on, one after another. -/
def scaleFrom (axis : Nat) (t : Tensor) : List Tensor → Except Fault Tensor
  | [] => pure t
  | f :: fs => do
    let is ← keepIndices (t.shape.getD axis 1) f
    scaleFrom (axis + 1) (← t.gather is axis) fs

def scale (factors t : Tensor) : Except Fault Tensor := do
  scaleFrom 0 t (← scaleFactors factors t)

end Tacit.Tensor
