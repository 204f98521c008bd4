/-
What the words of one and two arguments do, and how many elements their results will have where that
has to be known before they are built. Most words work on arrays alone; a function among their
arguments is a fault, and which fault it is depends on what the word looks at first.
-/
import Tacit.Template.Fields
import Tacit.Tensor.Factor
import Tacit.Tensor.Pervade
import Tacit.Tensor.Resample
import Tacit.Tensor.Runs
import Tacit.Tensor.Select
import Tacit.Term

namespace Tacit

/-! ## One argument -/

/-- What a word of one argument makes of an array. -/
def Unary.onTensor (u : Unary) (t : Tensor) : Except Fault Tensor :=
  match u with
  | identity => pure t
  | map op => Tensor.map op t
  | shape => Tensor.vector (t.shape.map Int.ofNat)
  | length => Tensor.ofInt t.rowCount
  | range => return Tensor.range (← t.asShape "range")
  | reverse => pure t.reverse
  | transpose => pure t.transpose
  | untranspose => pure t.untranspose
  | deshape => t.reshape t.shape.deshape
  | fix => t.reshape t.shape.fix
  | unfix => do t.reshape (← t.shape.unfix)
  | box => pure t.box
  | unbox => pure t.unbox
  | first => t.row 0
  | equalRows => pure (.truth t.equalRows)
  | groupByChange => pure t.groupByChange
  | primes => t.primes

/-- Where the word asks for a function's shape or elements it finds none. -/
def Unary.onFunction (u : Unary) (f : Fn) : Except Fault Value :=
  match u with
  | identity => pure (.fn f)
  | range => throw (.domain (.shapeWanted "range"))
  | box => throw (.domain (.boxContents "Function"))
  | primes => throw (.domain .primesKind)
  | _ => throw .functionValue

def Unary.eval (u : Unary) : Value → Except Fault Value
  | .tensor t => return .tensor (← u.onTensor t)
  | .fn f => u.onFunction f

/-- The element count of the result, where it is checked before the result is built. -/
def Unary.size? (u : Unary) (v : Value) : Except Fault (Option Nat) :=
  match u, v with
  | range, .tensor t => return some (← t.asShape "range").size
  | range, .fn _ => throw (.domain (.shapeWanted "range"))
  | _, _ => pure none

/-! ## Two arguments -/

/-- What a word of two arguments makes of arrays. -/
def Binary.onTensors (b : Binary) (top below : Tensor) : Except Fault Tensor :=
  match b with
  | apply op => Tensor.apply op below top
  | reshape => do below.reshape (← top.asShape "reshape")
  | cycleReshape => do below.cycle (← top.asShape "cycle_reshape")
  | join => Tensor.join below top
  | couple => pure (Tensor.ofRows [below, top])
  | indexAt => do below.row (← top.asInt "index_at")
  | take => Tensor.take top below
  | drop => Tensor.drop top below
  | rotate => Tensor.rotate top below
  | unrotate => Tensor.unrotate top below
  | keep => Tensor.keep top below
  | scale => Tensor.scale top below
  | same => pure (.truth (below.same top))
  | splitOn => Tensor.splitOn top below
  | joinFields => return .string (← below.joinFields top)
  | splitFields => return .strings (← below.splitFields top)
  | formatWith => do
    let template := Template.parse (← top.text)
    return .string (← template.join (← below.fieldTexts))
  | parseWith => do
    let template := Template.parse (← top.text)
    return .strings (← template.split (← below.text))
  | unscale op =>
    if top.hasZero then throw (.notInvertible op.name (some .zeroFactor))
    else Tensor.apply op.undo below top

/-- A function on top, above an array: it equals no array, and joins no fields if there are none. -/
def Binary.onFunctionAbove (b : Binary) (below : Tensor) : Except Fault Value :=
  match b with
  | same => pure (.tensor (.truth false))
  | reshape => throw (.domain (.shapeWanted "reshape"))
  | cycleReshape => throw (.domain (.shapeWanted "cycle_reshape"))
  | keep => throw (.domain .keepKind)
  | scale => throw (.domain .scaleFactors)
  | splitOn => if below.isScalar then throw (.domain .splitScalar) else throw .functionValue
  | joinFields => do
    if (← below.fieldTexts).isEmpty then pure (.tensor (.string []))
    else throw (.domain .separatorType)
  | splitFields => do
    let _ ← below.text
    throw (.domain .separatorType)
  | _ => throw .functionValue

/-- A function below an array: the words that look at the array first report what is wrong there. -/
def Binary.onFunctionBelow (b : Binary) (top : Tensor) : Except Fault Value := do
  match b with
  | reshape => let _ ← top.asShape "reshape"
  | cycleReshape => let _ ← top.asShape "cycle_reshape"
  | rotate => let _ ← top.asInt "rotate"
  | unrotate => let _ ← Tensor.toInt32 (-(← top.asInt "unrotate"))
  | formatWith | parseWith => let _ ← top.text
  | unscale op => if top.hasZero then throw (.notInvertible op.name (some .zeroFactor))
  | _ => pure ()
  throw .functionValue

/-- Two functions: only a shape is looked at before an array is. -/
def Binary.onFunctions (b : Binary) : Except Fault Value :=
  match b with
  | reshape => throw (.domain (.shapeWanted "reshape"))
  | cycleReshape => throw (.domain (.shapeWanted "cycle_reshape"))
  | _ => throw .functionValue

def Binary.eval (b : Binary) (top below : Value) : Except Fault Value :=
  match top, below with
  | .tensor t, .tensor u => return .tensor (← b.onTensors t u)
  | .fn _, .tensor u => b.onFunctionAbove u
  | .tensor t, .fn _ => b.onFunctionBelow t
  | .fn _, .fn _ => b.onFunctions

/-- The element count of the result, where it is checked before the result is built. -/
def Binary.size? (b : Binary) (top below : Value) : Except Fault (Option Nat) :=
  match b, top, below with
  | cycleReshape, .tensor t, _ => return some (← t.asShape "cycle_reshape").size
  | cycleReshape, .fn _, _ => throw (.domain (.shapeWanted "cycle_reshape"))
  | keep, .tensor t, .tensor u => return some (← Tensor.keepSize t u)
  | scale, .tensor t, .tensor u => return some (← Tensor.scaleShape t u).size
  | _, _, _ => pure none

/-! ## Templates of fields -/

/-- The fields, top of stack first, put into a template. -/
def Template.fill (t : Template) (fields : List Value) : Except Fault Tensor := do
  let texts ← fields.mapM fun v => do (← v.tensor?).fieldText
  return .string (← t.join texts)

/-- The fields of a subject, top of stack first. -/
def Template.unfill (t : Template) (subject : Value) : Except Fault (List Tensor) := do
  return (← t.split (← (← subject.tensor?).text)).map .string

end Tacit
