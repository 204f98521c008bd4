/-
What the words that lose something save, and how a new result goes back into it: a saved shape takes
the elements again, a saved array gets a row replaced, and saved rows are joined on again.
-/
import Tacit.Host.Basic
import Tacit.Word.Meaning

namespace Tacit

/-- What one half of an under pair leaves for the other. -/
inductive Saved where
  | shape (s : Shape)
  | whole (t : Tensor)
  | entry (i : Int) (t : Tensor)
  | part (fromFront : Bool) (rest : Tensor)
  | parameters (vs : List Value)
  /-- Set aside by the host itself. -/
  | host (h : Host)

/-! ## Saving -/

def UnaryKeeper.stash (k : UnaryKeeper) (v : Value) : Except Fault (Saved × Tensor) := do
  let t ← v.tensor?
  match k with
  | deshape => return (.shape t.shape, ← t.reshape t.shape.deshape)
  | first => return (.whole t, ← t.row 0)

/-- The rows after a range, or those before it. -/
def Tensor.leftOut (t : Tensor) (after : Bool) (start stop : Nat) : Tensor :=
  if after then t.slice stop t.rowCount else t.slice 0 start

def BinaryKeeper.stash (k : BinaryKeeper) (top below : Value) : Except Fault (Saved × Tensor) :=
  match k with
  | reshape => do
    let t ← below.tensor?
    match top with
    | .tensor shape => return (.shape t.shape, ← t.reshape (← shape.asShape "reshape"))
    | .fn _ => throw (.domain (.shapeWanted "reshape"))
  | indexAt => do
    let i ← (← top.tensor?).asInt "index_at"
    let t ← below.tensor?
    return (.entry i t, ← t.row i)
  | take => do
    let t := (← below.tensor?).asList
    let (start, stop) ← Tensor.takeRange (← (← top.tensor?).asInt "take") t.rowCount
    let fromFront := start == 0
    return (.part fromFront (t.leftOut fromFront start stop), t.slice start stop)
  | drop => do
    let t := (← below.tensor?).asList
    let (start, stop) := Tensor.dropRange (← (← top.tensor?).asInt "drop") t.rowCount
    let fromFront := 0 < start || stop == t.rowCount
    return (.part fromFront (t.leftOut (!fromFront) start stop), t.slice start stop)

/-! ## Putting back -/

/-- A function replaces a scalar whole; it is no row of an array and goes into no box. -/
def Tensor.replaceRowBy (t : Tensor) (i : Int) : Value → Except Fault Value
  | .tensor new => return .tensor (← t.replaceRow i new)
  | .fn f =>
    if t.isScalar then pure (.fn f)
    else if t.kind = .box ∧ t.rank = 1 then throw (.domain (.boxContents "Function"))
    else throw .functionValue

/-- A new result put back into what was saved; only the other half's own form fits. -/
def Keeper.restore (k : Keeper) (saved : Saved) (new : Value) : Except Fault Value :=
  match k, saved with
  | .unary .deshape, .shape s | .binary .reshape, .shape s => do
    return .tensor (← (← new.tensor?).reshape s)
  | .unary .first, .whole t => t.replaceRowBy 0 new
  | .binary .indexAt, .entry i t => t.replaceRowBy i new
  | .binary .take, .part fromFront rest => do
    let t ← new.tensor?
    return .tensor (← if fromFront then t.join rest else rest.join t)
  | .binary .drop, .part fromFront rest => do
    let t ← new.tensor?
    return .tensor (← if fromFront then rest.join t else t.join rest)
  | _, _ => throw (.substrate .savedForm)

end Tacit
