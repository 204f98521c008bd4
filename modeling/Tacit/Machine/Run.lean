/-
Running functions and instructions. Every call takes one from the room that the limit on depth
leaves; a function applied to given values runs on a memory of its own, one level deeper. The words
of one and two arguments are checked against the limit on elements before they build a result.
-/
import Tacit.Inverse
import Tacit.Machine.Memory

namespace Tacit

/-- What stays the same while a machine runs. -/
structure Setting where
  table : Table := .standard
  limits : Limits := {}

namespace Exec

variable (setting : Setting)

def checkSize (size : Except Fault (Option Nat)) (name : String) : Exec Unit := do
  match ← lift size with
  | some n => checkElements setting.limits n name
  | none => pure ()

/-! ## Words -/

/-- A value with the name that its words give in messages; `flip` goes by the name of `swap`. -/
def word (w : Word) : Exec Unit := do
  let push := push setting.limits
  match w with
  | .dup => do
    let v ← popOne "dup"
    push v
    push v
  | .pop => discard (popOne "pop")
  | .swap | .flip => do
    let (top, below) ← popTwo "swap"
    push top
    push below
  | .dupBelow => do
    let (top, below) ← popTwo "over"
    push below
    push top
    push below
  | .unary u => do
    let v ← popOne u.name
    checkSize setting (u.size? v) u.name
    push (← lift (u.eval v))
  | .binary b => do
    let (top, below) ← popTwo b.name
    checkSize setting (b.size? top below) b.name
    push (← lift (b.eval top below))

/-! ## Halves of under pairs -/

def stash (k : Keeper) : Exec Unit := do
  let (saved, result) ← match k with
    | .unary u => do
      let v ← popOne k.name
      lift (u.stash v)
    | .binary b => do
      let (top, below) ← popTwo k.name
      lift (b.stash top below)
  save saved
  push setting.limits (.tensor result)

def putBack (k : Keeper) : Exec Unit := do
  let new ← pop k.name
  let saved ← restore k.name
  push setting.limits (← lift (k.restore saved new))

/-! ## Rows -/

/-- A function applied to values, top of stack first, on a memory of its own. -/
abbrev Apply := Fn → List Value → Except Fault (List Value)

/-- The one result of a function that leaves one. -/
def applyOne (apply : Apply) (f : Fn) (args : List Value) : Except Fault Value := do
  match ← apply f args with
  | [v] => pure v
  | vs => throw (.underflow (.short f.name 1 vs.length))

/-- A dyadic function folded over rows from the left. -/
def foldFrom (apply : Apply) (f : Fn) (acc : Value) : List Tensor → Except Fault Value
  | [] => pure acc
  | row :: rows => do foldFrom apply f (← applyOne apply f [.tensor row, acc]) rows

/-- The fold of an array's rows; a scalar stands for itself, no rows for the function's identity. -/
def foldRows (apply : Apply) (f : Fn) (t : Tensor) : Except Fault Value :=
  if t.isScalar then pure (.tensor t)
  else
    match t.rows with
    | row :: rows => foldFrom apply f (.tensor row) rows
    | [] =>
      match f.identity? with
      | some t => pure (.tensor t)
      | none => throw (.domain (.noIdentity f.name))

def fold (apply : Apply) (f : Fn) (name : String) : Exec Unit := do
  let t ← lift (← pop name).tensor?
  push setting.limits (← lift (foldRows apply f t))

/-- The product of each box, or of the rows of any other array. -/
def product (apply : Apply) : Exec Unit := do
  let multiply := Fn.word (.binary (.apply .multiply))
  let t ← lift (← pop "product").tensor?
  match t.elements with
  | .boxes xs =>
    if t.isScalar then push setting.limits (← lift (foldRows apply multiply t.unbox))
    else
      let parts ← lift (xs.mapM fun x => do (← foldRows apply multiply x).tensor?)
      push setting.limits (.tensor (← lift ((Tensor.ofRows parts).reshape t.shape)))
  | _ => push setting.limits (← lift (foldRows apply multiply t))

/-- A function on every row, its results stacked again; a scalar is its own row. -/
def each (apply : Apply) (f : Fn) (name : String) : Exec Unit := do
  let t ← lift (← pop name).tensor?
  if t.isScalar then push setting.limits (← lift (applyOne apply f [.tensor t]))
  else
    let results ← lift (t.rows.mapM fun row => do applyOne apply f [.tensor row])
    if results.isEmpty then push setting.limits (.tensor t)
    else
      let rows ← lift (results.mapM Value.tensor?)
      push setting.limits (.tensor (Tensor.ofRows rows))

/-- What a predicate's result says: a numeric scalar, true unless zero. -/
def truth (v : Value) (name : String) : Except Fault Bool :=
  match v with
  | .tensor t =>
    match t.number? with
    | some x => pure !x.isZero
    | none => throw (.domain (.predicateResult name))
  | .fn _ => throw (.domain (.predicateResult name))

def groupBy (apply : Apply) (f : Fn) (name : String) : Exec Unit := do
  let t ← lift (← pop name).tensor?
  let grouped ← lift (t.groupRuns fun previous current => do
    truth (← applyOne apply f [.tensor current, .tensor previous]) name)
  push setting.limits (.tensor grouped)

def splitBy (apply : Apply) (f : Fn) (name : String) : Exec Unit := do
  let t ← lift (← pop name).tensor?
  let mask ← lift (t.rows.mapM fun row => do truth (← applyOne apply f [.tensor row]) name)
  push setting.limits (.tensor (← lift (t.splitRuns mask)))

/-! ## Instructions and functions -/

/-- One instruction, with `call` for the functions in it. -/
def instr (call : Fn → Exec Unit) (i : Instr) : Exec Unit := do
  match i with
  | .push v => push setting.limits v
  | .word name => call (← lift (setting.table.get name))
  | .invoke f => call f
  | .quote code => push setting.limits (.fn (← lift (setting.table.lambda code)))
  | .call => call (← popFunction "call")
  | .modify name [] => do
    let m ← lift (Modifier.ofName name)
    let operands ← (List.range m.arity).mapM fun _ => popFunction name
    let f ← lift (m.build setting.table.invert setting.table.underPair operands.reverse)
    push setting.limits (.fn f)
  | .modify name operands => call (← lift (setting.table.derive name operands))
  | .unknown text => throw (.domain (.unknownInstruction text.quoted))

/-- The work of a function, with `call` for the functions it calls in place. -/
def body (call : Fn → Exec Unit) (apply : Apply) (f : Fn) : Exec Unit := do
  match f with
  | .word w => word setting w
  | .sum => fold setting apply (.word (.binary (.apply .add))) "reduce(add)"
  | .product => product setting apply
  | .stash k => stash setting k
  | .restore k => putBack setting k
  | .body _ _ _ code => code.forM (instr setting call)
  | .compose f g => do
    call f
    call g
  | .under _ action before after => do
    call before
    call action
    call after
  | .saving f => do
    save (.parameters (← peekMany f.parametric f.name))
    call f
  | .resuming f inverse => do
    match ← restore f.name with
    | .parameters vs => pushAll setting.limits vs
    | _ => throw (.substrate .savedForm)
    call inverse
  | .copyTop g => do
    let kept ← peek 0 f.name
    call g
    push setting.limits kept
  | .copyDeepest g => do
    let kept ← peek (max 1 g.args - 1) f.name
    call g
    let outputs ← popMany g.outputs f.name
    push setting.limits kept
    pushAll setting.limits outputs
  | .reduce g => fold setting apply g f.name
  | .each g => each setting apply g f.name
  | .groupBy g => groupBy setting apply g f.name
  | .splitBy g => splitBy setting apply g f.name
  | .format t => do
    let fields ← popMany t.fields f.name
    push setting.limits (.tensor (← lift (t.fill fields)))
  | .parse t => do
    let subject ← popOne f.name
    pushAll setting.limits ((← lift (t.unfill subject)).map .tensor)

/-- A function applied to values on an empty memory, with `call` to run it there. -/
def applyWith (call : Fn → Exec Unit) : Apply := fun f args =>
  let steps : Exec (List Value) := do
    pushAll setting.limits args
    call f
    popMany f.outputs f.name
  match steps.run {} with
  | .ok vs _ => .ok vs
  | .error fault _ => .error fault

/-- A call where `room` more calls may be nested. -/
def call : Nat → Fn → Exec Unit
  | 0, f => throw (.limit (.depth setting.limits.maxDepth f.name))
  | room + 1, f =>
    let inner := match room with
      | 0 => call 0
      | room + 1 => call room
    body setting (call room) (applyWith setting inner) f

end Exec

end Tacit
