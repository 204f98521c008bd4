/-
The memory of a machine, and the steps that work on it: a stack of values and a stack of saved
context. A step that fails leaves the memory as it was when it failed. Values are checked against
the limit on elements as they are pushed.
-/
import Tacit.Word.Keeper

namespace Tacit

structure Limits where
  /-- Elements of one array. -/
  maxElements : Nat := 10000000
  /-- Calls inside one another. -/
  maxDepth : Nat := 256

/-- Both stacks from the top down. -/
structure Memory where
  stack : List Value := []
  context : List Saved := []

/-- A step on the memory. -/
abbrev Exec := EStateM Fault Memory

namespace Exec

def lift {α : Type} : Except Fault α → Exec α
  | .ok a => pure a
  | .error f => throw f

/-! ## The operand stack -/

def checkElements (limits : Limits) (count : Nat) (name : String) : Exec Unit :=
  if limits.maxElements < count then
    throw (.limit (.elements name count limits.maxElements))
  else pure ()

def push (limits : Limits) (v : Value) : Exec Unit := do
  if let .tensor t := v then checkElements limits t.size "push"
  modify fun m => { m with stack := v :: m.stack }

/-- The first value ends on top. -/
def pushAll (limits : Limits) (vs : List Value) : Exec Unit := vs.reverse.forM (push limits)

/-- One value, whoever asks for it. -/
def pop (name : String) : Exec Value := do
  match (← get).stack with
  | [] => throw (.underflow (.empty name))
  | v :: stack =>
    modify fun m => { m with stack := stack }
    return v

/-- As many values as a function takes, top of stack first; none is popped if one is missing. -/
def popMany (count : Nat) (name : String) : Exec (List Value) := do
  let stack := (← get).stack
  if stack.length < count then throw (.underflow (.short name count stack.length))
  else
    modify fun m => { m with stack := stack.drop count }
    return stack.take count

def popOne (name : String) : Exec Value := do
  match (← get).stack with
  | v :: stack =>
    modify fun m => { m with stack := stack }
    return v
  | [] => throw (.underflow (.short name 1 0))

/-- The top value and the one below it. -/
def popTwo (name : String) : Exec (Value × Value) := do
  match (← get).stack with
  | v :: w :: stack =>
    modify fun m => { m with stack := stack }
    return (v, w)
  | stack => throw (.underflow (.short name 2 stack.length))

/-- The value under `offset` others. -/
def peek (offset : Nat) (name : String) : Exec Value := do
  let stack := (← get).stack
  match stack[offset]? with
  | some v => return v
  | none => throw (.underflow (.short name (offset + 1) stack.length))

/-- The top values, each asked for in turn. -/
def peekMany (count : Nat) (name : String) : Exec (List Value) :=
  (List.range count).mapM fun i => peek i name

/-- A function from the stack. -/
def popFunction (name : String) : Exec Fn := do
  match ← pop name with
  | .fn f => return f
  | .tensor _ => throw (.domain (.functionWanted name))

/-! ## The context stack -/

def save (s : Saved) : Exec Unit := modify fun m => { m with context := s :: m.context }

def restore (name : String) : Exec Saved := do
  match (← get).context with
  | [] => throw (.domain (.nothingSaved name))
  | s :: context =>
    modify fun m => { m with context := context }
    return s

end Exec

end Tacit
