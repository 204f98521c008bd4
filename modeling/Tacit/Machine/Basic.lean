/-
Machines: a setting, the depth at which calls start, and a memory. Each operation gives its outcome
and the machine after it, also when it fails. Running a program classifies the faults of the
substrate; single steps and the passage from host values do not.
-/
import Tacit.Machine.Run

namespace Tacit

structure Machine where
  setting : Setting := {}
  /-- How many calls are already under way. -/
  depth : Nat := 0
  memory : Memory := {}

namespace Machine

/-- The outcome of a step, and the machine with the memory that the step left. -/
def exec {α : Type} (m : Machine) (step : Exec α) : Except Fault α × Machine :=
  match step.run m.memory with
  | .ok a memory => (.ok a, { m with memory := memory })
  | .error fault memory => (.error fault, { m with memory := memory })

/-- The values from the bottom up. -/
def stack (m : Machine) : List Value := m.memory.stack.reverse

/-- How many more calls may be nested. -/
def room (m : Machine) : Nat := m.setting.limits.maxDepth - m.depth

end Machine

namespace Exec

/-- A host value, as an array if it is no function. -/
def pushHost (limits : Limits) (h : Host) : Exec Unit := do push limits (← lift (Value.ofHost h))

/-- The first value ends on top. -/
def pushHosts (limits : Limits) (hs : List Host) : Exec Unit := hs.reverse.forM (pushHost limits)

/-- The results of a function that is to give `outputs` values. -/
def pushResults (limits : Limits) (result : Host) (outputs : Nat) (name : String) : Exec Unit :=
  match outputs, result with
  | 0, _ => pure ()
  | 1, h => pushHost limits h
  | n, .tuple hs =>
    if hs.length = n then pushHosts limits hs else throw (.domain (.outputCount name n))
  | n, _ => throw (.domain (.outputCount name n))

end Exec

namespace Machine

/-! ## Running -/

def callStep (m : Machine) (f : Fn) : Exec Unit := Exec.call m.setting m.room f

def instrStep (m : Machine) (i : Instr) : Exec Unit := Exec.instr m.setting m.callStep i

def call (m : Machine) (f : Fn) : Except Fault Unit × Machine := m.exec (m.callStep f)

/-- A function applied to values, top of stack first, on a memory of its own. -/
def apply (m : Machine) (f : Fn) (args : List Value) : Except Fault (List Value) :=
  Exec.applyWith m.setting (Exec.call m.setting (m.room - 1)) f args

def step (m : Machine) (i : Instr) : Except Fault Unit × Machine := m.exec (m.instrStep i)

/-- Instructions in order, up to the first that fails; its fault is classified. -/
def run (m : Machine) : List Instr → Except Fault Unit × Machine
  | [] => (.ok (), m)
  | i :: code =>
    match m.step i with
    | (.ok _, m) => m.run code
    | (.error fault, m) => (.error fault.classify, m)

/-- The final stack of a program on the stack given, bottom first. -/
def evaluate (setting : Setting) (stack : List Host) (code : List Instr) :
    Except Fault (List Value) :=
  let m : Machine := { setting := setting }
  match m.exec (stack.forM (Exec.pushHost setting.limits)) with
  | (.error fault, _) => .error fault
  | (.ok _, m) =>
    match m.run code with
    | (.error fault, _) => .error fault
    | (.ok _, m) => .ok m.stack

end Machine

end Tacit
