/-
Values, instructions and functions. A function is data: a built-in word, a half of an under pair, a
sequence of instructions, or a modifier applied to functions. Its name, effect, kind and declared
inverse are read off how it is made; the effect of a sequence of instructions is inferred from those of
the functions that its instructions name, and the table of words says which function a name stands for.
-/
import Tacit.Template.Basic
import Tacit.Tensor.Basic
import Tacit.Word.Basic

namespace Tacit

mutual

/-- What stands on the stack. -/
inductive Value where
  | tensor (t : Tensor)
  | fn (f : Fn)

inductive Instr where
  | push (v : Value)
  /-- What the name stands for in the table, called. -/
  | word (name : String)
  | invoke (f : Fn)
  /-- The code as a function value. -/
  | quote (code : List Instr)
  /-- The function on top of the stack, called. -/
  | call
  /-- A modifier applied to its operands and called; without operands, applied to functions from the
  stack and pushed. -/
  | modify (name : String) (operands : List Operand)
  /-- Text where an instruction should stand. -/
  | unknown (text : Text)

/-- What a modifier applies to. -/
inductive Operand where
  | fn (f : Fn)
  | name (name : String)
  | code (code : List Instr)

inductive Fn where
  | word (w : Word)
  | sum
  | product
  /-- Does the word's work and saves what the result lacks. -/
  | stash (k : Keeper)
  /-- Puts a new result back into what was saved. -/
  | restore (k : Keeper)
  | body (name : String) (signature : Signature) (dynamic : Bool) (code : List Instr)
  | compose (first second : Fn)
  /-- `transform`, then `action`, then `transform` undone; `before` and `after` are the halves. -/
  | under (transform action before after : Fn)
  /-- Saves the parameters of the function, then calls it. -/
  | saving (f : Fn)
  /-- Puts saved parameters back, then calls the inverse. -/
  | resuming (f inverse : Fn)
  | copyTop (f : Fn)
  | copyDeepest (f : Fn)
  | reduce (f : Fn)
  | each (f : Fn)
  | groupBy (f : Fn)
  | splitBy (f : Fn)
  | format (template : Template)
  | parse (template : Template)

end

/-! ## Kinds -/

inductive FnKind where
  | primitive
  | under
  | lambda
  | dynamic
  | derived
  | format
  deriving DecidableEq, Repr

def FnKind.text : FnKind → String
  | primitive => "primitive"
  | under => "under"
  | lambda => "lambda"
  | dynamic => "dynamic"
  | derived => "derived"
  | format => "format"

/-- A declared inverse of a function. -/
inductive Inverse where
  | named (name : String)
  | fn (f : Fn)

namespace Fn

/-! ## What a function is -/

def name : Fn → String
  | word w => w.name
  | sum => "sum"
  | product => "product"
  | stash k => s!"{k.name} (before)"
  | restore k => s!"{k.name} (after)"
  | body name _ _ _ => name
  | compose f g => s!"compose({f.name}, {g.name})"
  | under f g _ _ => s!"under({f.name}, {g.name})"
  | saving f => s!"{f.name} (before)"
  | resuming f _ => s!"{f.name} (after)"
  | copyTop f => s!"on({f.name})"
  | copyDeepest f => s!"by({f.name})"
  | reduce f => s!"reduce({f.name})"
  | each f => s!"each({f.name})"
  | groupBy f => s!"group_by({f.name})"
  | splitBy f => s!"split_by({f.name})"
  | format t => s!"format {t.source.quoted}"
  | parse t => s!"parse {t.source.quoted}"

def kind : Fn → FnKind
  | word _ | product | parse _ => .primitive
  | stash _ | restore _ | saving _ | resuming _ _ => .under
  | body _ _ dynamic _ => if dynamic then .dynamic else .lambda
  | format _ => .format
  | _ => .derived

def parametric : Fn → Nat
  | word w => w.parametric
  | _ => 0

/-- A function that leaves its input in place keeps it beneath the copy. -/
def signature : Fn → Signature
  | word w => w.signature
  | stash k => ⟨k.word.signature.args, 1⟩
  | body _ signature _ _ => signature
  | compose f g => f.signature.andThen g.signature
  | under _ action before after =>
    (before.signature.andThen action.signature).andThen after.signature
  | saving f => f.signature
  | resuming f inverse => ⟨inverse.signature.args - f.parametric, inverse.signature.outputs⟩
  | copyTop f | copyDeepest f =>
    ⟨max 1 f.signature.args, f.signature.outputs + if f.signature.args = 0 then 2 else 1⟩
  | format t => ⟨t.fields, 1⟩
  | parse t => ⟨1, t.fields⟩
  | sum | product | restore _ | reduce _ | each _ | groupBy _ | splitBy _ => ⟨1, 1⟩

def args (f : Fn) : Nat := f.signature.args

def outputs (f : Fn) : Nat := f.signature.outputs

/-- Folding with multiplication is undone by factoring; the name of the folded function decides. -/
def inverse? : Fn → Option Inverse
  | word w =>
    w.inverse?.map fun
      | .named name => .named name
      | .word w => .fn (.word w)
  | product => some (.named "primes")
  | reduce f => if f.name = "multiply" then some (.named "primes") else none
  | format t => some (.fn (.parse t))
  | parse t => some (.fn (.format t))
  | _ => none

def identity? : Fn → Option Tensor
  | word w => w.identity?.map Tensor.int
  | _ => none

/-- The word whose own halves serve under this function. -/
def keeper? : Fn → Option Keeper
  | word w => Keeper.ofWord? w
  | _ => none

/-- The instructions of a function that has a body of them. -/
def code? : Fn → Option (List Instr)
  | body _ _ _ code => some code
  | compose f g => some [.invoke f, .invoke g]
  | under _ action before after => some [.invoke before, .invoke action, .invoke after]
  | _ => none

/-- The modifier and operands that an inverse is derived from. -/
def derivation : Fn → Option (String × List Fn)
  | under transform action _ _ => some ("under", [transform, action])
  | each f => some ("each", [f])
  | _ => none

def text (f : Fn) : String := s!"Function({quoted f.name}{f.signature.text})"

end Fn

/-- The array among the values; a function has none of the properties that an array is asked for. -/
def Value.tensor? : Value → Except Fault Tensor
  | tensor t => pure t
  | fn _ => throw .functionValue

/-- An array equals no function. -/
def Tensor.matches (t : Tensor) : Value → Bool
  | .tensor u => t.same u
  | .fn _ => false

/-! ## Stack effects of code

Code that calls or modifies what it finds on the stack has no static effect.
-/

/-- Its effect depends on values that only a run knows. -/
def Instr.isDynamic : Instr → Bool
  | .call | .modify _ [] => true
  | _ => false

/-- The effect of one instruction; `resolve` gives the function that it names. -/
def Instr.effect (resolve : Instr → Except Fault Fn) (i : Instr) : Except Fault Signature :=
  match i with
  | .push _ | .quote _ => pure ⟨0, 1⟩
  | .modify name [] => throw (.domain (.dynamicModifier name))
  | .word _ | .invoke _ | .modify _ _ => return (← resolve i).signature
  | .call => throw (.domain .dynamicCall)
  | .unknown text => throw (.domain (.unknownInstruction text.quoted))

/-- The effect of the instructions after code of the effect given. -/
def effectFrom (resolve : Instr → Except Fault Fn) (before : Signature) :
    List Instr → Except Fault Signature
  | [] => pure before
  | i :: code => do effectFrom resolve (before.andThen (← i.effect resolve)) code

def stackEffect (resolve : Instr → Except Fault Fn) (code : List Instr) : Except Fault Signature :=
  effectFrom resolve .empty code

/-- The code as a function of the name given. -/
def Fn.ofCode (resolve : Instr → Except Fault Fn) (name : String) (code : List Instr) :
    Except Fault Fn :=
  if code.any Instr.isDynamic then pure (.body name .empty true code)
  else return .body name (← stackEffect resolve code) false code

/-! ## The table of words

The built-in table holds every word under its own name; a table can be extended, and a later entry
replaces an earlier one of the same name.
-/

/-- Each name occurs once. -/
structure Table where
  entries : List (String × Fn)

namespace Table

def standard : Table :=
  ⟨Word.all.map (fun w => (w.name, .word w)) ++ [("sum", .sum), ("product", .product)]⟩

def find? (table : Table) (name : String) : Option Fn := table.entries.lookup name

def get (table : Table) (name : String) : Except Fault Fn :=
  match table.find? name with
  | some f => pure f
  | none => throw (.domain (.unknownWord name))

/-- The table in which `name` stands for `f`. -/
def insert (table : Table) (name : String) (f : Fn) : Table :=
  if (table.find? name).isSome then
    ⟨table.entries.map fun (n, g) => if n = name then (n, f) else (n, g)⟩
  else ⟨table.entries ++ [(name, f)]⟩

def size (table : Table) : Nat := table.entries.length

/-- The names in ascending order of code points. -/
def names (table : Table) : List String := (table.entries.map (·.1)).mergeSort (· ≤ ·)

end Table

end Tacit
