/-
Inverses and under pairs. A declared inverse comes first; an `under` or an `each` is inverted through
its operands; a sequence of instructions is inverted unit by unit from its end, where a unit is a
function with the literals pushed right before it. Derivations lead through the table of words, so
a word that is defined by itself would have no end: the number of steps is bounded by the heights of
what is derived and of the words in the table, which no derivation without such a word exceeds.
-/
import Tacit.Host.Text
import Tacit.Modifier

namespace Tacit

/-! ## Units -/

/-- A function together with the literals pushed right before it. -/
structure CodeUnit where
  literals : List Tensor
  function : Fn

/-- The units of code after the literals `pending`. -/
def unitsFrom (resolve : Instr → Except Fault Fn) (pending : List Tensor) :
    List Instr → Except Fault (List CodeUnit)
  | [] =>
    if pending.isEmpty then pure [] else throw (.notInvertible "literal" (some .unusedLiteral))
  | .push (.tensor t) :: code => unitsFrom resolve (pending ++ [t]) code
  | .push (.fn _) :: _ | .quote _ :: _ | .call :: _ | .modify _ [] :: _ =>
    throw (.notInvertible "call" (some .dynamicFunction))
  | i :: code => do
    let f ← resolve i
    return ⟨pending, f⟩ :: (← unitsFrom resolve [] code)

def units (resolve : Instr → Except Fault Fn) (code : List Instr) : Except Fault (List CodeUnit) :=
  unitsFrom resolve [] code

/-- The unit's literals, then the function given. -/
def CodeUnit.code (u : CodeUnit) (f : Fn) : List Instr :=
  u.literals.map (fun t => .push (.tensor t)) ++ [.invoke f]

/-- The code that undoes a unit: its literals again, which are the parameters of the inverse. -/
def CodeUnit.inverted (invert : Fn → Except Fault Fn) (u : CodeUnit) :
    Except Fault (List Instr) := do
  let inverse ← invert u.function
  let wanted := u.function.parametric
  if wanted < u.literals.length then
    throw (.notInvertible "literal" (some (.literalCount u.function.name wanted)))
  else if u.literals.length < wanted then
    throw (.notInvertible u.function.name (some .missingLiteral))
  else return u.code inverse

/-- The code undone from its last unit to its first. -/
def invertCode (resolve : Instr → Except Fault Fn) (invert : Fn → Except Fault Fn)
    (code : List Instr) : Except Fault (List Instr) := do
  return (← (← units resolve code).reverse.mapM (CodeUnit.inverted invert)).flatten

/-! ## Under pairs -/

/-- The halves of a function that has an inverse: its parameters are saved for the inverse. -/
def UnderPair.ofInverse (f inverse : Fn) : UnderPair :=
  if f.parametric = 0 then ⟨f, inverse⟩ else ⟨.saving f, .resuming f inverse⟩

/-- The halves of code: those of its units, the second halves in reverse order. -/
def UnderPair.ofCode (resolve : Instr → Except Fault Fn)
    (underPair : Fn → Except Fault UnderPair) (name : String) (code : List Instr) :
    Except Fault UnderPair := do
  let us ← units resolve code
  let pairs ← us.mapM fun u => underPair u.function
  let befores := (us.zip pairs).flatMap fun (u, pair) => u.code pair.before
  let afters := pairs.reverse.map fun pair => .invoke pair.after
  return ⟨← Fn.ofCode resolve s!"{name} (before)" befores,
    ← Fn.ofCode resolve s!"{name} (after)" afters⟩

namespace Table

variable (table : Table)

def ofInverse : Inverse → Except Fault Fn
  | .named name => table.get name
  | .fn f => pure f

/-! ## Derivation in bounded steps -/

mutual

/-- The function that an instruction names. -/
def resolveIn : Nat → Instr → Except Fault Fn
  | 0, _ => throw .endlessDefinition
  | n + 1, i =>
    match i with
    | .word name => table.get name
    | .invoke f => pure f
    | .modify name (o :: os) => do
      let m ← Modifier.ofName name
      m.checkArity (o :: os).length
      let fs ← (o :: os).mapM fun
        | .fn f => pure f
        | .name name => table.get name
        | .code code => Fn.ofCode (resolveIn n) "lambda" code
      m.build (invertIn n) (underPairIn n) fs
    | i => do
      let text ← i.written
      throw (.domain (.namesNoFunction text))

def invertIn : Nat → Fn → Except Fault Fn
  | 0, _ => throw .endlessDefinition
  | n + 1, f =>
    match f.inverse? with
    | some inverse => table.ofInverse inverse
    | none =>
      match f with
      | .under transform action _ _ => do
        Fn.underOf (underPairIn n) transform (← invertIn n action)
      | .each g => do Fn.eachOf (← invertIn n g)
      | f =>
        match f.code? with
        | some code => do
          let steps ← invertCode (resolveIn n) (invertIn n) code
          Fn.ofCode (resolveIn n) s!"invert({f.name})" steps
        | none => throw (.notInvertible f.name none)

def underPairIn : Nat → Fn → Except Fault UnderPair
  | 0, _ => throw .endlessDefinition
  | n + 1, f =>
    match f.keeper? with
    | some k => pure ⟨.stash k, .restore k⟩
    | none =>
      match f.code? with
      | some code =>
        if f.inverse?.isNone ∧ f.derivation.isNone then
          UnderPair.ofCode (resolveIn n) (underPairIn n) f.name code
        else return .ofInverse f (← invertIn n f)
      | none => return .ofInverse f (← invertIn n f)

end

end Table

/-! ## Heights -/

mutual

/-- How deep functions and code are nested in a function. -/
def Fn.height : Fn → Nat
  | .body _ _ _ code => codeHeight code + 1
  | .compose f g => max f.height g.height + 1
  | .under f g _ _ => max f.height g.height + 1
  | .copyTop f | .copyDeepest f | .reduce f | .each f | .groupBy f | .splitBy f => f.height + 1
  | _ => 1

def Instr.height : Instr → Nat
  | .invoke f => f.height
  | .modify _ os => operandsHeight os + 1
  | _ => 1

def Operand.height : Operand → Nat
  | .fn f => f.height
  | .name _ => 1
  | .code code => codeHeight code + 1

def codeHeight : List Instr → Nat
  | [] => 0
  | i :: code => max i.height (codeHeight code)

def operandsHeight : List Operand → Nat
  | [] => 0
  | o :: os => max o.height (operandsHeight os)

end

namespace Table

/-! ## Derivation -/

/-- A path through derivations passes each word at most once and takes two steps on each level. -/
def bound (table : Table) (height : Nat) : Nat :=
  2 * (height + (table.entries.map (·.2.height)).foldr (· + ·) 0) + 1

/-- The function that an instruction names. -/
def resolve (table : Table) (i : Instr) : Except Fault Fn :=
  table.resolveIn (table.bound i.height) i

/-- The function that undoes `f`. -/
def invert (table : Table) (f : Fn) : Except Fault Fn :=
  table.invertIn (table.bound f.height) f

/-- The halves of `f` around an action. -/
def underPair (table : Table) (f : Fn) : Except Fault UnderPair :=
  table.underPairIn (table.bound f.height) f

/-- The code as a function. -/
def lambda (table : Table) (code : List Instr) : Except Fault Fn :=
  Fn.ofCode table.resolve "lambda" code

/-- The function that an operand names. -/
def function (table : Table) : Operand → Except Fault Fn
  | .fn f => pure f
  | .name name => table.get name
  | .code code => table.lambda code

/-- The modifier applied to its operands. -/
def derive (table : Table) (name : String) (operands : List Operand) : Except Fault Fn := do
  let m ← Modifier.ofName name
  m.checkArity operands.length
  m.build table.invert table.underPair (← operands.mapM table.function)

end Table

end Tacit
