/-
Modifiers: the ways to make functions from functions. Each takes a fixed number of operands, and some
ask for operands of a given signature.
-/
import Tacit.Term

namespace Tacit

inductive Modifier where
  | compose
  | invert
  | under
  | copyTop
  | copyDeepest
  | reduce
  | each
  | groupBy
  | splitBy
  deriving DecidableEq, Repr

namespace Modifier

def name : Modifier → String
  | compose => "compose"
  | invert => "invert"
  | under => "under"
  | copyTop => "on"
  | copyDeepest => "by"
  | reduce => "reduce"
  | each => "each"
  | groupBy => "group_by"
  | splitBy => "split_by"

def arity : Modifier → Nat
  | compose | under => 2
  | _ => 1

def all : List Modifier :=
  [compose, invert, under, copyTop, copyDeepest, reduce, each, groupBy, splitBy]

def ofName (name : String) : Except Fault Modifier :=
  match all.find? (·.name == name) with
  | some m => pure m
  | none => throw (.domain (.unknownModifier name))

/-- As many operands as the modifier takes. -/
def checkArity (m : Modifier) (count : Nat) : Except Fault Unit :=
  if count = m.arity then pure () else throw (.domain (.modifierArity m.name m.arity count))

/-- A function of the signature that the modifier asks for. -/
def checkSignature (m : Modifier) (role : Role) (wanted : Signature) (f : Fn) : Except Fault Unit :=
  if f.signature = wanted then pure ()
  else throw (.domain (.signatureWanted m.name role wanted f.signature))

end Modifier

/-- The two halves around the action of an under. -/
structure UnderPair where
  before : Fn
  after : Fn

/-- `transform`, then `action` on its result, then `transform` undone. -/
def Fn.underOf (underPair : Fn → Except Fault UnderPair) (transform action : Fn) :
    Except Fault Fn := do
  let pair ← underPair transform
  return .under transform action pair.before pair.after

/-- A function of one argument on every row. -/
def Fn.eachOf (f : Fn) : Except Fault Fn := do
  Modifier.each.checkSignature .function ⟨1, 1⟩ f
  return .each f

/-- The function that a modifier makes of its operands. -/
def Modifier.build (invert : Fn → Except Fault Fn) (underPair : Fn → Except Fault UnderPair)
    (m : Modifier) (operands : List Fn) : Except Fault Fn :=
  match m, operands with
  | .compose, [f, g] => pure (.compose f g)
  | .invert, [f] => invert f
  | .under, [f, g] => Fn.underOf underPair f g
  | .copyTop, [f] => pure (.copyTop f)
  | .copyDeepest, [f] => pure (.copyDeepest f)
  | .reduce, [f] => do
    Modifier.reduce.checkSignature .function ⟨2, 1⟩ f
    return .reduce f
  | .each, [f] => Fn.eachOf f
  | .groupBy, [f] => do
    Modifier.groupBy.checkSignature .predicate ⟨2, 1⟩ f
    return .groupBy f
  | .splitBy, [f] => do
    Modifier.splitBy.checkSignature .predicate ⟨1, 1⟩ f
    return .splitBy f
  | m, operands => throw (.domain (.modifierArity m.name m.arity operands.length))

end Tacit
