/-
The written form of host values, arrays, functions and instructions, as it stands in messages.
-/
import Tacit.Host.Basic

namespace Tacit

/-- Texts with commas between, in brackets. -/
def bracketed (texts : List String) : String := "[" ++ ", ".intercalate texts ++ "]"

/-- Texts with commas between, in parentheses; one alone keeps its comma. -/
def parenthesized : List String → String
  | [t] => s!"({t},)"
  | ts => "(" ++ ", ".intercalate ts ++ ")"

mutual

def Host.written : Host → String
  | .none => "None"
  | .bool b => if b then "True" else "False"
  | .int n => toString n
  | .float x => floatText x
  | .text t => t.quoted
  | .list items => bracketed (Host.writtenAll items)
  | .tuple items => parenthesized (Host.writtenAll items)
  | .value (.fn f) => f.text
  | h => h.typeName

def Host.writtenAll : List Host → List String
  | [] => []
  | h :: hs => h.written :: Host.writtenAll hs

end

/-- An array with its kind, shape and elements. -/
def Tensor.written (t : Tensor) : Except Fault String := do
  let elements ← t.toHost
  return s!"Array({t.kind.text}, {t.shape.text}, {elements.written})"

def Value.written : Value → Except Fault String
  | .tensor t => t.written
  | .fn f => pure f.text

mutual

def Instr.written : Instr → Except Fault String
  | .push v => do
    let value ← v.written
    return s!"Push(value={value})"
  | .word name => return s!"Prim(name={quoted name})"
  | .invoke f => return s!"Invoke(function={f.text})"
  | .quote code => do
    let body ← Instr.writtenAll code
    return s!"Lambda(body={parenthesized body})"
  | .call => pure "Call()"
  | .modify name operands => do
    let texts ← Operand.writtenAll operands
    return s!"Modify(name={quoted name}, operands={parenthesized texts})"
  | .unknown text => pure text.quoted

def Instr.writtenAll : List Instr → Except Fault (List String)
  | [] => pure []
  | i :: is => return (← i.written) :: (← Instr.writtenAll is)

def Operand.written : Operand → Except Fault String
  | .fn f => pure f.text
  | .name name => pure (quoted name)
  | .code code => return parenthesized (← Instr.writtenAll code)

def Operand.writtenAll : List Operand → Except Fault (List String)
  | [] => pure []
  | o :: os => return (← o.written) :: (← Operand.writtenAll os)

end

end Tacit
