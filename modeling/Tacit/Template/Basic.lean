/-
Templates: literal texts with a field between each and the next. Joining puts texts into the fields;
splitting finds each literal at its leftmost place after the one before, the last at the end of the
subject, and the texts between are the fields.
-/
import Tacit.Fault

namespace Tacit

/-- A template has one literal more than it has fields; `source` is how it was written. -/
structure Template where
  lead : Text
  rest : List Text
  source : Text

namespace Template

def literals (t : Template) : List Text := t.lead :: t.rest

def fields (t : Template) : Nat := t.rest.length

/-- The mark of a field. -/
def placeholder : Text := [95]

/-! ## Writing and reading templates -/

/-- The first literal of a written template and the others. A backslash before a placeholder makes it
literal. -/
def literalsOf (placeholder : Text) : Text → Text × List Text
  | [] => ([], [])
  | c :: s =>
    if c = Text.backslash ∧ s.take 1 = placeholder then
      match s with
      | [] => (placeholder, [])
      | _ :: s =>
        let (lead, rest) := literalsOf placeholder s
        (placeholder ++ lead, rest)
    else
      let (lead, rest) := literalsOf placeholder s
      if [c] = placeholder then ([], lead :: rest) else (c :: lead, rest)

def parseWith (placeholder source : Text) : Template :=
  let (lead, rest) := literalsOf placeholder source
  ⟨lead, rest, source⟩

def parse (source : Text) : Template := parseWith placeholder source

/-- A literal as it is written: with a backslash before each placeholder. -/
def escaped (literal : Text) : Text := literal.flatMap fun c =>
  if [c] = placeholder then [Text.backslash, c] else [c]

/-- The template with nothing before its first field and after its last. -/
def ofSeparators (separators : List Text) : Template :=
  let rest := separators ++ [[]]
  ⟨[], rest, Text.joinWith placeholder (([] :: rest).map escaped)⟩

/-! ## Joining and splitting -/

def mismatch {α : Type} (t : Template) (position : Nat) (cause : MismatchCause) : Except Fault α :=
  throw (.mismatch ⟨t.source, position, cause⟩)

/-- Each field with the literal after it. -/
def weave : List Text → List Text → Text
  | field :: fields, literal :: literals => field ++ literal ++ weave fields literals
  | _, _ => []

def join (t : Template) (fields : List Text) : Except Fault Text :=
  if fields.length ≠ t.fields then t.mismatch 0 (.fieldCount t.fields fields.length)
  else pure (t.lead ++ weave fields t.rest)

/-- The fields of the subject from `position` on, where it reads `s`, up to the literals given. -/
def splitFrom (t : Template) (position : Nat) (s : Text) : List Text → Except Fault (List Text)
  | [] => pure []
  | [tail] =>
    match Text.dropTrail? tail s with
    | some field => pure [field]
    | none => t.mismatch position (.literal tail)
  | literal :: more =>
    if literal.isEmpty then t.mismatch position .adjacentFields
    else
      match Text.cut? literal s with
      | none => t.mismatch position (.literal literal)
      | some (field, s) =>
        return field :: (← t.splitFrom (position + field.length + literal.length) s more)

def split (t : Template) (subject : Text) : Except Fault (List Text) :=
  match Text.dropLead? t.lead subject with
  | none => t.mismatch 0 (.literal t.lead)
  | some s =>
    if t.fields = 0 ∧ s ≠ [] then t.mismatch t.lead.length .trailingText
    else t.splitFrom t.lead.length s t.rest

end Template

end Tacit
