/-
Fields in arrays: the text of a field value, and joining and splitting by a separator or a template.
A separator is a string, or a list of strings that stand between consecutive fields.
-/
import Tacit.Template.Basic
import Tacit.Tensor.Basic

namespace Tacit

/-! ## The text of a field -/

/-- Integral floats are written without a fraction. -/
def Number.fieldText : Number → String
  | .float x =>
    match Binary32.toInt? x with
    | some n => toString n
    | none => (Number.float x).text
  | x => x.text

/-- Element texts in brackets, axis by axis, down to `leaf` axes whose texts stand together. -/
def nest (leaf : Nat) : Shape → List Text → Text
  | [], ts => ts.flatten
  | n :: s, ts =>
    if s.length < leaf then ts.flatten
    else
      let rows := (blocks n (Shape.size s) ts).map (nest leaf s)
      Text.ofString "[" ++ Text.joinWith (Text.ofString " ") rows ++ Text.ofString "]"

namespace Tensor

mutual

/-- Strings as they are, boxes by their contents, everything else printed. -/
def fieldText : Tensor → Except Fault Text
  | ⟨s, .numbers xs⟩ => pure (nest 0 s (xs.toList.map fun x => Text.ofString x.fieldText))
  | ⟨s, .characters cs⟩ => return nest 1 s ((← cs.mapM codePoint).map ([·]))
  | ⟨s, .boxes xs⟩ => return nest 0 s (← fieldTextAll xs)

def fieldTextAll : List Tensor → Except Fault (List Text)
  | [] => pure []
  | t :: ts => return (← t.fieldText) :: (← fieldTextAll ts)

end

/-- The texts of the rows. -/
def fieldTexts (t : Tensor) : Except Fault (List Text) := t.rows.mapM fieldText

/-- A vector of boxed strings. -/
def strings (ts : List Text) : Tensor := boxes (ts.map string)

end Tensor

/-! ## Separators -/

inductive Separator where
  | every (text : Text)
  | each (texts : List Text)

namespace Separator

/-- A string, or strings in boxes or as rows. -/
def ofTensor (t : Tensor) : Except Fault Separator :=
  match t.shape, t.elements with
  | [], .characters _ | [_], .characters _ => do
    let text ← t.text
    if text.isEmpty then throw (.domain .emptySeparator) else return every text
  | [_, _], .characters _ => return each (← t.rows.mapM Tensor.text)
  | [_], .boxes xs => return each (← xs.mapM Tensor.text)
  | _, _ => throw (.domain .separatorType)

/-- The template for `fields` fields; a list of separators fixes their number itself. -/
def template (separator : Separator) (fields : Nat) : Template :=
  match separator with
  | every text => .ofSeparators (List.replicate (fields - 1) text)
  | each texts => .ofSeparators texts

/-- How many fields the separator makes of a subject. -/
def fieldCount (separator : Separator) (subject : Text) : Nat :=
  match separator with
  | every text => Text.count text subject + 1
  | each texts => texts.length + 1

def join (separator : Separator) (fields : List Text) : Except Fault Text :=
  (separator.template fields.length).join fields

def split (separator : Separator) (subject : Text) : Except Fault (List Text) :=
  (separator.template (separator.fieldCount subject)).split subject

end Separator

namespace Tensor

/-- The texts of the rows with separators between; no rows join to nothing, whatever the separator. -/
def joinFields (fields separator : Tensor) : Except Fault Text := do
  let texts ← fields.fieldTexts
  if texts.isEmpty then return [] else (← Separator.ofTensor separator).join texts

def splitFields (subject separator : Tensor) : Except Fault (List Text) := do
  let text ← subject.text
  (← Separator.ofTensor separator).split text

end Tensor

end Tacit
