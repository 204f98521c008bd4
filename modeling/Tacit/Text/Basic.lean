/-
Text as a sequence of code points. Character arrays may hold any code point, also one that is no
Unicode scalar value, so text is a list of numbers and not a `String`; searching and cutting are
plain list functions.
-/
namespace Tacit

/-- A text is the sequence of its code points. -/
abbrev Text := List Nat

namespace Text

def ofString (s : String) : Text := s.toList.map Char.toNat

/-- A code point without a character is shown as the replacement character. -/
def toString (t : Text) : String :=
  String.ofList (t.map fun c => if c.isValidChar then Char.ofNat c else '\ufffd')

/-! ## Searching -/

/-- The text after a leading `pat`. -/
def dropLead? : Text → Text → Option Text
  | [], s => some s
  | _ :: _, [] => none
  | p :: pat, c :: s => if p = c then dropLead? pat s else none

/-- The parts before and after the first occurrence of `pat`. -/
def cut? (pat : Text) : Text → Option (Text × Text)
  | [] => (dropLead? pat []).map fun rest => ([], rest)
  | c :: s =>
    match dropLead? pat (c :: s) with
    | some rest => some ([], rest)
    | none => (cut? pat s).map fun (before, after) => (c :: before, after)

/-- The text before a trailing `pat`. -/
def dropTrail? (pat s : Text) : Option Text :=
  (dropLead? pat.reverse s.reverse).map List.reverse

/-- Occurrences of `pat` counted from the left without overlap; `skip` code points belong to the
occurrence counted last. -/
def countFrom (pat : Text) (skip : Nat) : Text → Nat
  | [] => 0
  | c :: s =>
    match skip with
    | k + 1 => countFrom pat k s
    | 0 =>
      if (dropLead? pat (c :: s)).isSome then countFrom pat (pat.length - 1) s + 1
      else countFrom pat 0 s

def count (pat s : Text) : Nat := countFrom pat 0 s

/-- The texts one after another with `sep` between neighbours. -/
def joinWith (sep : Text) : List Text → Text
  | [] => []
  | [t] => t
  | t :: u :: ts => t ++ sep ++ joinWith sep (u :: ts)

end Text

end Tacit
