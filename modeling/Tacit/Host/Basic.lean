/-
Host values: what a program is seeded with and what an array reads as outside the machine. A host
list becomes an array row by row; a string becomes a character vector; an array read back becomes
nested lists.
-/
import Tacit.Term

namespace Tacit

inductive Host where
  | none
  | bool (b : Bool)
  | int (n : Int)
  | float (x : Float)
  | text (t : Text)
  /-- One code point. -/
  | char (c : Nat)
  | list (items : List Host)
  | tuple (items : List Host)
  /-- A numeric array of the host's own. -/
  | grid (shape : Shape) (xs : Numbers)
  | value (v : Value)

namespace Host

/-- The host's name of the value's type. -/
def typeName : Host → String
  | none => "NoneType"
  | bool _ => "bool"
  | int _ => "int"
  | float _ => "float"
  | text _ => "str"
  | char _ => "Char"
  | list _ => "list"
  | tuple _ => "tuple"
  | grid _ _ => "ArrayImpl"
  | value (.tensor _) => "Array"
  | value (.fn _) => "Function"

/-- A character is made from a text of one code point. -/
def ofChar (t : Text) : Except Fault Host :=
  match t with
  | [c] => pure (char c)
  | _ => throw (.substrate .characterCount)

end Host

/-! ## Into arrays -/

namespace Tensor

def character (c : Nat) : Tensor := ⟨[], .characters [Int32.ofNat c]⟩

mutual

/-- The array that a host value stands for. -/
def ofHost : Host → Except Fault Tensor
  | .value (.tensor t) => pure t
  | .text t => pure (string t)
  | .char c => pure (character c)
  | .bool b => pure (ofNumbers [] (.bools [b]))
  | .int n => ofInt n
  | .float x => pure (ofNumbers [] (.floats [narrow x]))
  | .grid s xs => pure (ofNumbers s xs)
  | .list items | .tuple items => return ofRows (← ofHosts items)
  | h => throw (.domain (.hostType h.typeName))

def ofHosts : List Host → Except Fault (List Tensor)
  | [] => pure []
  | h :: hs => return (← ofHost h) :: (← ofHosts hs)

end

/-- A scalar: a number, a character, or an array in a box. -/
def scalarOf : Host → Except Fault Tensor
  | .value (.tensor t) => pure t.box
  | .text t => do ofHost (← Host.ofChar t)
  | .char c => pure (character c)
  | .bool b => ofHost (.bool b)
  | .int n => ofInt n
  | .float x => ofHost (.float x)
  | h => throw (.domain (.scalarType h.typeName))

/-- A vector that boxes every item, whatever its shape. -/
def boxed (items : List Host) : Except Fault Tensor := return boxes (← ofHosts items)

/-- Numbers that are to fill a shape, whose host dimensions may differ if the count agrees. -/
def ofGrid (dims target : Shape) (xs : Numbers) : Except Fault Tensor :=
  if dims = target ∨ dims.size = target.size then pure (ofNumbers target xs)
  else throw (.shape (.numberData dims target))

/-- Code points that are to fill a shape. -/
def ofCharacters (target : Shape) (t : Text) : Except Fault Tensor :=
  if t.length = target.size then pure ⟨target, .characters (t.map fun c => Int32.ofNat c)⟩
  else throw (.shape (.numberData [t.length] target))

/-- Arrays that are to fill a shape as boxes; anything else among the items fits in no box. -/
def ofContents (target : Shape) (items : List Host) : Except Fault Tensor :=
  if items.length ≠ target.size then throw (.shape (.boxData target items.length))
  else
    return ⟨target, .boxes (← items.mapM fun
      | .value (.tensor t) => pure t
      | h => throw (.domain (.boxContents h.typeName)))⟩

end Tensor

/-- A function stays a function; everything else becomes an array. -/
def Value.ofHost : Host → Except Fault Value
  | .value v => pure v
  | h => return .tensor (← Tensor.ofHost h)

/-! ## Out of arrays -/

def Number.toHost : Number → Host
  | .bool b => .bool b
  | .int n => .int n.toInt
  | .float x => .float (widen x)

/-- Leaves in nested lists by shape, down to `leaf` axes which `whole` reads at once. -/
def Host.nested {α : Type} (leaf : Nat) (whole : List α → Host) : Shape → List α → Host
  | [], xs => whole xs
  | n :: s, xs =>
    if s.length < leaf then whole xs
    else .list ((blocks n (Shape.size s) xs).map (nested leaf whole s))

/-- The one leaf of a scalar. -/
def Host.only (hs : List Host) : Host := hs.headD .none

namespace Tensor

mutual

/-- The host value that an array reads as: strings for character vectors, contents for boxes. -/
def toHost : Tensor → Except Fault Host
  | ⟨s, .numbers xs⟩ => pure (Host.nested 0 Host.only s (xs.toList.map Number.toHost))
  | ⟨s, .characters cs⟩ => return Host.nested 1 Host.text s (← cs.mapM codePoint)
  | ⟨s, .boxes xs⟩ => return Host.nested 0 Host.only s (← toHosts xs)

def toHosts : List Tensor → Except Fault (List Host)
  | [] => pure []
  | t :: ts => return (← t.toHost) :: (← toHosts ts)

end

/-- The host value of a scalar. -/
def item (t : Tensor) : Except Fault Host :=
  if t.isScalar then t.toHost else throw (.domain (.scalarWanted t.shape))

end Tensor

end Tacit
