/-
Why an evaluation fails. A fault names its cause and the values the cause is about; the wording of
every cause stands in one place, `Fault.message`. Faults of the substrate, which number and text
conversions raise, have no wording; at the top level they are classified as domain or shape faults.
-/
import Tacit.Basic
import Tacit.Text.Quoted
import Tacit.Number.Decimal

namespace Tacit

/-- What a signature is asked of. -/
inductive Role where
  | function
  | predicate
  deriving DecidableEq, Repr

def Role.text : Role → String
  | .function => "function"
  | .predicate => "predicate"

/-! ## Causes -/

/-- An argument lies outside the domain of an operation. Names are those of the operation asked. -/
inductive DomainCause where
  | fractionalDimension
  | negativeDimension
  | unfixLength (length : Nat)
  | unfixEmpty
  | unfixScalar
  | unfixShape (shape : Shape)
  | boxContents (found : String)
  | scalarType (found : String)
  | hostType (found : String)
  | index (index : Int) (length : Nat)
  | scalarWanted (shape : Shape)
  | scalarIntegerWanted (name : String)
  | integerWanted (name : String)
  | stringWanted (kind : Kind) (shape : Shape)
  | fillFromEmpty (target : Shape)
  | unknownOperation (name : String)
  | kinds (name : String) (left right : Kind)
  | kind (name : String) (kind : Kind)
  | fractionalOffset (name : String)
  | scalarAxis
  | keepInfinite (count : Float)
  | keepNegative
  | keepRank
  | keepFractional
  | keepKind
  | scaleFactors
  | maskLength (mask rows : Nat)
  | splitScalar
  | separatorRank (separator array : Nat)
  | emptySeparator
  | separatorType
  | unknownWord (name : String)
  | shapeWanted (name : String)
  | takeTooMany (count : Int) (length : Nat)
  | notFactorable (number : String)
  | primesKind
  | namesNoFunction (instruction : String)
  | predicateResult (name : String)
  | noIdentity (name : String)
  | signatureWanted (modifier : String) (role : Role) (wanted found : Signature)
  | unknownModifier (name : String)
  | modifierArity (name : String) (arity found : Nat)
  | unknownInstruction (instruction : String)
  | dynamicModifier (name : String)
  | dynamicCall
  | functionWanted (name : String)
  | outputCount (name : String) (count : Nat)
  | nothingSaved (name : String)
  deriving DecidableEq

/-- Shapes of operands that do not go together. -/
inductive ShapeCause where
  | boxData (shape : Shape) (found : Nat)
  | numberData (dims shape : Shape)
  | reshape (source target : Shape)
  | disagree (name : String) (left right : Shape)
  | keepCounts (counts rows : Nat)
  | scaleCount (factors rank : Nat)
  | join (left right : Shape)
  | replaceRow (old new : Shape)
  | replaceRowKind (old : Shape) (kind : Kind) (new : Shape)
  deriving DecidableEq

inductive UnderflowCause where
  | empty (name : String)
  | short (name : String) (count found : Nat)
  deriving DecidableEq

inductive LimitCause where
  | elements (name : String) (count limit : Nat)
  | depth (limit : Nat) (name : String)
  deriving DecidableEq

/-- What stands in the way of an inverse. -/
inductive Obstacle where
  | zeroFactor
  | dynamicFunction
  | unusedLiteral
  | literalCount (name : String) (wanted : Nat)
  | missingLiteral
  deriving DecidableEq

/-- Why a subject does not fit a template at a position. -/
inductive MismatchCause where
  | literal (text : Text)
  | fieldCount (wanted found : Nat)
  | trailingText
  | adjacentFields
  deriving DecidableEq

structure Mismatch where
  template : Text
  position : Nat
  cause : MismatchCause
  deriving DecidableEq

/-- Failures of the substrate: conversions, integer ranges, values of a type that cannot be worked
on, and definitions that need themselves. -/
inductive SubstrateCause where
  | integerRange
  | characterCount
  | codePoint
  | floatText
  | zeroDimension
  | loneDimension
  | booleanArithmetic
  | savedForm
  deriving DecidableEq

inductive Fault where
  | domain (cause : DomainCause)
  | shape (cause : ShapeCause)
  | underflow (cause : UnderflowCause)
  | limit (cause : LimitCause)
  | notInvertible (name : String) (obstacle : Option Obstacle)
  | mismatch (mismatch : Mismatch)
  | substrate (cause : SubstrateCause)
  /-- A substrate fault met at the top level. -/
  | classified (shaped : Bool) (cause : SubstrateCause)
  /-- A function stands where an array is needed. -/
  | functionValue
  /-- A word's definition leads back to the word without end. -/
  | endlessDefinition
  deriving DecidableEq

/-! ## Wording -/

def DomainCause.message : DomainCause → String
  | fractionalDimension => "Shape dimensions must be integers"
  | negativeDimension => "Shape dimensions must be non-negative"
  | unfixLength n => s!"Cannot unfix array with length {n}"
  | unfixEmpty => "Cannot unfix empty array"
  | unfixScalar => "Cannot unfix scalar"
  | unfixShape s => s!"Cannot unfix array with shape {s.text}"
  | boxContents found => s!"Box contents must be arrays, got {found}"
  | scalarType found => s!"Unsupported scalar type {found}"
  | hostType found => s!"Unsupported host value of type {found}"
  | index i n => s!"Index {i} out of bounds for length {n}"
  | scalarWanted s => s!"Expected a scalar, got shape {s.text}"
  | scalarIntegerWanted name => s!"{name} requires a scalar integer argument"
  | integerWanted name => s!"{name} requires an integer argument"
  | stringWanted k s => s!"Expected a string, got {k.text} array of shape {s.text}"
  | fillFromEmpty s => s!"Cannot fill shape {s.text} from an empty array"
  | unknownOperation name => s!"Unknown pervasive operation {quoted name}"
  | kinds name l r => s!"Cannot {name} {l.text} and {r.text} arrays"
  | kind name k => s!"Cannot {name} a {k.text} array"
  | fractionalOffset name => s!"{name}: character offsets must be integers"
  | scalarAxis => "Cannot select along an axis of a scalar"
  | keepInfinite x => s!"keep count must be finite, got {floatText x}"
  | keepNegative => "keep count must be non-negative"
  | keepRank => "keep counts must be a scalar or a vector"
  | keepFractional => "keep vector counts must be non-negative integers"
  | keepKind => "keep counts must be numbers"
  | scaleFactors => "scale factors must be a scalar or a vector of numbers"
  | maskLength mask rows => s!"Separator mask of length {mask} for {rows} rows"
  | splitScalar => "Cannot split a scalar"
  | separatorRank s a => s!"Separator of rank {s} cannot split rank-{a} array"
  | emptySeparator => "Separator must not be empty"
  | separatorType => "Separator must be a string or a list of strings"
  | unknownWord name => s!"Unknown primitive {quoted name}"
  | shapeWanted name => s!"{name} expects a shape as a scalar or a list of numbers"
  | takeTooMany n length => s!"Cannot take {n} rows from an array of length {length}"
  | notFactorable number => s!"Cannot factor {number}: primes needs positive integers"
  | primesKind => "primes expects numbers"
  | namesNoFunction i => s!"Instruction {i} does not name a function"
  | predicateResult name => s!"{name} predicate must return a scalar number"
  | noIdentity name => s!"Cannot reduce an empty array with {quoted name}: no identity"
  | signatureWanted m role wanted found =>
    s!"{m} needs a {role.text} of signature {wanted.text}, got {found.text}"
  | unknownModifier name => s!"Unknown modifier {quoted name}"
  | modifierArity name n found => s!"Modifier {quoted name} takes {n} function(s), got {found}"
  | unknownInstruction i => s!"Unknown instruction {i}"
  | dynamicModifier name =>
    s!"Cannot infer the signature of a stack-operand modifier {quoted name}"
  | dynamicCall => "Cannot infer the signature of a dynamic call"
  | functionWanted name => s!"{name} expects a function on the stack"
  | outputCount name n => s!"{name} must produce {n} values"
  | nothingSaved name => s!"{name} has no saved context to restore"

/-- A shape as a tuple of dimensions; one alone keeps its comma. -/
def Shape.tupleText : Shape → String
  | [n] => s!"({n},)"
  | s => "(" ++ ", ".intercalate (s.map toString) ++ ")"

def ShapeCause.message : ShapeCause → String
  | boxData s n => s!"Boxed array of shape {s.text} needs {s.size} elements, got {n}"
  | numberData dims s => s!"Array data of shape {dims.tupleText} does not fit shape {s.text}"
  | reshape s t => s!"Cannot reshape array of shape {s.text} to {t.text}"
  | disagree name l r => s!"{name}: shapes {l.text} and {r.text} do not agree"
  | keepCounts counts rows => s!"keep: {counts} counts for {rows} rows"
  | scaleCount factors rank => s!"scale: {factors} factors for rank-{rank} array"
  | join l r => s!"Cannot join arrays of shapes {l.text} and {r.text}"
  | replaceRow old new => s!"Cannot replace a row of shape {old.text} with shape {new.text}"
  | replaceRowKind old k new =>
    s!"Cannot replace a row of shape {old.text} with {k.text} array of shape {new.text}"

def UnderflowCause.message : UnderflowCause → String
  | empty name => s!"{name} needs a value but the stack is empty"
  | short name n found => s!"{name} needs {n} value(s) but the stack has {found}"

def LimitCause.message : LimitCause → String
  | elements name n limit => s!"{name}: array of {n} elements exceeds the limit of {limit}"
  | depth limit name => s!"Call depth exceeds the limit of {limit} in {quoted name}"

def Obstacle.text : Obstacle → String
  | zeroFactor => "a factor of 0 cannot be undone"
  | dynamicFunction => "dynamic function values cannot be inverted"
  | unusedLiteral => "a pushed constant is never consumed"
  | literalCount name n => s!"{quoted name} takes {n} literal parameter(s)"
  | missingLiteral => "parameters must be literals to invert"

/-- An empty reason is left out like a missing one. -/
def notInvertibleText (name : String) (reason : Option String) : String :=
  let detail := match reason with
    | none | some "" => ""
    | some r => ": " ++ r
  s!"{quoted name} is not invertible{detail}"

def MismatchCause.literal? : MismatchCause → Option Text
  | literal t => some t
  | _ => none

def MismatchCause.note? : MismatchCause → Option String
  | literal _ => none
  | fieldCount n found => some s!"Expected {n} fields, got {found}"
  | trailingText => some "Unexpected trailing text"
  | adjacentFields => some "Adjacent fields cannot be split"

/-- A note takes the place of the literal that was looked for. -/
def mismatchText (template : Text) (position : Int) (literal : Option Text)
    (note : Option String) : String :=
  match note with
  | some n => s!"{n} (template {template.quoted}, position {position})"
  | none =>
    let sought := match literal with
      | some t => t.quoted
      | none => "None"
    s!"Literal {sought} of template {template.quoted} not found at position {position}"

def Mismatch.message (m : Mismatch) : String :=
  mismatchText m.template m.position m.cause.literal? m.cause.note?

/-- The wording of a fault; faults of the substrate have none. -/
def Fault.message? : Fault → Option String
  | domain c => some c.message
  | shape c => some c.message
  | underflow c => some c.message
  | limit c => some c.message
  | notInvertible name obstacle => some (notInvertibleText name (obstacle.map Obstacle.text))
  | mismatch m => some m.message
  | _ => none

/-! ## Classification -/

/-- The words that make an error text speak of shapes. -/
def shapeMarkers : List String :=
  ["shape", "rank", "broadcast", "axis", "length", "reshape", "incompatible"]

/-- The Kelvin sign is the one letter outside ASCII with a lower case inside. -/
def lowerCase (c : Char) : Char := if c = '\u212a' then 'k' else c.toLower

/-- An error text of the substrate speaks of shapes if a marker occurs in it, whatever the case of
its letters. -/
def speaksOfShapes (message : String) : Bool :=
  let lowered := Text.ofString (message.map lowerCase)
  shapeMarkers.any fun m => (Text.cut? (Text.ofString m) lowered).isSome

/-- What the substrate reports. -/
def SubstrateCause.text : SubstrateCause → String
  | integerRange => "integer outside 32 bits"
  | characterCount => "a character is exactly one code point"
  | codePoint => "no such code point"
  | floatText => "not a number"
  | zeroDimension => "division by zero"
  | loneDimension => "a float is no list of dimensions"
  | booleanArithmetic => "no arithmetic on truth values"
  | savedForm => "saved context of another form"

/-- At the top level a substrate fault becomes a domain or shape fault by what it reports. -/
def Fault.classify : Fault → Fault
  | substrate c => classified (speaksOfShapes c.text) c
  | f => f

end Tacit
