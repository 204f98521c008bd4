/-
The written form of a binary64 value: the fewest digits that read back as the value, nearest to it
among those, positional from `10 ^ -4` up to below `10 ^ 16` and with an exponent outside; and the
value nearest to a written decimal.
-/
import Tacit.Number.Binary

namespace Tacit.Decimal

open Float.Model (UnpackedFloat)

/-! ## Shortest digits -/

/-- How many decimal digits `n` has; zero has one. -/
def digitCount (n : Nat) : Nat := (Nat.toDigits 10 n).length

/-- The exponent of the leading digit of `num / den`. -/
def leadingExponent (num den : Nat) : Int :=
  if den ≤ num then digitCount (num / den) - 1 else -digitCount ((den - 1) / num)

/-- A magnitude `m · 2 ^ e` as a quotient, in quarters, with the ends of the interval of reals that
round to it; below a power of two the neighbour is nearer, unless it is the least normal value. -/
structure Interval where
  low : Nat
  value : Nat
  high : Nat
  den : Nat
  closed : Bool

def Interval.of (m : Nat) (e : Int) : Interval :=
  let up := Nat.pow 2 (e - 2).toNat
  let low := if m = Nat.pow 2 52 ∧ -1074 < e then 4 * m - 1 else 4 * m - 2
  ⟨low * up, 4 * m * up, (4 * m + 2) * up, Nat.pow 2 (2 - e).toNat, m % 2 == 0⟩

/-- The interval in units of `10 ^ p`. -/
def Interval.inUnits (i : Interval) (p : Int) : Interval :=
  let up := Nat.pow 10 (-p).toNat
  ⟨i.low * up, i.value * up, i.high * up, i.den * Nat.pow 10 p.toNat, i.closed⟩

def Interval.contains (i : Interval) (d : Nat) : Bool :=
  let x := d * i.den
  if i.closed then i.low ≤ x && x ≤ i.high else i.low < x && x < i.high

/-- Of the two integers around the value, the nearest that lies in the interval; an exact tie goes
to the even one. -/
def Interval.integer? (i : Interval) : Option Nat :=
  let d := i.value / i.den
  let twice := 2 * (i.value % i.den)
  let nearest := if twice < i.den ∨ twice = i.den ∧ d % 2 = 0 then d else d + 1
  if i.contains nearest then some nearest
  else if i.contains d then some d
  else if i.contains (d + 1) then some (d + 1)
  else none

/-- Tries `n` more grids, each ten times finer than the last; `10 ^ p` is the unit of the next. -/
def Interval.search (i : Interval) : Nat → Int → Nat × Int
  | 0, p => ((i.inUnits p).value / (i.inUnits p).den, p)
  | n + 1, p =>
    match (i.inUnits p).integer? with
    | some d => (d, p)
    | none => i.search n (p - 1)

/-- The shortest decimal `d · 10 ^ p` that reads back as `m · 2 ^ e`; seventeen digits suffice. -/
def shortest (m : Nat) (e : Int) : Nat × Int :=
  let i := Interval.of m e
  i.search 17 (leadingExponent i.value i.den)

/-! ## Layout -/

/-- The digits without trailing zeros, and the exponent of the last one. -/
def trimmed : List Char → Int → List Char × Int
  | ds, p =>
    let zeros := (ds.reverse.takeWhile (· == '0')).length
    (ds.take (ds.length - zeros), p + zeros)

def exponentText (x : Int) : List Char :=
  let ds := Nat.toDigits 10 x.natAbs
  'e' :: (if x < 0 then '-' else '+') :: List.replicate (2 - ds.length) '0' ++ ds

/-- Digits `ds` whose last stands for units of `10 ^ p`. -/
def layout (ds : List Char) (p : Int) : List Char :=
  let x := p + ds.length - 1
  if x < -4 ∨ 16 ≤ x then
    (match ds with
      | [] => []
      | [d] => [d]
      | d :: rest => d :: '.' :: rest) ++ exponentText x
  else if x < 0 then '0' :: '.' :: List.replicate (-x - 1).toNat '0' ++ ds
  else if 0 ≤ p then ds ++ List.replicate p.toNat '0' ++ ['.', '0']
  else ds.take (x + 1).toNat ++ '.' :: ds.drop (x + 1).toNat

def unpackedText : UnpackedFloat → List Char
  | .notANumber => "nan".toList
  | .infinity .positive => "inf".toList
  | .infinity .negative => "-inf".toList
  | .zero .positive => "0.0".toList
  | .zero .negative => "-0.0".toList
  | .finite s m e _ =>
    let (d, p) := shortest m e
    let (ds, p) := trimmed (Nat.toDigits 10 d) p
    (match s with
      | .negative => ['-']
      | .positive => []) ++ layout ds p

end Tacit.Decimal

namespace Tacit

def floatText (x : Float) : String := String.ofList (Decimal.unpackedText x.toModel.unpack)

/-! ## Reading -/

namespace Decimal

/-- Decimal digits, single underscores between them, and the text that follows. -/
def digits : List Char → List Char × List Char
  | [] => ([], [])
  | '_' :: c :: s => if c.isDigit then digits (c :: s) else ([], '_' :: c :: s)
  | c :: s =>
    if c.isDigit then
      let (ds, rest) := digits s
      (c :: ds, rest)
    else ([], c :: s)

/-- Digits that start with one, so that no underscore leads. -/
def digitsFrom : List Char → List Char × List Char
  | c :: s => if c.isDigit then digits (c :: s) else ([], c :: s)
  | [] => ([], [])

def value (ds : List Char) : Nat := ds.foldl (fun n c => 10 * n + (c.toNat - 48)) 0

def fractionPart : List Char → List Char × List Char
  | '.' :: s => digitsFrom s
  | s => ([], s)

/-- An exponent to the end of the text; none counts as zero. -/
def exponentPart? : List Char → Option Int
  | [] => some 0
  | c :: s =>
    if c ≠ 'e' ∧ c ≠ 'E' then none
    else
      let (negative, s) := match s with
        | '-' :: s => (true, s)
        | '+' :: s => (false, s)
        | s => (false, s)
      match digitsFrom s with
      | ([], _) | (_, _ :: _) => none
      | (ds, []) => some (if negative then -(value ds : Int) else value ds)

def magnitude? (s : List Char) : Option Float :=
  let lower := s.map Char.toLower
  if lower = "inf".toList ∨ lower = "infinity".toList then some (1.0 / 0.0)
  else if lower = "nan".toList then some (0.0 / 0.0)
  else
    let (whole, s) := digitsFrom s
    let (part, s) := fractionPart s
    if whole.isEmpty && part.isEmpty then none
    else
      (exponentPart? s).map fun x =>
        let x : Int := x - part.length
        Float.ofScientific (value (whole ++ part)) (x < 0) x.natAbs

def read? : List Char → Option Float
  | '-' :: s => (magnitude? s).map Float.neg
  | '+' :: s => magnitude? s
  | s => magnitude? s

end Decimal

/-- The binary64 value nearest to the decimal that `s` writes, blanks around it left out. -/
def readFloat? (s : String) : Option Float :=
  Decimal.read? s.trimAscii.toString.toList

end Tacit
