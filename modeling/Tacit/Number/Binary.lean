/-
Binary floating point beyond the operations of the core library: the integer a value stands for or
lies next to, change of width, conversion to and from integers, and the remainder of a division
that truncates. Each function works on the unpacked form of its argument, `± m · 2 ^ e`, and its
result is rounded at most once.
-/
namespace Tacit.Binary

open Float.Model (UnpackedFloat Format)

/-- The sign `s` on a magnitude. -/
def signed (s : UnpackedFloat.Sign) (n : Nat) : Int :=
  match s with
  | .negative => -n
  | .positive => n

/-- The value `a · 2 ^ e` as an integer, rounded by `div` where `e` is negative. -/
def scaled (div : Int → Int → Int) (a e : Int) : Int :=
  if 0 ≤ e then a * Int.pow 2 e.toNat else div a (Int.pow 2 (-e).toNat)

/-- A finite value rounded to an integer by `div`. -/
def toIntBy (div : Int → Int → Int) : UnpackedFloat → Option Int
  | .zero _ => some 0
  | .finite s m e _ => some (scaled div (signed s m) e)
  | _ => none

def floor? : UnpackedFloat → Option Int := toIntBy Int.fdiv

def ceiling? : UnpackedFloat → Option Int := toIntBy fun a b => -Int.fdiv (-a) b

def truncate? : UnpackedFloat → Option Int := toIntBy Int.tdiv

/-- The integer that a value equals. -/
def toInt? (x : UnpackedFloat) : Option Int :=
  if floor? x = ceiling? x then floor? x else none

def isNegative : UnpackedFloat → Bool
  | .infinity .negative => true
  | .zero .negative => true
  | .finite .negative .. => true
  | _ => false

/-- A value rounded into a format. -/
def rounded (fmt : Format) : UnpackedFloat → UnpackedFloat
  | .finite s m e _ => .round fmt s m e
  | x => x

/-- The remainder of the truncated quotient; it has the sign of the dividend and is exact. -/
def remainder (fmt : Format) : UnpackedFloat → UnpackedFloat → UnpackedFloat
  | .notANumber, _ | _, .notANumber | .infinity _, _ | _, .zero _ => .notANumber
  | x, .infinity _ => x
  | .zero s, .finite .. => .zero s
  | .finite s m e _, .finite _ m' e' _ =>
    let low := min e e'
    let r := m * Nat.pow 2 (e - low).toNat % (m' * Nat.pow 2 (e' - low).toNat)
    if r = 0 then .zero s else .round fmt s r low

end Tacit.Binary

/-! ## Both widths -/

namespace Tacit

def widen (x : Float32) : Float :=
  ⟨.pack (Binary.rounded .binary64 x.toModel.unpack)⟩

def narrow (x : Float) : Float32 :=
  ⟨.pack (Binary.rounded .binary32 x.toModel.unpack)⟩

namespace Binary32

open Binary

def toInt? (x : Float32) : Option Int := Binary.toInt? x.toModel.unpack

/-- Infinities count as whole: they have no fractional part. -/
def isWhole (x : Float32) : Bool := x.isInf || (toInt? x).isSome

/-- A whole value in the place of `x`, whose sign a zero keeps. -/
def ofRounded (x : Float32) : Option Int → Float32
  | none => x
  | some 0 => if isNegative x.toModel.unpack then -0.0 else 0.0
  | some n => Float32.ofInt n

def floor (x : Float32) : Float32 := ofRounded x (floor? x.toModel.unpack)

def ceiling (x : Float32) : Float32 := ofRounded x (ceiling? x.toModel.unpack)

def remainder (x y : Float32) : Float32 :=
  ⟨.pack (Binary.remainder .binary32 x.toModel.unpack y.toModel.unpack)⟩

/-- The remainder with the sign of the divisor. -/
def modulus (x y : Float32) : Float32 :=
  let r := remainder x y
  if !(r == 0) && decide (r < 0) != decide (y < 0) then r + y else r

def sign (x : Float32) : Float32 := if 0 < x then 1 else if x < 0 then -1 else x

/-- The lesser value; not a number if either is, and `-0` lies below `0`. -/
def minimum (x y : Float32) : Float32 :=
  if x.isNaN then x else if y.isNaN then y
  else if x < y then x else if y < x then y
  else if isNegative x.toModel.unpack then x else y

def maximum (x y : Float32) : Float32 :=
  if x.isNaN then x else if y.isNaN then y
  else if x < y then y else if y < x then x
  else if isNegative x.toModel.unpack then y else x

def power (x y : Float32) : Float32 := narrow ((widen x).pow (widen y))

/-- The integer part as a 32-bit integer; values outside the range go to its nearer end. -/
def toInt32 (x : Float32) : Int32 :=
  match truncate? x.toModel.unpack with
  | some n => Int32.ofIntClamp n
  | none => if x.isNaN then 0 else if x < 0 then Int32.minValue else Int32.maxValue

end Binary32

namespace Binary64

def toInt? (x : Float) : Option Int := Binary.toInt? x.toModel.unpack

def floor? (x : Float) : Option Int := Binary.floor? x.toModel.unpack

end Binary64

end Tacit
