/-
Prime factors by trial division: each divisor in turn is split off as often as it divides, until its
square exceeds what is left. The prime factors of a scalar form a vector, those of any other array a
box for each element.
-/
import Tacit.Tensor.Basic

namespace Tacit

/-- What is left is prime unless it is one. -/
def leftover (n : Nat) : List Nat := if 1 < n then [n] else []

/-- The factors of `n` from the divisor `p` on, in at most `steps` steps. -/
def factorsFrom : Nat → Nat → Nat → List Nat
  | 0, _, n => leftover n
  | steps + 1, p, n =>
    if n < p * p then leftover n
    else if n % p = 0 then p :: factorsFrom steps p (n / p)
    else factorsFrom steps (p + 1) n

/-- The prime factors of `n`, ascending; fewer than `n` steps find them. -/
def primeFactors (n : Nat) : List Nat := factorsFrom n 2 n

/-- Only a whole number from one on has prime factors. -/
def Number.isFactorable : Number → Bool
  | .bool b => b
  | .int n => 1 ≤ n
  | .float x => Binary32.isWhole x && !(x < 1)

namespace Tensor

/-- The prime factors of one number as a vector; one has none. -/
def primeVector (x : Number) : Except Fault Tensor :=
  if !x.isFactorable then throw (.domain (.notFactorable x.text))
  else
    match x.toInt? with
    | none => throw (.domain (.integerWanted "primes"))
    | some n => vector ((primeFactors n.toNat).map Int.ofNat)

def primes (t : Tensor) : Except Fault Tensor :=
  match t with
  | ⟨[], .numbers xs⟩ =>
    match xs.head? with
    | some x => primeVector x
    | none => pure empty
  | ⟨s, .numbers xs⟩ => return ⟨s, .boxes (← xs.toList.mapM primeVector)⟩
  | _ => throw (.domain .primesKind)

end Tensor

end Tacit
