/-
Prime factors. Trial division finds the list of the prime factors of a number, each as often as it divides and
in ascending order, which as integers of 32 bits has that number for its product; an array has the factors of
its elements, one box for each, and fails at its first element below one.
-/
import Tacit.Proofs.Array.Results
import Tacit.Proofs.Number.Whole

namespace Tacit

/-! ## Trial division -/

/-- What is left is prime once its square root is passed: its least prime factor is not below the divisor, and
the square of that factor would not exceed a composite number. -/
theorem prime_of_lt_square {p n : Nat} (hn : 1 < n) (hleast : ∀ q, q.Prime → q ∣ n → p ≤ q)
    (hlt : n < p * p) : n.Prime := by
  by_contra hcomposite
  have hsquare := Nat.minFac_sq_le_self (by omega) hcomposite
  have hle : p ≤ n.minFac := hleast _ (Nat.minFac_prime (by omega)) (Nat.minFac_dvd n)
  have : p * p ≤ n.minFac ^ 2 := by rw [pow_two]; exact Nat.mul_le_mul hle hle
  omega

theorem leftover_eq {p n : Nat} (hpos : 0 < n) (hleast : ∀ q, q.Prime → q ∣ n → p ≤ q) (hlt : n < p * p) :
    leftover n = n.primeFactorsList := by
  unfold leftover
  split
  case isTrue hn => rw [Nat.primeFactorsList_prime (prime_of_lt_square hn hleast hlt)]
  case isFalse hn =>
    obtain rfl : n = 1 := by omega
    simp

/-- A divisor below which there is no prime factor is the least one. -/
theorem primeFactorsList_of_dvd {p n : Nat} (hp : 2 ≤ p) (hn : p ≤ n)
    (hleast : ∀ q, q.Prime → q ∣ n → p ≤ q) (hdvd : p ∣ n) :
    n.primeFactorsList = p :: (n / p).primeFactorsList := by
  have hmin : n.minFac = p := le_antisymm (Nat.minFac_le_of_dvd hp hdvd)
    (hleast _ (Nat.minFac_prime (by omega)) (Nat.minFac_dvd n))
  obtain ⟨k, rfl⟩ : ∃ k, n = k + 2 := ⟨n - 2, by omega⟩
  rw [Nat.primeFactorsList_add_two, hmin]

/-- By induction on the steps. No prime factor of what is left lies below the divisor, and what is left exceeds
the divisor by no more than the steps that remain. -/
theorem factorsFrom_eq (steps : Nat) : ∀ {p n : Nat}, 2 ≤ p → 0 < n → n ≤ steps + p →
    (∀ q, q.Prime → q ∣ n → p ≤ q) → factorsFrom steps p n = n.primeFactorsList := by
  induction steps with
  | zero =>
    intro p n hp hpos hsteps hleast
    exact leftover_eq hpos hleast (by nlinarith)
  | succ steps ih =>
    intro p n hp hpos hsteps hleast
    unfold factorsFrom
    by_cases hlt : n < p * p
    · rw [if_pos hlt, leftover_eq hpos hleast hlt]
    rw [if_neg hlt]
    have hle : p ≤ n := by nlinarith
    by_cases hmod : n % p = 0
    · have hdvd : p ∣ n := Nat.dvd_of_mod_eq_zero hmod
      have hless : n / p < n := Nat.div_lt_self hpos (by omega)
      rw [if_pos hmod, primeFactorsList_of_dvd hp hle hleast hdvd]
      rw [ih hp (Nat.div_pos hle (by omega)) (by omega)]
      exact fun q hq hqn => hleast q hq (hqn.trans (Nat.div_dvd_of_dvd hdvd))
    · rw [if_neg hmod]
      refine ih (by omega) hpos (by omega) fun q hq hqn => ?_
      -- the divisor itself is out, since it leaves a remainder
      have hne : q ≠ p := by
        rintro rfl
        exact hmod (Nat.mod_eq_zero_of_dvd hqn)
      have := hleast q hq hqn
      omega

theorem primeFactors_eq {n : Nat} (hpos : 0 < n) : primeFactors n = n.primeFactorsList :=
  factorsFrom_eq n (by omega) hpos (by omega) fun _ hq _ => hq.two_le

example : primeFactors 60 = [2, 2, 3, 5] := rfl

/-! ## Factors of 32 bits -/

/-- A vector of natural numbers is one of integers where each number fits. -/
theorem Tensor.vector_natCast_eq_ok_iff {ns : List Nat} {t : Tensor} :
    Tensor.vector (ns.map Int.ofNat) = .ok t ↔
      (∀ n ∈ ns, n < 2 ^ 31) ∧ t = .ofInts [ns.length] (ns.map fun n : Nat => Int32.ofInt n) := by
  have hfits : ∀ n : Nat,
      (Int32.minValue.toInt ≤ Int.ofNat n ∧ Int.ofNat n ≤ Int32.maxValue.toInt) ↔ n < 2 ^ 31 := by
    intro n
    have hmin : Int32.minValue.toInt = -2 ^ 31 := rfl
    have hmax : Int32.maxValue.toInt = 2 ^ 31 - 1 := rfl
    rw [hmin, hmax, Int.ofNat_eq_natCast]
    omega
  have hall : (ns.map Int.ofNat).mapM Tensor.toInt32 =
      if ∀ n ∈ ns, n < 2 ^ 31 then .ok (ns.map fun n : Nat => Int32.ofInt n)
      else .error (.substrate .integerRange) := by
    rw [List.mapM_map, ← Except.mapM_ite]
    exact Except.mapM_congr fun n _ => if_congr (hfits n) rfl rfl
  unfold Tensor.vector
  rw [hall]
  split
  case isTrue h =>
    rw [Except.ok_bind, List.length_map, and_iff_right h]
    exact ⟨fun h => (Except.ok.inj h).symm, fun h => congrArg Except.ok h.symm⟩
  case isFalse h => exact ⟨nofun, fun h' => absurd h'.1 h⟩

/-- The prime factors of `n` in ascending order, each as often as it divides; the product is taken in the
integers, not modulo `2 ^ 32`. -/
structure Factors (n : Int32) (ps : List Int32) : Prop where
  prime : ∀ p ∈ ps, Nat.Prime p.toInt.toNat
  ascending : ps.Pairwise (· ≤ ·)
  product : (ps.map Int32.toInt).prod = n.toInt
  eq_nil_iff : ps = [] ↔ n = 1

/-- No factor is greater than the number, so where the number fits they all do. -/
theorem primeFactors_lt {n : Nat} (hpos : 0 < n) (hlt : n < 2 ^ 31) : ∀ p ∈ primeFactors n, p < 2 ^ 31 := by
  intro p hp
  rw [primeFactors_eq hpos] at hp
  exact (Nat.le_of_mem_primeFactorsList hp).trans_lt hlt

theorem factors_primeFactors {n : Nat} (hpos : 0 < n) (hlt : n < 2 ^ 31) :
    Factors (Int32.ofInt n) ((primeFactors n).map fun p : Nat => Int32.ofInt p) := by
  have toInt : ∀ p < 2 ^ 31, (Int32.ofInt (p : Nat)).toInt = p :=
    fun p hp => Int32.toInt_ofInt_of_le (by omega) (by omega)
  have hfits := primeFactors_lt hpos hlt
  rw [primeFactors_eq hpos] at hfits ⊢
  refine ⟨?_, ?_, ?_, ?_⟩
  · intro q hq
    obtain ⟨p, hp, rfl⟩ := List.mem_map.1 hq
    rw [toInt p (hfits p hp), Int.toNat_natCast]
    exact Nat.prime_of_mem_primeFactorsList hp
  · rw [List.pairwise_map]
    refine (Nat.primeFactorsList_sorted n).pairwise.imp_of_mem fun {p q} hp hq hle => ?_
    rw [Int32.le_iff_toInt_le, toInt p (hfits p hp), toInt q (hfits q hq)]
    exact Int.ofNat_le.2 hle
  · have hmap : (n.primeFactorsList.map fun p : Nat => Int32.ofInt p).map Int32.toInt =
        n.primeFactorsList.map Nat.cast := by
      rw [List.map_map]
      exact List.map_congr_left fun p hp => toInt p (hfits p hp)
    rw [hmap, ← Nat.cast_list_prod, Nat.prod_primeFactorsList (by omega), toInt n hlt]
  · have hone : Int32.ofInt n = 1 ↔ n = 1 := by
      rw [← Int32.toInt_inj, toInt n hlt, show (1 : Int32).toInt = 1 from rfl]
      omega
    rw [List.map_eq_nil_iff, Nat.primeFactorsList_eq_nil, hone]
    omega

/-! ## Factors of arrays -/

namespace Tensor

theorem primeVector_int {n : Int32} (h : 1 ≤ n) :
    ∃ ps, primeVector (.int n) = .ok (ofInts [ps.length] ps) ∧ Factors n ps := by
  have hn : 1 ≤ n.toInt := Int32.le_iff_toInt_le.1 h
  have hlt := n.toInt_lt
  refine ⟨(primeFactors n.toInt.toNat).map fun p : Nat => Int32.ofInt p, ?_, ?_⟩
  · have hfactorable : (Number.int n).isFactorable = true := decide_eq_true h
    unfold primeVector
    rw [hfactorable, List.length_map]
    exact vector_natCast_eq_ok_iff.2 ⟨primeFactors_lt (by omega) (by omega), rfl⟩
  · have hfactors := factors_primeFactors (n := n.toInt.toNat) (by omega) (by omega)
    rwa [Int.toNat_of_nonneg (by omega), Int32.ofInt_toInt] at hfactors

theorem primeVector_int_error {n : Int32} (h : n < 1) :
    primeVector (.int n) = .error (.domain (.notFactorable (Number.int n).text)) := by
  have hfactorable : (Number.int n).isFactorable = false := decide_eq_false (Int32.not_le.2 h)
  unfold primeVector
  rw [hfactorable]
  rfl

/-- The factors of the elements one by one, all of them or the fault of the first that has none. -/
theorem mapM_primeVector {ns : List Int32} (h : ∀ n ∈ ns, 1 ≤ n) :
    ∃ fs, (ns.map Number.int).mapM primeVector = .ok (fs.map fun ps => ofInts [ps.length] ps) ∧
      List.Forall₂ Factors ns fs := by
  obtain ⟨fs, hfs⟩ := forall₂_of_exists fun n hn => primeVector_int (h n hn)
  refine ⟨fs, Except.mapM_of_forall₂ ?_, hfs.imp fun _ _ h => h.2⟩
  rw [List.forall₂_map_left_iff, List.forall₂_map_right_iff]
  exact hfs.imp fun _ _ h => h.1

theorem mapM_primeVector_error {ns : List Int32} {n : Int32} (hmem : n ∈ ns) (hlt : n < 1) :
    ∃ m ∈ ns, m < 1 ∧
      (ns.map Number.int).mapM primeVector = .error (.domain (.notFactorable (Number.int m).text)) := by
  induction ns with
  | nil => cases hmem
  | cons k ns ih =>
    by_cases hk : k < 1
    · refine ⟨k, by simp, hk, ?_⟩
      rw [List.map_cons, List.mapM_cons, primeVector_int_error hk]
      rfl
    · -- the first element has its factors, so the fault is one of the others
      obtain ⟨ps, hps, -⟩ := primeVector_int (Int32.not_lt.1 hk)
      rcases List.mem_cons.1 hmem with rfl | hmem
      · exact absurd hlt hk
      · obtain ⟨m, hm, hlt, herror⟩ := ih hmem
        refine ⟨m, List.mem_cons_of_mem _ hm, hlt, ?_⟩
        rw [List.map_cons, List.mapM_cons, hps, herror]
        rfl

/-- An integer from one on has the vector of its prime factors, ascending and with itself for their product;
any other array of such integers has the factors of its elements in boxes, in the places of the elements; and
an array with an integer below one has none. -/
theorem primes_ints :
    (∀ n : Int32, 1 ≤ n → ∃ ps, primes (int n) = .ok (ofInts [ps.length] ps) ∧ Factors n ps) ∧
    (∀ (s : Shape) (ns : List Int32), s ≠ [] → (∀ n ∈ ns, 1 ≤ n) →
      ∃ fs, primes (ofInts s ns) = .ok ⟨s, .boxes (fs.map fun ps => ofInts [ps.length] ps)⟩ ∧
        List.Forall₂ Factors ns fs) ∧
    ∀ (s : Shape) (ns : List Int32), ns.length = s.size → (∃ n ∈ ns, n < 1) →
      ∃ m ∈ ns, m < 1 ∧
        primes (ofInts s ns) = .error (.domain (.notFactorable (Number.int m).text)) := by
  refine ⟨fun n h => primeVector_int h, fun s ns hs h => ?_, fun s ns hsize h => ?_⟩
  · obtain ⟨k, s, rfl⟩ := List.exists_cons_of_ne_nil hs
    obtain ⟨fs, hok, hfs⟩ := mapM_primeVector h
    exact ⟨fs, Except.bind_of_ok hok rfl, hfs⟩
  · obtain ⟨n, hn, hlt⟩ := h
    cases s with
    | nil =>
      -- a scalar has one element
      obtain ⟨k, rfl⟩ := List.length_eq_one_iff.1 hsize
      obtain rfl := List.mem_singleton.1 hn
      exact ⟨n, hn, hlt, primeVector_int_error hlt⟩
    | cons k s =>
      obtain ⟨m, hm, hlt, herror⟩ := mapM_primeVector_error hn hlt
      refine ⟨m, hm, hlt, ?_⟩
      show (ns.map Number.int).mapM primeVector >>= _ = _
      rw [herror]
      rfl

/-- The factors of twelve, of twelve and one in a vector, and of a vector with a zero. -/
theorem primes_ints_twelve :
    (∃ ps, primes (int 12) = .ok (ofInts [ps.length] ps) ∧ Factors 12 ps) ∧
    (∃ fs, primes (ofInts [2] [12, 1]) = .ok ⟨[2], .boxes (fs.map fun ps => ofInts [ps.length] ps)⟩ ∧
      List.Forall₂ Factors [12, 1] fs) ∧
    ∃ m ∈ [12, 0], m < 1 ∧
      primes (ofInts [2] [12, 0]) = .error (.domain (.notFactorable (Number.int m).text)) :=
  ⟨primes_ints.1 12 (by decide), primes_ints.2.1 [2] [12, 1] (by decide) (by simp),
    primes_ints.2.2 [2] [12, 0] rfl ⟨0, by decide, by decide⟩⟩

/-! ## Products of factors -/

theorem foldl_mul_ofInt (ps : List Nat) : ∀ a : Nat,
    (ps.map fun p : Nat => Int32.ofInt p).foldl (· * ·) (Int32.ofInt a) = Int32.ofInt (a * ps.prod : Nat) := by
  induction ps with
  | nil => intro a; rw [List.prod_nil, mul_one]; rfl
  | cons p ps ih =>
    intro a
    rw [List.map_cons, List.foldl_cons, ← Int32.ofInt_mul, ← Nat.cast_mul, ih, List.prod_cons, mul_assoc]

/-- A vector of integers with the product `n`, modulo `2 ^ 32`. -/
def MultipliesTo (t : Tensor) (n : Int) : Prop :=
  ∃ ps, t = ofInts [ps.length] ps ∧ ps.foldl (· * ·) 1 = Int32.ofInt n

/-- What has prime factors stands for a positive integer, and they multiply to it. -/
theorem primeVector_eq_ok {x : Number} {t : Tensor} (h : primeVector x = .ok t) :
    ∃ n, x.toInt? = some n ∧ 0 < n ∧ t.MultipliesTo n := by
  unfold primeVector at h
  split at h
  · cases h
  rename_i hfactorable
  cases hx : x.toInt? with
  | none => rw [hx] at h; cases h
  | some n =>
    rw [hx] at h
    obtain ⟨-, rfl⟩ := vector_natCast_eq_ok_iff.1 h
    have hpos : 0 < n := by
      cases x with
      | bool b => cases b <;> cases hx <;> simp [Number.isFactorable] at hfactorable ⊢
      | int k =>
        cases hx
        simp only [Number.isFactorable, Bool.not_eq_true, Bool.not_eq_false', decide_eq_true_eq] at hfactorable
        exact Int32.le_iff_toInt_le.1 hfactorable
      | float x =>
        simp only [Number.isFactorable, Bool.not_eq_true, Bool.not_eq_false', Bool.and_eq_true] at hfactorable
        exact Binary32.pos_of_not_lt hx (by simpa using hfactorable.2)
    obtain ⟨n, rfl⟩ := Int.eq_ofNat_of_zero_le hpos.le
    have hn : n ≠ 0 := by omega
    refine ⟨n, rfl, hpos, _, congrArg (ofInts · _) (by rw [List.length_map]), ?_⟩
    rw [Int.toNat_natCast, primeFactors_eq (by omega)]
    exact (foldl_mul_ofInt _ 1).trans (by rw [one_mul, Nat.prod_primeFactorsList hn])

theorem primes_scalar {xs : Numbers} {x : Number} (h : xs.toList = [x]) :
    primes (ofNumbers [] xs) = primeVector x := by
  have hhead : xs.head? = some x := by
    have hfirst : xs.head? = xs.toList.head? := by cases xs <;> exact List.head?_map.symm
    rw [hfirst, h, List.head?_cons]
  unfold primes ofNumbers
  dsimp only
  rw [hhead]

theorem mapM_primeVector_eq_ok {xs : List Number} : ∀ {ts : List Tensor}, xs.mapM primeVector = .ok ts →
    ∃ ns, xs.map Number.toInt? = ns.map some ∧ (∀ n ∈ ns, 0 < n) ∧ List.Forall₂ MultipliesTo ts ns := by
  induction xs with
  | nil =>
    intro ts h
    cases h
    exact ⟨[], rfl, by simp, .nil⟩
  | cons x xs ih =>
    intro ts h
    rw [List.mapM_cons] at h
    obtain ⟨t, ht, h⟩ := Except.bind_ok h
    obtain ⟨ts', hts, h⟩ := Except.bind_ok h
    cases h
    obtain ⟨n, hn, hpos, hprod⟩ := primeVector_eq_ok ht
    obtain ⟨ns, hns, hpos', hprods⟩ := ih hts
    refine ⟨n :: ns, ?_, List.forall_mem_cons.2 ⟨hpos, hpos'⟩, .cons hprod hprods⟩
    rw [List.map_cons, List.map_cons, hn, hns]

/-- Integers beside the floats that stand for them, which they equal if none of them wraps. -/
theorem isEqv_toFloat {fs : List Float32} : ∀ {ns : List Int}, fs.map Binary32.toInt? = ns.map some →
    (∀ n ∈ ns, 0 < n) → (((ns.map Int32.ofInt).map Numbers.toFloat).isEqv fs (· == ·) = true ↔ ∀ n ∈ ns, n < 2 ^ 31) := by
  induction fs with
  | nil =>
    intro ns h _
    obtain rfl : ns = [] := List.map_eq_nil_iff.1 h.symm
    simp
  | cons x fs ih =>
    intro ns h hpos
    cases ns with
    | nil => cases h
    | cons n ns =>
      obtain ⟨hx, h⟩ := List.cons.inj h
      obtain ⟨hn, hpos⟩ := List.forall_mem_cons.1 hpos
      rw [List.forall_mem_cons, ← ih h hpos, ← Binary32.beq_toFloat_iff hx hn]
      exact Bool.and_eq_true_iff

/-- Integers of 32 bits in place of the numbers that stand for integers. -/
theorem same_ofInts {s : Shape} {xs : Numbers} {ns : List Int} (h : xs.toList.map Number.toInt? = ns.map some)
    (hpos : ∀ n ∈ ns, 0 < n) :
    (ofInts s (ns.map Int32.ofInt)).same (ofNumbers s xs) = true ↔ ∀ n ∈ ns, n < 2 ^ 31 := by
  have hsame : (ofInts s (ns.map Int32.ofInt)).same (ofNumbers s xs) = (Numbers.ints (ns.map Int32.ofInt)).same xs := by
    show (s == s && _) = _
    rw [beq_self_eq_true, Bool.true_and]
  rw [hsame]
  by_cases htype : xs.type = .float
  · cases xs with
    | bools | ints => cases htype
    | floats fs =>
      rw [Numbers.toList, List.map_map] at h
      exact isEqv_toFloat h hpos
  · -- truth values and integers are what they are as integers of 32 bits
    have hints : xs.toList.map Number.toInt? = (xs.asInts.map Int32.toInt).map some := by
      cases xs with
      | bools bs =>
        rw [Numbers.toList, Numbers.asInts, List.map_map, List.map_map, List.map_map]
        exact List.map_congr_left fun b _ => by cases b <;> rfl
      | ints is => rw [Numbers.toList, Numbers.asInts, List.map_map, List.map_map]; rfl
      | floats => exact absurd rfl htype
    obtain rfl : ns = xs.asInts.map Int32.toInt :=
      List.map_injective_iff.2 (Option.some_injective Int) (h.symm.trans hints)
    have hback : (xs.asInts.map Int32.toInt).map Int32.ofInt = xs.asInts := by
      rw [List.map_map]
      exact (List.map_congr_left fun n _ => Int32.ofInt_toInt n).trans (List.map_id _)
    rw [hback]
    refine iff_of_true ?_ fun n hn => ?_
    · cases xs <;> first | exact beq_self_eq_true _ | exact absurd rfl htype
    · obtain ⟨k, -, rfl⟩ := List.mem_map.1 hn
      exact k.toInt_lt

end Tensor

end Tacit
