/-
Prime factors multiplied again. Wherever `primes` succeeds, `product` after it leaves an integer of 32 bits in the
place of each element, and these equal the elements where none of them is too wide.
-/
import Tacit.Proofs.Array.Factors
import Tacit.Proofs.Run.Folded
import Tacit.Proofs.Run.HandedBack

namespace Tacit

/-- The function that `product` folds with. -/
abbrev Fn.multiply : Fn := .word (.binary (.apply .multiply))

namespace Exec

variable {setting : Setting}

/-! ## Folds -/

/-- On a memory of its own a word of two arguments leaves its result, if nothing is too large. -/
theorem applyWith_binary {b : Binary} {t u r : Tensor} (hsize : b.size? (.tensor t) (.tensor u) = .ok none)
    (hr : b.onTensors t u = .ok r) (ht : Fits setting.limits (.tensor t)) (hu : Fits setting.limits (.tensor u))
    (hfits : Fits setting.limits (.tensor r)) (room : Nat) :
    applyWith setting (call setting (room + 1)) (.word (.binary b)) [.tensor t, .tensor u] = .ok [.tensor r] := by
  have hpush : pushAll setting.limits [.tensor t, .tensor u] {} = .ok () ⟨[.tensor t, .tensor u], []⟩ :=
    (bind_ok _ (push_fits hu [] [])).trans (bind_ok _ (push_fits ht _ []))
  have hcall : call setting (room + 1) (.word (.binary b)) ⟨[.tensor t, .tensor u], []⟩ = .ok () ⟨[.tensor r], []⟩ :=
    call_word (word_binary_run hsize hr hfits [] []) room
  rw [applyWith_eq, (bind_ok _ hpush).trans (bind_ok _ hcall)]
  rfl

/-- A multiplication on a machine of its own that succeeds on integers. -/
def Multiplies (apply : Apply) : Prop :=
  ∀ x y : Int32, apply .multiply [.tensor (.int x), .tensor (.int y)] = .ok [.tensor (.int (y * x))]

theorem multiplies_applyWith (hone : 1 ≤ setting.limits.maxElements) (room : Nat) :
    Multiplies (applyWith setting (call setting (room + 1))) := by
  intro x y
  have hfits (n : Int32) : Fits setting.limits (.tensor (.int n)) := hone
  exact applyWith_binary rfl rfl (hfits x) (hfits y) (hfits (y * x)) room

theorem rows_ofInts (ps : List Int32) : (Tensor.ofInts [ps.length] ps).rows = ps.map .int := by
  rw [Tensor.rows_ofInts]
  show (blocks ps.length 1 ps).map _ = _
  rw [blocks_one, List.map_map]
  rfl

/-- The product of a vector of integers, of which there may be none. -/
theorem foldRows_multiply {apply : Apply} (h : Multiplies apply) {t : Tensor} {n : Int}
    (ht : t.MultipliesTo n) : foldRows apply .multiply t = .ok (.tensor (.int (Int32.ofInt n))) := by
  obtain ⟨ps, rfl, hprod⟩ := ht
  rw [← hprod]
  have hrows := rows_ofInts ps
  cases ps with
  | nil => exact foldRows_nil (List.cons_ne_nil _ _) hrows
  | cons p ps =>
    rw [foldRows_cons (List.cons_ne_nil _ _) hrows, List.foldl_cons, Int32.one_mul]
    exact foldFrom_map h ps p

theorem ofRows_ints (ns : List Int32) : Tensor.ofRows (ns.map .int) = .ofInts [ns.length] ns := by
  rw [← rows_ofInts]
  cases ns with
  | nil => rfl
  | cons n ns => exact Tensor.ofRows_rows (Nat.mul_one (ns.length + 1)).symm

/-- The products of vectors in boxes. -/
theorem product_boxes {apply : Apply} {s : Shape} (h : s.size ≠ 0 → Multiplies apply) (hs : s ≠ [])
    {ts : List Tensor} {ns : List Int} (hts : List.Forall₂ Tensor.MultipliesTo ts ns) (hlength : ts.length = s.size)
    (hfits : s.size ≤ setting.limits.maxElements) (rest : List Value) (context : List Saved) :
    product setting apply ⟨.tensor ⟨s, .boxes ts⟩ :: rest, context⟩ =
      .ok () ⟨.tensor (.ofInts s (ns.map Int32.ofInt)) :: rest, context⟩ := by
  obtain ⟨k, s, rfl⟩ := List.exists_cons_of_ne_nil hs
  have hns : (ns.map Int32.ofInt).length = Shape.size (k :: s) := by
    rw [List.length_map, ← hts.length_eq, hlength]
  have hparts : (ts.mapM fun x => do (← foldRows apply .multiply x).tensor?) =
      .ok ((ns.map Int32.ofInt).map .int) := by
    refine Except.mapM_of_forall₂ ?_
    rw [List.map_map, List.forall₂_map_right_iff]
    by_cases hzero : Shape.size (k :: s) = 0
    · obtain rfl := List.eq_nil_of_length_eq_zero (hlength.trans hzero)
      cases hts
      exact .nil
    · exact hts.imp fun t n ht => Except.bind_of_ok (f := Value.tensor?) (foldRows_multiply (h hzero) ht) rfl
  have hfits' : Fits setting.limits (.tensor (.ofInts (k :: s) (ns.map Int32.ofInt))) := hfits
  have hshape : Tensor.reshape (.ofInts [(ns.map Int32.ofInt).length] (ns.map Int32.ofInt)) (k :: s) =
      .ok (.ofInts (k :: s) (ns.map Int32.ofInt)) := by
    refine if_pos ?_
    rw [← hns]
    exact (Nat.mul_one _).symm
  show (do
    let parts ← lift (ts.mapM fun x => do (← foldRows apply .multiply x).tensor?)
    push setting.limits (.tensor (← lift ((Tensor.ofRows parts).reshape (k :: s)))) : Exec Unit) ⟨rest, context⟩ = _
  rw [hparts]
  show (do push setting.limits (.tensor (← lift ((Tensor.ofRows ((ns.map Int32.ofInt).map .int)).reshape (k :: s)))) :
    Exec Unit) ⟨rest, context⟩ = _
  rw [ofRows_ints, hshape]
  exact push_fits hfits' rest context

/-- After the factors of an array, scalar or not, the products. -/
theorem product_primes {apply : Apply} {s : Shape} (h : s.size ≠ 0 → Multiplies apply)
    (hfits : s.size ≤ setting.limits.maxElements) {xs : Numbers} (hfull : xs.length = s.size) {t : Tensor}
    (ht : (Tensor.ofNumbers s xs).primes = .ok t) :
    ∃ ns : List Int, xs.toList.map Number.toInt? = ns.map some ∧ (∀ n ∈ ns, 0 < n) ∧
      ∀ rest context, product setting apply ⟨.tensor t :: rest, context⟩ =
        .ok () ⟨.tensor (.ofInts s (ns.map Int32.ofInt)) :: rest, context⟩ := by
  have hlength : xs.toList.length = xs.length := by cases xs <;> exact List.length_map _
  cases s with
  | nil =>
    obtain ⟨x, hx⟩ := List.length_eq_one_iff.1 (hlength.trans hfull)
    rw [Tensor.primes_scalar hx] at ht
    obtain ⟨n, hn, hpos, hprod⟩ := Tensor.primeVector_eq_ok ht
    refine ⟨[n], by rw [hx, List.map_singleton, List.map_singleton, hn], by simpa using hpos, fun rest context => ?_⟩
    have hfold := foldRows_multiply (h one_ne_zero) hprod
    obtain ⟨ps, rfl, -⟩ := hprod
    have hfits' : Fits setting.limits (.tensor (.int (Int32.ofInt n))) := hfits
    show (do push setting.limits (← lift (foldRows apply .multiply (.ofInts [ps.length] ps))) : Exec Unit)
      ⟨rest, context⟩ = _
    rw [hfold]
    exact push_fits hfits' rest context
  | cons k s =>
    obtain ⟨ts, hts, hok⟩ := Except.bind_ok ht
    cases hok
    obtain ⟨ns, hns, hpos, hprods⟩ := Tensor.mapM_primeVector_eq_ok hts
    refine ⟨ns, hns, hpos, product_boxes h (List.cons_ne_nil k s) hprods ?_ hfits⟩
    rw [← (Except.forall₂_of_mapM hts).length_eq, hlength, hfull]

end Exec

namespace Machine

/-- Wherever `primes` succeeds on numbers, `product` after it succeeds too and leaves integers in their places, with
the rest of the stack and the context as they were. The integers are those that the numbers stand for, modulo
`2 ^ 32`, and equal the numbers if none of these is too wide. -/
theorem run_primes_product (m : Machine) (ht : m.setting.table = .standard) (hroom : 3 ≤ m.room) {s : Shape}
    {xs : Numbers} {rest : List Value} (hstack : m.memory.stack = .tensor (.ofNumbers s xs) :: rest)
    (hfull : xs.length = s.size) (hfits : s.size ≤ m.setting.limits.maxElements)
    (hok : (m.step (.word "primes")).1 = .ok ()) :
    ∃ ns : List Int, xs.toList.map Number.toInt? = ns.map some ∧
      m.run [.word "primes", .word "product"] =
        (.ok (), { m with memory := ⟨.tensor (.ofInts s (ns.map Int32.ofInt)) :: rest, m.memory.context⟩ }) ∧
      ((Tensor.ofInts s (ns.map Int32.ofInt)).same (.ofNumbers s xs) = true ↔ ∀ n ∈ ns, n < 2 ^ 31) := by
  obtain ⟨room, hroom⟩ : ∃ room, m.room = room + 3 := ⟨m.room - 3, by omega⟩
  have hprimes : m.setting.table.get "primes" = .ok (.word (.unary .primes)) := by rw [ht]; rfl
  have hproduct : m.setting.table.get "product" = .ok .product := by rw [ht]; rfl
  obtain ⟨memory, hword⟩ := word_of_step (w := .unary .primes) hprimes hok
  have hmemory : m.memory = ⟨.tensor (.ofNumbers s xs) :: rest, m.memory.context⟩ := by rw [← hstack]
  rw [hmemory] at hword
  obtain ⟨t, hfactors, -, rfl⟩ := Exec.word_unary_eq_ok hword
  have happly (hsize : s.size ≠ 0) : Exec.Multiplies (Exec.applyWith m.setting (Exec.call m.setting (room + 1))) :=
    Exec.multiplies_applyWith (by omega) room
  obtain ⟨ns, hns, hpos, hrun⟩ := Exec.product_primes happly hfits hfull hfactors
  refine ⟨ns, hns, ?_, Tensor.same_ofInts hns hpos⟩
  have hfirst : m.instrStep (.word "primes") m.memory = .ok () ⟨.tensor t :: rest, m.memory.context⟩ := by
    rw [m.instrStep_word hprimes, callStep, hmemory, hroom]
    exact Exec.call_word hword _
  have hsecond : m.instrStep (.word "product") ⟨.tensor t :: rest, m.memory.context⟩ =
      .ok () ⟨.tensor (.ofInts s (ns.map Int32.ofInt)) :: rest, m.memory.context⟩ := by
    rw [m.instrStep_word hproduct, callStep, hroom, Exec.call_succ]
    exact hrun rest m.memory.context
  exact run_of_forM ((Exec.bind_ok _ hfirst).trans (Exec.bind_ok _ hsecond))

/-- Two floats with their factors in boxes. -/
theorem run_primes_product_floats :
    let a : Tensor := ⟨[2], .numbers (.floats [12.0, 1.0])⟩
    let r : Tensor := .ofInts [2] [12, 1]
    let m : Machine := { memory := ⟨[.tensor a, .fn .sum], [.shape [2]]⟩ }
    (m.step (.word "primes")).1 = .ok () ∧
      m.run [.word "primes", .word "product"] = (.ok (), { m with memory := ⟨[.tensor r, .fn .sum], [.shape [2]]⟩ }) ∧
      r.same a = true := by
  intro a r m
  have hok : (m.step (.word "primes")).1 = .ok () := rfl
  obtain ⟨ns, hns, hrun, hsame⟩ := run_primes_product m rfl (by decide) rfl rfl (by decide) hok
  obtain rfl : ns = [12, 1] := by
    have htoInt : (Numbers.floats [12.0, 1.0]).toList.map Number.toInt? = [12, 1].map some := by decide +kernel
    exact List.map_injective_iff.2 (Option.some_injective Int) (hns.symm.trans htoInt)
  exact ⟨hok, hrun, hsame.2 (by decide)⟩

/-- The factors of `2 ^ 31`, which a float holds, multiply to the integer that it wraps to. -/
theorem run_primes_product_wrapped :
    let a : Tensor := ⟨[], .numbers (.floats [2147483648.0])⟩
    let r : Tensor := .int (-2147483648)
    let m : Machine := { memory := ⟨[.tensor a], []⟩ }
    (m.step (.word "primes")).1 = .ok () ∧
      m.run [.word "primes", .word "product"] = (.ok (), { m with memory := ⟨[.tensor r], []⟩ }) ∧
      r.same a = false := ⟨rfl, rfl, by decide +kernel⟩

end Machine

end Tacit
