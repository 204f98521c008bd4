/-
Rows that are all equal. Rows of one array hold elements of one type, and among these equality is symmetric and
passes on, so rows that each equal the next one round all equal one another; and so do rows between which there is
no change, in one run. A float that is not a number equals nothing, so a row that holds one is equal to no row.
-/
import Tacit.Proofs.Array.Boxed
import Tacit.Proofs.Array.Equality
import Tacit.Proofs.Array.Runs
import Tacit.Word.Meaning

namespace Tacit

variable {α β : Type}

/-! ## Rounds -/

section

variable {R : α → α → Prop} [IsTrans α R]

/-- A list that is related to itself turned by one goes round, so all its elements are related. -/
theorem forall₂_rotate_one (xs : List α) : List.Forall₂ R xs (xs.rotate 1) ↔ ∀ x ∈ xs, ∀ y ∈ xs, R x y := by
  cases xs with
  | nil => simp
  | cons x xs =>
    have hround := Cycle.chain_iff_pairwise (r := R) (s := ((x :: xs : List α) : Cycle α))
    rw [Cycle.chain_coe_cons, ← List.cons_append, List.isChain_cons_append_singleton_iff_forall₂] at hround
    rw [List.rotate_cons_succ, List.rotate_zero, hround]
    simp only [Cycle.mem_coe_iff]

/-- The ways for all of several elements to stand in a relation that is symmetric and transitive. -/
theorem all_related_tfae [Std.Symm R] {xs : List α} (hxs : 1 < xs.length) :
    [List.Forall₂ R xs (xs.rotate 1), xs.Pairwise R, ∀ x ∈ xs, ∀ y ∈ xs, R x y, xs.IsChain R].TFAE := by
  tfae_have 1 ↔ 3 := forall₂_rotate_one xs
  tfae_have 4 ↔ 2 := List.isChain_iff_pairwise
  tfae_have 3 → 2 := List.pairwise_of_forall_mem_list
  tfae_have 2 → 3 := by
    intro hpairwise
    refine hpairwise.forall_of_forall fun x hx => ?_
    -- there is another element, which is related to this one both ways
    obtain ⟨y, hxy⟩ : ∃ y, R x y := by
      match xs, hxs with
      | y :: z :: zs, _ =>
        obtain ⟨hy, -⟩ := List.pairwise_cons.1 hpairwise
        rcases List.mem_cons.1 hx with rfl | hx
        · exact ⟨z, hy z (by simp)⟩
        · exact ⟨y, symm_of R (hy x hx)⟩
    exact trans_of R hxy (symm_of R hxy)
  tfae_finish

end

/-! ## Blocks -/

/-- Lists are related element by element just if their blocks are. -/
theorem forall₂_blocks_iff {R : α → β → Prop} {n k : Nat} {xs : List α} {ys : List β} (hx : xs.length = n * k)
    (hy : ys.length = n * k) :
    List.Forall₂ (List.Forall₂ R) (blocks n k xs) (blocks n k ys) ↔ List.Forall₂ R xs ys := by
  constructor
  · intro h
    have hflat := List.rel_flatten h
    rwa [flatten_blocks hx, flatten_blocks hy] at hflat
  · exact fun h => forall₂_blocks h n k

theorem blocks_rotate {n k : Nat} {xs : List α} (hx : xs.length = n * k) (m : Nat) :
    blocks n k (pick (blockPositions k ((List.range n).rotate m)) xs) = (blocks n k xs).rotate m := by
  have hrows : ∀ i ∈ (List.range n).rotate m, i < n := fun i hi => Tensor.lt_of_mem_rotate hi
  have hpick := blocks_pick hx hrows
  rwa [List.length_rotate, List.length_range, pick_range_rotate (length_blocks n k xs)] at hpick

/-! ## Elements of one type -/

namespace Leaf

/-- Floats are compared as numbers, so one that is not a number does not equal itself. -/
def Equals : (l : Leaf) → l.Value → l.Value → Prop
  | number .float, (x : Float32), (y : Float32) => (x == y) = true
  | number .bool, x, y | number .int, x, y | character, x, y => x = y

variable {l : Leaf}

theorem Equals.symm {x y : l.Value} (h : l.Equals x y) : l.Equals y x := by
  cases l with
  | character => exact Eq.symm h
  | number type =>
    cases type with
    | bool | int => exact Eq.symm h
    | float => exact Binary32.beq_symm h

theorem Equals.trans {x y z : l.Value} (h : l.Equals x y) (h' : l.Equals y z) : l.Equals x z := by
  cases l with
  | character => exact Eq.trans h h'
  | number type =>
    cases type with
    | bool | int => exact Eq.trans h h'
    | float => exact Binary32.beq_trans h h'

instance : Std.Symm (List.Forall₂ l.Equals) where
  symm _ _ h := (h.imp fun _ _ => Equals.symm).flip

instance : IsTrans (List l.Value) (List.Forall₂ l.Equals) where
  trans _ _ _ h h' := by
    refine forall₂_comp ?_ h h'
    exact fun _ _ _ => Equals.trans

theorem same_array {s s' : Shape} {xs ys : List l.Value} :
    (l.array s xs).same (l.array s' ys) = true ↔ s = s' ∧ List.Forall₂ l.Equals xs ys := by
  have heq {l : Leaf} (h : l.Equals = Eq) (xs ys : List l.Value) : xs = ys ↔ List.Forall₂ l.Equals xs ys := by
    rw [h, List.forall₂_eq_eq_eq]
  cases l with
  | character => exact Tensor.same_characters_iff.trans (and_congr_right fun _ => heq rfl xs ys)
  | number type =>
    refine Tensor.same_numbers_iff.trans (and_congr_right fun _ => ?_)
    cases type with
    | bool | int => exact beq_iff_eq.trans (heq rfl xs ys)
    | float => exact Numbers.isEqv_iff_forall₂

/-- An array with several rows equals its rotation just if each block of elements equals the next one round. -/
theorem equalRows_array {n : Nat} {s : Shape} {xs : List l.Value} (h : (l.array (n :: s) xs).Full) (hn : 1 < n) :
    (l.array (n :: s) xs).equalRows = true ↔
      List.Forall₂ (List.Forall₂ l.Equals) (blocks n s.size xs) ((blocks n s.size xs).rotate 1) := by
  have hlength : xs.length = n * s.size := (l.length_elements xs).symm.trans h
  have hcount : (1 % (n : Int)).toNat = 1 := by
    rw [Int.emod_eq_of_lt (by omega) (by omega)]
    rfl
  have hturned : (l.array (n :: s) xs).rotateBy 1 =
      l.array (n :: s) (pick (blockPositions s.size ((List.range n).rotate 1)) xs) := by
    unfold array
    rw [Tensor.rotateBy_eq, hcount, Tensor.chooseRows_eq fun i hi => Tensor.lt_of_mem_rotate hi, pick_elements,
      List.length_rotate, List.length_range]
  have hpicked : (pick (blockPositions s.size ((List.range n).rotate 1)) xs).length = n * s.size := by
    rw [length_pick, length_blockPositions, List.length_rotate, List.length_range]
    exact fun p hp => hlength ▸ lt_of_mem_blockPositions (fun i hi => Tensor.lt_of_mem_rotate hi) hp
  have hscalar : (l.array (n :: s) xs).isScalar = false := rfl
  have hmore : decide ((l.array (n :: s) xs).rowCount ≤ 1) = false := decide_eq_false (Nat.not_le.2 hn)
  unfold Tensor.equalRows
  rw [hscalar, hmore, Bool.false_or, Bool.false_or, hturned, same_array, and_iff_right rfl,
    ← forall₂_blocks_iff hlength hpicked, blocks_rotate hlength]

end Leaf

namespace Tensor

theorem equalRows_eq_one_iff (t : Tensor) : Unary.equalRows.onTensor t = .ok (int 1) ↔ t.equalRows = true := by
  show Except.ok (truth t.equalRows) = .ok (int 1) ↔ _
  cases t.equalRows with
  | true => exact iff_of_true rfl rfl
  | false => exact iff_of_false (by simp [truth, int, ofInts, ofNumbers, Numbers.ofBool]) Bool.false_ne_true

/-- The rows of an array without boxes are found equal just if every two of them are equal, unless there is one at
most, and just if there is no change among them; otherwise they are found not to be. -/
theorem equalRows_tfae {t : Tensor} (ht : t.Full) (hkind : t.kind ≠ .box) :
    [Unary.equalRows.onTensor t = .ok (int 1), t.rows.Pairwise (·.same · = true),
      t.rowCount ≤ 1 ∨ ∀ r ∈ t.rows, ∀ q ∈ t.rows, r.same q = true, t.groupByChange.rowCount ≤ 1].TFAE ∧
    (Unary.equalRows.onTensor t ≠ .ok (int 1) → Unary.equalRows.onTensor t = .ok (int 0)) := by
  constructor
  · rw [equalRows_eq_one_iff, groupByChange_rowCount_le_one_iff]
    by_cases hfew : t.rowCount ≤ 1
    · -- there are no two rows to differ
      have hone : t.equalRows = true := by simp [equalRows, hfew]
      have hpairwise : t.rows.Pairwise (·.same · = true) := by
        rw [← length_rows] at hfew
        match t.rows, hfew with
        | [], _ | [r], _ => simp
      exact List.tfae_of_forall True _ (by simp [hone, hpairwise, hfew, hpairwise.isChain])
    · obtain ⟨l, s', xs, rfl⟩ := Leaf.exists_array hkind
      cases s' with
      | nil => exact absurd le_rfl hfew
      | cons n s =>
        -- equal rows are equal blocks of elements, and among these equality passes on
        have hn : 1 < n := Nat.not_le.1 hfew
        have hsame (b c : List l.Value) : (l.array s b).same (l.array s c) = true ↔ List.Forall₂ l.Equals b c :=
          Leaf.same_array.trans (and_iff_right rfl)
        have hmore : 1 < (blocks n (Shape.size s) xs).length := by rwa [length_blocks]
        have htfae := all_related_tfae (R := List.Forall₂ l.Equals) hmore
        rw [Leaf.equalRows_array ht hn, Leaf.rows_array, or_iff_right hfew]
        simpa only [List.pairwise_map, List.isChain_map, List.forall_mem_map, hsame] using htfae
  · intro hone
    rw [Ne, equalRows_eq_one_iff, Bool.not_eq_true] at hone
    show Except.ok (truth t.equalRows) = _
    rw [hone]
    rfl

/-- Zeros of both signs, of which there is one run, and a row with a float that is not a number, twice. -/
theorem equalRows_tfae_floats :
    let zeros := ofNumbers [3, 1] (.floats [0.0, -0.0, 0.0])
    let twice := ofNumbers [2, 2] (.floats [1.0, Float32.ofBits 0x7fc00000, 1.0, Float32.ofBits 0x7fc00000])
    zeros.Full ∧ zeros.kind ≠ .box ∧ twice.Full ∧ twice.kind ≠ .box ∧
      Unary.equalRows.onTensor zeros = .ok (int 1) ∧ zeros.groupByChange.rowCount ≤ 1 ∧
      Unary.equalRows.onTensor twice = .ok (int 0) ∧ ¬twice.groupByChange.rowCount ≤ 1 := by
  intro zeros twice
  have hzeros : zeros.Full := rfl
  have htwice : twice.Full := rfl
  have hequal : Unary.equalRows.onTensor zeros = .ok (int 1) :=
    (equalRows_eq_one_iff zeros).2 (by decide +kernel)
  have hunequal : Unary.equalRows.onTensor twice ≠ .ok (int 1) := fun h =>
    absurd ((equalRows_eq_one_iff twice).1 h) (by decide +kernel)
  obtain ⟨hall, -⟩ := equalRows_tfae hzeros nofun
  obtain ⟨hall', hotherwise⟩ := equalRows_tfae htwice nofun
  exact ⟨hzeros, nofun, htwice, nofun, hequal, (hall.out 0 3).1 hequal, hotherwise hunequal, mt (hall'.out 0 3).2 hunequal⟩

end Tensor

end Tacit
