/-
Places in shapes. The place of an index is found axis by axis, each place so far being one of as many rows as the
axis is long, so the place in a shape put together from two is found from the places in both. The index of a place
is found from the last axis on, by remainders; within a shape each is found from the other.
-/
import Tacit.Proofs.Array.Cells
import Tacit.Shape.Index

namespace Tacit.Shape

/-- An entry for each axis of the shape, none of them past its length. -/
abbrev Within (index : List Int) (s : Shape) : Prop :=
  List.Forall₂ (fun (i : Int) (n : Nat) => 0 ≤ i ∧ i < n) index s

variable {s u : Shape} {i : Int} {is js : List Int} {flat n p : Nat}

/-! ## From the first axis on -/

theorem flatFrom_cons (hi : 0 ≤ i ∧ i < n) :
    flatFrom flat (n :: s) (i :: is) = flatFrom (flat * n + i.toNat) s is :=
  if_neg (by omega)

theorem flatFrom_cons_none (hi : ¬(0 ≤ i ∧ i < n)) : flatFrom flat (n :: s) (i :: is) = none := if_pos (by omega)

theorem flatFrom_append (h : is.length = s.length) :
    flatFrom flat (s ++ u) (is ++ js) = (flatFrom flat s is).bind fun p => flatFrom p u js := by
  induction s generalizing is flat with
  | nil =>
    obtain rfl := List.length_eq_zero_iff.1 h
    rfl
  | cons n s ih =>
    obtain ⟨i, is, rfl⟩ := List.exists_cons_of_length_eq_add_one h
    by_cases hi : 0 ≤ i ∧ i < n
    · rw [flatFrom_cons hi, List.cons_append, List.cons_append, flatFrom_cons hi, ih (Nat.succ.inj h)]
    · rw [flatFrom_cons_none hi, List.cons_append, List.cons_append, flatFrom_cons_none hi]
      rfl

/-- The place in row `flat` of rows of the shape. -/
theorem flatFrom_eq (h : is.length = s.length) :
    flatFrom flat s is = (s.toFlat? is).map (flat * s.size + ·) := by
  unfold toFlat?
  induction s generalizing is flat with
  | nil =>
    obtain rfl := List.length_eq_zero_iff.1 h
    exact congrArg some (Nat.mul_one flat).symm
  | cons n s ih =>
    obtain ⟨i, is, rfl⟩ := List.exists_cons_of_length_eq_add_one h
    by_cases hi : 0 ≤ i ∧ i < n
    · have hlength : is.length = s.length := Nat.succ.inj h
      have hplace : (flat * n + i.toNat) * size s = flat * size (n :: s) + (0 * n + i.toNat) * size s := by
        show _ = flat * (n * size s) + _
        ring
      have hrow : flatFrom (0 * n + i.toNat) s is = _ := ih hlength
      rw [flatFrom_cons hi, flatFrom_cons hi, ih hlength, hrow, Option.map_map, hplace]
      congr 1
      exact funext fun p => Nat.add_assoc ..
    · rw [flatFrom_cons_none hi, flatFrom_cons_none hi]
      rfl

/-! ## Places -/

theorem toFlat?_cons (hi : 0 ≤ i ∧ i < n) (h : is.length = s.length) :
    toFlat? (n :: s) (i :: is) = (s.toFlat? is).map (i.toNat * s.size + ·) := by
  unfold toFlat?
  rw [flatFrom_cons hi, flatFrom_eq h, Nat.zero_mul, Nat.zero_add]
  rfl

theorem toFlat?_concat (hi : 0 ≤ i ∧ i < n) (h : is.length = s.length) :
    toFlat? (s ++ [n]) (is ++ [i]) = (s.toFlat? is).map (· * n + i.toNat) := by
  unfold toFlat?
  rw [flatFrom_append h, Option.map_eq_bind]
  exact congrArg _ (funext fun p => flatFrom_cons hi)

theorem toFlat?_cons_none (hi : ¬(0 ≤ i ∧ i < n)) : toFlat? (n :: s) (i :: is) = none := flatFrom_cons_none hi

theorem toFlat?_concat_none (hi : ¬(0 ≤ i ∧ i < n)) (h : is.length = s.length) :
    toFlat? (s ++ [n]) (is ++ [i]) = none := by
  unfold toFlat?
  rw [flatFrom_append h, Option.bind_eq_none_iff]
  exact fun p _ => flatFrom_cons_none hi

/-- An index has a place, among those of the shape, if it is within the shape. -/
theorem exists_toFlat? (h : Within is s) : ∃ p < s.size, s.toFlat? is = some p := by
  induction h with
  | nil => exact ⟨0, Nat.one_pos, rfl⟩
  | @cons i n is s hi h ih =>
    obtain ⟨p, hp, hplace⟩ := ih
    refine ⟨i.toNat * size s + p, ?_, by rw [toFlat?_cons hi h.length_eq, hplace]; rfl⟩
    show i.toNat * size s + p < n * size s
    rw [Nat.mul_comm i.toNat]
    exact Nat.mul_add_lt_mul_of_lt_of_lt (by omega) hp

theorem within_of_toFlat? (h : is.length = s.length) (hp : s.toFlat? is = some p) : Within is s := by
  induction s generalizing is p with
  | nil =>
    obtain rfl := List.length_eq_zero_iff.1 h
    exact .nil
  | cons n s ih =>
    obtain ⟨i, is, rfl⟩ := List.exists_cons_of_length_eq_add_one h
    by_cases hi : 0 ≤ i ∧ i < n
    · rw [toFlat?_cons hi (Nat.succ.inj h)] at hp
      obtain ⟨q, hq, -⟩ := Option.map_eq_some_iff.1 hp
      exact .cons hi (ih (Nat.succ.inj h) hq)
    · rw [toFlat?_cons_none hi] at hp
      cases hp

theorem toFlat?_lt (h : is.length = s.length) (hp : s.toFlat? is = some p) : p < s.size := by
  obtain ⟨q, hq, hplace⟩ := exists_toFlat? (within_of_toFlat? h hp)
  cases hplace.symm.trans hp
  exact hq

/-- An index is told by its place. -/
theorem within_unique (h : Within is s) (h' : Within js s) (hplace : s.toFlat? is = s.toFlat? js) : is = js := by
  induction h generalizing js with
  | nil =>
    cases h'
    rfl
  | @cons i n is s hi h ih =>
    cases h' with
    | @cons j _ js _ hj h' =>
      obtain ⟨p, hp, his⟩ := exists_toFlat? h
      obtain ⟨q, hq, hjs⟩ := exists_toFlat? h'
      rw [toFlat?_cons hi h.length_eq, toFlat?_cons hj h'.length_eq, his, hjs] at hplace
      have hsum : i.toNat * size s + p = j.toNat * size s + q := Option.some.inj hplace
      -- the row is the quotient by the size of a row
      have hrow (k r : Nat) (hr : r < size s) : (k * size s + r) / size s = k := by
        rw [Nat.mul_comm, Nat.mul_add_div (by omega), Nat.div_eq_of_lt hr, Nat.add_zero]
      have hij : i.toNat = j.toNat := by rw [← hrow i.toNat p hp, hsum, hrow j.toNat q hq]
      have hpq : p = q := by
        rw [hij] at hsum
        exact Nat.add_left_cancel hsum
      rw [show i = j by omega, ih h' (by rw [his, hjs, hpq])]

/-! ## From the last axis on -/

theorem indexFrom_eq (dims : List Nat) (flat : Int) (index : List Nat) :
    indexFrom dims flat index = (· ++ index) <$> indexFrom dims flat [] := by
  induction dims generalizing flat index with
  | nil => rfl
  | cons n dims ih =>
    cases n with
    | zero => rfl
    | succ n =>
      show indexFrom dims _ (_ :: index) = _ <$> indexFrom dims _ [_]
      rw [ih _ (_ :: index), ih _ [_], Functor.map_map]
      simp

/-- The last entry is the remainder by the last axis; those before it are the index of the quotient. -/
theorem toIndex_concat (hn : 0 < n) (flat : Int) :
    toIndex (s ++ [n]) flat = (· ++ [(flat % n).toNat]) <$> s.toIndex (flat / n) := by
  unfold toIndex
  rw [List.reverse_concat]
  cases n with
  | zero => cases hn
  | succ n =>
    show indexFrom s.reverse _ [_] = _
    exact indexFrom_eq ..

theorem emod_mul_natCast (i : Int) (k n : Nat) : i / n % k * n + i % n = i % (k * n : Nat) :=
  calc i / n % k * n + i % n
    _ = (i / n - k * (i / n / k)) * n + (i - n * (i / n)) := by rw [Int.emod_def, Int.emod_def]
    _ = i - k * n * (i / (n * k)) := by
      rw [Int.ediv_ediv_of_nonneg (Int.natCast_nonneg n)]
      ring
    _ = i % (k * n : Nat) := by rw [Nat.cast_mul, Int.emod_def, Int.mul_comm n]

/-- Every integer has an index, and the place of that index is its remainder by the size. -/
theorem exists_toIndex (hs : ∀ n ∈ s, 0 < n) (flat : Int) : ∃ index : List Nat, s.toIndex flat = .ok index ∧
    Within (index.map (↑)) s ∧ ∃ p : Nat, s.toFlat? (index.map (↑)) = some p ∧ (p : Int) = flat % s.size := by
  induction s using List.reverseRecOn generalizing flat with
  | nil => exact ⟨[], rfl, .nil, 0, rfl, (Int.emod_one flat).symm⟩
  | append_singleton s n ih =>
    have hn : 0 < n := hs n (by simp)
    obtain ⟨index, hindex, hwithin, p, hp, hplace⟩ := ih (fun m hm => hs m (by simp [hm])) (flat / n)
    have hlast : 0 ≤ flat % n ∧ flat % n < n := ⟨Int.emod_nonneg _ (by omega), Int.emod_lt_of_pos _ (by omega)⟩
    have hcast : ((flat % n).toNat : Int) = flat % n := Int.toNat_of_nonneg hlast.1
    refine ⟨index ++ [(flat % n).toNat], by rw [toIndex_concat hn, hindex]; rfl, ?_, p * n + (flat % n).toNat, ?_, ?_⟩
    · rw [List.map_append, List.map_singleton, hcast]
      exact List.rel_append hwithin (.cons hlast .nil)
    · rw [List.map_append, List.map_singleton, hcast, toFlat?_concat hlast hwithin.length_eq, hp]
      rfl
    · rw [size_concat, ← emod_mul_natCast, Nat.cast_add, Nat.cast_mul, hplace, hcast]

/-- Where no axis is empty, places and indices within the shape are two ways to say the same: every integer has an
index, whose place is its remainder by the size, and every index within the shape is the index of its place. -/
theorem index_roundTrip (hs : ∀ n ∈ s, 0 < n) :
    (∀ flat : Int, ∃ index : List Nat, s.toIndex flat = .ok index ∧ Within (index.map (↑)) s ∧
      ∃ p : Nat, s.toFlat? (index.map (↑)) = some p ∧ (p : Int) = flat % s.size) ∧
    (∀ flat : Int, 0 ≤ flat → flat < s.size → ∃ index : List Nat, s.toIndex flat = .ok index ∧
      s.toFlat? (index.map (↑)) = some flat.toNat) ∧
    ∀ index : List Int, Within index s → ∃ p < s.size, s.toFlat? index = some p ∧
      (List.map (↑) <$> s.toIndex p : Except Fault (List Int)) = .ok index := by
  refine ⟨exists_toIndex hs, fun flat hmin hmax => ?_, fun index h => ?_⟩
  · obtain ⟨index, hindex, -, p, hp, hplace⟩ := exists_toIndex hs flat
    rw [Int.emod_eq_of_lt hmin hmax] at hplace
    exact ⟨index, hindex, by rw [hp, ← hplace, Int.toNat_natCast]⟩
  · obtain ⟨p, hlt, hp⟩ := exists_toFlat? h
    obtain ⟨index', hindex, hwithin, q, hq, hplace⟩ := exists_toIndex hs p
    rw [Int.emod_eq_of_lt (Int.natCast_nonneg p) (Int.ofNat_lt.2 hlt)] at hplace
    obtain rfl : q = p := Int.ofNat_inj.1 hplace
    refine ⟨q, hlt, hp, ?_⟩
    rw [hindex, within_unique h hwithin (hp.trans hq.symm)]
    rfl

/-- The place before the first is the last one. -/
theorem index_roundTrip_wrapped : (∀ n ∈ ([2, 3, 4] : Shape), 0 < n) ∧
    toIndex [2, 3, 4] (-1) = .ok [1, 2, 3] ∧ (∃ p : Nat, toFlat? [2, 3, 4] [1, 2, 3] = some p ∧ (p : Int) = -1 % 24) ∧
    ∃ p < 24, toFlat? [2, 3, 4] [1, 0, 2] = some p ∧
      (List.map (↑) <$> toIndex [2, 3, 4] p : Except Fault (List Int)) = .ok [1, 0, 2] := by
  have hs : ∀ n ∈ ([2, 3, 4] : Shape), 0 < n := by decide
  obtain ⟨hplaces, -, hindices⟩ := index_roundTrip hs
  have hindex : toIndex [2, 3, 4] (-1) = .ok [1, 2, 3] := rfl
  obtain ⟨index, hlast, -, hplace⟩ := hplaces (-1)
  cases hlast.symm.trans hindex
  exact ⟨hs, hindex, hplace, hindices [1, 0, 2] (by simp [Within])⟩

end Tacit.Shape
