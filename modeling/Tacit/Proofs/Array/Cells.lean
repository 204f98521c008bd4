/-
Elements and the cells they meet. Where two shapes agree, each element of the shorter is repeated over
its cell of the longer; the elements of both then stand side by side, and boxes meet what stands beside
them one pair after another.
-/
import Tacit.Tensor.Pervade
import Mathlib.Tactic

namespace Tacit

/-! ## Spreading -/

section

variable {α β : Type}

theorem spread_one (xs : List α) : spread 1 xs = xs := by
  unfold spread
  exact List.flatMap_singleton' xs

theorem length_spread (k : Nat) (xs : List α) : (spread k xs).length = xs.length * k := by
  unfold spread
  rw [List.length_flatMap]
  simp

theorem map_spread (f : α → β) (k : Nat) (xs : List α) : (spread k xs).map f = spread k (xs.map f) := by
  unfold spread
  rw [List.map_flatMap, List.flatMap_map]
  simp

theorem mem_spread {k : Nat} {xs : List α} {x : α} : x ∈ spread k xs ↔ x ∈ xs ∧ 0 < k := by
  unfold spread
  simp [List.mem_flatMap, List.mem_replicate, Nat.pos_iff_ne_zero, and_comm]

theorem spread_cons (k : Nat) (x : α) (xs : List α) : spread k (x :: xs) = List.replicate k x ++ spread k xs :=
  List.flatMap_cons

theorem zipWith_replicate_left {γ : Type} (f : α → β → γ) (x : α) (ys : List β) :
    List.zipWith f (List.replicate ys.length x) ys = ys.map (f x ·) := by
  induction ys with
  | nil => rfl
  | cons y ys ih => rw [List.length_cons, List.replicate_succ, List.zipWith_cons_cons, ih, List.map_cons]

theorem zipWith_replicate_right {γ : Type} (f : α → β → γ) (xs : List α) (y : β) :
    List.zipWith f xs (List.replicate xs.length y) = xs.map (f · y) := by
  induction xs with
  | nil => rfl
  | cons x xs ih => rw [List.length_cons, List.replicate_succ, List.zipWith_cons_cons, ih, List.map_cons]

/-- The same for each pair. -/
theorem zipWith_const {γ : Type} (z : γ) {n : Nat} {xs : List α} {ys : List β} (hx : xs.length = n)
    (hy : ys.length = n) : List.zipWith (fun _ _ => z) xs ys = List.replicate n z := by
  rw [List.eq_replicate_iff, List.length_zipWith, hx, hy, Nat.min_self]
  refine ⟨rfl, fun w hw => ?_⟩
  rw [← List.map_uncurry_zip_eq_zipWith] at hw
  obtain ⟨p, -, hp⟩ := List.mem_map.1 hw
  exact hp.symm

theorem zipWith_swap {γ : Type} {f : α → β → γ} {g : β → α → γ} (h : ∀ x y, f x y = g y x) (xs : List α)
    (ys : List β) : List.zipWith f xs ys = List.zipWith g ys xs := by
  rw [List.zipWith_comm]
  exact congrArg (fun k => List.zipWith k ys xs) (funext fun y => funext fun x => h x y)

theorem forall_zip {p : α → Bool} {q : β → Bool} {xs : List α} {ys : List β} (h : xs.length = ys.length) :
    (∀ z ∈ xs.zip ys, p z.1 ∧ q z.2) ↔ (∀ x ∈ xs, p x) ∧ ∀ y ∈ ys, q y := by
  constructor
  · intro hzip
    constructor
    · rw [← List.map_fst_zip h.le]
      intro x hx
      obtain ⟨z, hz, rfl⟩ := List.mem_map.1 hx
      exact (hzip z hz).1
    · rw [← List.map_snd_zip h.ge]
      intro y hy
      obtain ⟨z, hz, rfl⟩ := List.mem_map.1 hy
      exact (hzip z hz).2
  · rintro ⟨hp, hq⟩ ⟨x, y⟩ hz
    obtain ⟨hx, hy⟩ := List.of_mem_zip hz
    exact ⟨hp x hx, hq y hy⟩

end

namespace Shape

theorem size_append (s u : Shape) : size (s ++ u) = s.size * u.size := by
  induction s with
  | nil => exact (Nat.one_mul _).symm
  | cons n s ih =>
    show n * size (s ++ u) = n * size s * u.size
    rw [ih, Nat.mul_assoc]

theorem size_concat (s : Shape) (n : Nat) : size (s ++ [n]) = s.size * n := by
  rw [size_append]
  exact congrArg (s.size * ·) (Nat.mul_one n)

theorem size_mul_size_drop {s t : Shape} (h : s <+: t) : s.size * size (t.drop s.length) = t.size := by
  rw [← size_append, List.prefix_iff_eq_append.1 h]

/-- Shapes agree on one of them that the other leads. -/
theorem agree_eq_ok_iff {left right s : Shape} {name : String} :
    left.agree right name = .ok s ↔ left <+: s ∧ right = s ∨ right <+: s ∧ left = s := by
  have hleads : ∀ short long : Shape,
      ((if short.isPrefixOf long then pure long else throw (.shape (.disagree name left right)) :
        Except Fault Shape) = .ok s) ↔ short <+: s ∧ long = s := by
    intro short long
    by_cases hshort : short.isPrefixOf long
    · rw [if_pos hshort]
      constructor
      · rintro ⟨⟩
        exact ⟨List.isPrefixOf_iff_prefix.1 hshort, rfl⟩
      · rintro ⟨-, rfl⟩
        rfl
    · rw [if_neg hshort]
      constructor
      · rintro ⟨⟩
      · rintro ⟨h, rfl⟩
        exact absurd (List.isPrefixOf_iff_prefix.2 h) hshort
  unfold agree
  by_cases hlength : left.length ≤ right.length
  · rw [if_pos hlength, hleads, or_iff_left_of_imp]
    rintro ⟨h, rfl⟩
    obtain rfl := h.eq_of_length_le hlength
    exact ⟨List.prefix_rfl, rfl⟩
  · rw [if_neg hlength, hleads, or_iff_right_of_imp]
    rintro ⟨h, rfl⟩
    exact absurd h.length_le hlength

theorem agree_swap {left right s : Shape} {name name' : String} :
    left.agree right name = .ok s ↔ right.agree left name' = .ok s := by
  rw [agree_eq_ok_iff, agree_eq_ok_iff, or_comm]

/-- Both shapes lead the one they agree on. -/
theorem prefix_of_agree {left right s : Shape} {name : String} (h : left.agree right name = .ok s) :
    left <+: s ∧ right <+: s := by
  rcases agree_eq_ok_iff.1 h with ⟨hleft, rfl⟩ | ⟨hright, rfl⟩
  · exact ⟨hleft, List.prefix_rfl⟩
  · exact ⟨List.prefix_rfl, hright⟩

end Shape

/-! ## Over a longer shape -/

/-- The elements of an array of the shape `short`, each repeated over its cell of the shape `long`. -/
def spreadTo {α : Type} (short long : Shape) (xs : List α) : List α :=
  spread (Shape.size (long.drop short.length)) xs

section

variable {α : Type} {short long : Shape} {xs : List α}

theorem length_spreadTo (h : short <+: long) (hxs : xs.length = short.size) :
    (spreadTo short long xs).length = long.size := by
  unfold spreadTo
  rw [length_spread, hxs, Shape.size_mul_size_drop h]

/-- Where there is anything, every element is there. -/
theorem mem_spreadTo (h : 0 < (spreadTo short long xs).length) {x : α} :
    x ∈ spreadTo short long xs ↔ x ∈ xs := by
  unfold spreadTo at h ⊢
  rw [length_spread] at h
  rw [mem_spread, and_iff_left (Nat.pos_of_mul_pos_left h)]

theorem mem_of_mem_spreadTo {x : α} (h : x ∈ spreadTo short long xs) : x ∈ xs := (mem_spread.1 h).1

end

namespace Tensor

/-! ## Boxes beside elements -/

variable (name : String) (plain : Tensor → Tensor → Shape → Except Fault Tensor)

/-- Each box on the left meets its elements on the right. -/
theorem pervadeLefts_eq (k : Nat) (lefts rights : List Tensor) (h : rights.length = lefts.length * k) :
    pervadeLefts name plain lefts k rights =
      ((spread k lefts).zip rights).mapM fun p => pervade name plain p.1 p.2 := by
  induction lefts generalizing rights with
  | nil => rfl
  | cons left lefts ih =>
    rw [List.length_cons, Nat.succ_mul] at h
    have htake : (rights.take k).length = k := by rw [List.length_take]; omega
    have hdrop : (rights.drop k).length = lefts.length * k := by rw [List.length_drop]; omega
    have hcell : (List.replicate k left).zip (rights.take k) = (rights.take k).map (left, ·) := by
      have h := zipWith_replicate_left Prod.mk left (rights.take k)
      rwa [htake] at h
    have hzip : (spread k (left :: lefts)).zip rights =
        (rights.take k).map (left, ·) ++ (spread k lefts).zip (rights.drop k) := by
      rw [spread_cons, ← hcell, ← List.zip_append (by rw [List.length_replicate, htake]), List.take_append_drop]
    rw [hzip, List.mapM_append, List.mapM_map, pervadeLefts, ih _ hdrop]
    rfl

/-- Each box on the right meets its elements on the left. -/
theorem pervadeRights_eq (k : Nat) (rights lefts : List Tensor) (h : lefts.length = rights.length * k) :
    pervadeRights name plain lefts k rights =
      (lefts.zip (spread k rights)).mapM fun p => pervadeRight name plain p.1 p.2 := by
  induction rights generalizing lefts with
  | nil =>
    rw [List.length_nil, Nat.zero_mul] at h
    obtain rfl := List.length_eq_zero_iff.1 h
    rfl
  | cons right rights ih =>
    rw [List.length_cons, Nat.succ_mul] at h
    have htake : (lefts.take k).length = k := by rw [List.length_take]; omega
    have hdrop : (lefts.drop k).length = rights.length * k := by rw [List.length_drop]; omega
    have hcell : (lefts.take k).zip (List.replicate k right) = (lefts.take k).map (·, right) := by
      have h := zipWith_replicate_right Prod.mk (lefts.take k) right
      rwa [htake] at h
    have hzip : lefts.zip (spread k (right :: rights)) =
        (lefts.take k).map (·, right) ++ (lefts.drop k).zip (spread k rights) := by
      rw [spread_cons, ← hcell, ← List.zip_append (by rw [List.length_replicate, htake]), List.take_append_drop]
    rw [hzip, List.mapM_append, List.mapM_map, pervadeRights, ih _ hdrop]
    rfl

end Tensor

end Tacit
