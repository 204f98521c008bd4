/-
Equality of arrays. Every array without floats that are not numbers equals itself, and of two arrays that are equal
it does not matter which comes first. Two arrays that equal a third are equal but where floats of the third stand
between integers of more than twenty-four binary digits, which may be different and round to one float.
-/
import Tacit.Proofs.Array.WellFormed
import Tacit.Proofs.Number.Whole

namespace Tacit

/-- A float that is not a number. -/
def Number.IsNaN : Number → Prop
  | .float x => x.isNaN = true
  | _ => False

/-! ## Floats -/

namespace Binary32

theorem beq_self {x : Float32} (h : ¬x.isNaN = true) : (x == x) = true := by
  refine beq_self_of_unpack fun hnan => h ?_
  show x.toModel.unpack.isNaN = true
  rw [hnan]
  rfl

theorem beq_self_iff {x : Float32} : (x == x) = true ↔ ¬x.isNaN = true := by
  refine ⟨fun h hnan => ?_, beq_self⟩
  have hself := beq_iff.1 h
  change x.toModel.unpack.isNaN = true at hnan
  generalize x.toModel.unpack = y at hself hnan
  cases hself with
  | infinity | zero | finite => cases hnan

end Binary32

/-! ## Numbers in a row -/

namespace Numbers

variable {xs ys zs : Numbers}

/-- Different integers of more than twenty-four digits, on two sides of floats. -/
inductive Blurs : Numbers → Numbers → Numbers → Prop
  | ints {ns ks : List Int32} {n k : Int32} (fs : List Float32) : (n, k) ∈ ns.zip ks → n ≠ k →
    2 ^ 24 ≤ n.toInt.natAbs → 2 ^ 24 ≤ k.toInt.natAbs → Blurs (ints ns) (floats fs) (ints ks)

/-- Truth values and integers are compared as integers. -/
theorem same_iff_asInts (hx : xs.type ≠ .float) (hy : ys.type ≠ .float) :
    xs.same ys = true ↔ xs.asInts = ys.asInts := by
  have hbools : Function.Injective ofBool := by decide
  cases xs with
  | floats => exact absurd rfl hx
  | bools bs =>
    cases ys with
    | floats => exact absurd rfl hy
    | bools cs => exact beq_iff_eq.trans (List.map_injective_iff.2 hbools).eq_iff.symm
    | ints => exact beq_iff_eq
  | ints =>
    cases ys with
    | floats => exact absurd rfl hy
    | bools | ints => exact beq_iff_eq

theorem same_iff_asFloats (h : xs.type = .float ∨ ys.type = .float) :
    xs.same ys = true ↔ List.Forall₂ (fun x y => (x == y) = true) xs.asFloats ys.asFloats := by
  have hjoin : xs.type.join ys.type = .float := by
    rcases h with h | h <;> rw [h]
    · rfl
    · cases xs.type <;> rfl
  unfold same
  rw [hjoin]
  exact isEqv_iff_forall₂

/-- What is equal is equal as floats too. -/
theorem asFloats_of_same (h : xs.same ys = true) :
    List.Forall₂ (fun x y => (x == y) = true) xs.asFloats ys.asFloats := by
  by_cases hfloat : xs.type = .float ∨ ys.type = .float
  · exact (same_iff_asFloats hfloat).1 h
  · obtain ⟨hx, hy⟩ := not_or.1 hfloat
    rw [asFloats_of_asInts hx, asFloats_of_asInts hy, ← (same_iff_asInts hx hy).1 h, List.forall₂_map_left_iff,
      List.forall₂_map_right_iff, List.forall₂_same]
    exact fun n _ => beq_self_ofInt n.toInt

theorem same_self (h : ∀ x ∈ xs.toList, ¬x.IsNaN) : xs.same xs = true := by
  by_cases hfloat : xs.type = .float
  · cases xs with
    | bools | ints => cases hfloat
    | floats fs => exact isEqv_self fun x hx => Binary32.beq_self (h (.float x) (List.mem_map_of_mem hx))
  · exact (same_iff_asInts hfloat hfloat).2 rfl

theorem same_self_iff : xs.same xs = true ↔ ∀ x ∈ xs.toList, ¬x.IsNaN := by
  refine ⟨fun h x hx => ?_, same_self⟩
  cases xs with
  | bools | ints =>
    obtain ⟨_, -, rfl⟩ := List.mem_map.1 hx
    exact id
  | floats fs =>
    obtain ⟨f, hf, rfl⟩ := List.mem_map.1 hx
    have hall := List.forall₂_same.1 (isEqv_iff_forall₂.1 h)
    exact Binary32.beq_self_iff.1 (hall f hf)

theorem same_symm (h : xs.same ys = true) : ys.same xs = true := by
  by_cases hfloat : xs.type = .float ∨ ys.type = .float
  · exact (same_iff_asFloats hfloat.symm).2 ((asFloats_of_same h).flip.imp fun _ _ => Binary32.beq_symm)
  · obtain ⟨hx, hy⟩ := not_or.1 hfloat
    exact (same_iff_asInts hy hx).2 ((same_iff_asInts hx hy).1 h).symm

/-- Integers that are turned into equal floats. -/
theorem eq_of_toFloat {n k : Int32} (h : (toFloat n == toFloat k) = true) (hlt : n.toInt.natAbs < 2 ^ 24) : n = k := by
  refine Int32.toInt_inj.1 (Binary32.eq_of_ofInt hlt ?_ (Binary32.beq_iff.1 h))
  have := k.toInt_lt
  have := k.le_toInt
  omega

/-- Truth values stand for small integers. -/
theorem eq_ints_of_mem (hx : xs.type ≠ .float) {n : Int32} (hn : n ∈ xs.asInts) (hle : 2 ^ 24 ≤ n.toInt.natAbs) :
    xs = ints xs.asInts := by
  cases xs with
  | floats => exact absurd rfl hx
  | ints => rfl
  | bools bs =>
    obtain ⟨b, -, rfl⟩ := List.mem_map.1 hn
    have : (ofBool b).toInt.natAbs ≤ 1 := by cases b <;> decide
    omega

/-- Integers that floats between them equal are the same unless both are blurred. -/
theorem blurs_of_ne {ns ks : List Int32} (h : List.Forall₂ (fun n k => (toFloat n == toFloat k) = true) ns ks)
    (hne : ns ≠ ks) :
    ∃ n k, (n, k) ∈ ns.zip ks ∧ n ≠ k ∧ 2 ^ 24 ≤ n.toInt.natAbs ∧ 2 ^ 24 ≤ k.toInt.natAbs := by
  obtain ⟨hlength, hfloats⟩ := List.forall₂_iff_zip.1 h
  by_contra hall
  have heq : List.Forall₂ Eq ns ks := List.forall₂_iff_zip.2 ⟨hlength, fun {n k} hmem => ?_⟩
  · exact hne (List.forall₂_eq_eq_eq ▸ heq)
  · by_contra hnk
    refine hall ⟨n, k, hmem, hnk, not_lt.1 fun hlt => hnk ?_, not_lt.1 fun hlt => hnk ?_⟩
    · exact eq_of_toFloat (hfloats hmem) hlt
    · exact (eq_of_toFloat (Binary32.beq_symm (hfloats hmem)) hlt).symm

theorem same_trans_iff (h : xs.same ys = true) (h' : ys.same zs = true) :
    xs.same zs = true ↔ ¬Blurs xs ys zs := by
  have hfloats : List.Forall₂ (fun x z => (x == z) = true) xs.asFloats zs.asFloats := by
    refine forall₂_comp ?_ (asFloats_of_same h) (asFloats_of_same h')
    exact fun _ _ _ hxy hyz => Binary32.beq_trans hxy hyz
  by_cases hxz : xs.type = .float ∨ zs.type = .float
  · refine iff_of_true ((same_iff_asFloats hxz).2 hfloats) ?_
    rintro ⟨⟩
    rcases hxz with hxz | hxz <;> cases hxz
  obtain ⟨hx, hz⟩ := not_or.1 hxz
  rw [same_iff_asInts hx hz]
  by_cases hy : ys.type = .float
  · rw [asFloats_of_asInts hx, asFloats_of_asInts hz, List.forall₂_map_left_iff, List.forall₂_map_right_iff] at hfloats
    constructor
    · intro heq hblurs
      cases hblurs with
      | ints fs hmem hne =>
        obtain rfl := heq
        obtain ⟨-, hall⟩ := List.forall₂_iff_zip.1 (List.forall₂_same.2 fun n _ => rfl)
        exact hne (hall hmem)
    · intro hblurs
      by_contra hne
      obtain ⟨n, k, hmem, hnk, hn, hk⟩ := blurs_of_ne hfloats hne
      obtain ⟨hmemn, hmemk⟩ := List.of_mem_zip hmem
      refine hblurs ?_
      rw [eq_ints_of_mem hx hmemn hn, eq_ints_of_mem hz hmemk hk]
      cases ys with
      | bools | ints => cases hy
      | floats fs => exact .ints fs hmem hnk hn hk
  · refine iff_of_true ((same_iff_asInts hx hy).1 h |>.trans ((same_iff_asInts hy hz).1 h')) ?_
    rintro ⟨⟩
    exact hy rfl

end Numbers

/-! ## Arrays -/

/-- Related lists with a relation across that holds just where nothing stands between. -/
theorem forall₂_iff_of_trans {α : Type} {R : α → α → Prop} {C : α → α → α → Prop} {xs ys : List α}
    (hxy : List.Forall₂ R xs ys) : ∀ {zs : List α}, List.Forall₂ R ys zs →
      (∀ x ∈ xs, ∀ y z, R x y → R y z → (R x z ↔ ¬C x y z)) →
      (List.Forall₂ R xs zs ↔ ∀ p ∈ xs.zip (ys.zip zs), ¬C p.1 p.2.1 p.2.2) := by
  induction hxy with
  | nil =>
    intro zs hyz _
    cases hyz
    simp
  | cons hxy hxys ih =>
    intro zs hyz h
    cases hyz with
    | cons hyz hyzs =>
      obtain ⟨hx, hxs⟩ := List.forall_mem_cons.1 h
      rw [List.forall₂_cons, hx _ _ hxy hyz, ih hyzs hxs, List.zip_cons_cons, List.zip_cons_cons,
        List.forall_mem_cons]

namespace Tensor

/-- Induction on the boxes. -/
theorem boxes_induction {P : Tensor → Prop} (numbers : ∀ s xs, P ⟨s, .numbers xs⟩)
    (characters : ∀ s cs, P ⟨s, .characters cs⟩) (boxes : ∀ s ts, (∀ t ∈ ts, P t) → P ⟨s, .boxes ts⟩)
    (t : Tensor) : P t := by
  obtain ⟨s, e⟩ := t
  cases e with
  | numbers xs => exact numbers s xs
  | characters cs => exact characters s cs
  | boxes ts => exact boxes s ts fun t _ => boxes_induction numbers characters boxes t
termination_by sizeOf t
decreasing_by
  rename_i ht
  have := List.sizeOf_lt_of_mem ht
  simp
  omega

variable {s s' : Shape} {t u v : Tensor}

theorem sameAll_iff_forall₂ {ts us : List Tensor} :
    sameAll ts us = true ↔ List.Forall₂ (fun t u => t.same u = true) ts us := by
  induction ts generalizing us with
  | nil => cases us <;> simp [sameAll]
  | cons t ts ih => cases us <;> simp [sameAll, ih]

theorem same_boxes_iff {ts us : List Tensor} : (Tensor.mk s (.boxes ts)).same ⟨s', .boxes us⟩ = true ↔
    s = s' ∧ List.Forall₂ (fun t u => t.same u = true) ts us := by
  rw [← sameAll_iff_forall₂]
  simp [same]

theorem same_numbers_iff {xs ys : Numbers} : (Tensor.mk s (.numbers xs)).same ⟨s', .numbers ys⟩ = true ↔
    s = s' ∧ xs.same ys = true := by
  simp [same]

theorem same_characters_iff {cs ds : List Int32} : (Tensor.mk s (.characters cs)).same ⟨s', .characters ds⟩ = true ↔
    s = s' ∧ cs = ds := by
  simp [same]

theorem kind_of_same (h : t.same u = true) : t.kind = u.kind := by
  obtain ⟨s, e⟩ := t
  obtain ⟨s', e'⟩ := u
  cases e <;> cases e' <;> first | rfl | simp [same] at h

/-- Somewhere, in the arrays or in boxes in the same places, integers of more than twenty-four digits differ between
the outer arrays, and the array between them has floats. -/
inductive Blurs : Tensor → Tensor → Tensor → Prop
  | numbers {s s' s'' : Shape} {xs ys zs : Numbers} : xs.Blurs ys zs →
    Blurs ⟨s, .numbers xs⟩ ⟨s', .numbers ys⟩ ⟨s'', .numbers zs⟩
  | boxes {s s' s'' : Shape} {ts us vs : List Tensor} {t u v : Tensor} : (t, u, v) ∈ ts.zip (us.zip vs) → Blurs t u v →
    Blurs ⟨s, .boxes ts⟩ ⟨s', .boxes us⟩ ⟨s'', .boxes vs⟩

theorem same_self (h : t.EveryNumber (¬·.IsNaN)) : t.same t = true := by
  induction h with
  | numbers h => exact same_numbers_iff.2 ⟨rfl, Numbers.same_self h⟩
  | characters => exact same_characters_iff.2 ⟨rfl, rfl⟩
  | boxes h ih => exact same_boxes_iff.2 ⟨rfl, List.forall₂_same.2 ih⟩

/-- By induction on the boxes. -/
theorem same_self_iff : t.same t = true ↔ t.EveryNumber (¬·.IsNaN) := by
  refine ⟨fun h => ?_, same_self⟩
  induction t using boxes_induction with
  | numbers s xs => exact .numbers (Numbers.same_self_iff.1 (same_numbers_iff.1 h).2)
  | characters s cs => exact .characters s cs
  | boxes s ts ih => exact .boxes fun t ht => ih t ht (List.forall₂_same.1 (same_boxes_iff.1 h).2 t ht)

theorem same_symm : ∀ {u : Tensor}, t.same u = true → u.same t = true := by
  induction t using boxes_induction with
  | numbers s xs =>
    rintro ⟨s', e⟩ h
    cases e with
    | characters | boxes => cases kind_of_same h
    | numbers ys =>
      obtain ⟨rfl, hxs⟩ := same_numbers_iff.1 h
      exact same_numbers_iff.2 ⟨rfl, Numbers.same_symm hxs⟩
  | characters s cs =>
    rintro ⟨s', e⟩ h
    cases e with
    | numbers | boxes => cases kind_of_same h
    | characters ds =>
      obtain ⟨rfl, rfl⟩ := same_characters_iff.1 h
      exact h
  | boxes s ts ih =>
    rintro ⟨s', e⟩ h
    cases e with
    | numbers | characters => cases kind_of_same h
    | boxes us =>
      obtain ⟨rfl, hts⟩ := same_boxes_iff.1 h
      have hback := (List.forall₂_and_left _ _).2 ⟨fun t ht u => @ih t ht u, hts⟩
      exact same_boxes_iff.2 ⟨rfl, (hback.imp fun t u h => h.1 u h.2).flip⟩

/-- By induction on the boxes of the first array, those of the others being in the same places. -/
theorem same_trans_iff : ∀ {u v : Tensor}, t.same u = true → u.same v = true →
    (t.same v = true ↔ ¬t.Blurs u v) := by
  induction t using boxes_induction with
  | numbers s xs =>
    rintro ⟨s', e⟩ ⟨s'', e'⟩ h h'
    cases e with
    | characters | boxes => cases kind_of_same h
    | numbers ys =>
      cases e' with
      | characters | boxes => cases kind_of_same h'
      | numbers zs =>
        obtain ⟨rfl, hxs⟩ := same_numbers_iff.1 h
        obtain ⟨rfl, hys⟩ := same_numbers_iff.1 h'
        rw [same_numbers_iff, and_iff_right rfl, Numbers.same_trans_iff hxs hys]
        exact not_congr ⟨.numbers, fun hblurs => by cases hblurs with | numbers h => exact h⟩
  | characters s cs =>
    rintro ⟨s', e⟩ ⟨s'', e'⟩ h h'
    cases e with
    | numbers | boxes => cases kind_of_same h
    | characters ds =>
      obtain ⟨rfl, rfl⟩ := same_characters_iff.1 h
      exact iff_of_true h' nofun
  | boxes s ts ih =>
    rintro ⟨s', e⟩ ⟨s'', e'⟩ h h'
    cases e with
    | numbers | characters => cases kind_of_same h
    | boxes us =>
      cases e' with
      | numbers | characters => cases kind_of_same h'
      | boxes vs =>
        obtain ⟨rfl, hts⟩ := same_boxes_iff.1 h
        obtain ⟨rfl, hus⟩ := same_boxes_iff.1 h'
        rw [same_boxes_iff, and_iff_right rfl, forall₂_iff_of_trans hts hus fun t ht u v => ih t ht]
        constructor
        · intro hall hblurs
          cases hblurs with
          | boxes hmem hblurs => exact hall _ hmem hblurs
        · exact fun hblurs p hp hp' => hblurs (.boxes hp hp')

/-- Equality holds of every array without floats that are not numbers and itself, it does not depend on which array
comes first, and two arrays that equal a third are equal unless floats of the third stand between different integers
of theirs, of more than twenty-four digits. -/
theorem same_equivalence {a : Tensor} (ha : a.EveryNumber (¬·.IsNaN)) (b c : Tensor) :
    a.same a = true ∧ (a.same b = true → b.same a = true) ∧
      (a.same b = true → b.same c = true → (a.same c = true ↔ ¬a.Blurs b c)) :=
  ⟨same_self ha, same_symm, same_trans_iff⟩

/-- Truth values, floats and integers in boxes. -/
theorem same_equivalence_boxed :
    let a := boxes [ofNumbers [2] (.bools [true, false]), string [97]]
    let b := boxes [ofNumbers [2] (.floats [1.0, 0.0]), string [97]]
    let c := boxes [ofInts [2] [1, 0], string [97]]
    a.EveryNumber (¬·.IsNaN) ∧ a.same a = true ∧ b.same a = true ∧ a.same c = true := by
  intro a b c
  have ha : a.EveryNumber (¬·.IsNaN) := by
    refine .boxes ?_
    simp only [List.mem_cons, List.not_mem_nil, or_false]
    rintro t (rfl | rfl)
    · exact .numbers (by simp [Numbers.toList, Number.IsNaN])
    · exact .characters _ _
  obtain ⟨hself, hsymm, htrans⟩ := same_equivalence ha b c
  refine ⟨ha, hself, hsymm (by decide +kernel), (htrans (by decide +kernel) (by decide +kernel)).2 fun hblurs => ?_⟩
  -- neither box of the first array holds integers
  unfold a b c at hblurs
  cases hblurs with
  | boxes hmem hblurs =>
    simp only [List.zip_cons_cons, List.zip_nil_right, List.mem_cons, List.not_mem_nil, or_false, Prod.mk.injEq] at hmem
    rcases hmem with ⟨rfl, rfl, rfl⟩ | ⟨rfl, rfl, rfl⟩
    · cases hblurs with
      | numbers h => cases h
    · cases hblurs

/-- An integer of twenty-five digits that is rounded to the float of its neighbour. -/
theorem same_equivalence_blurred :
    let a := int 16777217
    let b := ofNumbers [] (.floats [16777216.0])
    let c := int 16777216
    a.EveryNumber (¬·.IsNaN) ∧ b.EveryNumber (¬·.IsNaN) ∧ c.EveryNumber (¬·.IsNaN) ∧
      a.same b = true ∧ b.same c = true ∧ a.same c = false := by
  have hb : ¬(Number.float 16777216.0).IsNaN := by
    show ¬Float32.isNaN 16777216.0 = true
    decide +kernel
  refine ⟨.numbers ?_, .numbers ?_, .numbers ?_, by decide +kernel, by decide +kernel, rfl⟩
  · simp [Numbers.toList, Number.IsNaN]
  · simpa [Numbers.toList] using hb
  · simp [Numbers.toList, Number.IsNaN]

end Tensor
end Tacit
