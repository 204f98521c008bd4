/-
Words undone on exact arrays. What a word makes of an exact array is exact, and the word that undoes it
makes of every wider copy of the result a wider copy of the array: rearrangements by the places that they
move, arithmetic by the numbers in the array at every depth of boxes.
-/
import Tacit.Proofs.Array.Exact
import Tacit.Proofs.Array.Leading
import Tacit.Proofs.Array.Restore

namespace Tacit

namespace Tensor

/-- At `x`, what `f` gives is exact, and `g` takes its wider copies back to wider copies of `x`. -/
def UndoneAt (f g : Tensor → Except Fault Tensor) (x : Tensor) : Prop :=
  ∀ y, f x = .ok y → y.Exact ∧ ∀ y', y.Widens y' → ∃ x', g y' = .ok x' ∧ x.Widens x'

/-! ## Lists of arrays -/

section

variable {α : Type} {f g : α → Tensor → Except Fault Tensor}

/-- Undone one by one, each beside what it meets. -/
theorem UndoneAt.mapM_zip : ∀ {xs ys : List Tensor} {ks : List α}, xs.length = ks.length →
    (∀ p ∈ xs.zip ks, UndoneAt (f p.2) (g p.2) p.1) → ((xs.zip ks).mapM fun p => f p.2 p.1) = .ok ys →
    (∀ y ∈ ys, y.Exact) ∧ ys.length = xs.length ∧ ∀ ys', List.Forall₂ Widens ys ys' →
      ∃ xs', ((ys'.zip ks).mapM fun p => g p.2 p.1) = .ok xs' ∧ List.Forall₂ Widens xs xs'
  | [], ys, ks, _, _, h => by
    cases h
    refine ⟨by simp, rfl, fun ys' hys => ?_⟩
    cases hys
    exact ⟨[], rfl, .nil⟩
  | x :: xs, ys, k :: ks, hlength, hundone, h => by
    rw [List.zip_cons_cons, List.mapM_cons] at h
    obtain ⟨y, hy, h⟩ := Except.bind_ok h
    obtain ⟨ys, hys, h⟩ := Except.bind_ok h
    cases h
    obtain ⟨hexact, hback⟩ := hundone (x, k) (by simp) y hy
    obtain ⟨hexacts, hlength', hbacks⟩ := UndoneAt.mapM_zip (Nat.succ.inj hlength)
      (fun p hp => hundone p (List.mem_cons_of_mem _ hp)) hys
    refine ⟨by simpa using ⟨hexact, hexacts⟩, by simp [hlength'], fun ys' hwidens => ?_⟩
    cases hwidens with
    | @cons _ y' _ ys' hwiden hwidens =>
      obtain ⟨x', hx', hwiden'⟩ := hback y' hwiden
      obtain ⟨xs', hxs', hwidens'⟩ := hbacks ys' hwidens
      refine ⟨x' :: xs', ?_, .cons hwiden' hwidens'⟩
      rw [List.zip_cons_cons, List.mapM_cons]
      exact Except.bind_of_ok hx' (Except.bind_of_ok hxs' rfl)

/-- In boxes, contents are undone one by one. -/
theorem UndoneAt.boxes {f' g' : Tensor → Except Fault Tensor} {s : Shape} {xs : List Tensor} {ks : List α}
    (hks : ks.length = s.size)
    (hf : ∀ xs, Full ⟨s, .boxes xs⟩ →
      f' ⟨s, .boxes xs⟩ = do return ⟨s, .boxes (← (xs.zip ks).mapM fun p => f p.2 p.1)⟩)
    (hg : ∀ xs, Full ⟨s, .boxes xs⟩ →
      g' ⟨s, .boxes xs⟩ = do return ⟨s, .boxes (← (xs.zip ks).mapM fun p => g p.2 p.1)⟩)
    (hfull : Full ⟨s, .boxes xs⟩) (h : ∀ p ∈ xs.zip ks, UndoneAt (f p.2) (g p.2) p.1) :
    UndoneAt f' g' ⟨s, .boxes xs⟩ := by
  intro y hy
  rw [hf xs hfull] at hy
  obtain ⟨ys, hys, hy⟩ := Except.bind_ok hy
  cases hy
  have hlengths : xs.length = ks.length := Eq.trans hfull hks.symm
  obtain ⟨hexact, hlength, hback⟩ := UndoneAt.mapM_zip hlengths h hys
  have hfull' : Full ⟨s, .boxes ys⟩ := hlength.trans hfull
  refine ⟨.boxes hfull' hexact, fun y' hy' => ?_⟩
  cases hy' with
  | @boxes _ _ ys' hlength' hwidens =>
    obtain ⟨xs', hxs', hwidens'⟩ := hback ys' (widens_boxes.1 (.boxes s hlength' hwidens))
    refine ⟨⟨s, .boxes xs'⟩, ?_, widens_boxes.2 hwidens'⟩
    rw [hg ys' (hlength'.symm.trans hfull')]
    exact Except.bind_of_ok hxs' rfl

end

/-! ## One operand -/

theorem pervadeAll_eq_mapM (name : String) (kernel : Numbers → Except Fault Numbers) :
    ∀ ts : List Tensor, pervadeAll name kernel ts = ts.mapM (pervadeEach name kernel) := by
  intro ts
  induction ts with
  | nil => rfl
  | cons t ts ih => rw [List.mapM_cons, pervadeAll, ih]

theorem map_boxes (op : Monadic) (s : Shape) (xs : List Tensor) :
    map op ⟨s, .boxes xs⟩ = do return ⟨s, .boxes (← xs.mapM (map op))⟩ := by
  unfold map
  rw [pervadeEach, pervadeAll_eq_mapM]

/-- Negation undoes itself on integers, and so does the complement; of truth values the complement makes
integers. -/
theorem kernel_kernel {op : Monadic} (hop : op = .negate ∨ op = .not) {xs ys : Numbers}
    (hx : xs.type ≠ .float) (h : op.kernel xs = .ok ys) :
    ys.type = .int ∧ ys.length = xs.length ∧ ∃ xs', op.kernel ys = .ok xs' ∧ xs.Widens xs' := by
  cases xs with
  | floats fs => exact absurd rfl hx
  | bools bs =>
    rcases hop with rfl | rfl
    · cases h
    · cases h
      refine ⟨rfl, List.length_map _, _, rfl, ?_⟩
      -- twice taken from one, a truth value is the integer that it stands for
      have hnot : (bs.map fun b => Numbers.ofBool !b).map (1 - ·) = bs.map Numbers.ofBool := by
        rw [List.map_map]
        refine List.map_congr_left fun b _ => ?_
        cases b <;> rfl
      change Numbers.Widens _ (.ints ((bs.map fun b => Numbers.ofBool !b).map (1 - ·)))
      rw [hnot]
      exact .bools bs
  | ints ns =>
    rcases hop with rfl | rfl
    · cases h
      refine ⟨rfl, List.length_map _, _, rfl, ?_⟩
      have hneg : (ns.map (- ·)).map (- ·) = ns := Function.LeftInverse.list_map (fun _ => Int32.neg_neg) ns
      change Numbers.Widens _ (.ints ((ns.map (- ·)).map (- ·)))
      rw [hneg]
      exact .refl _
    · cases h
      refine ⟨rfl, List.length_map _, _, rfl, ?_⟩
      have hcancel : Function.LeftInverse (fun n : Int32 => 1 - n) (1 - ·) := by
        intro n
        grind
      have hnot : (ns.map (1 - ·)).map (1 - ·) = ns := hcancel.list_map ns
      change Numbers.Widens _ (.ints ((ns.map (1 - ·)).map (1 - ·)))
      rw [hnot]
      exact .refl _

theorem undoneAt_map {op : Monadic} (hop : op = .negate ∨ op = .not) {x : Tensor} (hx : x.Exact) :
    UndoneAt (map op) (map op) x := by
  induction hx with
  | @numbers s xs htype hfull =>
    intro y hy
    obtain ⟨ys, hys, hy⟩ := Except.bind_ok hy
    cases hy
    obtain ⟨htype', hlength, xs', hxs', hwidens⟩ := kernel_kernel hop htype hys
    refine ⟨.numbers (by rw [htype']; decide) (hlength.trans hfull), fun y' hy' => ?_⟩
    cases hy' with
    | numbers _ h =>
      cases h with
      | bools bs => cases htype'
      | refl => exact ⟨⟨s, .numbers xs'⟩, Except.bind_of_ok hxs' rfl, .numbers s hwidens⟩
  | characters => intro y hy; cases hy
  | @boxes s xs hfull _ ih =>
    -- a word of one operand meets nothing beside each content
    have hboxes : ∀ xs, Full ⟨s, .boxes xs⟩ → map op ⟨s, .boxes xs⟩ = do
        return ⟨s, .boxes (← (xs.zip (List.replicate s.size ())).mapM fun p => map op p.1)⟩ := by
      intro xs hfull
      have hfst : (xs.zip (List.replicate s.size ())).map Prod.fst = xs :=
        List.map_fst_zip (by rw [List.length_replicate]; exact Nat.le_of_eq hfull)
      rw [map_boxes]
      conv_lhs => rw [← hfst, List.mapM_map]
      rfl
    exact .boxes (f := fun _ => map op) (g := fun _ => map op) List.length_replicate hboxes hboxes hfull
      fun p hp => ih p.1 (List.of_mem_zip hp).1

/-! ## Integers added or subtracted -/

/-- Two operations that undo each other, with what they do to an integer and the one beside it. -/
inductive Shift : Dyadic → Dyadic → (Int32 → Int32 → Int32) → (Int32 → Int32 → Int32) → Prop
  | add : Shift .add .subtract (· + ·) (· - ·)
  | subtract : Shift .subtract .add (· - ·) (· + ·)

namespace Shift

variable {op op' : Dyadic} {f g : Int32 → Int32 → Int32}

theorem symm (h : Shift op op' f g) : Shift op' op g f := by
  cases h
  · exact .subtract
  · exact .add

/-- Wrapping arithmetic has inverses. -/
theorem cancel (h : Shift op op' f g) (n k : Int32) : g (f n k) k = n := by
  cases h with
  | add => exact Int32.add_sub_cancel n k
  | subtract => exact Int32.sub_add_cancel n k

theorem zipWith_cancel (h : Shift op op' f g) : ∀ {ns ks : List Int32}, ns.length = ks.length →
    List.zipWith g (List.zipWith f ns ks) ks = ns
  | [], _, _ => rfl
  | n :: ns, k :: ks, hlength => by
    rw [List.zipWith_cons_cons, List.zipWith_cons_cons, h.cancel n k, h.zipWith_cancel (Nat.succ.inj hlength)]

/-- Truth values take part as the integers that they stand for. -/
theorem kernel (h : Shift op op' f g) {xs : Numbers} (htype : xs.type ≠ .float) (ks : List Int32) :
    op.kernel xs (.ints ks) = .ok (.ints (List.zipWith f xs.asInts ks)) := by
  have hjoin : xs.type.join .int = .int := by
    revert htype
    cases xs.type <;> decide
  have htypes : xs.type.join (Numbers.ints ks).type = .int := hjoin
  unfold Dyadic.kernel
  rw [htypes]
  cases h <;> rfl

end Shift

theorem Full.int (k : Int32) : (ofInts [] [k]).Full := rfl

/-- The numbers of an array over its own shape are its elements. -/
theorem spreadOver_self (t : Tensor) : t.spreadOver t.shape = measure t.elements := by
  unfold spreadOver rank
  rw [List.drop_length]
  change (measure t.elements).rearrange (spread 1) = _
  cases measure t.elements with
  | bools xs => exact congrArg Numbers.bools (spread_one xs)
  | ints xs => exact congrArg Numbers.ints (spread_one xs)
  | floats xs => exact congrArg Numbers.floats (spread_one xs)

theorem spreadOver_ofInts (s s' : Shape) (ks : List Int32) :
    (ofInts s ks).spreadOver s' = .ints (spreadTo s s' ks) := rfl

section

variable {op op' : Dyadic} {f g : Int32 → Int32 → Int32} {s s' : Shape} {ks : List Int32}

theorem apply_numbers (h : Shift op op' f g) {xs : Numbers} (htype : xs.type ≠ .float) (hs : s' <+: s) :
    apply op ⟨s, .numbers xs⟩ (ofInts s' ks) =
      .ok ⟨s, .numbers (.ints (List.zipWith f xs.asInts (spreadTo s' s ks)))⟩ := by
  have hkind : resultKind op .number .number = some .number := by cases h <;> rfl
  have hkinds : resultKind op (Tensor.mk s (.numbers xs)).kind (ofInts s' ks).kind = some .number := hkind
  change (do applyPlain op ⟨s, .numbers xs⟩ (ofInts s' ks) (← s.agree s' op.name)) = _
  rw [Shape.agree_eq_ok_iff.2 (.inr ⟨hs, rfl⟩), Except.ok_bind]
  unfold applyPlain
  rw [hkinds]
  dsimp only
  rw [if_neg (by simp), spreadOver_ofInts, spreadOver_self ⟨s, .numbers xs⟩]
  exact Except.bind_of_ok (h.kernel htype _) rfl

theorem apply_characters (h : Shift op op' f g) {xs : List Int32} (hs : s' <+: s) :
    apply op ⟨s, .characters xs⟩ (ofInts s' ks) =
      .ok ⟨s, .characters (List.zipWith f xs (spreadTo s' s ks))⟩ := by
  have hkind : resultKind op .character .number = some .character := by cases h <;> rfl
  have hkinds : resultKind op (Tensor.mk s (.characters xs)).kind (ofInts s' ks).kind = some .character :=
    hkind
  change (do applyPlain op ⟨s, .characters xs⟩ (ofInts s' ks) (← s.agree s' op.name)) = _
  rw [Shape.agree_eq_ok_iff.2 (.inr ⟨hs, rfl⟩), Except.ok_bind]
  unfold applyPlain
  rw [hkinds]
  dsimp only
  -- neither characters nor integers have a fraction
  rw [if_neg (by rintro ⟨-, h | h⟩ <;> cases h), spreadOver_ofInts, spreadOver_self ⟨s, .characters xs⟩]
  have htype : (Numbers.ints xs).type ≠ .float := NumberType.noConfusion
  exact Except.bind_of_ok (h.kernel htype _) rfl

/-- In boxes, each content meets the integer beside it. -/
theorem apply_boxes (op : Dyadic) {xs : List Tensor} (hfull : Full ⟨s, .boxes xs⟩)
    (hks : (ofInts s' ks).Full) (hs : s' <+: s) : apply op ⟨s, .boxes xs⟩ (ofInts s' ks) = do
      return ⟨s, .boxes (← (xs.zip (spreadTo s' s ks)).mapM fun p => apply op p.1 (int p.2))⟩ := by
  have hagree : s.agree s' op.name = .ok s := Shape.agree_eq_ok_iff.2 (.inr ⟨hs, rfl⟩)
  have hlefts : spreadTo s s xs = xs := by
    unfold spreadTo
    rw [List.drop_length]
    exact spread_one xs
  have hrights : spreadTo s' s (ofInts s' ks).boxedElements = (spreadTo s' s ks).map int := by
    unfold spreadTo
    rw [map_spread]
    exact congrArg _ (Leaf.boxedElements_array (.number .int) s' ks)
  unfold apply
  rw [pervade_boxes op.name (applyPlain op) hfull hks (.inl rfl) hagree]
  change (do return Tensor.mk s (.boxes (← ((spreadTo s s xs).zip
    (spreadTo s' s (ofInts s' ks).boxedElements)).mapM _))) = _
  rw [hlefts, hrights, List.zip_map_right, List.mapM_map]
  rfl

theorem undoneAt_apply_numbers (h : Shift op op' f g) {s' : Shape} {xs : Numbers} (htype : xs.type ≠ .float)
    (hfull : Full ⟨s', .numbers xs⟩) {s : Shape} {ks : List Int32} (hks : (ofInts s ks).Full) (hs : s <+: s') :
    UndoneAt (fun t => apply op t (ofInts s ks)) (fun t => apply op' t (ofInts s ks)) ⟨s', .numbers xs⟩ := by
  intro y hy
  dsimp only at hy ⊢
  have hlength : xs.asInts.length = (spreadTo s s' ks).length := by
    rw [xs.length_asInts, length_spreadTo hs hks]
    exact hfull
  rw [apply_numbers h htype hs] at hy
  cases hy
  have hfull' : Full ⟨s', .numbers (.ints (List.zipWith f xs.asInts (spreadTo s s' ks)))⟩ := by
    change (List.zipWith _ _ _).length = _
    rw [List.length_zipWith, ← hlength, Nat.min_self, xs.length_asInts]
    exact hfull
  refine ⟨.numbers NumberType.noConfusion hfull', fun y' hy' => ?_⟩
  cases hy' with
  | numbers _ hwidens =>
    cases hwidens
    rw [apply_numbers h.symm NumberType.noConfusion hs]
    refine ⟨_, rfl, .numbers s' ?_⟩
    change Numbers.Widens _ (.ints (List.zipWith g (List.zipWith f xs.asInts _) _))
    rw [h.zipWith_cancel hlength]
    exact .ofInts htype

theorem undoneAt_apply_characters (h : Shift op op' f g) {s' : Shape} {xs : List Int32}
    (hfull : Full ⟨s', .characters xs⟩) {s : Shape} {ks : List Int32} (hks : (ofInts s ks).Full) (hs : s <+: s') :
    UndoneAt (fun t => apply op t (ofInts s ks)) (fun t => apply op' t (ofInts s ks)) ⟨s', .characters xs⟩ := by
  intro y hy
  dsimp only at hy ⊢
  have hlength : xs.length = (spreadTo s s' ks).length := by
    rw [length_spreadTo hs hks]
    exact hfull
  rw [apply_characters h hs] at hy
  cases hy
  have hfull' : Full ⟨s', .characters (List.zipWith f xs (spreadTo s s' ks))⟩ := by
    change (List.zipWith _ _ _).length = _
    rw [List.length_zipWith, ← hlength, Nat.min_self]
    exact hfull
  refine ⟨.characters hfull', fun y' hy' => ?_⟩
  cases hy' with
  | characters =>
    rw [apply_characters h.symm hs]
    refine ⟨_, rfl, ?_⟩
    rw [h.zipWith_cancel hlength]
    exact .characters s' xs

theorem undoneAt_apply (h : Shift op op' f g) {x : Tensor} (hx : x.Exact) {s : Shape} {ks : List Int32}
    (hks : (ofInts s ks).Full) (hs : s <+: x.shape) :
    UndoneAt (fun t => apply op t (ofInts s ks)) (fun t => apply op' t (ofInts s ks)) x := by
  -- a content of a box meets one of the integers
  induction hx generalizing s ks with
  | numbers htype hfull => exact undoneAt_apply_numbers h htype hfull hks hs
  | characters hfull => exact undoneAt_apply_characters h hfull hks hs
  | @boxes s' xs hfull _ ih =>
    have hcontents : ∀ p ∈ xs.zip (spreadTo s s' ks),
        UndoneAt (fun t => apply op t (int p.2)) (fun t => apply op' t (int p.2)) p.1 := by
      intro p hp
      exact ih p.1 (List.of_mem_zip hp).1 (.int p.2) List.nil_prefix
    exact .boxes (f := fun k t => apply op t (int k)) (g := fun k t => apply op' t (int k))
      (length_spreadTo hs hks) (fun _ hfull => apply_boxes op hfull hks hs)
      (fun _ hfull => apply_boxes op' hfull hks hs) hfull hcontents

/-- Integers can be added to any exact array and subtracted from it. -/
theorem exists_apply_eq_ok (h : Shift op op' f g) {x : Tensor} (hx : x.Exact) {s : Shape} {ks : List Int32}
    (hks : (ofInts s ks).Full) (hs : s <+: x.shape) : ∃ y, apply op x (ofInts s ks) = .ok y := by
  induction hx generalizing s ks with
  | numbers htype => exact ⟨_, apply_numbers h htype hs⟩
  | characters => exact ⟨_, apply_characters h hs⟩
  | @boxes s' xs hfull _ ih =>
    have hcontents : ∀ p ∈ xs.zip (spreadTo s s' ks), ∃ y, apply op p.1 (int p.2) = .ok y := by
      intro p hp
      exact ih p.1 (List.of_mem_zip hp).1 (.int p.2) List.nil_prefix
    obtain ⟨ys, hys⟩ := Except.exists_mapM_eq_ok hcontents
    exact ⟨_, (apply_boxes op hfull hks hs).trans (Except.bind_of_ok hys rfl)⟩

theorem exists_apply_cancel (h : Shift op op' f g) {x : Tensor} (hx : x.Exact) {s : Shape} {ks : List Int32}
    (hks : (ofInts s ks).Full) (hs : s <+: x.shape) : ∃ y z,
      apply op x (ofInts s ks) = .ok y ∧ apply op' y (ofInts s ks) = .ok z ∧ x.Widens z := by
  obtain ⟨y, hy⟩ := exists_apply_eq_ok h hx hks hs
  obtain ⟨hexact, hback⟩ := undoneAt_apply h hx hks hs y hy
  obtain ⟨z, hz, hwidens⟩ := hback y (.refl hexact)
  exact ⟨y, z, hy, hz, hwidens⟩

/-- Integers added to an exact array and subtracted again leave the same array, and so do integers subtracted
and added again: at any depth of boxes, whatever the longer of the shapes, and where the sums wrap. -/
theorem applyNamed_cancel {x : Tensor} (hx : x.Exact) {s : Shape} {ks : List Int32} (hks : (ofInts s ks).Full)
    (hs : s <+: x.shape) :
    (∃ y z, applyNamed "add" x (ofInts s ks) = .ok y ∧ applyNamed "subtract" y (ofInts s ks) = .ok z ∧
      z.same x = true) ∧
    ∃ y z, applyNamed "subtract" x (ofInts s ks) = .ok y ∧ applyNamed "add" y (ofInts s ks) = .ok z ∧
      z.same x = true := by
  obtain ⟨y, z, hy, hz, hwidens⟩ := exists_apply_cancel .add hx hks hs
  obtain ⟨y', z', hy', hz', hwidens'⟩ := exists_apply_cancel .subtract hx hks hs
  exact ⟨⟨y, z, hy, hz, hwidens.same hx⟩, y', z', hy', hz', hwidens'.same hx⟩

/-- Sums beyond both ends in the first row, and letters and truth values in boxes in the second. -/
theorem applyNamed_cancel_nested :
    let x : Tensor := .boxes [⟨[2], .numbers (.ints [Int32.maxValue, Int32.minValue])⟩,
      .boxes [.string [97, 98], ⟨[2, 1], .numbers (.bools [true, false])⟩]]
    (∃ y z, applyNamed "add" x (ofInts [2] [1, -3]) = .ok y ∧
      applyNamed "subtract" y (ofInts [2] [1, -3]) = .ok z ∧ z.same x = true) ∧
    ∃ y z, applyNamed "subtract" x (ofInts [2] [1, -3]) = .ok y ∧
      applyNamed "add" y (ofInts [2] [1, -3]) = .ok z ∧ z.same x = true := by
  intro x
  have hnested : (boxes [.string [97, 98], ⟨[2, 1], .numbers (.bools [true, false])⟩]).Exact := by
    refine .boxes rfl ?_
    simp only [List.mem_cons, List.not_mem_nil, or_false]
    rintro t (rfl | rfl)
    · exact .characters rfl
    · exact .numbers (by decide) rfl
  have hx : x.Exact := by
    refine .boxes rfl ?_
    simp only [List.mem_cons, List.not_mem_nil, or_false]
    rintro t (rfl | rfl)
    · exact .numbers (by decide) rfl
    · exact hnested
  have hfull : (ofInts [2] [1, -3]).Full := rfl
  exact applyNamed_cancel hx hfull (by decide)

end

/-! ## Rearrangements -/

theorem Widens.unbox {t u : Tensor} (h : t.Widens u) : t.unbox.Widens u.unbox := by
  cases h with
  | numbers s h => cases s <;> exact .numbers _ h
  | characters s xs => cases s <;> exact .characters _ xs
  | boxes s hlength h =>
    have hforall := widens_boxes.1 (.boxes s hlength h)
    cases s with
    | cons n s => exact widens_boxes.2 hforall
    | nil =>
      cases hforall with
      | nil => exact widens_boxes.2 .nil
      | cons hcontent _ => exact hcontent

theorem Widens.reshape_ok {t u r : Tensor} {s : Shape} (h : t.Widens u) (hr : t.reshape s = .ok r) :
    ∃ r', u.reshape s = .ok r' ∧ r.Widens r' := by
  obtain ⟨s', e⟩ := t
  obtain ⟨s'', e'⟩ := u
  cases h.shape
  unfold Tensor.reshape at hr ⊢
  split at hr
  · rename_i hsize
    cases hr
    exact ⟨_, if_pos hsize, h.reshape⟩
  · cases hr

theorem undoneAt_rotate {n : Int32} (hn : n ≠ Int32.minValue) {x : Tensor} (hx : x.Exact) :
    UndoneAt (rotate (int n)) (unrotate (int n)) x := by
  intro y hy
  obtain ⟨hback, -⟩ := unrotate_rotate hn hx.full hy
  rw [rotate_int] at hy
  cases hy
  refine ⟨hx.selects (selects_rotateBy _), fun y' hy' => ?_⟩
  have hwidens := hy'.selects (selects_rotateBy (-n.toInt))
  rw [unrotate_int hn] at hback ⊢
  rw [Except.ok.inj hback] at hwidens
  exact ⟨_, rfl, hwidens⟩

theorem undoneAt_unrotate {n : Int32} (hn : n ≠ Int32.minValue) {x : Tensor} (hx : x.Exact) :
    UndoneAt (unrotate (int n)) (rotate (int n)) x := by
  intro y hy
  obtain ⟨hback, -⟩ := rotate_unrotate hn hx.full hy
  rw [unrotate_int hn] at hy
  cases hy
  refine ⟨hx.selects (selects_rotateBy _), fun y' hy' => ?_⟩
  have hwidens := hy'.selects (selects_rotateBy n.toInt)
  rw [rotate_int] at hback ⊢
  rw [Except.ok.inj hback] at hwidens
  exact ⟨_, rfl, hwidens⟩

end Tensor

namespace Unary.UndoneBy

variable {u v : Unary} {x y : Tensor}

theorem exact (h : u.UndoneBy v) (hx : x.Exact) (hy : u.onTensor x = .ok y) : y.Exact := by
  obtain ⟨-, hfull⟩ := h.onTensor hx.full hy
  cases h with
  | identity => cases hy; exact hx
  | reverse => cases hy; exact hx.selects Tensor.selects_reverse
  | transpose => cases hy; exact hx.selects Tensor.selects_transpose
  | untranspose => cases hy; exact hx.selects Tensor.selects_untranspose
  | fix =>
    obtain ⟨rfl, -, -⟩ := hx.full.reshape hy
    exact hx.reshape hfull
  | unfix =>
    obtain ⟨s, -, hy⟩ := Except.bind_ok hy
    obtain ⟨rfl, -, -⟩ := hx.full.reshape hy
    exact hx.reshape hfull
  | box => cases hy; exact .boxes hfull (by simpa using hx)

/-- What undoes a rearrangement does the same to wider copies. -/
theorem widens (h : u.UndoneBy v) {y' : Tensor} (hwidens : y.Widens y') (hx : v.onTensor y = .ok x) :
    ∃ x', v.onTensor y' = .ok x' ∧ x.Widens x' := by
  cases h with
  | identity => cases hx; exact ⟨y', rfl, hwidens⟩
  | reverse => cases hx; exact ⟨_, rfl, hwidens.selects Tensor.selects_reverse⟩
  | transpose => cases hx; exact ⟨_, rfl, hwidens.selects Tensor.selects_untranspose⟩
  | untranspose => cases hx; exact ⟨_, rfl, hwidens.selects Tensor.selects_transpose⟩
  | fix =>
    obtain ⟨s, hs, hx⟩ := Except.bind_ok hx
    obtain ⟨x', hx', hwidens'⟩ := hwidens.reshape_ok hx
    refine ⟨x', Except.bind_of_ok ?_ hx', hwidens'⟩
    rw [hwidens.shape]
    exact hs
  | unfix =>
    obtain ⟨x', hx', hwidens'⟩ := hwidens.reshape_ok hx
    refine ⟨x', ?_, hwidens'⟩
    change y'.reshape y'.shape.fix = _
    rw [hwidens.shape]
    exact hx'
  | box => cases hx; exact ⟨_, rfl, hwidens.unbox⟩

theorem undoneAt (h : u.UndoneBy v) (hx : x.Exact) : Tensor.UndoneAt u.onTensor v.onTensor x :=
  fun _ hy => ⟨h.exact hx hy, fun _ hwidens => h.widens hwidens (h.onTensor hx.full hy).1⟩

end Unary.UndoneBy

end Tacit
