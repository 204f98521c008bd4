/-
Arrays without floats, and their wider copies. Arithmetic turns truth values into the integers that they
stand for, so what undoes it gives back integers in their place; a wider copy of an array is the array
but for that, at any depth of boxes. An array is the same as its wider copies.
-/
import Tacit.Proofs.Fault.Tame
import Tacit.Proofs.Array.Rows
import Mathlib.Data.List.Forall2

namespace Tacit

theorem forall₂_getElem? {α β : Type} {R : α → β → Prop} {xs : List α} {ys : List β}
    (h : List.Forall₂ R xs ys) (p : Nat) : List.Forall₂ R xs[p]?.toList ys[p]?.toList := by
  induction h generalizing p with
  | nil => exact .nil
  | cons h _ ih =>
    cases p with
    | zero => exact .cons h .nil
    | succ p => exact ih p

theorem forall₂_pick {α β : Type} {R : α → β → Prop} {xs : List α} {ys : List β}
    (h : List.Forall₂ R xs ys) (ps : List Nat) : List.Forall₂ R (pick ps xs) (pick ps ys) := by
  induction ps with
  | nil => exact .nil
  | cons p ps ih =>
    rw [pick_cons, pick_cons]
    exact List.rel_append (forall₂_getElem? h p) ih

/-- Pairs in one relation, then in a second, are in the third that the two make. -/
theorem forall₂_of_zip {α β γ : Type} {S : β → γ → Prop} {T : α → γ → Prop} {xs : List α}
    {ys : List β} {zs : List γ} (hlength : xs.length = ys.length)
    (h : ∀ p ∈ xs.zip ys, ∀ z, S p.2 z → T p.1 z) (h' : List.Forall₂ S ys zs) :
    List.Forall₂ T xs zs := by
  induction h' generalizing xs with
  | nil => rw [List.length_eq_zero_iff.1 hlength]; exact .nil
  | @cons y z ys zs hyz _ ih =>
    cases xs with
    | nil => cases hlength
    | cons x xs =>
      refine .cons (h (x, y) (by simp) z hyz) (ih (Nat.succ.inj hlength) fun p hp => h p ?_)
      rw [List.zip_cons_cons]
      exact List.mem_cons_of_mem _ hp

/-! ## Numbers -/

namespace Numbers

/-- The same numbers, or the integers that truth values stand for. -/
inductive Widens : Numbers → Numbers → Prop
  | refl (xs : Numbers) : Widens xs xs
  | bools (xs : List Bool) : Widens (.bools xs) (.ints (xs.map ofBool))

namespace Widens

variable {xs ys zs : Numbers}

theorem trans (h : xs.Widens ys) (h' : ys.Widens zs) : xs.Widens zs := by
  cases h with
  | refl => exact h'
  | bools bs => cases h'; exact .bools bs

theorem asInts (h : xs.Widens ys) : ys.asInts = xs.asInts := by
  cases h <;> rfl

theorem type_bool (h : xs.Widens ys) (hy : ys.type = .bool) : ys = xs := by
  cases h with
  | refl => rfl
  | bools bs => cases hy

theorem ofInts (hx : xs.type ≠ .float) : xs.Widens (.ints xs.asInts) := by
  cases xs with
  | bools bs => exact .bools bs
  | ints ns => exact .refl _
  | floats fs => exact absurd rfl hx

theorem same (h : xs.Widens ys) (hx : xs.type ≠ .float) : ys.same xs = true := by
  cases h with
  | bools bs =>
    change (bs.map ofBool == bs.map ofBool) = true
    rw [beq_self_eq_true]
  | refl =>
    cases xs with
    | bools bs =>
      change (bs == bs) = true
      rw [beq_self_eq_true]
    | ints ns =>
      change (ns == ns) = true
      rw [beq_self_eq_true]
    | floats fs => exact absurd rfl hx

end Widens

theorem length_asInts (xs : Numbers) : xs.asInts.length = xs.length := by
  cases xs with
  | bools bs => exact List.length_map _
  | ints ns => rfl
  | floats fs => exact List.length_map _

theorem length_asBools (xs : Numbers) : xs.asBools.length = xs.length := by
  cases xs with
  | bools bs => rfl
  | ints ns => exact List.length_map _
  | floats fs => exact List.length_map _

theorem Widens.type_ne_float {xs ys : Numbers} (h : xs.Widens ys) (hx : xs.type ≠ .float) :
    ys.type ≠ .float := by
  cases h with
  | refl => exact hx
  | bools bs => exact NumberType.noConfusion

/-- Rows widened one by one are widened together. -/
theorem Widens.concat {rows rows' : List Numbers} (h : List.Forall₂ Widens rows rows')
    (hrows : ∀ xs ∈ rows, xs.type ≠ .float) : (concat rows).Widens (concat rows') := by
  have hrows' : ∀ ys ∈ rows', ys.type ≠ .float := by
    intro ys hys
    obtain ⟨xs, hxs, hwidens⟩ := exists_of_forall₂ h hys
    exact hwidens.type_ne_float (hrows xs hxs)
  have hints : rows'.flatMap Numbers.asInts = rows.flatMap Numbers.asInts := by
    clear hrows hrows'
    induction h with
    | nil => rfl
    | cons h _ ih => rw [List.flatMap_cons, List.flatMap_cons, h.asInts, ih]
  by_cases hbool' : ∀ ys ∈ rows', ys.type = .bool
  · -- rows that are all truth values are not widened yet
    have heq : rows' = rows := by
      clear hrows hrows' hints
      induction h with
      | nil => rfl
      | cons h _ ih =>
        rw [h.type_bool (hbool' _ (by simp)), ih fun ys hys => hbool' ys (by simp [hys])]
    rw [heq]
    exact .refl _
  · have hne : (Numbers.concat rows).type ≠ .float := by
      rw [type_concat]
      exact jointType_ne_float_iff.2 hrows
    rw [concat_of_ints hrows' hbool', hints, ← asInts_concat hrows]
    exact .ofInts hne

end Numbers

namespace Tensor

/-! ## Exact arrays -/

/-- Full at every depth, and without floats. -/
inductive Exact : Tensor → Prop
  | numbers {s : Shape} {xs : Numbers} : xs.type ≠ .float → Full ⟨s, .numbers xs⟩ →
    Exact ⟨s, .numbers xs⟩
  | characters {s : Shape} {xs : List Int32} : Full ⟨s, .characters xs⟩ → Exact ⟨s, .characters xs⟩
  | boxes {s : Shape} {xs : List Tensor} : Full ⟨s, .boxes xs⟩ → (∀ x ∈ xs, Exact x) →
    Exact ⟨s, .boxes xs⟩

namespace Exact

theorem full {t : Tensor} (h : t.Exact) : t.Full := by
  cases h <;> assumption

theorem reshape {t : Tensor} (h : t.Exact) {s : Shape} (hs : Full ⟨s, t.elements⟩) :
    Exact ⟨s, t.elements⟩ := by
  cases h with
  | numbers htype _ => exact .numbers htype hs
  | characters _ => exact .characters hs
  | boxes _ hx => exact .boxes hs hx

theorem select {t : Tensor} (h : t.Exact) {s : Shape} {ps : List Nat} (hs : (t.select s ps).Full) :
    (t.select s ps).Exact := by
  cases h with
  | @numbers _ xs htype _ =>
    refine .numbers ?_ hs
    cases xs <;> exact htype
  | characters _ => exact .characters hs
  | boxes _ hx => exact .boxes hs fun x hmem => hx x (mem_of_mem_pick hmem)

theorem of_eq_or_select {t u : Tensor} (h : t.Exact) (hu : u = t ∨ ∃ s ps, u = t.select s ps) (hfull : u.Full) :
    u.Exact := by
  rcases hu with rfl | ⟨s, ps, rfl⟩
  · exact h
  · exact h.select hfull

theorem selects {f : Tensor → Tensor} (hf : Selects f) {t : Tensor} (h : t.Exact) : (f t).Exact :=
  h.of_eq_or_select (hf.eq_or_select t) (h.full.selects hf)

theorem rows {t : Tensor} (h : t.Exact) (r : Tensor) (hr : r ∈ t.rows) : r.Exact :=
  h.of_eq_or_select (eq_or_select_of_mem_rows hr) (h.full.rows r hr)

end Exact

/-! ## Wider copies -/

/-- The same array, with integers for some of its truth values. -/
inductive Widens : Tensor → Tensor → Prop
  | numbers (s : Shape) {xs ys : Numbers} : xs.Widens ys → Widens ⟨s, .numbers xs⟩ ⟨s, .numbers ys⟩
  | characters (s : Shape) (xs : List Int32) : Widens ⟨s, .characters xs⟩ ⟨s, .characters xs⟩
  | boxes (s : Shape) {xs ys : List Tensor} : xs.length = ys.length →
    (∀ p ∈ xs.zip ys, Widens p.1 p.2) → Widens ⟨s, .boxes xs⟩ ⟨s, .boxes ys⟩

theorem widens_boxes {s : Shape} {xs ys : List Tensor} :
    Widens ⟨s, .boxes xs⟩ ⟨s, .boxes ys⟩ ↔ List.Forall₂ Widens xs ys := by
  rw [List.forall₂_iff_zip]
  constructor
  · intro h
    cases h with
    | boxes _ hlength h => exact ⟨hlength, fun hp => h _ hp⟩
  · intro h
    exact .boxes s h.1 fun p hp => h.2 hp

theorem sameAll_of_forall₂ {xs ys : List Tensor}
    (h : List.Forall₂ (fun x y : Tensor => y.same x = true) xs ys) : sameAll ys xs = true := by
  induction h with
  | nil => rfl
  | cons h _ ih =>
    unfold sameAll
    rw [h, ih]
    rfl

namespace Widens

theorem shape {t u : Tensor} (h : t.Widens u) : u.shape = t.shape := by
  cases h <;> rfl

theorem kind {t u : Tensor} (h : t.Widens u) : u.kind = t.kind := by
  cases h <;> rfl

theorem refl {t : Tensor} (h : t.Exact) : t.Widens t := by
  induction h with
  | numbers => exact .numbers _ (.refl _)
  | characters => exact .characters _ _
  | boxes _ _ ih => exact widens_boxes.2 (List.forall₂_same.2 ih)

theorem trans {t u v : Tensor} (h : t.Widens u) (h' : u.Widens v) : t.Widens v := by
  induction h generalizing v with
  | numbers s h =>
    cases h' with
    | numbers _ h' => exact .numbers s (h.trans h')
  | characters s xs => exact h'
  | @boxes s xs ys hlength h ih =>
    cases h' with
    | @boxes _ _ zs hlength' h' =>
      exact widens_boxes.2 (forall₂_of_zip hlength (fun p hp z hz => ih p hp hz)
        (widens_boxes.1 (.boxes s hlength' h')))

/-- Equal, as the word for it compares. -/
theorem same {t u : Tensor} (h : t.Widens u) (ht : t.Exact) : u.same t = true := by
  induction h with
  | numbers s h =>
    cases ht with
    | numbers htype _ =>
      unfold Tensor.same
      rw [beq_self_eq_true, h.same htype]
      rfl
  | characters s xs =>
    unfold Tensor.same
    rw [beq_self_eq_true, beq_self_eq_true]
    rfl
  | @boxes s xs ys hlength h ih =>
    cases ht with
    | boxes _ hexact =>
      have hall : sameAll ys xs = true := by
        refine sameAll_of_forall₂ (List.forall₂_iff_zip.2 ⟨hlength, fun hp => ?_⟩)
        exact ih _ hp (hexact _ (List.of_mem_zip hp).1)
      unfold Tensor.same
      rw [beq_self_eq_true, hall]
      rfl

theorem reshape {s s' : Shape} {e e' : Elements Tensor} (h : Widens ⟨s, e⟩ ⟨s, e'⟩) :
    Widens ⟨s', e⟩ ⟨s', e'⟩ := by
  cases h with
  | numbers _ h => exact .numbers s' h
  | characters _ xs => exact .characters s' xs
  | boxes _ hlength h => exact .boxes s' hlength h

theorem select {t u : Tensor} (h : t.Widens u) (s : Shape) (ps : List Nat) :
    (t.select s ps).Widens (u.select s ps) := by
  cases h with
  | @numbers s' xs ys h =>
    refine .numbers s ?_
    cases h with
    | refl => exact .refl _
    | bools bs =>
      have hints : (Numbers.ints (bs.map Numbers.ofBool)).rearrange (Tacit.pick ps) =
          .ints ((Tacit.pick ps bs).map Numbers.ofBool) := congrArg Numbers.ints (pick_map _ _ _)
      change Numbers.Widens _ ((Numbers.ints (bs.map Numbers.ofBool)).rearrange (Tacit.pick ps))
      rw [hints]
      exact .bools _
  | characters _ xs => exact .characters s _
  | boxes _ hlength h =>
    exact widens_boxes.2 (forall₂_pick (widens_boxes.1 (.boxes s hlength h)) ps)

theorem selects {f : Tensor → Tensor} (hf : Selects f) {t u : Tensor} (h : t.Widens u) : (f t).Widens (f u) := by
  obtain ⟨s, e⟩ := t
  obtain ⟨s', e'⟩ := u
  cases h.shape
  rcases hf s with hid | ⟨-, s', ps, -, hselect⟩
  · rw [hid, hid]
    exact h
  · rw [hselect, hselect]
    exact h.select s' ps

theorem rows {t u : Tensor} (h : t.Widens u) : List.Forall₂ Widens t.rows u.rows := by
  obtain ⟨s, e⟩ := t
  obtain ⟨s', e'⟩ := u
  have hs : s' = s := h.shape
  subst hs
  cases s' with
  | nil => exact .cons h .nil
  | cons n s =>
    rw [rows_eq_map, rows_eq_map, List.forall₂_map_left_iff, List.forall₂_map_right_iff]
    exact List.forall₂_same.2 fun i _ => h.select s _

end Widens

/-! ## Stacked rows -/

theorem Widens.concat {rows rows' : List Tensor} (h : List.Forall₂ Widens rows rows')
    (hrows : ∀ r ∈ rows, r.Exact) (kind : Kind) (s : Shape) :
    Widens ⟨s, Tensor.concat kind rows⟩ ⟨s, Tensor.concat kind rows'⟩ := by
  cases kind with
  | number =>
    refine .numbers s (Numbers.Widens.concat ?_ ?_)
    · clear hrows
      induction h with
      | nil => exact .nil
      | cons h _ ih =>
        cases h with
        | numbers _ h => exact .cons h ih
        | characters | boxes => exact ih
    · intro xs hxs
      obtain ⟨r, hr, hnumbers⟩ := List.mem_filterMap.1 hxs
      cases hrows r hr with
      | numbers htype _ => cases hnumbers; exact htype
      | characters => cases hnumbers
      | boxes => cases hnumbers
  | character =>
    have heq : rows'.flatMap (·.elements.codePoints) = rows.flatMap (·.elements.codePoints) := by
      clear hrows
      induction h with
      | nil => rfl
      | cons h _ ih =>
        rw [List.flatMap_cons, List.flatMap_cons, ih]
        cases h <;> rfl
    unfold Tensor.concat
    rw [heq]
    exact .characters s _
  | box =>
    refine widens_boxes.2 ?_
    clear hrows
    induction h with
    | nil => exact .nil
    | cons h _ ih =>
      rw [List.flatMap_cons, List.flatMap_cons]
      refine List.rel_append ?_ ih
      cases h with
      | numbers | characters => exact .nil
      | boxes s hlength h => exact widens_boxes.1 (.boxes s hlength h)

/-- Rows of one kind and shape, widened one by one and stacked. -/
theorem Widens.ofRows {rows rows' : List Tensor} {kind : Kind} {s : Shape} (hne : rows ≠ [])
    (hrows : ∀ r ∈ rows, r.Exact) (h : ∀ r ∈ rows, r.kind = kind ∧ r.shape = s)
    (hwidens : List.Forall₂ Widens rows rows') : (ofRows rows).Widens (ofRows rows') := by
  have hne' : rows' ≠ [] := by
    rintro rfl
    exact hne (List.forall₂_nil_right_iff.1 hwidens)
  have h' : ∀ r ∈ rows', r.kind = kind ∧ r.shape = s := by
    intro r hr
    obtain ⟨q, hq, hqr⟩ := exists_of_forall₂ hwidens hr
    rw [hqr.kind, hqr.shape]
    exact h q hq
  rw [ofRows_eq hne h, ofRows_eq hne' h', hwidens.length_eq]
  exact .concat hwidens hrows kind _

theorem length_flatMap_of_forall {α β : Type} {f : α → List β} {k : Nat} : ∀ {xs : List α},
    (∀ x ∈ xs, (f x).length = k) → (xs.flatMap f).length = xs.length * k
  | [], _ => by simp
  | x :: xs, h => by
    rw [List.flatMap_cons, List.length_append, h x (by simp), List.length_cons, Nat.succ_mul,
      length_flatMap_of_forall fun y hy => h y (by simp [hy]), Nat.add_comm]

theorem blocks_flatMap {α β : Type} {f : α → List β} {k : Nat} {xs : List α}
    (h : ∀ x ∈ xs, (f x).length = k) : blocks xs.length k (xs.flatMap f) = xs.map f := by
  have hlengths : ∀ b ∈ xs.map f, b.length = k := by simpa using h
  have hblocks := blocks_flatten hlengths
  rw [List.length_map] at hblocks
  rw [List.flatMap_def]
  exact hblocks

/-- Elements stacked row by row fall into those rows again. -/
theorem rows_flatMap {α β : Type} (make : List β → Elements Tensor) {f : α → List β} {s : Shape} {xs : List α}
    (hmake : ∀ n k ys, (make ys).blocks n k = (Tacit.blocks n k ys).map make)
    (h : ∀ x ∈ xs, (f x).length = s.size) :
    rows ⟨xs.length :: s, make (xs.flatMap f)⟩ = xs.map fun x => ⟨s, make (f x)⟩ := by
  show ((make (xs.flatMap f)).blocks xs.length s.size).map (Tensor.mk s) = _
  rw [hmake, blocks_flatMap h, List.map_map, List.map_map]
  rfl

/-- Stacked rows are wider copies if each row is a wider copy of what it came from. -/
theorem widens_flatMap {α β : Type} (make : List β → Elements Tensor) {row : α → Tensor} {f : α → List β}
    {s : Shape} {xs : List α} (hmake : ∀ n k ys, (make ys).blocks n k = (Tacit.blocks n k ys).map make)
    (h : ∀ x ∈ xs, (f x).length = s.size) (hwidens : ∀ x ∈ xs, (row x).Widens ⟨s, make (f x)⟩) :
    List.Forall₂ Widens (xs.map row) (rows ⟨xs.length :: s, make (xs.flatMap f)⟩) := by
  rw [rows_flatMap make hmake h, List.forall₂_map_left_iff, List.forall₂_map_right_iff]
  exact List.forall₂_same.2 hwidens

theorem concat_numbers (s : Shape) (xss : List Numbers) :
    concat .number (xss.map fun xs => ⟨s, .numbers xs⟩) = .numbers (Numbers.concat xss) := by
  unfold concat
  rw [List.filterMap_map]
  exact congrArg (fun yss => Elements.numbers (Numbers.concat yss)) List.filterMap_some

theorem concat_characters (s : Shape) (css : List (List Int32)) :
    concat .character (css.map fun cs => ⟨s, .characters cs⟩) = .characters (css.flatMap fun cs => cs) := by
  change Elements.characters ((css.map _).flatMap _) = _
  rw [List.flatMap_map]
  rfl

theorem concat_boxes (s : Shape) (xss : List (List Tensor)) :
    concat .box (xss.map fun xs => ⟨s, .boxes xs⟩) = .boxes (xss.flatMap fun xs => xs) := by
  change Elements.boxes ((xss.map _).flatMap _) = _
  rw [List.flatMap_map]
  rfl

theorem Exact.stacked_numbers {s : Shape} {xss : List Numbers}
    (h : ∀ xs ∈ xss, xs.type ≠ .float ∧ xs.length = s.size) :
    Exact ⟨xss.length :: s, .numbers (Numbers.concat xss)⟩ ∧
      List.Forall₂ Widens (xss.map fun xs => ⟨s, .numbers xs⟩)
        (Tensor.rows ⟨xss.length :: s, .numbers (Numbers.concat xss)⟩) := by
  by_cases hbool : ∀ xs ∈ xss, xs.type = .bool
  · have hlength : ∀ xs ∈ xss, xs.asBools.length = s.size := fun xs hxs =>
      (Numbers.length_asBools xs).trans (h xs hxs).2
    rw [Numbers.concat_of_bools hbool]
    refine ⟨.numbers NumberType.noConfusion (length_flatMap_of_forall hlength), ?_⟩
    refine widens_flatMap (fun bs => .numbers (.bools bs)) (fun _ _ _ => rfl) hlength fun xs hxs => ?_
    cases xs with
    | bools bs => exact .numbers s (.refl _)
    | ints ns => cases hbool _ hxs
    | floats fs => cases hbool _ hxs
  · -- one row of integers makes integers of every row
    have hlength : ∀ xs ∈ xss, xs.asInts.length = s.size := fun xs hxs =>
      (Numbers.length_asInts xs).trans (h xs hxs).2
    rw [Numbers.concat_of_ints (fun xs hxs => (h xs hxs).1) hbool]
    refine ⟨.numbers NumberType.noConfusion (length_flatMap_of_forall hlength), ?_⟩
    exact widens_flatMap (fun ns => .numbers (.ints ns)) (fun _ _ _ => rfl) hlength fun xs hxs =>
      .numbers s (.ofInts (h xs hxs).1)

theorem Exact.stacked_characters {s : Shape} {css : List (List Int32)} (h : ∀ cs ∈ css, cs.length = s.size) :
    Exact ⟨css.length :: s, .characters (css.flatMap fun cs => cs)⟩ ∧
      List.Forall₂ Widens (css.map fun cs => ⟨s, .characters cs⟩)
        (Tensor.rows ⟨css.length :: s, .characters (css.flatMap fun cs => cs)⟩) :=
  ⟨.characters (length_flatMap_of_forall h),
    widens_flatMap .characters (fun _ _ _ => rfl) h fun cs _ => .characters s cs⟩

theorem Exact.stacked_boxes {s : Shape} {xss : List (List Tensor)}
    (h : ∀ xs ∈ xss, xs.length = s.size ∧ ∀ x ∈ xs, x.Exact) :
    Exact ⟨xss.length :: s, .boxes (xss.flatMap fun xs => xs)⟩ ∧
      List.Forall₂ Widens (xss.map fun xs => ⟨s, .boxes xs⟩)
        (Tensor.rows ⟨xss.length :: s, .boxes (xss.flatMap fun xs => xs)⟩) := by
  have hlength : ∀ xs ∈ xss, xs.length = s.size := fun xs hxs => (h xs hxs).1
  have hexact : ∀ x ∈ xss.flatMap fun xs => xs, x.Exact := by
    intro x hx
    obtain ⟨xs, hxs, hx⟩ := List.mem_flatMap.1 hx
    exact (h xs hxs).2 x hx
  refine ⟨.boxes (length_flatMap_of_forall hlength) hexact, ?_⟩
  refine widens_flatMap .boxes Elements.blocks_boxes hlength fun xs hxs => ?_
  exact .refl (.boxes (hlength xs hxs) (h xs hxs).2)

/-- Stacked rows of one kind and shape are exact, and their rows are wider copies of those stacked. -/
theorem Exact.ofRows {rows : List Tensor} {kind : Kind} {s : Shape} (hne : rows ≠ [])
    (hrows : ∀ r ∈ rows, r.Exact) (h : ∀ r ∈ rows, r.kind = kind ∧ r.shape = s) :
    (ofRows rows).Exact ∧ List.Forall₂ Widens rows (ofRows rows).rows := by
  rw [ofRows_eq hne h]
  cases kind with
  | number =>
    obtain ⟨xss, rfl⟩ := exists_map_numbers h
    rw [concat_numbers, List.length_map]
    refine stacked_numbers fun xs hxs => ?_
    cases hrows _ (List.mem_map_of_mem hxs) with
    | numbers htype hfull => exact ⟨htype, hfull⟩
  | character =>
    obtain ⟨css, rfl⟩ := exists_map_characters h
    rw [concat_characters, List.length_map]
    exact stacked_characters fun cs hcs => (hrows _ (List.mem_map_of_mem hcs)).full
  | box =>
    obtain ⟨xss, rfl⟩ := exists_map_boxes h
    rw [concat_boxes, List.length_map]
    refine stacked_boxes fun xs hxs => ?_
    cases hrows _ (List.mem_map_of_mem hxs) with
    | boxes hfull hexact => exact ⟨hfull, hexact⟩

end Tensor

end Tacit
