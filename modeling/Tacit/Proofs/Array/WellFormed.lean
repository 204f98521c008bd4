/-
Well-formed arrays: an element for every place of the shape, within the range of the element's type, and
nothing but well-formed arrays in the boxes. Whatever is selected from well-formed arrays, stacked of them
or computed from them element by element is well formed again, for shapes without places and without axes
too.
-/
import Tacit.Proofs.Array.Exact
import Tacit.Proofs.Array.Leading
import Tacit.Proofs.Array.Restore

namespace Tacit

namespace Elements

variable {α : Type}

/-- Integers and characters are numbers of 32 bits. -/
def InRange : Elements α → Prop
  | numbers (.ints ns) | characters ns => ∀ n ∈ ns, -2 ^ 31 ≤ n.toInt ∧ n.toInt < 2 ^ 31
  | _ => True

theorem inRange (e : Elements α) : e.InRange := by
  have hrange (n : Int32) : -2 ^ 31 ≤ n.toInt ∧ n.toInt < 2 ^ 31 := ⟨n.le_toInt, n.toInt_lt⟩
  match e with
  | numbers (.ints ns) | characters ns => exact fun n _ => hrange n
  | numbers (.bools _) | numbers (.floats _) | boxes _ => trivial

theorem mem_contents_pick {e : Elements α} {ps : List Nat} {x : α} (h : x ∈ (e.pick ps).contents) :
    x ∈ e.contents := by
  cases e with
  | boxes xs => exact mem_of_mem_pick h
  | numbers | characters => cases h

end Elements

namespace Tensor

/-- An element for every place, each in the range of its type, and well-formed arrays in the boxes. That no
axis is negative and that numbers are all of one type is in how arrays are made up. -/
inductive WellFormed : Tensor → Prop
  | intro {t : Tensor} : t.Full → t.elements.InRange → (∀ u ∈ t.elements.contents, WellFormed u) → WellFormed t

namespace WellFormed

variable {t u r : Tensor}

theorem full (h : t.WellFormed) : t.Full := by cases h; assumption

theorem contents (h : t.WellFormed) : ∀ u ∈ t.elements.contents, u.WellFormed := by cases h; assumption

theorem of_full (h : t.Full) (hc : ∀ u ∈ t.elements.contents, u.WellFormed) : t.WellFormed :=
  .intro h t.elements.inRange hc

theorem of_plain (h : t.Full) (hk : t.kind ≠ .box) : t.WellFormed := by
  refine of_full h fun u hu => ?_
  obtain ⟨s, e⟩ := t
  cases e with
  | boxes ts => exact absurd rfl hk
  | numbers | characters => cases hu

/-- With elements of a well-formed array alone. -/
theorem of_mem (h : t.WellFormed) (hu : u.Full) (hmem : ∀ x ∈ u.elements.contents, x ∈ t.elements.contents) :
    u.WellFormed := of_full hu fun x hx => h.contents x (hmem x hx)

end WellFormed

/-! ## Arrays made of numbers and texts -/

theorem wellFormed_ofInts {s : Shape} {ns : List Int32} (h : ns.length = s.size) : (ofInts s ns).WellFormed :=
  .of_plain h Kind.noConfusion

theorem wellFormed_int (n : Int32) : (int n).WellFormed := wellFormed_ofInts rfl

theorem wellFormed_truth (b : Bool) : (truth b).WellFormed := wellFormed_int _

theorem wellFormed_empty : empty.WellFormed := wellFormed_ofInts rfl

theorem wellFormed_string (t : Text) : (string t).WellFormed := by
  refine .of_plain ?_ Kind.noConfusion
  show (t.map _).length = t.length * 1
  rw [List.length_map, Nat.mul_one]

theorem wellFormed_range (s : Shape) : (range s).WellFormed := wellFormed_ofInts (by simp)

theorem wellFormed_ofInt {n : Int} {t : Tensor} (h : ofInt n = .ok t) : t.WellFormed := by
  obtain ⟨k, -, h⟩ := Except.bind_ok h
  cases h
  exact wellFormed_int k

theorem wellFormed_vector {ns : List Int} {t : Tensor} (h : vector ns = .ok t) : t.WellFormed := by
  obtain ⟨ks, hks, h⟩ := Except.bind_ok h
  cases h
  refine wellFormed_ofInts ?_
  show ks.length = ns.length * 1
  rw [Nat.mul_one, (Except.forall₂_of_mapM hks).length_eq]

/-! ## Boxes -/

theorem WellFormed.box {t : Tensor} (h : t.WellFormed) : t.box.WellFormed :=
  .of_full rfl fun u hu => by rw [List.mem_singleton.1 hu]; exact h

theorem wellFormed_boxes {ts : List Tensor} (h : ∀ t ∈ ts, t.WellFormed) : (boxes ts).WellFormed :=
  .of_full (Nat.mul_one _).symm h

theorem wellFormed_strings (ts : List Text) : (strings ts).WellFormed := by
  refine wellFormed_boxes fun t ht => ?_
  obtain ⟨text, -, rfl⟩ := List.mem_map.1 ht
  exact wellFormed_string text

theorem WellFormed.unbox {t : Tensor} (h : t.WellFormed) : t.unbox.WellFormed := by
  unfold Tensor.unbox
  split
  · exact h.contents _ (List.mem_cons_self ..)
  · exact h

/-! ## Selected elements -/

namespace WellFormed

variable {t u r : Tensor} (h : t.WellFormed)

include h

theorem select {s : Shape} {ps : List Nat} (hs : (t.select s ps).Full) : (t.select s ps).WellFormed :=
  h.of_mem hs fun _ => Elements.mem_contents_pick

theorem of_eq_or_select (hu : u = t ∨ ∃ s ps, u = t.select s ps) (hfull : u.Full) : u.WellFormed := by
  rcases hu with rfl | ⟨s, ps, rfl⟩
  · exact h
  · exact h.select hfull

theorem selects {f : Tensor → Tensor} (hf : Selects f) : (f t).WellFormed :=
  h.of_eq_or_select (hf.eq_or_select t) (h.full.selects hf)

theorem reshape {s : Shape} (hu : t.reshape s = .ok u) : u.WellFormed := by
  obtain ⟨rfl, -, hfull⟩ := h.full.reshape hu
  exact h.of_mem hfull fun _ hx => hx

theorem rows (r : Tensor) (hr : r ∈ t.rows) : r.WellFormed :=
  h.of_eq_or_select (eq_or_select_of_mem_rows hr) (h.full.rows r hr)

theorem row {i : Int} (hr : t.row i = .ok r) : r.WellFormed := by
  obtain ⟨j, -, hget⟩ := row_eq hr
  exact h.rows r (List.mem_of_getElem? hget)

theorem chooseRows {is : List Nat} (his : ∀ i ∈ is, i < t.rowCount) : (t.chooseRows is).WellFormed := by
  obtain ⟨s, e⟩ := t
  cases s with
  | nil => exact h
  | cons n s =>
    have his : ∀ i ∈ is, i < n := his
    have hfull := h.full.chooseRows his
    rw [chooseRows_eq his] at hfull ⊢
    exact h.select hfull

theorem slice {start stop : Nat} (hstop : stop ≤ t.rowCount) : (t.slice start stop).WellFormed :=
  h.chooseRows fun _ => lt_of_mem_interval hstop

theorem reverse : t.reverse.WellFormed := h.selects selects_reverse

theorem rotateBy (n : Int) : (t.rotateBy n).WellFormed := h.selects (selects_rotateBy n)

theorem asList : t.asList.WellFormed := by
  unfold Tensor.asList
  split
  · rename_i hscalar
    obtain ⟨s, e⟩ := t
    obtain rfl := List.isEmpty_iff.1 hscalar
    exact h.of_mem h.full fun _ hx => hx
  · exact h

theorem transpose : t.transpose.WellFormed := h.selects selects_transpose

theorem untranspose : t.untranspose.WellFormed := h.selects selects_untranspose

theorem cycle {s : Shape} (hu : t.cycle s = .ok u) : u.WellFormed := by
  rcases h.full.cycle hu with ⟨hsize, rfl⟩ | ⟨hpos, rfl⟩
  · exact h.of_mem (h.full.trans hsize.symm) fun _ hx => hx
  · exact h.select (h.full.picks (picks_remainders hpos s))

end WellFormed

/-! ## Entries of an axis -/

theorem WellFormed.gather {t u : Tensor} (h : t.WellFormed) {is : List Nat} {axis : Nat} (haxis : axis < t.rank)
    (his : ∀ i ∈ is, i < t.shape.getD axis 1) (hu : t.gather is axis = .ok u) : u.WellFormed := by
  obtain ⟨u', hu', hfull, -, s, ps, rfl⟩ := gather_spec h.full haxis his
  cases hu'.symm.trans hu
  exact h.select hfull

/-! ## Stacked rows -/

theorem length_asFloats (xs : Numbers) : xs.asFloats.length = xs.length := by
  cases xs <;> simp [Numbers.asFloats, Numbers.length]

theorem length_concat (xss : List Numbers) : (Numbers.concat xss).length = (xss.map Numbers.length).sum := by
  unfold Numbers.concat
  split
  · show (xss.flatMap Numbers.asBools).length = _
    simp only [List.length_flatMap, Numbers.length_asBools]
  · show (xss.flatMap Numbers.asInts).length = _
    simp only [List.length_flatMap, Numbers.length_asInts]
  · show (xss.flatMap Numbers.asFloats).length = _
    simp only [List.length_flatMap, length_asFloats]

theorem map_length_numbers {rows : List Tensor} (h : ∀ r ∈ rows, r.kind = .number) :
    (rows.filterMap (·.elements.toNumbers?)).map Numbers.length = rows.map (·.elements.length) := by
  induction rows with
  | nil => rfl
  | cons r rows ih =>
    obtain ⟨hr, hrows⟩ := List.forall_mem_cons.1 h
    obtain ⟨s, e⟩ := r
    cases e with
    | numbers xs => exact congrArg (xs.length :: ·) (ih hrows)
    | characters | boxes => cases hr

theorem length_codePoints {t : Tensor} (h : t.kind = .character) :
    t.elements.codePoints.length = t.elements.length := by
  obtain ⟨s, e⟩ := t
  cases e with
  | characters cs => rfl
  | numbers | boxes => cases h

theorem length_contents {t : Tensor} (h : t.kind = .box) : t.elements.contents.length = t.elements.length := by
  obtain ⟨s, e⟩ := t
  cases e with
  | boxes ts => rfl
  | numbers | characters => cases h

theorem length_concat_rows {kind : Kind} {rows : List Tensor} (h : ∀ r ∈ rows, r.kind = kind) :
    (concat kind rows).length = (rows.map (·.elements.length)).sum := by
  cases kind with
  | number =>
    show (Numbers.concat _).length = _
    rw [length_concat, map_length_numbers h]
  | character =>
    show (rows.flatMap _).length = _
    rw [List.length_flatMap, List.map_congr_left fun r hr => length_codePoints (h r hr)]
  | box =>
    show (rows.flatMap _).length = _
    rw [List.length_flatMap, List.map_congr_left fun r hr => length_contents (h r hr)]

theorem mem_contents_concat {kind : Kind} {rows : List Tensor} {x : Tensor} (h : x ∈ (concat kind rows).contents) :
    ∃ r ∈ rows, x ∈ r.elements.contents := by
  cases kind with
  | number | character => cases h
  | box => exact List.mem_flatMap.1 h

theorem WellFormed.asContent {t : Tensor} (h : t.WellFormed) : t.asContent.WellFormed := by
  unfold Tensor.asContent
  split
  · exact h.unbox
  · exact h

theorem wellFormed_ofRows {rows : List Tensor} (h : ∀ r ∈ rows, r.WellFormed) : (ofRows rows).WellFormed := by
  unfold ofRows
  split
  · exact wellFormed_empty
  · rename_i first rest
    dsimp only
    split
    · rename_i hall
      have heq : ∀ r ∈ first :: rest, r.kind = first.kind ∧ r.shape = first.shape := by
        intro r hr
        rcases List.mem_cons.1 hr with rfl | hr
        · exact ⟨rfl, rfl⟩
        · simpa using List.all_eq_true.1 hall r hr
      refine .of_full ?_ fun x hx => ?_
      · have hlengths : (first :: rest).map (·.elements.length) =
            (first :: rest).map fun _ => first.shape.size :=
          List.map_congr_left fun r hr => (h r hr).full.trans (congrArg Shape.size (heq r hr).2)
        show (concat first.kind (first :: rest)).length = (first :: rest).length * first.shape.size
        rw [length_concat_rows fun r hr => (heq r hr).1, hlengths, List.map_const', List.sum_replicate,
          smul_eq_mul]
      · obtain ⟨r, hr, hx⟩ := mem_contents_concat hx
        exact (h r hr).contents x hx
    · refine wellFormed_boxes fun t ht => ?_
      obtain ⟨r, hr, rfl⟩ := List.mem_map.1 ht
      exact (h r hr).asContent

/-! ## Runs of rows -/

theorem wellFormed_ofRuns {runs : List (List Tensor)} (h : ∀ run ∈ runs, ∀ r ∈ run, r.WellFormed) :
    (ofRuns runs).WellFormed := by
  refine wellFormed_boxes fun t ht => ?_
  obtain ⟨run, hrun, rfl⟩ := List.mem_map.1 ht
  exact wellFormed_ofRows (h run hrun)

theorem mem_of_mem_runsAfter {α : Type} {same : α → α → Id Bool} :
    ∀ {rows current : List α} {last : α} {run : List α} {x : α},
      run ∈ Id.run (runsAfter same last current rows) → x ∈ run → x ∈ last :: current ++ rows
  | [], current, last, run, x, hrun, hx => by
    rw [List.mem_singleton.1 hrun] at hx
    simpa using List.mem_reverse.1 hx
  | r :: rows, current, last, run, x, hrun, hx => by
    unfold runsAfter at hrun
    simp only [Id.run_bind] at hrun
    split at hrun
    · have hmem := mem_of_mem_runsAfter hrun hx
      simp only [List.mem_append, List.mem_cons] at hmem ⊢
      tauto
    · rcases List.mem_cons.1 hrun with rfl | hrun
      · have hmem := List.mem_reverse.1 hx
        exact List.mem_append_left _ hmem
      · have hmem := mem_of_mem_runsAfter hrun hx
        simp only [List.mem_append, List.mem_cons, List.not_mem_nil] at hmem ⊢
        tauto

theorem WellFormed.groupByChange {t : Tensor} (h : t.WellFormed) : t.groupByChange.WellFormed := by
  refine wellFormed_ofRuns fun run hrun r hr => h.rows r ?_
  cases hrows : t.rows with
  | nil =>
    rw [hrows] at hrun
    cases hrun
  | cons row rows =>
    rw [hrows] at hrun
    simpa using mem_of_mem_runsAfter hrun hr

theorem mem_of_mem_unmarkedRuns {α : Type} : ∀ {rows : List (α × Bool)} {current run : List α} {x : α},
    run ∈ unmarkedRuns current rows → x ∈ run → x ∈ current ∨ x ∈ rows.map Prod.fst
  | [], current, run, x, hrun, hx => by
    unfold unmarkedRuns keepRun at hrun
    split at hrun
    · cases hrun
    · rw [List.mem_singleton.1 hrun] at hx
      exact .inl (List.mem_reverse.1 hx)
  | (r, true) :: rows, current, run, x, hrun, hx => by
    have hrun : run = current.reverse ∨ run ∈ unmarkedRuns [] rows := by
      unfold unmarkedRuns keepRun at hrun
      split at hrun
      · exact .inr hrun
      · exact List.mem_cons.1 hrun
    rcases hrun with rfl | hrun
    · exact .inl (List.mem_reverse.1 hx)
    · rcases mem_of_mem_unmarkedRuns hrun hx with hx | hx
      · cases hx
      · exact .inr (List.mem_cons_of_mem _ hx)
  | (r, false) :: rows, current, run, x, hrun, hx => by
    have hrun : run ∈ unmarkedRuns (r :: current) rows := hrun
    rcases mem_of_mem_unmarkedRuns hrun hx with hx | hx
    · rcases List.mem_cons.1 hx with rfl | hx
      · exact .inr (List.mem_cons_self ..)
      · exact .inl hx
    · exact .inr (List.mem_cons_of_mem _ hx)

theorem WellFormed.splitRuns {t u : Tensor} (h : t.WellFormed) {mask : List Bool} (hu : t.splitRuns mask = .ok u) :
    u.WellFormed := by
  unfold Tensor.splitRuns at hu
  split at hu
  · cases hu
  · cases hu
    refine wellFormed_ofRuns fun run hrun r hr => h.rows r ?_
    rcases mem_of_mem_unmarkedRuns hrun hr with hr | hr
    · cases hr
    · obtain ⟨p, hp, rfl⟩ := List.mem_map.1 hr
      exact (List.of_mem_zip hp).1

/-! ## Numbers at every depth -/

/-- Every number in the array or, at any depth, in its boxes is as `p` says. -/
inductive EveryNumber (p : Number → Prop) : Tensor → Prop
  | numbers {s : Shape} {xs : Numbers} : (∀ x ∈ xs.toList, p x) → EveryNumber p ⟨s, .numbers xs⟩
  | characters (s : Shape) (cs : List Int32) : EveryNumber p ⟨s, .characters cs⟩
  | boxes {s : Shape} {ts : List Tensor} : (∀ t ∈ ts, EveryNumber p t) → EveryNumber p ⟨s, .boxes ts⟩

namespace EveryNumber

variable {p : Number → Prop}

theorem ofInts (h : ∀ n, p (.int n)) (s : Shape) (ns : List Int32) : (Tensor.ofInts s ns).EveryNumber p := by
  refine .numbers fun x hx => ?_
  obtain ⟨n, -, rfl⟩ := List.mem_map.1 hx
  exact h n

theorem scalar {l : Leaf} {s : Shape} {xs : List l.Value} (h : (l.array s xs).EveryNumber p) {x : l.Value}
    (hx : x ∈ xs) : (l.scalar x).EveryNumber p := by
  cases l with
  | character => exact .characters [] [x]
  | number type =>
    cases h with
    | numbers hxs =>
      refine .numbers fun n hn => hxs n ?_
      cases type with
      | bool | int | float =>
        obtain rfl := List.mem_singleton.1 hn
        exact List.mem_map_of_mem hx

/-- The elements of an array hold no numbers but its own. -/
theorem boxedElements {t : Tensor} (h : t.EveryNumber p) : ∀ u ∈ t.boxedElements, u.EveryNumber p := by
  by_cases hk : t.kind = .box
  · cases h with
    | boxes hts => exact hts
    | numbers | characters => cases hk
  · obtain ⟨l, s, xs, rfl⟩ := Leaf.exists_array hk
    rw [l.boxedElements_array]
    intro u hu
    obtain ⟨x, hx, rfl⟩ := List.mem_map.1 hu
    exact h.scalar hx

end EveryNumber

end Tensor

end Tacit
