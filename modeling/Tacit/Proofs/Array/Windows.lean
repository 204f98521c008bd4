/-
Windows of rows. A separator of several rows is found where as many rows equal its own, leftmost first and
without overlap; the rows under its windows are marked, and the blocks of rows between marks, each as long as
it can be, are what splitting leaves. A separator of one row is marked row by row, with the same result.
-/
import Tacit.Proofs.Array.Runs
import Tacit.Word.Meaning

namespace Tacit

/-! ## Blocks between marks -/

/-- Positions from `start` to before `stop` without a mark, as many as there can be. -/
structure Block (marked : Nat → Prop) (n start stop : Nat) : Prop where
  lt : start < stop
  le : stop ≤ n
  clear : ∀ i, start ≤ i → i < stop → ¬marked i
  left : start = 0 ∨ marked (start - 1)
  right : stop = n ∨ marked stop

/-- A block is told by any of its positions. -/
theorem Block.eq_of_clear {marked : Nat → Prop} {n i j start stop : Nat} (h : Block marked n i j)
    (hstart : start ≤ i) (hi : i < stop) (hstop : stop ≤ n) (hclear : ∀ k, start ≤ k → k < stop → ¬marked k)
    (hright : stop = n ∨ marked stop) : i = start ∧ j = stop := by
  have hlt := h.lt
  have hle := h.le
  constructor
  · rcases h.left with hzero | hmarked
    · omega
    · by_contra hne
      exact hclear (i - 1) (by omega) (by omega) hmarked
  · rcases Nat.lt_trichotomy j stop with hj | hj | hj
    · rcases h.right with hend | hmarked
      · omega
      · exact absurd hmarked (hclear j (by omega) hj)
    · exact hj
    · rcases hright with hend | hmarked
      · omega
      · exact absurd hmarked (h.clear stop (by omega) hj)

/-- Marks outside of the positions do not matter. -/
theorem Block.congr {marked marked' : Nat → Prop} {n start stop : Nat} (h : Block marked n start stop)
    (hmarked : ∀ i < n, (marked i ↔ marked' i)) : Block marked' n start stop where
  lt := h.lt
  le := h.le
  clear i hi hi' := mt (hmarked i (hi'.trans_le h.le)).2 (h.clear i hi hi')
  left := h.left.imp_right (hmarked (start - 1) (Nat.sub_le start 1 |>.trans_lt (h.lt.trans_le h.le))).1
  right := by
    rcases h.le.lt_or_eq with hlt | heq
    · exact h.right.imp_right (hmarked stop hlt).1
    · exact .inl heq

/-- The positions from `start` to before `stop`, if there are any. -/
def span (start stop : Nat) : List (Nat × Nat) := if start < stop then [(start, stop)] else []

/-- The blocks of unmarked positions, after the positions from `start` to before `position`, which have no mark. -/
def spansFrom (start position : Nat) : List Bool → List (Nat × Nat)
  | [] => span start position
  | true :: mask => span start position ++ spansFrom (position + 1) (position + 1) mask
  | false :: mask => spansFrom start (position + 1) mask

theorem mem_span {start stop i j : Nat} : (i, j) ∈ span start stop ↔ start < stop ∧ i = start ∧ j = stop := by
  unfold span
  split
  · simp [*]
  · simp [*]

/-- By induction on the marks that follow: the block under way ends at the first of them. -/
theorem mem_spansFrom {mask : List Bool} : ∀ {rest : List Bool} {start position : Nat},
    mask.drop position = rest → position ≤ mask.length → start ≤ position →
    (∀ k, start ≤ k → k < position → mask[k]? ≠ some true) →
    start = 0 ∨ mask[start - 1]? = some true → ∀ i j,
      (i, j) ∈ spansFrom start position rest ↔ start ≤ i ∧ Block (mask[·]? = some true) mask.length i j
  | [], start, position, hrest, hle, hstart, hclear, hleft, i, j => by
    have hend : position = mask.length := Nat.le_antisymm hle (List.drop_eq_nil_iff.1 hrest)
    show (i, j) ∈ span start position ↔ _
    rw [mem_span]
    constructor
    · rintro ⟨hlt, rfl, rfl⟩
      exact ⟨le_rfl, hlt, hle, hclear, hleft, .inl hend⟩
    · rintro ⟨hi, hblock⟩
      have hlt := hblock.lt
      have hle' := hblock.le
      obtain ⟨rfl, rfl⟩ := hblock.eq_of_clear hi (by omega) hle hclear (.inl hend)
      exact ⟨hlt, rfl, rfl⟩
  | mark :: rest, start, position, hrest, hle, hstart, hclear, hleft, i, j => by
    have hmark : mask[position]? = some mark := by
      rw [← List.head?_drop, hrest]
      rfl
    have hlt : position < mask.length := (List.getElem?_eq_some_iff.1 hmark).1
    have hdrop : mask.drop (position + 1) = rest := by rw [← List.tail_drop, hrest]; rfl
    cases mark with
    | false =>
      refine mem_spansFrom hdrop hlt (by omega) (fun k hk hk' => ?_) hleft i j
      rcases Nat.lt_succ_iff_lt_or_eq.1 hk' with hk' | rfl
      · exact hclear k hk hk'
      · simp [hmark]
    | true =>
      have hrest : (i, j) ∈ spansFrom (position + 1) (position + 1) rest ↔ position + 1 ≤ i ∧ _ :=
        mem_spansFrom hdrop hlt le_rfl (by omega) (.inr hmark) i j
      show (i, j) ∈ span start position ++ spansFrom (position + 1) (position + 1) rest ↔ _
      rw [List.mem_append, mem_span, hrest]
      constructor
      · rintro (⟨hlt, rfl, rfl⟩ | ⟨hi, hblock⟩)
        · exact ⟨le_rfl, hlt, hle, hclear, hleft, .inr hmark⟩
        · exact ⟨by omega, hblock⟩
      · rintro ⟨hi, hblock⟩
        rcases Nat.lt_trichotomy i position with hi' | rfl | hi'
        · obtain ⟨rfl, rfl⟩ := hblock.eq_of_clear hi hi' hle hclear (.inr hmark)
          exact .inl ⟨hi', rfl, rfl⟩
        · exact absurd hmark (hblock.clear i le_rfl hblock.lt)
        · exact .inr ⟨hi', hblock⟩

theorem le_of_mem_spansFrom {p : Nat × Nat} : ∀ {mask : List Bool} {start position : Nat}, start ≤ position →
    p ∈ spansFrom start position mask → start ≤ p.1
  | [], start, position, hstart, hp => by
    obtain ⟨-, h, -⟩ := mem_span.1 hp
    exact h.ge
  | true :: mask, start, position, hstart, hp => by
    rcases List.mem_append.1 hp with hp | hp
    · obtain ⟨-, h, -⟩ := mem_span.1 hp
      exact h.ge
    · have := le_of_mem_spansFrom le_rfl hp
      omega
  | false :: mask, start, position, hstart, hp =>
    le_of_mem_spansFrom (Nat.le_succ_of_le hstart) hp

/-- Between a block and the next there is a mark. -/
theorem pairwise_spansFrom : ∀ (mask : List Bool) {start position : Nat}, start ≤ position →
    (spansFrom start position mask).Pairwise fun p q => p.2 < q.1
  | [], start, position, _ => by
    show (span start position).Pairwise _
    unfold span
    split <;> simp
  | true :: mask, start, position, _ => by
    refine List.pairwise_append.2 ⟨?_, pairwise_spansFrom mask le_rfl, fun p hp q hq => ?_⟩
    · unfold span
      split <;> simp
    · obtain ⟨-, -, h⟩ := mem_span.1 hp
      have := le_of_mem_spansFrom le_rfl hq
      omega
  | false :: mask, start, position, hstart => pairwise_spansFrom mask (Nat.le_succ_of_le hstart)

theorem keepRun_span {α : Type} {xs : List α} {start stop : Nat} (hstart : start ≤ stop)
    (hstop : stop ≤ xs.length) (runs : List (List α)) : keepRun ((xs.drop start).take (stop - start)) runs =
      (span start stop).map (fun p => (xs.drop p.1).take (p.2 - p.1)) ++ runs := by
  unfold keepRun span
  by_cases hlt : start < stop
  · have hne : ¬((xs.drop start).take (stop - start)).isEmpty = true := by
      rw [List.isEmpty_iff_length_eq_zero, List.length_take, List.length_drop]
      omega
    rw [if_neg hne, if_pos hlt]
    rfl
  · have hzero : stop - start = 0 := by omega
    rw [if_neg hlt, hzero]
    rfl

/-- The runs of unmarked elements are the elements at the blocks of unmarked positions. -/
theorem unmarkedRuns_eq {α : Type} {xs : List α} : ∀ {mask : List Bool} {start position : Nat},
    start ≤ position → position + mask.length = xs.length →
    unmarkedRuns ((xs.drop start).take (position - start)).reverse ((xs.drop position).zip mask) =
      (spansFrom start position mask).map fun p => (xs.drop p.1).take (p.2 - p.1)
  | [], start, position, hstart, hlength => by
    rw [List.zip_nil_right]
    unfold unmarkedRuns
    rw [List.reverse_reverse, keepRun_span hstart hlength.le, List.append_nil]
    rfl
  | mark :: mask, start, position, hstart, hlength => by
    have hlength' : position + 1 + mask.length = xs.length := by rw [← hlength, List.length_cons]; omega
    rw [List.drop_eq_getElem_cons (show position < xs.length by omega), List.zip_cons_cons]
    cases mark with
    | true =>
      have ih := unmarkedRuns_eq (Nat.le_refl (position + 1)) hlength'
      rw [Nat.sub_self, List.take_zero, List.reverse_nil] at ih
      unfold unmarkedRuns spansFrom
      rw [List.reverse_reverse, ih, keepRun_span hstart (by omega), List.map_append]
    | false =>
      have ih := unmarkedRuns_eq (Nat.le_succ_of_le hstart) hlength'
      have htake : xs[position] :: ((xs.drop start).take (position - start)).reverse =
          ((xs.drop start).take (position + 1 - start)).reverse := by
        rw [Nat.succ_sub hstart, List.take_add_one, List.reverse_append, List.getElem?_drop,
          Nat.add_sub_cancel' hstart, List.getElem?_eq_getElem (by omega)]
        rfl
      unfold unmarkedRuns spansFrom
      rw [htake, ih]

/-- Unmarked elements lengthen the run under way. -/
theorem unmarkedRuns_unmarked {α : Type} : ∀ (xs current : List α) (rest : List (α × Bool)),
    unmarkedRuns current (xs.zip (List.replicate xs.length false) ++ rest) = unmarkedRuns (xs.reverse ++ current) rest
  | [], _, _ => rfl
  | x :: xs, current, rest => by
    have ih := unmarkedRuns_unmarked xs (x :: current) rest
    rw [List.reverse_cons, List.append_assoc, List.singleton_append]
    exact ih

/-- Marked elements end it. -/
theorem unmarkedRuns_marked {α : Type} : ∀ {xs : List α}, xs ≠ [] →
    ∀ (current : List α) (rest : List (α × Bool)),
    unmarkedRuns current (xs.zip (List.replicate xs.length true) ++ rest) =
      keepRun current.reverse (unmarkedRuns [] rest)
  | [_], _, _, _ => rfl
  | _ :: y :: xs, _, current, rest =>
    congrArg (keepRun current.reverse) (unmarkedRuns_marked (List.cons_ne_nil y xs) [] rest)

/-! ## Leftmost places -/

/-- The places where something of a width is found, each the first one from the end of the one before. -/
inductive Leftmost (occurs : Nat → Prop) (width : Nat) : Nat → List Nat → Prop
  | none {start : Nat} : (∀ i, start ≤ i → ¬occurs i) → Leftmost occurs width start []
  | found {start place : Nat} {places : List Nat} : start ≤ place → occurs place →
    (∀ i, start ≤ i → i < place → ¬occurs i) → Leftmost occurs width (place + width) places →
    Leftmost occurs width start (place :: places)

/-- Under something of a width at one of the places. -/
def Covered (width : Nat) (places : List Nat) (i : Nat) : Prop :=
  ∃ place ∈ places, place ≤ i ∧ i < place + width

namespace Leftmost

variable {occurs : Nat → Prop} {width start : Nat} {places : List Nat}

theorem start_le (h : Leftmost occurs width start places) : ∀ place ∈ places, start ≤ place := by
  induction h with
  | none => nofun
  | found hle _ _ _ ih =>
    rintro q (_ | ⟨_, hq⟩)
    · exact hle
    · have := ih q hq
      omega

/-- Where nothing is found past an end, the search comes to one. -/
theorem exists_places {n : Nat} (hwidth : 0 < width) (hend : ∀ i, occurs i → i + width ≤ n) (start : Nat) :
    ∃ places, Leftmost occurs width start places := by
  induction hleft : n - start using Nat.strong_induction_on generalizing start with
  | _ left ih =>
    by_cases hfound : ∃ i, start ≤ i ∧ occurs i
    · classical
      obtain ⟨hle, hplace⟩ := Nat.find_spec hfound
      have hle' := hend _ hplace
      obtain ⟨places, hplaces⟩ := ih (n - (Nat.find hfound + width)) (by omega) (Nat.find hfound + width) rfl
      refine ⟨_, .found hle hplace (fun i hi hlt hoccurs => ?_) hplaces⟩
      exact Nat.find_min hfound hlt ⟨hi, hoccurs⟩
    · exact ⟨[], .none fun i hi hoccurs => hfound ⟨i, hi, hoccurs⟩⟩

end Leftmost

namespace Tensor

/-! ## Windows -/

/-- From position `i` on, as many rows as the window has equal its own. -/
def WindowAt (window rows : List Tensor) (i : Nat) : Prop :=
  List.Forall₂ (fun row w => row.same w = true) ((rows.drop i).take window.length) window

variable {window rows : List Tensor}

theorem startsWith_iff : startsWith window rows = true ↔ WindowAt window rows 0 := by
  induction window generalizing rows with
  | nil => exact iff_of_true rfl .nil
  | cons w window ih =>
    cases rows with
    | nil => exact iff_of_false Bool.false_ne_true nofun
    | cons r rows =>
      show (r.same w && startsWith window rows) = true ↔ List.Forall₂ _ (r :: rows.take window.length) (w :: window)
      rw [Bool.and_eq_true, ih, List.forall₂_cons]
      rfl

theorem windowAt_drop {k i : Nat} : WindowAt window (rows.drop k) i ↔ WindowAt window rows (k + i) := by
  unfold WindowAt
  rw [List.drop_drop]

theorem WindowAt.add_length_le {i : Nat} (h : WindowAt window rows i) (hne : window ≠ []) :
    i + window.length ≤ rows.length := by
  have hlength := h.length_eq
  have hpos := List.length_pos_of_ne_nil hne
  rw [List.length_take, List.length_drop] at hlength
  omega

theorem markWindows_cons (window : List Tensor) (r : Tensor) (rows : List Tensor) : markWindows window 0 (r :: rows) =
    if startsWith window (r :: rows) then true :: markWindows window (window.length - 1) rows
    else false :: markWindows window 0 rows := rfl

/-- The rows under a window found before are marked. -/
theorem markWindows_skip : ∀ {k : Nat} {rows : List Tensor}, k ≤ rows.length →
    markWindows window k rows = List.replicate k true ++ markWindows window 0 (rows.drop k)
  | 0, _, _ => rfl
  | k + 1, [], h => by cases h
  | k + 1, r :: rows, h => congrArg (true :: ·) (markWindows_skip (Nat.le_of_succ_le_succ h))

theorem markWindows_window (h : WindowAt window rows 0) (hne : window ≠ []) : markWindows window 0 rows =
    List.replicate window.length true ++ markWindows window 0 (rows.drop window.length) := by
  obtain ⟨w, ws, rfl⟩ := List.exists_cons_of_ne_nil hne
  cases rows with
  | nil => cases h
  | cons r rows =>
    have hlength := h.add_length_le hne
    rw [markWindows_cons, if_pos (startsWith_iff.2 h)]
    exact congrArg (true :: ·) (markWindows_skip (by simpa using hlength))

/-- The rows before the first window are not marked. -/
theorem markWindows_before : ∀ {k : Nat} {rows : List Tensor}, k ≤ rows.length →
    (∀ i < k, ¬WindowAt window rows i) →
    markWindows window 0 rows = List.replicate k false ++ markWindows window 0 (rows.drop k)
  | 0, _, _, _ => rfl
  | k + 1, [], hk, _ => by cases hk
  | k + 1, r :: rows, hk, h => by
    rw [markWindows_cons, if_neg (mt startsWith_iff.1 (h 0 k.succ_pos))]
    exact congrArg (false :: ·)
      (markWindows_before (Nat.le_of_succ_le_succ hk) fun i hi => h (i + 1) (Nat.succ_lt_succ hi))

theorem length_markWindows : ∀ (rows : List Tensor) (skip : Nat),
    (markWindows window skip rows).length = rows.length
  | [], _ => rfl
  | r :: rows, skip + 1 => congrArg (· + 1) (length_markWindows rows skip)
  | r :: rows, 0 => by
    rw [markWindows_cons]
    split
    · exact congrArg (· + 1) (length_markWindows rows _)
    · exact congrArg (· + 1) (length_markWindows rows _)

/-- The rows under the windows at the leftmost places are marked, and no others. -/
theorem getElem?_markWindows (hne : window ≠ []) {start : Nat} {places : List Nat}
    (h : Leftmost (WindowAt window rows) window.length start places) {i : Nat} (hstart : start ≤ i)
    (hi : i < rows.length) : (markWindows window 0 (rows.drop start))[i - start]? = some true ↔
      Covered window.length places i := by
  induction h with
  | @none start hnone =>
    have hlength : (rows.drop start).length = rows.length - start := List.length_drop
    rw [markWindows_before le_rfl fun k _ hk => hnone _ (Nat.le_add_right start k) (windowAt_drop.1 hk),
      List.getElem?_append_left (by rw [List.length_replicate]; omega), List.getElem?_replicate_of_lt (by omega)]
    exact iff_of_false (by simp) nofun
  | @found start place places hle hplace hbefore hrest ih =>
    have hend := hplace.add_length_le hne
    have hmarks : markWindows window 0 (rows.drop start) = List.replicate (place - start) false ++
        (List.replicate window.length true ++ markWindows window 0 (rows.drop (place + window.length))) := by
      have hwindow : WindowAt window (rows.drop place) 0 := windowAt_drop.2 hplace
      rw [markWindows_before (k := place - start), List.drop_drop, Nat.add_sub_cancel' hle,
        markWindows_window hwindow hne, List.drop_drop]
      · rw [List.length_drop]
        omega
      · intro k hk hat
        exact hbefore (start + k) (Nat.le_add_right start k) (by omega) (windowAt_drop.1 hat)
    rw [hmarks]
    -- before the window found here, under it, or after it
    rcases Nat.lt_or_ge i place with hlt | hge
    · rw [List.getElem?_append_left (by rw [List.length_replicate]; omega), List.getElem?_replicate_of_lt (by omega)]
      refine iff_of_false (by simp) ?_
      rintro ⟨q, _ | ⟨_, hq⟩, hqi, -⟩
      · omega
      · have := hrest.start_le q hq
        omega
    · rw [List.getElem?_append_right (by rw [List.length_replicate]; omega), List.length_replicate]
      rcases Nat.lt_or_ge i (place + window.length) with hlt' | hge'
      · rw [List.getElem?_append_left (by rw [List.length_replicate]; omega),
          List.getElem?_replicate_of_lt (by omega)]
        exact iff_of_true rfl ⟨place, List.mem_cons_self, hge, hlt'⟩
      · rw [List.getElem?_append_right (by rw [List.length_replicate]; omega), List.length_replicate]
        have hsub : i - start - (place - start) - window.length = i - (place + window.length) := by omega
        rw [hsub, ih hge']
        constructor
        · rintro ⟨q, hq, hqi⟩
          exact ⟨q, List.mem_cons_of_mem place hq, hqi⟩
        · rintro ⟨q, _ | ⟨_, hq⟩, hqi⟩
          · omega
          · exact ⟨q, hq, hqi⟩

/-- Rows without a window are left in one run. -/
theorem unmarkedRuns_of_no_window (h : ∀ i < rows.length, ¬WindowAt window rows i) :
    unmarkedRuns [] (rows.zip (markWindows window 0 rows)) = keepRun rows [] := by
  have hrun := unmarkedRuns_unmarked rows [] []
  have hmarks : markWindows window 0 rows = List.replicate rows.length false := by
    rw [markWindows_before le_rfl h, List.drop_length]
    exact List.append_nil _
  rw [List.append_nil, List.append_nil] at hrun
  rw [hmarks, hrun]
  exact congrArg (keepRun · []) rows.reverse_reverse

/-- The rows before the first window are a run, and the rows after it are split for themselves. -/
theorem unmarkedRuns_of_window {before under after : List Tensor} (hne : window ≠ [])
    (hlength : under.length = window.length) (hwindow : WindowAt window (under ++ after) 0)
    (hbefore : ∀ i < before.length, ¬WindowAt window (before ++ (under ++ after)) i) :
    unmarkedRuns [] ((before ++ (under ++ after)).zip (markWindows window 0 (before ++ (under ++ after)))) =
      keepRun before (unmarkedRuns [] (after.zip (markWindows window 0 after))) := by
  have hunder : under ≠ [] := List.ne_nil_of_length_pos (hlength ▸ List.length_pos_of_ne_nil hne)
  have hmarks : markWindows window 0 (before ++ (under ++ after)) = List.replicate before.length false ++
      (List.replicate under.length true ++ markWindows window 0 after) := by
    rw [markWindows_before (by simp) hbefore, List.drop_left, markWindows_window hwindow hne, ← hlength,
      List.drop_left]
  rw [hmarks, List.zip_append (by simp), List.zip_append (by simp), unmarkedRuns_unmarked, unmarkedRuns_marked hunder,
    List.append_nil, List.reverse_reverse]

/-! ## Splitting -/

theorem rows_slice_of_axis {t : Tensor} (ht : t.Full) (haxis : t.shape ≠ []) {start stop : Nat}
    (hstop : stop ≤ t.rowCount) : (t.slice start stop).rows = (t.rows.drop start).take (stop - start) := by
  obtain ⟨n, s, e, rfl⟩ := eq_cons_of_shape_ne haxis
  exact rows_slice ht hstop

/-- Neighbouring rows stacked again. -/
theorem ofRows_slice {t : Tensor} (ht : t.Full) (haxis : t.shape ≠ []) {start stop : Nat} (hlt : start < stop)
    (hstop : stop ≤ t.rowCount) : ofRows ((t.rows.drop start).take (stop - start)) = t.slice start stop := by
  have hne : (t.slice start stop).rows ≠ [] := by
    rw [rows_slice_of_axis ht haxis hstop, ← List.length_pos_iff, List.length_take, List.length_drop, length_rows]
    omega
  rw [← rows_slice_of_axis ht haxis hstop]
  obtain ⟨n, s, e, rfl⟩ := eq_cons_of_shape_ne haxis
  exact ofRows_rows_of_ne (Full.slice ht hstop) (List.cons_ne_nil _ _) hne

/-- Splitting at marked rows leaves the blocks between them. -/
theorem splitRuns_eq {t : Tensor} (ht : t.Full) (haxis : t.shape ≠ []) {mask : List Bool}
    (hmask : mask.length = t.rowCount) : ∃ spans : List (Nat × Nat),
      t.splitRuns mask = .ok (boxes (spans.map fun p => t.slice p.1 p.2)) ∧
      (∀ start stop, (start, stop) ∈ spans ↔ Block (mask[·]? = some true) t.rowCount start stop) ∧
      spans.Pairwise fun p q => p.2 < q.1 := by
  have hlength : t.rows.length = mask.length := (length_rows t).trans hmask.symm
  have hmem : ∀ start stop, (start, stop) ∈ spansFrom 0 0 mask ↔
      Block (mask[·]? = some true) t.rowCount start stop := by
    intro start stop
    rw [mem_spansFrom (List.drop_zero) (Nat.zero_le _) le_rfl (by omega) (.inl rfl), hmask]
    exact and_iff_right (Nat.zero_le start)
  refine ⟨spansFrom 0 0 mask, ?_, hmem, pairwise_spansFrom mask le_rfl⟩
  have hruns : unmarkedRuns [] (t.rows.zip mask) =
      (spansFrom 0 0 mask).map fun p => (t.rows.drop p.1).take (p.2 - p.1) :=
    unmarkedRuns_eq (Nat.le_refl 0) ((Nat.zero_add _).trans hlength.symm)
  unfold splitRuns
  rw [if_neg (by simpa using hlength), hruns]
  unfold ofRuns
  rw [List.map_map]
  refine congrArg (fun ts => Except.ok (boxes ts)) (List.map_congr_left fun p hp => ?_)
  have hblock := (hmem p.1 p.2).1 hp
  exact ofRows_slice ht haxis hblock.lt hblock.le

/-- A window of one row is marked wherever the row is found. -/
theorem markWindows_singleton (w : Tensor) (rows : List Tensor) : markWindows [w] 0 rows = rows.map (·.same w) := by
  induction rows with
  | nil => rfl
  | cons r rows ih =>
    have hstarts : startsWith [w] (r :: rows) = r.same w := Bool.and_true _
    rw [markWindows_cons, hstarts, List.map_cons, ← ih]
    cases r.same w <;> rfl

/-- A separator of as many axes as the array marks windows of rows. -/
theorem splitOn_eq_splitRuns {separator t : Tensor} (haxis : t.shape ≠ []) (hrank : separator.rank = t.rank)
    (hrows : separator.rows ≠ []) : splitOn separator t = t.splitRuns (markWindows separator.rows 0 t.rows) := by
  unfold splitOn separators
  rw [if_neg (mt isScalar_iff.1 haxis), if_neg (by omega), if_neg (by simpa using hrank),
    if_neg (by simpa using hrows)]
  rfl

/-- A separator of as many axes as the array is found leftmost first and without overlap, where neighbouring rows
equal its rows, and splitting leaves the blocks of rows that no such window covers, each as long as it can be and
in their order. A separator of one axis less splits like the array of which it is the only row. -/
theorem splitOn_windows {separator t : Tensor} (hs : separator.Full) (ht : t.Full) (haxis : t.shape ≠ []) :
    (separator.rank = t.rank → separator.rows ≠ [] → ∃ (places : List Nat) (spans : List (Nat × Nat)),
      Leftmost (WindowAt separator.rows t.rows) separator.rows.length 0 places ∧
      splitOn separator t = .ok (boxes (spans.map fun p => t.slice p.1 p.2)) ∧
      (∀ start stop, (start, stop) ∈ spans ↔
        Block (Covered separator.rows.length places) t.rowCount start stop) ∧
      (spans.Pairwise fun p q => p.2 < q.1) ∧
      ∀ p ∈ spans, (t.slice p.1 p.2).rows = (t.rows.drop p.1).take (p.2 - p.1)) ∧
    (separator.rank + 1 = t.rank → ∃ row, Unary.fix.onTensor separator = .ok row ∧
      splitOn separator t = splitOn row t) := by
  refine ⟨fun hrank hrows => ?_, fun hrank => ?_⟩
  · have hend : ∀ i, WindowAt separator.rows t.rows i → i + separator.rows.length ≤ t.rows.length :=
      fun i hi => hi.add_length_le hrows
    have hlength : (markWindows separator.rows 0 t.rows).length = t.rowCount :=
      (length_markWindows t.rows 0).trans (length_rows t)
    obtain ⟨places, hplaces⟩ := Leftmost.exists_places (List.length_pos_of_ne_nil hrows) hend 0
    obtain ⟨spans, hspans, hmem, hsorted⟩ := splitRuns_eq ht haxis hlength
    have hmarks : ∀ i < t.rowCount, ((markWindows separator.rows 0 t.rows)[i]? = some true ↔
        Covered separator.rows.length places i) := fun i hi =>
      getElem?_markWindows hrows hplaces (Nat.zero_le i) ((length_rows t).symm ▸ hi)
    refine ⟨places, spans, hplaces, (splitOn_eq_splitRuns haxis hrank hrows).trans hspans,
      fun start stop => ?_, hsorted, fun p hp => rows_slice_of_axis ht haxis ((hmem p.1 p.2).1 hp).le⟩
    rw [hmem]
    exact ⟨fun h => h.congr hmarks, fun h => h.congr fun i hi => (hmarks i hi).symm⟩
  · obtain ⟨s, e⟩ := separator
    have hrow : (Tensor.mk (1 :: s) e).rows = [⟨s, e⟩] := rows_fix hs
    have hrows : (Tensor.mk (1 :: s) e).rows ≠ [] := by
      rw [hrow]
      exact List.cons_ne_nil _ _
    have hrank' : (Tensor.mk (1 :: s) e).rank = t.rank := hrank
    refine ⟨⟨1 :: s, e⟩, if_pos (Nat.one_mul _), ?_⟩
    rw [splitOn_eq_splitRuns haxis hrank' hrows, hrow, markWindows_singleton]
    unfold splitOn separators
    rw [if_neg (mt isScalar_iff.1 haxis), if_pos hrank]
    rfl

/-- A separator that overlaps itself, and one of a single row. -/
theorem splitOn_windows_overlapping :
    let t := string [97, 97, 97, 98, 97, 97, 99]
    let pair := string [97, 97]
    let one : Tensor := ⟨[], .characters [97]⟩
    t.Full ∧ t.shape ≠ [] ∧ pair.Full ∧ pair.rank = t.rank ∧ pair.rows ≠ [] ∧ one.Full ∧ one.rank + 1 = t.rank ∧
      (∃ (places : List Nat) (spans : List (Nat × Nat)), Leftmost (WindowAt pair.rows t.rows) 2 0 places ∧
        (∀ start stop, (start, stop) ∈ spans ↔ Block (Covered 2 places) 7 start stop) ∧
        boxes (spans.map fun p => t.slice p.1 p.2) = strings [[97, 98], [99]]) ∧
      ∃ row, Unary.fix.onTensor one = .ok row ∧ splitOn row t = .ok (strings [[98], [99]]) := by
  intro t pair one
  have hfull : t.Full := rfl
  have hpair : pair.Full := rfl
  have hone : one.Full := rfl
  have haxis : t.shape ≠ [] := List.cons_ne_nil _ _
  have hrows : pair.rows ≠ [] := List.cons_ne_nil _ _
  obtain ⟨places, spans, hplaces, hspans, hmem, -⟩ := (splitOn_windows hpair hfull haxis).1 rfl hrows
  obtain ⟨row, hrow, hfixed⟩ := (splitOn_windows hone hfull haxis).2 rfl
  refine ⟨hfull, haxis, hpair, rfl, hrows, hone, rfl, ⟨places, spans, hplaces, hmem, ?_⟩, row, hrow,
    hfixed.symm.trans rfl⟩
  have hresult : splitOn pair t = .ok (strings [[97, 98], [99]]) := rfl
  exact Except.ok.inj (hspans.symm.trans hresult)

end Tensor

end Tacit
