/-
Runs of neighbouring rows. Whether a row belongs with the one before it is asked once for each pair of
neighbours, from the first pair to the last, and the answers alone say where the rows are cut: whatever the
predicate is, and whatever else it does or fails with, the runs are those that its answers make. Stacked in
its box, a run keeps its rows as they are.
-/
import Tacit.Proofs.Array.Each
import Tacit.Tensor.Runs

namespace Tacit

section

variable {α : Type}

/-! ## Runs by answers -/

/-- Each element with the one after it. -/
def neighbours (xs : List α) : List (α × α) := xs.zip xs.tail

/-- Elements in front of the first run. -/
def onto (front : List α) : List (List α) → List (List α)
  | [] => [front]
  | run :: runs => (front ++ run) :: runs

/-- The runs of a list: each answer says whether an element and the next are in one run. -/
def cutAt : List Bool → List α → List (List α)
  | _, [] => []
  | [], x :: xs => [x] :: cutAt [] xs
  | true :: answers, x :: xs => onto [x] (cutAt answers xs)
  | false :: answers, x :: xs => [x] :: cutAt answers xs

theorem onto_append (front front' : List α) (runs : List (List α)) :
    onto (front ++ front') runs = onto front (onto front' runs) := by
  cases runs with
  | nil => rfl
  | cons run runs => exact congrArg (· :: runs) (List.append_assoc front front' run)

theorem flatten_onto (front : List α) (runs : List (List α)) :
    (onto front runs).flatten = front ++ runs.flatten := by
  cases runs with
  | nil => rfl
  | cons run runs => exact List.append_assoc front run runs.flatten

theorem flatten_cutAt (answers : List Bool) (xs : List α) : (cutAt answers xs).flatten = xs := by
  fun_induction cutAt answers xs with
  | case1 => rfl
  | case2 x xs ih => rw [List.flatten_cons, ih, List.singleton_append]
  | case3 answers x xs ih => rw [flatten_onto, ih, List.singleton_append]
  | case4 answers x xs ih => rw [List.flatten_cons, ih, List.singleton_append]

theorem ne_nil_of_mem_cutAt {answers : List Bool} {xs run : List α} (h : run ∈ cutAt answers xs) : run ≠ [] := by
  fun_induction cutAt answers xs with
  | case1 => cases h
  | case2 x xs ih | case4 answers x xs ih =>
    rcases List.mem_cons.1 h with rfl | h
    · exact List.cons_ne_nil x []
    · exact ih h
  | case3 answers x xs ih =>
    cases hruns : cutAt answers xs with
    | nil =>
      rw [hruns] at h
      rw [List.mem_singleton.1 h]
      exact List.cons_ne_nil x []
    | cons next runs =>
      rw [hruns] at h ih
      rcases List.mem_cons.1 h with rfl | h
      · exact List.cons_ne_nil x next
      · exact ih (List.mem_cons_of_mem next h)

/-- The first run of a list begins with the first element. -/
theorem cutAt_cons (answers : List Bool) (x : α) (xs : List α) :
    ∃ run runs, cutAt answers (x :: xs) = (x :: run) :: runs := by
  match answers with
  | [] | false :: answers => exact ⟨[], _, rfl⟩
  | true :: answers =>
    unfold cutAt
    cases cutAt answers xs with
    | nil => exact ⟨[], [], rfl⟩
    | cons run runs => exact ⟨run, runs, rfl⟩

/-- Within a run the answers are yes, and between one and the next they are no. -/
theorem intercalate_cutAt : ∀ {answers : List Bool} {xs : List α}, answers.length = (neighbours xs).length →
    [false].intercalate ((cutAt answers xs).map fun run => List.replicate (run.length - 1) true) = answers
  | [], [], _ => rfl
  | [], [x], _ => rfl
  | answer :: answers, x :: y :: xs, h => by
    have hlength : answers.length = (neighbours (y :: xs)).length := Nat.succ.inj h
    have ih := intercalate_cutAt hlength
    obtain ⟨run, runs, hruns⟩ := cutAt_cons answers y xs
    rw [hruns] at ih
    cases answer with
    | false =>
      show List.intercalate [false] (List.map _ ([x] :: cutAt answers (y :: xs))) = _
      rw [hruns]
      simpa using ih
    | true =>
      show List.intercalate [false] (List.map _ (onto [x] (cutAt answers (y :: xs)))) = _
      rw [hruns]
      cases runs <;> simpa [onto, List.replicate_succ] using ih

/-! ## Maximal runs -/

/-- The runs are the list, cut between neighbours that are not joined and nowhere else. -/
structure MaximalRuns (joined : α → α → Bool) (xs : List α) (runs : List (List α)) : Prop where
  flatten : runs.flatten = xs
  ne_nil : ∀ run ∈ runs, run ≠ []
  inside : ∀ run ∈ runs, run.IsChain (joined · · = true)
  across : runs.IsChain fun run next => ∀ last ∈ run.getLast?, ∀ first ∈ next.head?, joined last first = false

namespace MaximalRuns

variable {joined : α → α → Bool} {x y : α} {xs run : List α} {runs : List (List α)}

/-- An element joined to the next is in its run. -/
theorem join (h : MaximalRuns joined (y :: xs) ((y :: run) :: runs)) (hxy : joined x y = true) :
    MaximalRuns joined (x :: y :: xs) ((x :: y :: run) :: runs) where
  flatten := congrArg (x :: ·) h.flatten
  ne_nil := by
    rintro r (_ | ⟨_, hr⟩)
    · exact List.cons_ne_nil x _
    · exact h.ne_nil r (List.mem_cons_of_mem _ hr)
  inside := by
    rintro r (_ | ⟨_, hr⟩)
    · exact .cons_cons hxy (h.inside _ List.mem_cons_self)
    · exact h.inside r (List.mem_cons_of_mem _ hr)
  across := by
    obtain ⟨hhead, htail⟩ := List.isChain_cons.1 h.across
    exact List.isChain_cons.2 ⟨by simpa using hhead, htail⟩

/-- An element not joined to the next is a run of its own. -/
theorem cut (h : MaximalRuns joined (y :: xs) ((y :: run) :: runs)) (hxy : joined x y = false) :
    MaximalRuns joined (x :: y :: xs) ([x] :: (y :: run) :: runs) where
  flatten := congrArg (x :: ·) h.flatten
  ne_nil := by
    rintro r (_ | ⟨_, hr⟩)
    · exact List.cons_ne_nil x []
    · exact h.ne_nil r hr
  inside := by
    rintro r (_ | ⟨_, hr⟩)
    · exact .singleton x
    · exact h.inside r hr
  across := .cons_cons (by simpa using hxy) h.across

/-- Where there is one run at most, all neighbours are joined. -/
theorem length_le_one_iff (h : MaximalRuns joined xs runs) : runs.length ≤ 1 ↔ xs.IsChain (joined · · = true) := by
  rw [← h.flatten]
  match runs, h with
  | [], _ => simp
  | [run], h => simpa using h.inside run (by simp)
  | run :: next :: runs, h =>
    refine iff_of_false (by simp) fun hchain => ?_
    -- the last element of the first run is not joined to the first of the next
    obtain ⟨y, next, rfl⟩ := List.exists_cons_of_ne_nil (h.ne_nil next (by simp))
    obtain ⟨run, x, rfl⟩ := (List.eq_nil_or_concat' run).resolve_left (h.ne_nil run (by simp))
    obtain ⟨hcut, -⟩ := List.isChain_cons_cons.1 h.across
    have hxy : joined x y = false := hcut x (by simp) y rfl
    rw [List.flatten_cons, List.isChain_append] at hchain
    obtain ⟨-, -, hjoined⟩ := hchain
    rw [hjoined x (by simp) y rfl] at hxy
    cases hxy

end MaximalRuns

theorem maximalRuns_cutAt (joined : α → α → Bool) :
    ∀ xs : List α, MaximalRuns joined xs (cutAt ((neighbours xs).map fun p => joined p.1 p.2) xs)
  | [] => ⟨rfl, nofun, nofun, .nil⟩
  | [x] => by
    refine ⟨rfl, fun run hrun => ne_nil_of_mem_cutAt hrun, fun run hrun => ?_, .singleton _⟩
    rw [List.mem_singleton.1 hrun]
    exact .singleton x
  | x :: y :: xs => by
    have ih := maximalRuns_cutAt joined (y :: xs)
    obtain ⟨run, runs, hruns⟩ := cutAt_cons ((neighbours (y :: xs)).map fun p => joined p.1 p.2) y xs
    show MaximalRuns joined _
      (cutAt (joined x y :: (neighbours (y :: xs)).map fun p => joined p.1 p.2) (x :: y :: xs))
    rw [hruns] at ih
    cases hxy : joined x y with
    | true =>
      show MaximalRuns joined _ (onto [x] (cutAt _ (y :: xs)))
      rw [hruns]
      exact ih.join hxy
    | false =>
      show MaximalRuns joined _ ([x] :: cutAt _ (y :: xs))
      rw [hruns]
      exact ih.cut hxy

/-! ## The predicate asked -/

/-- A predicate in any monad is asked once for each pair of neighbours, from left to right, and its answers make
the runs. -/
theorem runsAfter_eq {m : Type → Type} [Monad m] [LawfulMonad m] (same : α → α → m Bool) :
    ∀ (xs : List α) (last : α) (current : List α), runsAfter same last current xs = do
      let answers ← (neighbours (last :: xs)).mapM fun p => same p.1 p.2
      return onto current.reverse (cutAt answers (last :: xs))
  | [], last, current => by
    have hneighbours : neighbours [last] = [] := rfl
    rw [hneighbours, List.mapM_nil, pure_bind]
    exact congrArg (fun run => pure [run]) List.reverse_cons
  | x :: xs, last, current => by
    have hneighbours : neighbours (last :: x :: xs) = (last, x) :: neighbours (x :: xs) := rfl
    unfold runsAfter
    rw [hneighbours, List.mapM_cons, bind_assoc]
    refine bind_congr fun answer => ?_
    -- a yes moves the element to the run under way, a no closes that run
    cases answer with
    | true =>
      simp only [if_true, runsAfter_eq same xs x (last :: current), bind_assoc, pure_bind]
      refine bind_congr fun answers => congrArg pure ?_
      rw [List.reverse_cons, onto_append]
      rfl
    | false =>
      simp only [Bool.false_eq_true, if_false, runsAfter_eq same xs x [], bind_assoc, pure_bind]
      refine bind_congr fun answers => congrArg pure ?_
      obtain ⟨run, runs, hruns⟩ := cutAt_cons answers x xs
      show (last :: current).reverse :: onto [] (cutAt answers (x :: xs)) =
        (current.reverse ++ [last]) :: cutAt answers (x :: xs)
      rw [hruns, List.reverse_cons]
      rfl

theorem runs_eq {m : Type → Type} [Monad m] [LawfulMonad m] (same : α → α → m Bool) (xs : List α) :
    runs same xs = do return cutAt (← (neighbours xs).mapM fun p => same p.1 p.2) xs := by
  cases xs with
  | nil =>
    have hneighbours : neighbours ([] : List α) = [] := rfl
    rw [hneighbours, List.mapM_nil, pure_bind]
    rfl
  | cons x xs =>
    show runsAfter same x [] xs = _
    rw [runsAfter_eq]
    refine bind_congr fun answers => congrArg pure ?_
    obtain ⟨run, runs, hruns⟩ := cutAt_cons answers x xs
    rw [hruns]
    rfl

/-- What consists of elements of a list stands at some of its positions. -/
theorem exists_pick {xs run : List α} (h : run ⊆ xs) :
    ∃ is, (∀ i ∈ is, i < xs.length) ∧ pick is xs = run := by
  induction run with
  | nil => exact ⟨[], nofun, rfl⟩
  | cons x run ih =>
    obtain ⟨hx, hrun⟩ := List.cons_subset.1 h
    obtain ⟨i, hi, rfl⟩ := List.getElem_of_mem hx
    obtain ⟨is, his, rfl⟩ := ih hrun
    refine ⟨i :: is, List.forall_mem_cons.2 ⟨hi, his⟩, ?_⟩
    rw [pick_cons, List.getElem?_eq_getElem hi]
    rfl

end

/-! ## Boxed runs -/

namespace Tensor

/-- Rows of one array come out of the array stacked of them as they were, whatever their kind and type. -/
theorem rows_ofRows {t : Tensor} (ht : t.Full) {run : List Tensor} (hne : run ≠ []) (hrun : run ⊆ t.rows) :
    (ofRows run).rows = run := by
  -- a scalar is the row of a list
  rw [← rows_asList ht] at hrun
  have hfull := ht.asList
  obtain ⟨n, s, e, hlist⟩ := eq_cons_of_shape_ne t.asList_shape_ne
  rw [hlist] at hrun hfull
  obtain ⟨is, his, rfl⟩ := exists_pick hrun
  rw [length_rows] at his
  rw [← rows_chooseRows hfull his] at hne ⊢
  rw [ofRows_rows_of_ne (hfull.chooseRows his) (List.cons_ne_nil _ _) hne]

theorem map_rows_ofRows {t : Tensor} (ht : t.Full) {runs : List (List Tensor)} (hruns : runs.flatten = t.rows)
    (hne : ∀ run ∈ runs, run ≠ []) : (runs.map ofRows).map rows = runs := by
  rw [List.map_map]
  refine (List.map_congr_left fun run hrun => ?_).trans runs.map_id
  refine rows_ofRows ht (hne run hrun) ?_
  rw [← hruns]
  exact fun r hr => List.mem_flatten.2 ⟨run, hrun, hr⟩

theorem groupByChange_eq (t : Tensor) :
    t.groupByChange = boxes ((cutAt ((neighbours t.rows).map fun p => p.1.same p.2) t.rows).map ofRows) := by
  unfold groupByChange
  rw [runs_eq, List.mapM_pure, pure_bind]
  rfl

theorem groupByChange_rowCount_le_one_iff (t : Tensor) :
    t.groupByChange.rowCount ≤ 1 ↔ t.rows.IsChain (·.same · = true) := by
  rw [groupByChange_eq, ← (maximalRuns_cutAt same t.rows).length_le_one_iff, ← List.length_map (f := ofRows)]
  rfl

/-- Grouping asks the predicate, which may be any computation, once for each row and the one before it, from left
to right, and boxes one array for each run. The rows of these arrays are, in order, the rows of the array; no array
is without rows; the answers within an array are yes, and those between one and the next are no. So for a predicate
on rows alone, and for equality in particular, they are the maximal runs. -/
theorem groupRuns_maximal {t : Tensor} (ht : t.Full) : ∃ groups : List Bool → List Tensor,
    (∀ {m : Type → Type} [Monad m] [LawfulMonad m] (same : Tensor → Tensor → m Bool),
      t.groupRuns same = do
        let answers ← (neighbours t.rows).mapM fun p => same p.1 p.2
        return boxes (groups answers)) ∧
    (∀ answers, answers.length = (neighbours t.rows).length →
      (groups answers).flatMap rows = t.rows ∧ (∀ g ∈ groups answers, g.rows ≠ []) ∧
      [false].intercalate ((groups answers).map fun g => List.replicate (g.rows.length - 1) true) = answers) ∧
    (∀ same : Tensor → Tensor → Bool, MaximalRuns same t.rows
      ((groups ((neighbours t.rows).map fun p => same p.1 p.2)).map rows)) ∧
    t.groupByChange = boxes (groups ((neighbours t.rows).map fun p => p.1.same p.2)) ∧
    (t.rowCount = 0 → ∀ answers, groups answers = []) := by
  have hrows (answers : List Bool) : ((cutAt answers t.rows).map ofRows).map rows = cutAt answers t.rows :=
    map_rows_ofRows ht (flatten_cutAt answers t.rows) fun run hrun => ne_nil_of_mem_cutAt hrun
  refine ⟨fun answers => (cutAt answers t.rows).map ofRows, fun same => ?_, fun answers hanswers => ⟨?_, ?_, ?_⟩,
    fun same => ?_, ?_, fun hnone answers => ?_⟩
  · unfold groupRuns
    rw [runs_eq, bind_assoc]
    exact bind_congr fun answers => pure_bind _ _
  · rw [List.flatMap_def, hrows, flatten_cutAt]
  · intro g hg
    have hrun := List.mem_map_of_mem (f := rows) hg
    rw [hrows] at hrun
    exact ne_nil_of_mem_cutAt hrun
  · have hlengths := intercalate_cutAt hanswers
    rwa [← hrows, List.map_map] at hlengths
  · rw [hrows]
    exact maximalRuns_cutAt same t.rows
  · exact groupByChange_eq t
  · rw [List.length_eq_zero_iff.1 ((length_rows t).trans hnone)]
    cases answers <;> rfl

/-- Boxes in runs of growing size, by a predicate that is not symmetric. -/
theorem groupRuns_maximal_growing :
    let t := boxes [string [97], string [98, 99], int 5, ofInts [0, 3] []]
    let grows (previous current : Tensor) : Bool := previous.unbox.size ≤ current.unbox.size
    let groups := [boxes [string [97], string [98, 99]], boxes [int 5], boxes [ofInts [0, 3] []]]
    t.Full ∧ (t.groupRuns fun previous current => some (grows previous current)) = some (boxes groups) ∧
      MaximalRuns grows t.rows (groups.map rows) := by
  intro t grows groups
  have ht : t.Full := rfl
  obtain ⟨found, hasked, -, hmaximal, -⟩ := groupRuns_maximal ht
  have hresult : (t.groupRuns fun previous current => some (grows previous current)) = some (boxes groups) := rfl
  have hfound := (hasked fun previous current => some (grows previous current)).symm.trans hresult
  have hgroups : found ((neighbours t.rows).map fun p => grows p.1 p.2) = groups := by
    injection hfound with hboxes
    injection hboxes with _ helements
    injection helements
  refine ⟨ht, hresult, ?_⟩
  rw [← hgroups]
  exact hmaximal grows

end Tensor

end Tacit
