/-
Rows grouped by a function that is given. The words that group and split by equality compare the rows as they
are. The modifiers call a function on each row and the one before it, or on each row, push the rows for it on a
memory of its own, and read the scalar that it leaves as an answer. With equality for the function they leave what
the words leave, unless a limit is hit: the calls are deeper, and the rows are pushed.
-/
import Tacit.Proofs.Array.Runs
import Tacit.Proofs.Run.Mirror

namespace Tacit

/-- A limit that is hit for want of what would have been enough. -/
def Fault.ShortOf (enough : Prop) (fault : Fault) : Prop := fault.IsLimit ∧ ¬enough

/-- The computation gives this value, or fails with a fault of the class. -/
def Gives (A : Fault → Prop) {α : Type} (a : α) (x : Except Fault α) : Prop :=
  x = .ok a ∨ ∃ fault, A fault ∧ x = .error fault

namespace Gives

variable {A : Fault → Prop} {α β : Type}

theorem pure (a : α) : Gives A a (.ok a) := .inl rfl

theorem bind {x : Except Fault α} {f : α → Except Fault β} {a : α} {b : β} (h : Gives A a x)
    (hf : Gives A b (f a)) : Gives A b (x >>= f) := by
  obtain rfl | ⟨fault, hfault, rfl⟩ := h
  · exact hf
  · exact .inr ⟨fault, hfault, rfl⟩

theorem map {x : Except Fault α} {a : α} (h : Gives A a x) (f : α → β) : Gives A (f a) (do return f (← x)) :=
  h.bind (pure (f a))

theorem mapM {f : α → Except Fault β} {g : α → β} {xs : List α} (h : ∀ x ∈ xs, Gives A (g x) (f x)) :
    Gives A (xs.map g) (xs.mapM f) := by
  induction xs with
  | nil => exact pure []
  | cons x xs ih =>
    obtain ⟨hx, hxs⟩ := List.forall_mem_cons.1 h
    rw [List.mapM_cons]
    exact hx.bind ((ih hxs).map (g x :: ·))

/-- Where the computation gives the value, what follows goes on from that. -/
theorem mirrored {x : Except Fault α} {a : α} (h : Gives A a x) (f : α → Exec β) (m : Memory) :
    Exec.Mirrored A id ((do f (← Exec.lift x)) m) (f a m) := by
  obtain rfl | ⟨fault, hfault, rfl⟩ := h
  · exact Exec.Mirrors.refl (f a) m
  · exact .excused hfault m _

end Gives

namespace Tensor

/-! ## Answers to each question -/

theorem size_le_of_mem_rows {t r : Tensor} (hr : r ∈ t.rows) : r.size ≤ t.size := by
  obtain ⟨_ | ⟨n, s⟩, e⟩ := t
  · rw [List.mem_singleton.1 hr]
  · have hlength : 0 < n := by
      have hpos := List.length_pos_of_mem hr
      rwa [length_rows] at hpos
    obtain ⟨_, -, rfl⟩ := List.mem_map.1 hr
    exact Nat.le_mul_of_pos_left _ hlength

theorem mem_rows_of_mem_neighbours {t : Tensor} {p : Tensor × Tensor} (hp : p ∈ neighbours t.rows) :
    p.1 ∈ t.rows ∧ p.2 ∈ t.rows :=
  ⟨(List.of_mem_zip hp).1, List.mem_of_mem_tail (List.of_mem_zip hp).2⟩

section

variable {A : Fault → Prop} {t : Tensor}

/-- A predicate that answers as equality does groups as equality does. -/
theorem groupRuns_gives {same : Tensor → Tensor → Except Fault Bool}
    (h : ∀ p ∈ neighbours t.rows, Gives A (p.1.same p.2) (same p.1 p.2)) :
    Gives A t.groupByChange (t.groupRuns same) := by
  have hchange : t.groupByChange = ofRuns (cutAt ((neighbours t.rows).map fun p => p.1.same p.2) t.rows) := by
    unfold groupByChange
    rw [runs_eq, List.mapM_pure]
    rfl
  unfold groupRuns
  rw [hchange, runs_eq]
  exact ((Gives.mapM h).map (cutAt · t.rows)).map ofRuns

/-- With one axis less than the array, the separator is looked for among the rows. -/
theorem splitOn_row {s : Tensor} (hrank : s.rank + 1 = t.rank) :
    splitOn s t = t.splitRuns (t.rows.map (·.same s)) := by
  have haxis : ¬t.isScalar = true := by
    rw [isScalar_iff]
    rintro hshape
    unfold rank at hrank
    rw [hshape] at hrank
    exact Nat.succ_ne_zero _ hrank
  unfold splitOn separators
  rw [if_neg haxis, if_pos hrank]
  rfl

end

end Tensor

/-! ## Equality asked of a function -/

/-- Equality of two arrays. -/
abbrev Fn.same : Fn := .word (.binary .same)

/-- Equality with one array. -/
abbrev Fn.equals (s : Tensor) : Fn := .body "lambda" ⟨1, 1⟩ false [.push (.tensor s), .word "match"]

namespace Exec

section

variable {setting : Setting} {A : Fault → Prop} {enough : Prop} {room : Nat}

theorem push_short {limits : Limits} {t : Tensor} (h : enough → t.size ≤ limits.maxElements) (stack : List Value)
    (context : List Saved) : Ends (Fault.ShortOf enough) (fun _ m => m = ⟨.tensor t :: stack, context⟩)
      (push limits (.tensor t)) ⟨stack, context⟩ := by
  by_cases ht : Fits limits (.tensor t)
  · exact .of_ok (push_fits ht stack context) rfl
  · exact .of_error (push_too_large (Nat.lt_of_not_le ht) _) ⟨⟨_, rfl⟩, fun henough => ht (h henough)⟩

/-- A call without room. -/
theorem call_short {P : Unit → Memory → Prop} {f : Fn} {m : Memory} (h : ¬enough) :
    Ends (Fault.ShortOf enough) P (call setting 0 f) m := .of_error rfl ⟨⟨_, rfl⟩, h⟩

theorem call_same (hroom : enough → 1 ≤ room) (hone : enough → 1 ≤ setting.limits.maxElements) (top below : Tensor)
    (rest : List Value) (context : List Saved) :
    Ends (Fault.ShortOf enough) (fun _ m => m = ⟨.tensor (.truth (below.same top)) :: rest, context⟩)
      (call setting room .same) ⟨.tensor top :: .tensor below :: rest, context⟩ := by
  cases room with
  | zero => exact call_short fun h => Nat.not_succ_le_zero 0 (hroom h)
  | succ room =>
    rw [call_succ]
    exact push_short (t := .truth (below.same top)) hone rest context

theorem call_equals (ht : setting.table = .standard) {s : Tensor} (hroom : enough → 2 ≤ room)
    (hone : enough → 1 ≤ setting.limits.maxElements) (hs : enough → s.size ≤ setting.limits.maxElements) (t : Tensor)
    (rest : List Value) (context : List Saved) :
    Ends (Fault.ShortOf enough) (fun _ m => m = ⟨.tensor (.truth (t.same s)) :: rest, context⟩)
      (call setting room (.equals s)) ⟨.tensor t :: rest, context⟩ := by
  cases room with
  | zero => exact call_short fun h => Nat.not_succ_le_zero 1 (hroom h)
  | succ room =>
    have hget : setting.table.get "match" = .ok (.word (.binary .same)) := by rw [ht]; rfl
    rw [call_succ]
    change Ends _ _ (do
      push setting.limits (.tensor s)
      instr setting (call setting room) (.word "match")
      pure ()) _
    rw [instr_word hget, bind_pure_unit]
    refine (push_short hs _ context).bind fun _ m hm => ?_
    rw [hm]
    exact call_same (fun h => Nat.le_of_succ_le_succ (hroom h)) hone s t rest context

/-- A function of one result that leaves it alone on a memory of its own. -/
theorem applyOne_gives {call : Fn → Exec Unit} {f : Fn} (hf : f.outputs = 1) {args : List Value} {v : Value}
    (hpush : Ends A (fun _ m => m = ⟨args, []⟩) (pushAll setting.limits args) {})
    (hcall : Ends A (fun _ m => m = ⟨[v], []⟩) (call f) ⟨args, []⟩) :
    Gives A v (applyOne (applyWith setting call) f args) := by
  have hsteps : Ends A (fun vs _ => vs = [v])
      (do pushAll setting.limits args; call f; popMany f.outputs f.name : Exec _) {} := by
    refine hpush.bind fun _ m hm => ?_
    rw [hm, hf]
    refine hcall.bind fun _ m hm => ?_
    rw [hm]
    exact .of_ok (popMany_run (Nat.le_refl 1) _ _) rfl
  unfold applyOne
  rw [applyWith_eq]
  unfold Ends at hsteps
  split at hsteps <;> rename_i hrun <;> rw [hrun]
  · rw [hsteps]
    exact .pure v
  · exact .inr ⟨_, hsteps, rfl⟩

theorem truth_truth (b : Bool) (name : String) : truth (.tensor (.truth b)) name = .ok b := by
  cases b <;> rfl

variable {v : Tensor} (hone : enough → 1 ≤ setting.limits.maxElements)
  (hv : enough → v.size ≤ setting.limits.maxElements)

include hone hv

theorem groupRuns_same (hroom : enough → 1 ≤ room) (name : String) :
    Gives (Fault.ShortOf enough) v.groupByChange (v.groupRuns fun previous current => do
      truth (← applyOne (applyWith setting (call setting room)) .same
        [.tensor current, .tensor previous]) name) := by
  refine Tensor.groupRuns_gives fun p hp => ?_
  obtain ⟨hprevious, hcurrent⟩ := Tensor.mem_rows_of_mem_neighbours hp
  have hpush : Ends (Fault.ShortOf enough) (fun _ m => m = ⟨[.tensor p.2, .tensor p.1], []⟩)
      (pushAll setting.limits [.tensor p.2, .tensor p.1]) {} := by
    refine (push_short (fun h => (Tensor.size_le_of_mem_rows hprevious).trans (hv h)) [] []).bind fun _ m hm => ?_
    rw [hm]
    refine (push_short (fun h => (Tensor.size_le_of_mem_rows hcurrent).trans (hv h)) _ []).bind fun _ m hm => ?_
    exact .of_ok rfl hm
  refine (applyOne_gives rfl hpush (call_same hroom hone p.2 p.1 [] [])).bind ?_
  rw [truth_truth]
  exact .pure _

theorem splitRuns_equals (ht : setting.table = .standard) {s : Tensor} (hrank : s.rank + 1 = v.rank)
    (hroom : enough → 2 ≤ room) (hs : enough → s.size ≤ setting.limits.maxElements) (name : String) :
    ∃ mask, v.splitRuns mask = Tensor.splitOn s v ∧ Gives (Fault.ShortOf enough) mask (v.rows.mapM fun row => do
      truth (← applyOne (applyWith setting (call setting room)) (.equals s) [.tensor row]) name) := by
  refine ⟨v.rows.map (·.same s), (Tensor.splitOn_row hrank).symm, Gives.mapM fun row hrow => ?_⟩
  have hpush : Ends (Fault.ShortOf enough) (fun _ m => m = ⟨[.tensor row], []⟩)
      (pushAll setting.limits [.tensor row]) {} := by
    refine (push_short (fun h => (Tensor.size_le_of_mem_rows hrow).trans (hv h)) [] []).bind fun _ m hm => ?_
    exact .of_ok rfl hm
  refine (applyOne_gives rfl hpush (call_equals ht hroom hone hs row [] [])).bind ?_
  rw [truth_truth]
  exact .pure _

variable (rest : List Value) (context : List Saved)

theorem call_groupBy_same (hroom : enough → 3 ≤ room) : Mirrored (Fault.ShortOf enough) id
    (call setting room (.groupBy .same) ⟨.tensor v :: rest, context⟩)
    (call setting room (.word (.unary .groupByChange)) ⟨.tensor v :: rest, context⟩) := by
  cases room with
  | zero => exact .excused ⟨⟨_, rfl⟩, fun h => Nat.not_succ_le_zero 2 (hroom h)⟩ _ _
  | succ room =>
    have hchild : enough → 1 ≤ room - 1 := fun h => by have := hroom h; omega
    rw [call_succ, call_succ]
    exact (groupRuns_same hone hv hchild _).mirrored (fun r => push setting.limits (.tensor r)) ⟨rest, context⟩

theorem call_splitBy_equals (ht : setting.table = .standard) {s : Tensor} (hrank : s.rank + 1 = v.rank)
    (hroom : enough → 4 ≤ room) (hs : enough → s.size ≤ setting.limits.maxElements) :
    Mirrored (Fault.ShortOf enough) id
      (call setting room (.splitBy (.equals s)) ⟨.tensor v :: rest, context⟩)
      (call setting room (.word (.binary .splitOn)) ⟨.tensor s :: .tensor v :: rest, context⟩) := by
  cases room with
  | zero => exact .excused ⟨⟨_, rfl⟩, fun h => Nat.not_succ_le_zero 3 (hroom h)⟩ _ _
  | succ room =>
    have hchild : enough → 2 ≤ room - 1 := fun h => by have := hroom h; omega
    obtain ⟨mask, hmask, hgives⟩ := splitRuns_equals hone hv ht hrank hchild hs (Fn.splitBy (.equals s)).name
    rw [call_succ, call_succ]
    have hword : word setting (.binary .splitOn) ⟨.tensor s :: .tensor v :: rest, context⟩ =
        (do push setting.limits (.tensor (← lift (v.splitRuns mask))) : Exec Unit) ⟨rest, context⟩ := by
      rw [hmask]
      change (do push setting.limits (← lift (Tensor.splitOn s v >>= fun r => pure (.tensor r))) : Exec Unit) _ = _
      cases Tensor.splitOn s v <;> rfl
    change Mirrored _ _ _ (word setting (.binary .splitOn) _)
    rw [hword]
    exact hgives.mirrored (fun mask => do push setting.limits (.tensor (← lift (v.splitRuns mask)))) ⟨rest, context⟩

end

end Exec

namespace Machine

theorem exec_mirrored {A : Fault → Prop} {m : Machine} {memory : Memory} {α : Type} {x y : Exec α}
    (h : Exec.Mirrored A id (x m.memory) (y memory)) :
    m.exec x = exec { m with memory := memory } y ∨ ∃ fault, A fault ∧ (m.exec x).1 = .error fault := by
  generalize hx : x m.memory = r at h
  generalize hy : y memory = r' at h
  cases h with
  | ok a memory' => rw [exec_ok hx, exec_ok (m := { m with memory := memory }) hy]; exact .inl rfl
  | error fault memory' => rw [exec_error hx, exec_error (m := { m with memory := memory }) hy]; exact .inl rfl
  | excused hfault memory' => rw [exec_error hx]; exact .inr ⟨_, hfault, rfl⟩

theorem step_word (m : Machine) {name : String} {f : Fn} (hget : m.setting.table.get name = .ok f) :
    m.step (.word name) = m.call f := congrArg m.exec (m.instrStep_word hget)

/-- What only a shortage keeps from being equal is equal where no limit is hit, and where there is enough. -/
theorem eq_of_mirrored {enough : Prop} {m : Machine} {memory : Memory} {x y : Exec Unit}
    (h : Exec.Mirrored (Fault.ShortOf enough) id (x m.memory) (y memory))
    (hlimit : (∀ cause, (m.exec x).1 ≠ .error (.limit cause)) ∨ enough) :
    m.exec x = exec { m with memory := memory } y := by
  rcases exec_mirrored h with heq | ⟨_, ⟨⟨cause, rfl⟩, hshort⟩, hfail⟩
  · exact heq
  · exact (hlimit.elim (fun hnone => hnone cause hfail) hshort).elim

/-- To group by `match` is to group by change, and to split by `match` with an array of one axis less is to split
on that array as a separator: both succeed or fail alike and leave the same machine, if the modifier hits no limit.
It hits none where there is room for its calls, and where a scalar, the array and the separator are within the
limit on elements. -/
theorem step_grouped (m : Machine) (ht : m.setting.table = .standard) {v : Tensor} {rest : List Value}
    (hstack : m.memory.stack = .tensor v :: rest) :
    let grouped := m.step (.modify "group_by" [.name "match"])
    ((∀ cause, grouped.1 ≠ .error (.limit cause)) ∨ 3 ≤ m.room ∧ max 1 v.size ≤ m.setting.limits.maxElements →
      grouped = m.step (.word "group_by_change")) ∧
    ∀ s : Tensor, s.rank + 1 = v.rank →
      let divided := m.step (.modify "split_by" [.code [.push (.tensor s), .word "match"]])
      let above : Machine := { m with memory := ⟨.tensor s :: m.memory.stack, m.memory.context⟩ }
      (∀ cause, divided.1 ≠ .error (.limit cause)) ∨
        4 ≤ m.room ∧ max 1 (max v.size s.size) ≤ m.setting.limits.maxElements →
      divided = above.step (.word "split_on") := by
  obtain ⟨setting, depth, stack, context⟩ := m
  change stack = _ at hstack
  change setting.table = _ at ht
  subst hstack
  intro grouped
  constructor
  · intro h
    have hderive : setting.table.derive "group_by" [.name "match"] = .ok (.groupBy .same) := by
      rw [ht]
      rfl
    have hget : setting.table.get "group_by_change" = .ok (.word (.unary .groupByChange)) := by rw [ht]; rfl
    rw [step_word _ hget]
    have hgrouped : grouped = _ := step_modify _ hderive
    rw [hgrouped] at h ⊢
    refine eq_of_mirrored (Exec.call_groupBy_same ?_ ?_ rest context ?_) h
    · exact fun h => (le_max_left 1 v.size).trans h.2
    · exact fun h => (le_max_right 1 v.size).trans h.2
    · exact And.left
  · intro s hrank divided above h
    have hderive : setting.table.derive "split_by" [.code [.push (.tensor s), .word "match"]] =
        .ok (.splitBy (Fn.equals s)) := by
      rw [ht]
      rfl
    have hget : above.setting.table.get "split_on" = .ok (.word (.binary .splitOn)) :=
      (congrArg (Table.get · "split_on") ht).trans rfl
    rw [step_word _ hget]
    have hdivided : divided = _ := step_modify _ hderive
    rw [hdivided] at h ⊢
    refine eq_of_mirrored (Exec.call_splitBy_equals ?_ ?_ rest context ht hrank ?_ ?_) h
    · exact fun h => (le_max_left 1 _).trans h.2
    · exact fun h => ((le_max_left v.size s.size).trans (le_max_right 1 _)).trans h.2
    · exact And.left
    · exact fun h => ((le_max_right v.size s.size).trans (le_max_right 1 _)).trans h.2

/-- Three rows of two, under limits just wide enough. -/
theorem step_grouped_rows :
    let v : Tensor := .ofInts [3, 2] [1, 2, 1, 2, 3, 4]
    let s : Tensor := .ofInts [2] [3, 4]
    let m : Machine := { setting := { limits := ⟨6, 4⟩ }, memory := ⟨[.tensor v, .fn .sum], [.shape [2]]⟩ }
    let above : Machine := { m with memory := ⟨.tensor s :: m.memory.stack, m.memory.context⟩ }
    m.step (.modify "group_by" [.name "match"]) = m.step (.word "group_by_change") ∧
    (m.step (.word "group_by_change")).2.memory.stack =
      [.tensor (.boxes [.ofInts [2, 2] [1, 2, 1, 2], .ofInts [1, 2] [3, 4]]), .fn .sum] ∧
    m.step (.modify "split_by" [.code [.push (.tensor s), .word "match"]]) = above.step (.word "split_on") ∧
    (above.step (.word "split_on")).2.memory.stack =
      [.tensor (.boxes [.ofInts [2, 2] [1, 2, 1, 2]]), .fn .sum] := by
  intro v s m above
  have hstack : m.memory.stack = .tensor v :: [.fn .sum] := rfl
  obtain ⟨hgrouped, hdivided⟩ := step_grouped m rfl hstack
  exact ⟨hgrouped (.inr (by decide)), rfl, hdivided s rfl (.inr (by decide)), rfl⟩

end Machine

end Tacit
