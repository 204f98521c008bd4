/-
The arrays that a run comes to: those on the stacks, in what was saved, in functions and their code, and
inside boxes. From well-formed arrays in the table, in the host values and in the code a run leads to
well-formed arrays only, in the memory at hand and in those that wait for an application to end.
-/
import Tacit.Proofs.Array.Results
import Tacit.Proofs.Derive.Arrays
import Tacit.Proofs.Run.Reached
import Tacit.Proofs.Run.Step

namespace Tacit

/-! ## Arrays in a state -/

mutual

/-- The arrays that stand in a host value as such; lists of anything else become arrays only on the way
into the machine. -/
def Host.arrays : Host → List Tensor
  | .value v => v.arrays
  | .grid s xs => [.ofNumbers s xs]
  | .list items | .tuple items => hostsArrays items
  | _ => []

def hostsArrays : List Host → List Tensor
  | [] => []
  | h :: hs => h.arrays ++ hostsArrays hs

end

def Saved.arrays : Saved → List Tensor
  | .shape _ => []
  | .whole t | .entry _ t | .part _ t => [t]
  | .parameters vs => vs.flatMap Value.arrays
  | .host h => h.arrays

def Memory.arrays (m : Memory) : List Tensor := m.stack.flatMap Value.arrays ++ m.context.flatMap Saved.arrays

/-- The memory at hand, then those that wait for an application to end. -/
def Process.memories : Process → List Memory
  | running memory _ frames | failing _ memory frames => memory :: frames.filterMap waiting
  | ended _ memory => [memory]
where
  waiting : Frame → Option Memory
    | .called _ => none
    | .applied _ _ memory => some memory

section

variable (P : Tensor → Prop)

def Host.All (h : Host) : Prop := ∀ t ∈ h.arrays, P t

def Saved.All (s : Saved) : Prop := ∀ t ∈ s.arrays, P t

/-- Everywhere none but arrays with the property, whatever the faults. -/
def Classes.arrays : Classes where
  value := Value.All P
  fn := Fn.All P
  saved := Saved.All P
  fault _ := True

end

variable {P : Tensor → Prop}

theorem forall_hostsArrays {hs : List Host} : (∀ t ∈ hostsArrays hs, P t) ↔ ∀ h ∈ hs, h.All P := by
  induction hs with
  | nil => simp [hostsArrays]
  | cons h hs ih => simp [hostsArrays, Host.All, or_imp, forall_and, ih]

theorem Saved.all_parameters {vs : List Value} : (Saved.parameters vs).All P ↔ ∀ v ∈ vs, v.All P :=
  List.forall_mem_flatMap

theorem Memory.within_arrays {m : Memory} : m.Within (.arrays P) ↔ ∀ t ∈ m.arrays, P t := by
  unfold arrays
  rw [List.forall_mem_append, List.forall_mem_flatMap, List.forall_mem_flatMap]
  exact ⟨fun h => ⟨h.stack, h.context⟩, fun h => ⟨h.1, h.2⟩⟩

theorem Process.Within.memories {K : Classes} {p : Process} (h : p.Within K) : ∀ m ∈ p.memories, m.Within K := by
  have hwaiting {frames : List Frame} (hf : ∀ frame ∈ frames, frame.Within K) :
      ∀ m ∈ frames.filterMap memories.waiting, m.Within K := by
    intro m hm
    obtain ⟨frame, hframe, hm⟩ := List.mem_filterMap.1 hm
    cases frame with
    | called next => cases hm
    | applied f next memory =>
      cases hm
      exact (hf _ hframe).2
  cases p with
  | running memory work frames => exact List.forall_mem_cons.2 ⟨h.1, hwaiting h.2.2⟩
  | failing fault memory frames => exact List.forall_mem_cons.2 ⟨h.2.1, hwaiting h.2.2⟩
  | ended outcome memory => exact List.forall_mem_singleton.2 h.2

/-! ## Host values -/

namespace Tensor

theorem wellFormed_character (c : Nat) : (character c).WellFormed := .of_plain rfl Kind.noConfusion

mutual

theorem wellFormed_ofHost : ∀ {h : Host} {t : Tensor}, h.All WellFormed → ofHost h = .ok t → t.WellFormed
  | .value (.tensor _), _, hh, ht => by
    cases ht
    exact Value.all_tensor.1 hh
  | .value (.fn _), _, _, ht | .none, _, _, ht => nomatch ht
  | .text text, _, _, ht => by
    cases ht
    exact wellFormed_string text
  | .char c, _, _, ht => by
    cases ht
    exact wellFormed_character c
  | .bool _, _, _, ht | .float _, _, _, ht => by
    cases ht
    exact .of_plain rfl Kind.noConfusion
  | .int _, _, _, ht => wellFormed_ofInt ht
  | .grid s xs, _, hh, ht => by
    cases ht
    exact List.forall_mem_singleton.1 hh
  | .list items, _, hh, ht | .tuple items, _, hh, ht => by
    obtain ⟨ts, hts, ht⟩ := Except.bind_ok ht
    cases ht
    exact wellFormed_ofRows (wellFormed_ofHosts (forall_hostsArrays.1 hh) hts)

theorem wellFormed_ofHosts : ∀ {hs : List Host} {ts : List Tensor}, (∀ h ∈ hs, h.All WellFormed) →
    ofHosts hs = .ok ts → ∀ t ∈ ts, t.WellFormed
  | [], _, _, hts => by
    cases hts
    exact List.forall_mem_nil _
  | h :: hs, _, hh, hts => by
    obtain ⟨t, ht, hts⟩ := Except.bind_ok hts
    obtain ⟨us, hus, hts⟩ := Except.bind_ok hts
    cases hts
    obtain ⟨hh, hhs⟩ := List.forall_mem_cons.1 hh
    exact List.forall_mem_cons.2 ⟨wellFormed_ofHost hh ht, wellFormed_ofHosts hhs hus⟩

end

end Tensor

theorem Value.all_ofHost {h : Host} {v : Value} (hh : h.All Tensor.WellFormed) (hv : ofHost h = .ok v) :
    v.All Tensor.WellFormed := by
  unfold ofHost at hv
  split at hv
  · cases hv
    exact hh
  · obtain ⟨t, ht, hv⟩ := Except.bind_ok hv
    cases hv
    exact all_tensor.2 (Tensor.wellFormed_ofHost hh ht)

/-! ## Words -/

section

open Tensor (WellFormed)

theorem Unary.all_eval {u : Unary} {v w : Value} (hv : v.All WellFormed) (hw : u.eval v = .ok w) :
    w.All WellFormed := by
  cases v with
  | tensor t =>
    obtain ⟨r, hr, hw⟩ := Except.bind_ok hw
    cases hw
    exact Value.all_tensor.2 (Tensor.wellFormed_onTensor (Value.all_tensor.1 hv) hr)
  | fn f =>
    cases u with
    | identity =>
      cases hw
      exact hv
    | _ => cases hw

theorem Binary.all_eval {b : Binary} {v w r : Value} (hv : v.All WellFormed) (hw : w.All WellFormed)
    (hr : b.eval v w = .ok r) : r.All WellFormed := by
  rcases eval_eq_ok hr with ⟨t, u, q, rfl, rfl, hq, rfl⟩ | ⟨-, rfl⟩ | ⟨-, rfl⟩
  · exact Value.all_tensor.2 (Tensor.wellFormed_onTensors (Value.all_tensor.1 hv) (Value.all_tensor.1 hw) hq)
  · exact Value.all_tensor.2 (Tensor.wellFormed_truth false)
  · exact Value.all_tensor.2 (Tensor.wellFormed_string [])

/-! ## Halves of under pairs -/

theorem Tensor.wellFormed_tensor? {v : Value} {t : Tensor} (hv : v.All WellFormed) (ht : v.tensor? = .ok t) :
    t.WellFormed := by
  cases v with
  | tensor t =>
    cases ht
    exact Value.all_tensor.1 hv
  | fn f => cases ht

theorem Saved.all_one {s : Saved} {t : Tensor} (hs : s.arrays = [t]) (ht : t.WellFormed) : s.All WellFormed := by
  unfold All
  rw [hs]
  exact List.forall_mem_singleton.2 ht

theorem UnaryKeeper.all_stash {k : UnaryKeeper} {v : Value} {s : Saved} {r : Tensor} (hv : v.All WellFormed)
    (h : k.stash v = .ok (s, r)) : s.All WellFormed ∧ r.WellFormed := by
  obtain ⟨t, ht, h⟩ := Except.bind_ok h
  have ht := Tensor.wellFormed_tensor? hv ht
  cases k with
  | deshape =>
    obtain ⟨q, hq, h⟩ := Except.bind_ok h
    cases h
    exact ⟨List.forall_mem_nil _, ht.reshape hq⟩
  | first =>
    obtain ⟨q, hq, h⟩ := Except.bind_ok h
    cases h
    exact ⟨Saved.all_one rfl ht, ht.row hq⟩

theorem BinaryKeeper.all_stash {k : BinaryKeeper} {v w : Value} {s : Saved} {r : Tensor} (hw : w.All WellFormed)
    (h : k.stash v w = .ok (s, r)) : s.All WellFormed ∧ r.WellFormed := by
  cases k with
  | reshape =>
    obtain ⟨t, ht, h⟩ := Except.bind_ok h
    have ht := Tensor.wellFormed_tensor? hw ht
    cases v with
    | fn f => cases h
    | tensor shape =>
      obtain ⟨target, -, h⟩ := Except.bind_ok h
      obtain ⟨q, hq, h⟩ := Except.bind_ok h
      cases h
      exact ⟨List.forall_mem_nil _, ht.reshape hq⟩
  | indexAt =>
    obtain ⟨top, -, h⟩ := Except.bind_ok h
    obtain ⟨i, -, h⟩ := Except.bind_ok h
    obtain ⟨t, ht, h⟩ := Except.bind_ok h
    have ht := Tensor.wellFormed_tensor? hw ht
    obtain ⟨q, hq, h⟩ := Except.bind_ok h
    cases h
    exact ⟨Saved.all_one rfl ht, ht.row hq⟩
  | take =>
    obtain ⟨t, ht, h⟩ := Except.bind_ok h
    have ht := (Tensor.wellFormed_tensor? hw ht).asList
    obtain ⟨top, -, h⟩ := Except.bind_ok h
    obtain ⟨n, -, h⟩ := Except.bind_ok h
    obtain ⟨⟨start, stop⟩, hrange, h⟩ := Except.bind_ok h
    obtain ⟨hstart, hstop, -⟩ := Tensor.takeRange_ok hrange
    cases h
    exact ⟨Saved.all_one rfl (ht.leftOut _ (by omega)), ht.slice hstop⟩
  | drop =>
    obtain ⟨t, ht, h⟩ := Except.bind_ok h
    have ht := (Tensor.wellFormed_tensor? hw ht).asList
    obtain ⟨top, -, h⟩ := Except.bind_ok h
    obtain ⟨n, -, h⟩ := Except.bind_ok h
    have hbounds := Tensor.dropRange_bounds n t.asList.rowCount
    generalize hrange : Tensor.dropRange n t.asList.rowCount = range at hbounds
    obtain ⟨start, stop⟩ := range
    simp only [hrange] at h
    cases h
    exact ⟨Saved.all_one rfl (ht.leftOut _ (by omega)), ht.slice hbounds.2.1⟩

theorem Tensor.WellFormed.replaceRowBy {t : Tensor} (ht : t.WellFormed) {i : Int} {v w : Value}
    (hv : v.All WellFormed) (hw : t.replaceRowBy i v = .ok w) : w.All WellFormed := by
  cases v with
  | tensor new =>
    obtain ⟨r, hr, hw⟩ := Except.bind_ok hw
    cases hw
    exact Value.all_tensor.2 (ht.replaceRow (Value.all_tensor.1 hv) hr)
  | fn f =>
    simp only [Tensor.replaceRowBy] at hw
    split at hw
    · cases hw
      exact hv
    · split at hw <;> cases hw

/-- Rows joined on at one end or the other. -/
theorem Tensor.WellFormed.joinAt {t u : Tensor} (ht : t.WellFormed) (hu : u.WellFormed) {front : Bool} {w : Value}
    (hw : (return .tensor (← if front then t.join u else u.join t)) = Except.ok w) : w.All WellFormed := by
  cases front with
  | true =>
    obtain ⟨r, hr, hw⟩ := Except.bind_ok hw
    cases hw
    exact Value.all_tensor.2 (ht.join hu hr)
  | false =>
    obtain ⟨r, hr, hw⟩ := Except.bind_ok hw
    cases hw
    exact Value.all_tensor.2 (hu.join ht hr)

theorem Keeper.all_restore {k : Keeper} {s : Saved} {v w : Value} (hs : s.All WellFormed) (hv : v.All WellFormed)
    (hw : k.restore s v = .ok w) : w.All WellFormed := by
  unfold restore at hw
  split at hw
  case h_1 | h_2 =>
    obtain ⟨t, ht, hw⟩ := Except.bind_ok hw
    obtain ⟨r, hr, hw⟩ := Except.bind_ok hw
    cases hw
    exact Value.all_tensor.2 ((Tensor.wellFormed_tensor? hv ht).reshape hr)
  case h_3 | h_4 => exact (List.forall_mem_singleton.1 hs).replaceRowBy hv hw
  case h_5 =>
    obtain ⟨t, ht, hw⟩ := Except.bind_ok hw
    exact (Tensor.wellFormed_tensor? hv ht).joinAt (List.forall_mem_singleton.1 hs) hw
  case h_6 =>
    obtain ⟨t, ht, hw⟩ := Except.bind_ok hw
    exact (List.forall_mem_singleton.1 hs).joinAt (Tensor.wellFormed_tensor? hv ht) hw
  case h_7 => cases hw

/-! ## Runs -/

variable {table : Table}

/-- Over well-formed arrays nothing leads out of them. -/
theorem Classes.hold_arrays (ht : table.All WellFormed) :
    (arrays WellFormed).Hold table (Instr.All WellFormed) Fault.ofMachine where
  closed := {
    unary := Unary.all_eval
    binary := Binary.all_eval
    int := fun n => Value.all_tensor.2 (Tensor.wellFormed_int n)
    string := fun t => Value.all_tensor.2 (Tensor.wellFormed_string t)
    row := fun h hr => Value.all_tensor.2 ((Value.all_tensor.1 h).rows _ hr)
    content := fun h ht => Value.all_tensor.2 ((Value.all_tensor.1 h).contents _ ht)
    ofRows := fun h => Value.all_tensor.2 (Tensor.wellFormed_ofRows fun t ht => Value.all_tensor.1 (h t ht))
    boxes := fun h => Value.all_tensor.2 (Tensor.wellFormed_boxes fun t ht => Value.all_tensor.1 (h t ht))
    reshape := fun h hu => Value.all_tensor.2 ((Value.all_tensor.1 h).reshape hu)
    splitRuns := fun h hu => Value.all_tensor.2 ((Value.all_tensor.1 h).splitRuns hu) }
  realm := {
    binary := fun _ => Fn.all_word
    part := fun {f g} hf hg => by
      cases f with
      | copyTop | copyDeepest | reduce | each | groupBy | splitBy =>
        rw [List.mem_singleton.1 hg]
        exact hf
      | _ => cases hg
    code := fun hf _ hcode => Fn.all_code hcode hf
    push := Instr.all_push.1
    word := fun _ hf => ht.get hf
    invoke := Instr.all_invoke.1
    quote := fun hi hf => Value.all_fn.2 (Fn.all_ofCode hf (Instr.all_quote.1 hi))
    call := fun _ => Value.all_fn.1
    make := fun _ hgs hf => Value.all_fn.2 (ht.made hf fun g hg => Value.all_fn.1 (hgs g hg))
    modify := fun hi hf => ht.derive hf (Instr.all_modify.1 hi) }
  spares := table.spares_ofMachine
  fault _ := trivial
  underflow _ := trivial

theorem Classes.holdHalves_arrays : (arrays WellFormed).HoldHalves where
  unary hv h := by
    obtain ⟨hs, ht⟩ := UnaryKeeper.all_stash hv h
    exact ⟨hs, Value.all_tensor.2 ht⟩
  binary _ hw h := by
    obtain ⟨hs, ht⟩ := BinaryKeeper.all_stash hw h
    exact ⟨hs, Value.all_tensor.2 ht⟩
  restore := Keeper.all_restore
  parameters := Saved.all_parameters
  half {f g} hf hg := by
    cases f with
    | under transform action before after =>
      obtain ⟨-, haction, hbefore, hafter⟩ := Fn.all_under.1 hf
      have hall : ∀ g ∈ [before, action, after], g.All WellFormed := by simpa using ⟨hbefore, haction, hafter⟩
      exact hall g hg
    | saving f =>
      rw [List.mem_singleton.1 hg]
      exact hf
    | resuming f inverse =>
      rw [List.mem_singleton.1 hg]
      exact (Fn.all_resuming.1 hf).2
    | _ => cases hg

theorem Table.all_standard : Table.standard.All P := by
  intro e he
  simp only [standard, List.mem_append, List.mem_map] at he
  rcases he with ⟨w, -, rfl⟩ | he
  · exact Fn.all_word
  · rcases List.mem_cons.1 he with rfl | he
    · exact List.forall_mem_nil _
    · rw [List.mem_singleton.1 he]
      exact List.forall_mem_nil _

namespace Machine

/-- The machine that host values seed, up to the first that stands for nothing or is too large. -/
def seeded (setting : Setting) (hosts : List Host) : Machine :=
  (({ setting := setting } : Machine).exec (hosts.forM (Exec.pushHost setting.limits))).2

/-- The machine after programs that ran on it one after another, whatever came of each. -/
def afterAll (m : Machine) (programs : List (List Instr)) : Machine :=
  programs.foldl (fun m code => (m.run code).2) m

theorem seeded_setting (setting : Setting) (hosts : List Host) : (seeded setting hosts).setting = setting := by
  unfold seeded exec
  split <;> rfl

theorem within_seeded (setting : Setting) {hosts : List Host} (hh : ∀ h ∈ hosts, h.All WellFormed) :
    (seeded setting hosts).memory.Within (.arrays WellFormed) := by
  have hseed : Leaves (.arrays WellFormed) (fun _ => True)
      (hosts.forM (Exec.pushHost setting.limits) {}) :=
    leaves_pushHosts (fun _ _ => trivial) setting.limits Memory.within_empty fun h hmem =>
      ⟨fun v hv => Value.all_ofHost (hh h hmem) hv, fun _ _ => trivial⟩
  unfold seeded
  cases hx : hosts.forM (Exec.pushHost setting.limits) {} with
  | error fault memory =>
    rw [hx] at hseed
    rw [exec_error hx]
    exact hseed.2
  | ok a memory =>
    rw [hx] at hseed
    rw [exec_ok hx]
    exact hseed.2

/-- Each program runs on what the one before it left, its setting and a memory of well-formed arrays. -/
theorem within_afterAll : ∀ (programs : List (List Instr)) {m : Machine}, m.setting.table.All WellFormed →
    m.memory.Within (.arrays WellFormed) → (∀ code ∈ programs, ∀ i ∈ code, i.All WellFormed) →
    (m.afterAll programs).setting = m.setting ∧ (m.afterAll programs).memory.Within (.arrays WellFormed)
  | [], m, _, hm, _ => ⟨rfl, hm⟩
  | code :: programs, m, ht, hm, hc => by
    obtain ⟨hcode, hprograms⟩ := List.forall_mem_cons.1 hc
    have hsetting := m.run_setting code
    obtain ⟨hmemory, -⟩ := m.run_within (fun _ _ => trivial) (Classes.hold_arrays ht)
      Classes.holdHalves_arrays hm hcode
    obtain ⟨hlast, hwithin⟩ := within_afterAll programs (hsetting ▸ ht) hmemory hprograms
    exact ⟨hlast.trans hsetting, hwithin⟩

/-- Every array is well formed in every state that a program comes to, on the stack, in what is saved, in
functions and in boxes, after a fault as before it: on the memory that host values and earlier programs
left, in the memories of every state on the way, and in the memory at the end. -/
theorem run_wellFormed (setting : Setting) (hosts : List Host) (earlier : List (List Instr)) (code : List Instr)
    (ht : setting.table.All WellFormed) (hh : ∀ h ∈ hosts, h.All WellFormed)
    (hc : ∀ program ∈ code :: earlier, ∀ i ∈ program, i.All WellFormed) :
    let m := (seeded setting hosts).afterAll earlier
    (∀ t ∈ m.memory.arrays, t.WellFormed) ∧
      (∀ n, ∀ memory ∈ (Process.after setting m.depth n (.start m code)).memories,
        ∀ t ∈ memory.arrays, t.WellFormed) ∧
      ∀ t ∈ (m.run code).2.memory.arrays, t.WellFormed := by
  obtain ⟨hcode, hearlier⟩ := List.forall_mem_cons.1 hc
  have hseeded := seeded_setting setting hosts
  obtain ⟨hsetting, hm⟩ := within_afterAll earlier (by rw [hseeded]; exact ht)
    (within_seeded setting hh) hearlier
  rw [hseeded] at hsetting
  generalize (seeded setting hosts).afterAll earlier = m at hsetting hm
  subst hsetting
  have hhold := Classes.hold_arrays ht
  refine ⟨Memory.within_arrays.1 hm, fun n memory hmemory => ?_, ?_⟩
  · have hafter : (Process.after m.setting m.depth n (.start m code)).Within (.arrays WellFormed) :=
      Process.within_after (fun _ _ => trivial) hhold Classes.holdHalves_arrays
        (Process.within_start hhold hm hcode) n
    exact Memory.within_arrays.1 (hafter.memories memory hmemory)
  · obtain ⟨hend, -⟩ := m.run_within (fun _ _ => trivial) hhold Classes.holdHalves_arrays hm hcode
    exact Memory.within_arrays.1 hend

/-- Rows of two lengths become boxes, one program puts a number under them, and the next adds it to each and
then lacks an argument. -/
theorem run_wellFormed_boxedRows :
    let hosts : List Host := [.list [.list [.int 1, .int 2], .list [.int 3]]]
    let m := (seeded {} hosts).afterAll [[.push (.tensor (.int 7)), .word "flip"]]
    let code : List Instr := [.word "add", .word "add"]
    (∀ h ∈ hosts, h.All WellFormed) ∧ (m.run code).2.memory.stack.length = 1 ∧
      ∀ n, ∀ memory ∈ (Process.after {} m.depth n (.start m code)).memories, ∀ t ∈ memory.arrays, t.WellFormed := by
  have hhosts : ∀ h ∈ [Host.list [.list [.int 1, .int 2], .list [.int 3]]], h.All WellFormed :=
    List.forall_mem_singleton.2 (List.forall_mem_nil _)
  have hcode : ∀ program ∈ [[Instr.word "add", .word "add"], [.push (.tensor (.int 7)), .word "flip"]],
      ∀ i ∈ program, i.All WellFormed := by
    simp [Tensor.wellFormed_int]
  exact ⟨hhosts, rfl, (run_wellFormed {} _ [_] _ Table.all_standard hhosts hcode).2.1⟩

end Machine

end

end Tacit
