/-
The states that a process comes to. Classes that hold the work of functions hold every state: what one
step finds within them it leaves within them, whether it goes on, fails or returns to a frame, and so does
a whole run.
-/
import Tacit.Proofs.Run.Guard
import Tacit.Proofs.Run.Process

namespace Tacit

variable {K : Classes} {table : Table} {I : Instr → Prop} {bad : Fault → Bool}

/-- Both stacks hold nothing outside the classes. -/
structure Memory.Within (K : Classes) (m : Memory) : Prop where
  stack : ∀ v ∈ m.stack, K.value v
  context : ∀ s ∈ m.context, K.saved s

theorem Memory.within_empty : Memory.Within K {} := ⟨List.forall_mem_nil _, List.forall_mem_nil _⟩

/-! ## Operations -/

/-- What a step gives is of the kind given, and what it leaves is within the classes, also when it fails. -/
def Leaves (K : Classes) {α : Type} (P : α → Prop) : EStateM.Result Fault Memory α → Prop
  | .ok a memory => P a ∧ memory.Within K
  | .error fault memory => K.fault fault ∧ memory.Within K

theorem Leaves.bind {α β : Type} {P : α → Prop} {P' : β → Prop} {x : Exec α} {f : α → Exec β}
    {memory : Memory} (h : Leaves K P (x memory))
    (hf : ∀ a memory, P a → memory.Within K → Leaves K P' (f a memory)) : Leaves K P' ((x >>= f) memory) := by
  cases hx : x memory with
  | ok a memory' =>
    rw [hx] at h
    rw [Exec.bind_ok f hx]
    exact hf a memory' h.1 h.2
  | error fault memory' =>
    rw [hx] at h
    rw [Exec.bind_error f hx]
    exact h

theorem Op.run_leaves (hmachine : ∀ e : Fault, e.ofMachine = true → K.fault e) (limits : Limits) {o : Op}
    (ho : o.Given K) {memory : Memory} (hm : memory.Within K) : Leaves K (o.Gives K) (o.run limits memory) := by
  obtain ⟨stack, context⟩ := memory
  obtain ⟨hs, hc⟩ := hm
  cases o with
  | check count name =>
    show Leaves K (Gives K (.check count name)) (Exec.checkElements limits count name ⟨stack, context⟩)
    unfold Exec.checkElements
    split
    · exact ⟨hmachine _ rfl, hs, hc⟩
    · exact ⟨trivial, hs, hc⟩
  | push v =>
    show Leaves K (Gives K (.push v)) (Exec.push limits v ⟨stack, context⟩)
    by_cases hfits : Exec.Fits limits v
    · rw [Exec.push_fits hfits]
      exact ⟨trivial, List.forall_mem_cons.2 ⟨ho, hs⟩, hc⟩
    · cases v with
      | fn f => exact absurd trivial hfits
      | tensor t =>
        rw [Exec.push_too_large (Nat.lt_of_not_le hfits)]
        exact ⟨hmachine _ rfl, hs, hc⟩
  | pop name | popOne name =>
    cases stack with
    | nil => exact ⟨hmachine _ rfl, hs, hc⟩
    | cons v stack => exact ⟨hs v (by simp), fun w hw => hs w (by simp [hw]), hc⟩
  | popTwo name =>
    match stack with
    | [] | [_] => exact ⟨hmachine _ rfl, hs, hc⟩
    | v :: w :: stack => exact ⟨⟨hs v (by simp), hs w (by simp)⟩, fun u hu => hs u (by simp [hu]), hc⟩
  | popMany count name =>
    show Leaves K (Gives K (.popMany count name)) (Exec.popMany count name ⟨stack, context⟩)
    by_cases h : stack.length < count
    · rw [Exec.popMany_short h]
      exact ⟨hmachine _ rfl, hs, hc⟩
    · rw [Exec.popMany_run (Nat.not_lt.1 h)]
      exact ⟨fun v hv => hs v (List.mem_of_mem_take hv), fun v hv => hs v (List.mem_of_mem_drop hv), hc⟩
  | peek offset name =>
    show Leaves K (Gives K (.peek offset name)) (Exec.peek offset name ⟨stack, context⟩)
    by_cases h : offset < stack.length
    · rw [Exec.peek_run h]
      exact ⟨hs _ (List.getElem_mem h), hs, hc⟩
    · rw [Exec.peek_short (Nat.not_lt.1 h)]
      exact ⟨hmachine _ rfl, hs, hc⟩
  | save s => exact ⟨trivial, hs, List.forall_mem_cons.2 ⟨ho, hc⟩⟩
  | restore name =>
    cases context with
    | nil => exact ⟨hmachine _ rfl, hs, hc⟩
    | cons s context => exact ⟨hc s (by simp), hs, fun u hu => hc u (by simp [hu])⟩

/-! ## Processes -/

/-- What waits goes on within the classes, and so does the memory that waits with it. -/
def Frame.Within (K : Classes) : Frame → Prop
  | called next => next.Within K fun _ => True
  | applied _ next memory =>
    (∀ vs, (∀ v ∈ vs, K.value v) → (next vs).Within K fun _ => True) ∧ memory.Within K

namespace Process

/-- Nothing outside the classes is in the memory, in the work at hand or in a frame; at the end a fault of
the classes has been classified. -/
def Within (K : Classes) : Process → Prop
  | running memory work frames =>
    memory.Within K ∧ work.Within K (fun _ => True) ∧ ∀ frame ∈ frames, frame.Within K
  | failing fault memory frames => K.fault fault ∧ memory.Within K ∧ ∀ frame ∈ frames, frame.Within K
  | ended outcome memory =>
    (∀ fault, outcome = .error fault → ∃ e, K.fault e ∧ e.classify = fault) ∧ memory.Within K

variable {setting : Setting} {depth : Nat} (hmachine : ∀ e : Fault, e.ofMachine = true → K.fault e)

include hmachine in
theorem within_step_op {o : Op} {next : o.Answer → Program Unit} {memory : Memory} {frames : List Frame}
    (h : Within K (running memory (.op o next) frames)) :
    Within K (step setting depth (running memory (.op o next) frames)) := by
  obtain ⟨hm, ⟨ho, hnext⟩, hf⟩ := h
  have hleaves := Op.run_leaves hmachine setting.limits ho hm
  cases hrun : o.run setting.limits memory with
  | ok a memory' =>
    rw [hrun] at hleaves
    simp only [step, hrun]
    exact ⟨hleaves.2, hnext a hleaves.1, hf⟩
  | error fault memory' =>
    rw [hrun] at hleaves
    simp only [step, hrun]
    exact ⟨hleaves.1, hleaves.2, hf⟩

include hmachine in
/-- The results of an application go to what waits for them, on the memory that waits for it. -/
theorem within_step_applied {f : Fn} {next : List Value → Program Unit} {memory below : Memory}
    {frames : List Frame} (h : Within K (running memory (.done ()) (.applied f next below :: frames))) :
    Within K (step setting depth (running memory (.done ()) (.applied f next below :: frames))) := by
  obtain ⟨hm, -, hf⟩ := h
  obtain ⟨⟨hnext, hbelow⟩, hf⟩ := List.forall_mem_cons.1 hf
  have hleaves : Leaves K (Op.Gives K (.popMany f.outputs f.name)) (Exec.popMany f.outputs f.name memory) :=
    Op.run_leaves hmachine setting.limits (o := .popMany f.outputs f.name) trivial hm
  cases hpop : Exec.popMany f.outputs f.name memory with
  | ok vs memory' =>
    rw [hpop] at hleaves
    simp only [step, hpop]
    exact ⟨hbelow, hnext vs hleaves.1, hf⟩
  | error fault memory' =>
    rw [hpop] at hleaves
    simp only [step, hpop]
    exact ⟨hleaves.1, hbelow, hf⟩

theorem within_start {m : Machine} (h : K.Hold m.setting.table I bad) {code : List Instr}
    (hm : m.memory.Within K) (hc : ∀ i ∈ code, I i) : (start m code).Within K :=
  ⟨hm, .forM code fun i hi => h.instr (hc i hi), List.forall_mem_nil _⟩

variable (h : K.Hold setting.table I bad) (hk : K.HoldHalves)

include hmachine h hk

theorem within_step {p : Process} (hp : p.Within K) : (step setting depth p).Within K := by
  cases p with
  | ended outcome memory => exact hp
  | failing fault memory frames =>
    obtain ⟨hfault, hm, hf⟩ := hp
    match frames with
    | [] => exact ⟨fun e he => ⟨fault, hfault, by cases he; rfl⟩, hm⟩
    | .called next :: frames => exact ⟨hfault, hm, (List.forall_mem_cons.1 hf).2⟩
    | .applied f next below :: frames =>
      obtain ⟨⟨-, hbelow⟩, hf⟩ := List.forall_mem_cons.1 hf
      exact ⟨hfault, hbelow, hf⟩
  | running memory work frames =>
    cases work with
    | op o next => exact within_step_op hmachine hp
    | fail fault =>
      obtain ⟨hm, hfault, hf⟩ := hp
      exact ⟨hfault, hm, hf⟩
    | done a =>
      match frames with
      | [] => exact ⟨fun _ he => (nomatch he), hp.1⟩
      | .called next :: frames =>
        obtain ⟨hnext, hf⟩ := List.forall_mem_cons.1 hp.2.2
        exact ⟨hp.1, hnext, hf⟩
      | .applied f next below :: frames => exact within_step_applied hmachine hp
    | call f next =>
      obtain ⟨hm, ⟨hfn, hnext⟩, hf⟩ := hp
      rw [step_call]
      split
      · exact ⟨hmachine _ rfl, hm, hf⟩
      · exact ⟨hm, h.body hk hfn, List.forall_mem_cons.2 ⟨hnext, hf⟩⟩
    | apply f args next =>
      obtain ⟨hm, ⟨hfn, hargs, hnext⟩, hf⟩ := hp
      refine ⟨Memory.within_empty, ?_, List.forall_mem_cons.2 ⟨⟨hnext, hm⟩, hf⟩⟩
      exact (Program.Within.pushAll hargs).bind fun _ _ => .call hfn

/-- Every state that comes after is within the classes. -/
theorem within_after {p : Process} (hp : p.Within K) (n : Nat) : (after setting depth n p).Within K := by
  induction n with
  | zero => exact hp
  | succ n ih =>
    rw [after, Function.iterate_succ_apply']
    exact within_step hmachine h hk ih

end Process

/-! ## Runs -/

/-- Host values that stand for values of the classes, or for none, seed a memory within them. -/
theorem Machine.leaves_pushHosts (hmachine : ∀ e : Fault, e.ofMachine = true → K.fault e) (limits : Limits) :
    ∀ {hosts : List Host} {memory : Memory}, memory.Within K →
      (∀ h ∈ hosts, (∀ v, Value.ofHost h = .ok v → K.value v) ∧ ∀ e, Value.ofHost h = .error e → K.fault e) →
      Leaves K (fun _ => True) (hosts.forM (Exec.pushHost limits) memory)
  | [], _, hm, _ => ⟨trivial, hm⟩
  | host :: hosts, memory, hm, hhosts => by
    obtain ⟨hvalue, hfault⟩ := hhosts host (by simp)
    have hpush : Leaves K (fun _ => True) (Exec.pushHost limits host memory) := by
      cases hv : Value.ofHost host with
      | ok v =>
        have hrun : Exec.pushHost limits host = Exec.push limits v := by
          unfold Exec.pushHost
          rw [hv]
          rfl
        rw [hrun]
        exact Op.run_leaves hmachine limits (o := .push v) (hvalue v hv) hm
      | error e =>
        have hrun : Exec.pushHost limits host = throw e := by
          unfold Exec.pushHost
          rw [hv]
          rfl
        rw [hrun]
        exact ⟨hfault e hv, hm⟩
    exact hpush.bind fun _ memory _ hm => leaves_pushHosts hmachine limits hm fun h hh => hhosts h (by simp [hh])

/-- Where a run ends there is nothing outside the classes, and the fault is one of theirs. -/
theorem Machine.run_within (hmachine : ∀ e : Fault, e.ofMachine = true → K.fault e) (m : Machine)
    (h : K.Hold m.setting.table I bad) (hk : K.HoldHalves) {code : List Instr} (hm : m.memory.Within K)
    (hc : ∀ i ∈ code, I i) : (m.run code).2.memory.Within K ∧
      ∀ fault, (m.run code).1 = .error fault → ∃ e, K.fault e ∧ e.classify = fault := by
  obtain ⟨n, hn⟩ := Process.start_reaches m code
  have hend : (Process.after m.setting m.depth n (.start m code)).Within K :=
    Process.within_after hmachine h hk (Process.within_start h hm hc) n
  rw [hn] at hend
  exact ⟨hend.2, hend.1⟩

/-- What a program on host values gives is within the classes, and so is its fault before it is classified. -/
theorem Machine.evaluate_within (hmachine : ∀ e : Fault, e.ofMachine = true → K.fault e) (setting : Setting)
    (h : K.Hold setting.table I bad) (hk : K.HoldHalves) {hosts : List Host} {code : List Instr}
    (hhosts : ∀ h ∈ hosts,
      (∀ v, Value.ofHost h = .ok v → K.value v) ∧ ∀ e, Value.ofHost h = .error e → K.fault e)
    (hc : ∀ i ∈ code, I i) :
    (∀ vs, evaluate setting hosts code = .ok vs → ∀ v ∈ vs, K.value v) ∧
      ∀ fault, evaluate setting hosts code = .error fault → ∃ e, K.fault e ∧ (e = fault ∨ e.classify = fault) := by
  have hseed := leaves_pushHosts hmachine setting.limits Memory.within_empty hhosts
  unfold evaluate exec
  simp only [EStateM.run]
  cases hx : hosts.forM (Exec.pushHost setting.limits) {} with
  | error fault memory =>
    rw [hx] at hseed
    refine ⟨fun _ he => (nomatch he), fun e he => ⟨fault, hseed.1, .inl ?_⟩⟩
    cases he
    rfl
  | ok a memory =>
    rw [hx] at hseed
    have hrun := run_within hmachine { setting := setting, memory := memory } h hk hseed.2 hc
    dsimp only
    generalize run _ code = result at hrun
    obtain ⟨outcome, m⟩ := result
    obtain ⟨hmemory, hfault⟩ := hrun
    cases outcome with
    | ok a =>
      refine ⟨fun vs hvs v hv => ?_, fun _ he => nomatch he⟩
      cases hvs
      exact hmemory.stack v (by simpa [stack] using hv)
    | error fault =>
      refine ⟨fun _ he => (nomatch he), fun e he => ?_⟩
      cases he
      obtain ⟨e, he, hclassify⟩ := hfault fault rfl
      exact ⟨e, he, .inr hclassify⟩

end Tacit
