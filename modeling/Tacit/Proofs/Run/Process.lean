/-
Runs step by step. A process is what a machine has before it while it runs: a memory, the work at hand and
the frames of the calls and applications under way. Nothing bounds its steps but the limit on depth, and
it still comes to the end that the machine comes to.
-/
import Tacit.Proofs.Run.Program
import Mathlib.Logic.Function.Iterate

namespace Tacit

/-- What waits for a call to end, or for an application, which runs on a memory of its own. -/
inductive Frame where
  | called (next : Program Unit)
  | applied (f : Fn) (next : List Value → Program Unit) (memory : Memory)

inductive Process where
  | running (memory : Memory) (work : Program Unit) (frames : List Frame)
  | failing (fault : Fault) (memory : Memory) (frames : List Frame)
  | ended (outcome : Except Fault Unit) (memory : Memory)

namespace Process

section

variable (setting : Setting) (depth : Nat)

/-- The next state, where `depth` calls were under way before the first frame. Every frame is one more. -/
def step : Process → Process
  | running memory (.done _) [] => ended (.ok ()) memory
  | running memory (.done _) (.called next :: frames) => running memory next frames
  | running memory (.done _) (.applied f next below :: frames) =>
    match Exec.popMany f.outputs f.name memory with
    | .ok vs _ => running below (next vs) frames
    | .error fault _ => failing fault below frames
  | running memory (.fail fault) frames => failing fault memory frames
  | running memory (.op o next) frames =>
    match o.run setting.limits memory with
    | .ok a memory => running memory (next a) frames
    | .error fault memory => failing fault memory frames
  | running memory (.call f next) frames =>
    if setting.limits.maxDepth ≤ depth + frames.length then
      failing (.limit (.depth setting.limits.maxDepth f.name)) memory frames
    else running memory (.body setting.table f) (.called (next ()) :: frames)
  | running memory (.apply f args next) frames =>
    running {} (do .pushAll args; .call f .done) (.applied f next memory :: frames)
  | failing fault memory [] => ended (.error fault.classify) memory
  | failing fault memory (.called _ :: frames) => failing fault memory frames
  | failing fault _ (.applied _ _ below :: frames) => failing fault below frames
  | ended outcome memory => ended outcome memory

theorem step_call (memory : Memory) (f : Fn) (next : Unit → Program Unit) (frames : List Frame) :
    step setting depth (running memory (.call f next) frames) =
      if setting.limits.maxDepth ≤ depth + frames.length then
        failing (.limit (.depth setting.limits.maxDepth f.name)) memory frames
      else running memory (.body setting.table f) (.called (next ()) :: frames) := rfl

/-- The state after so many steps. -/
def after (n : Nat) (p : Process) : Process := (step setting depth)^[n] p

/-- One state comes after the other. -/
def Reaches (p q : Process) : Prop := ∃ n, after setting depth n p = q

/-- The process in which a machine runs the code. -/
def start (m : Machine) (code : List Instr) : Process :=
  running m.memory (code.forM (.instr m.setting.table)) []

end

/-! ## States one after another -/

section

variable {setting : Setting} {depth : Nat} {p q r : Process}

theorem Reaches.refl : Reaches setting depth p p := ⟨0, rfl⟩

theorem Reaches.trans (h : Reaches setting depth p q) (h' : Reaches setting depth q r) :
    Reaches setting depth p r := by
  obtain ⟨n, rfl⟩ := h
  obtain ⟨k, rfl⟩ := h'
  exact ⟨k + n, Function.iterate_add_apply ..⟩

theorem Reaches.head (h : Reaches setting depth (step setting depth p) q) : Reaches setting depth p q :=
  .trans ⟨1, rfl⟩ h

theorem Reaches.of_step (h : step setting depth p = q) : Reaches setting depth p q := ⟨1, h⟩

/-- The process comes to where the step on the memory leads: to the work that follows its result, or to
its fault. -/
def Comes (setting : Setting) (depth : Nat) (p : Process) (frames : List Frame) {α : Type}
    (next : α → Program Unit) : EStateM.Result Fault Memory α → Prop
  | .ok a memory => Reaches setting depth p (running memory (next a) frames)
  | .error fault memory => Reaches setting depth p (failing fault memory frames)

theorem Comes.head {frames : List Frame} {α : Type} {next : α → Program Unit}
    {result : EStateM.Result Fault Memory α} (h : Comes setting depth (step setting depth p) frames next result) :
    Comes setting depth p frames next result := by
  cases result with
  | ok a memory => exact Reaches.head h
  | error fault memory => exact Reaches.head h

/-- A sequence comes where its second part does after its first. -/
theorem Comes.bind {frames : List Frame} {α β : Type} {x : Exec α} {f : α → Exec β} {memory : Memory}
    {next : α → Program Unit} {next' : β → Program Unit}
    (h : Comes setting depth p frames next (x memory))
    (hf : ∀ a memory, Comes setting depth (running memory (next a) frames) frames next' (f a memory)) :
    Comes setting depth p frames next' ((x >>= f) memory) := by
  cases hx : x memory with
  | error fault memory' =>
    rw [hx] at h
    rw [Exec.bind_error f hx]
    exact h
  | ok a memory' =>
    rw [hx] at h
    rw [Exec.bind_ok f hx]
    have hnext := hf a memory'
    cases hfa : f a memory' with
    | ok b memory'' =>
      rw [hfa] at hnext
      exact Reaches.trans h hnext
    | error fault memory'' =>
      rw [hfa] at hnext
      exact Reaches.trans h hnext

theorem comes_op (o : Op) (next : o.Answer → Program Unit) (memory : Memory) (frames : List Frame) :
    Comes setting depth (running memory (.op o next) frames) frames next (o.run setting.limits memory) := by
  cases ho : o.run setting.limits memory with
  | ok a memory' =>
    refine Reaches.of_step ?_
    simp only [step, ho]
  | error fault memory' =>
    refine Reaches.of_step ?_
    simp only [step, ho]

theorem comes_push (work : Program Unit) (frames : List Frame) : ∀ (vs : List Value) (memory : Memory),
    Comes setting depth (running memory (do vs.forM .push; work) frames) frames (fun _ => work)
      (vs.forM (Exec.push setting.limits) memory)
  | [], _ => Reaches.refl
  | v :: vs, memory =>
    (comes_op (.push v) (fun _ => do vs.forM .push; work) memory frames).bind fun _ memory =>
      comes_push work frames vs memory

end

/-! ## What the machine does -/

section

variable {setting : Setting} {depth : Nat}

/-- From these frames on calls come to where they lead a machine with so much room. -/
def CallsCome (setting : Setting) (depth room : Nat) (frames : List Frame) : Prop :=
  ∀ (f : Fn) (next : Unit → Program Unit) (memory : Memory),
    Comes setting depth (running memory (.call f next) frames) frames next (Exec.call setting room f memory)

/-- A function is applied in a frame of its own. -/
theorem comes_apply {room : Nat} {f : Fn} {next : List Value → Program Unit} {memory : Memory}
    {frames : List Frame}
    (hcall : CallsCome setting depth room (.applied f next memory :: frames)) (args : List Value) :
    Comes setting depth (running memory (.apply f args next) frames) frames next
      (Exec.lift (Exec.applyWith setting (Exec.call setting room) f args) memory) := by
  have hchild : Comes setting depth (running {} (do .pushAll args; .call f .done)
      (.applied f next memory :: frames)) (.applied f next memory :: frames) (fun _ : Unit => .done ())
      ((do Exec.pushAll setting.limits args; Exec.call setting room f : Exec Unit) {}) :=
    (comes_push (.call f .done) _ args.reverse {}).bind fun _ memory => hcall f .done memory
  have hsteps : (do
      Exec.pushAll setting.limits args
      Exec.call setting room f
      Exec.popMany f.outputs f.name : Exec (List Value)) =
        (do Exec.pushAll setting.limits args; Exec.call setting room f : Exec Unit) >>= fun _ =>
          Exec.popMany f.outputs f.name := (bind_assoc ..).symm
  refine Comes.head ?_
  rw [Exec.applyWith_eq, hsteps]
  cases hx : (do Exec.pushAll setting.limits args; Exec.call setting room f : Exec Unit) {} with
  | error fault below =>
    rw [hx] at hchild
    rw [Exec.bind_error _ hx]
    exact Reaches.trans hchild (.of_step rfl)
  | ok a below =>
    rw [hx] at hchild
    rw [Exec.bind_ok _ hx]
    -- the results are taken from the memory of the application, which goes with it
    cases hpop : Exec.popMany f.outputs f.name below with
    | ok vs below' =>
      refine Reaches.trans hchild (.of_step ?_)
      simp only [step, hpop]
    | error fault below' =>
      refine Reaches.trans hchild (.of_step ?_)
      simp only [step, hpop]

/-- Work comes to where it leads the machine if calls and applications in it do. -/
theorem comes_work {room : Nat} {frames : List Frame} (hcall : CallsCome setting depth room frames)
    (happly : ∀ f next memory,
      CallsCome setting depth (room - 1) (.applied f next memory :: frames)) (p : Program Unit) :
    ∀ memory : Memory, Comes setting depth (running memory p frames) frames (fun _ : Unit => .done ())
      (p.run setting (Exec.call setting room) (Exec.applyWith setting (Exec.call setting (room - 1))) memory) := by
  induction p with
  | done a => exact fun memory => Reaches.refl
  | fail fault => exact fun memory => Reaches.of_step rfl
  | op o next ih => exact fun memory => (comes_op o next memory frames).bind fun a memory => ih a memory
  | call f next ih => exact fun memory => (hcall f next memory).bind fun a memory => ih a memory
  | apply f args next ih =>
    exact fun memory => (comes_apply (happly f next memory) args).bind fun a memory => ih a memory

/-- The induction is on the room, which every frame makes less. -/
theorem callsCome (room : Nat) : ∀ frames : List Frame,
    setting.limits.maxDepth - (depth + frames.length) = room → CallsCome setting depth room frames := by
  induction room using Nat.strong_induction_on with
  | _ room ih =>
    intro frames hroom f next memory
    cases room with
    | zero =>
      refine Reaches.of_step ?_
      rw [step_call, if_pos (by omega)]
    | succ room =>
      have hcalls : CallsCome setting depth room (.called (next ()) :: frames) :=
        ih room (by omega) _ (by simp only [List.length_cons]; omega)
      have happlies : ∀ f' next' memory', CallsCome setting depth (room - 1)
          (.applied f' next' memory' :: .called (next ()) :: frames) := fun _ _ _ =>
        ih (room - 1) (by omega) _ (by simp only [List.length_cons]; omega)
      have hbody := comes_work hcalls happlies (.body setting.table f) memory
      refine Comes.head ?_
      rw [step_call, if_neg (by omega), Exec.call_succ, ← Program.Runs.body]
      generalize Program.run setting _ _ (.body setting.table f) memory = result at hbody ⊢
      cases result with
      | ok a memory' => exact Reaches.trans hbody (.of_step rfl)
      | error fault memory' => exact Reaches.trans hbody (.of_step rfl)

end

/-- A process comes to the end that the machine comes to. -/
theorem start_reaches (m : Machine) (code : List Instr) :
    Reaches m.setting m.depth (start m code) (.ended (m.run code).1 (m.run code).2.memory) := by
  have hcalls : CallsCome m.setting m.depth m.room [] := callsCome _ [] rfl
  have happlies : ∀ f next memory, CallsCome m.setting m.depth (m.room - 1) [.applied f next memory] :=
    fun f next memory => callsCome _ _ (by simp only [Machine.room, List.length_singleton]; omega)
  have hwork := comes_work hcalls happlies (code.forM (Program.instr m.setting.table)) m.memory
  have hruns : (code.forM (Program.instr m.setting.table)).run m.setting (Exec.call m.setting m.room)
      (Exec.applyWith m.setting (Exec.call m.setting (m.room - 1))) = code.forM m.instrStep :=
    Program.Runs.forM Program.Runs.instr code
  rw [hruns] at hwork
  cases hr : code.forM m.instrStep m.memory with
  | ok a memory =>
    rw [hr] at hwork
    rw [Machine.run_of_forM hr]
    exact Reaches.trans hwork (.of_step rfl)
  | error fault memory =>
    rw [hr] at hwork
    rw [Machine.run_of_forM_error hr]
    exact Reaches.trans hwork (.of_step rfl)

end Process

end Tacit
