/-
Limits all along a run. A watched machine counts the calls under way as it goes, up before the work of a
function and down after it, and keeps a record of every stack after every operation and of every call, of
its own and of the machines that functions are applied on. It does what a machine does, its count is back
where it was after whatever it did, and nothing in the record is beyond the limits.
-/
import Tacit.Proofs.Run.Program

namespace Tacit

/-! ## Watched machines -/

/-- What is seen of a machine: its depth and its stack after an operation, its depth as a function
starts its work, and its depths before a call and after it. -/
inductive Event where
  | operated (depth : Nat) (stack : List Value)
  | started (depth : Nat) (f : Fn)
  | called (before after : Nat)

structure Watch where
  depth : Nat := 0
  memory : Memory := {}
  /-- What was seen of the machine and of those under it, the last first. -/
  seen : List Event := []

/-- A step of a watched machine. -/
abbrev Watched := EStateM Fault Watch

namespace Watched

variable (setting : Setting) {α : Type}

/-- The outcome of a step, and what it leaves. -/
def on (x : Watched α) (w : Watch) : Except Fault α × Watch :=
  match x w with
  | .ok a w => (.ok a, w)
  | .error fault w => (.error fault, w)

/-- A step on the memory, after which the stack is seen, also where the step fails. -/
def watch (x : Exec α) : Watched α := fun w =>
  match x w.memory with
  | .ok a memory => .ok a ⟨w.depth, memory, .operated w.depth memory.stack :: w.seen⟩
  | .error fault memory => .error fault ⟨w.depth, memory, .operated w.depth memory.stack :: w.seen⟩

/-- A call that ends, whether it fails or not, is counted down from the calls under way. -/
def leave (before : Nat) (w : Watch) : Watch :=
  { w with depth := w.depth - 1, seen := .called before (w.depth - 1) :: w.seen }

/-- A step that counts as one more call for as long as it takes. -/
def nested (x : Watched α) : Watched α := fun w =>
  match x { w with depth := w.depth + 1 } with
  | .ok a w' => .ok a (leave w.depth w')
  | .error fault w' => .error fault (leave w.depth w')

/-- A step of a new machine, one call deeper and with nothing in its memory. -/
def child (x : Watched α) : Watched α := fun w =>
  match x { depth := w.depth + 1, seen := w.seen } with
  | .ok a c => .ok a { w with seen := c.seen }
  | .error fault c => .error fault { w with seen := c.seen }

/-- The work of a function is seen as it starts. -/
def start (f : Fn) (x : Watched α) : Watched α := fun w =>
  x { w with seen := .started w.depth f :: w.seen }

def applyWith (call : Fn → Watched Unit) (f : Fn) (args : List Value) : Watched (List Value) :=
  child do
    args.reverse.forM fun v => watch (Exec.push setting.limits v)
    call f
    watch (Exec.popMany f.outputs f.name)

def program (call : Fn → Watched Unit) (p : Program α) : Watched α :=
  p.interp (fun o => watch (o.run setting.limits)) call (applyWith setting call)

/-- A call that finds by the count whether it may go ahead; `fuel` bounds the calls in it. -/
def callFuel : Nat → Fn → Watched Unit
  | 0, _ => throw .endlessDefinition
  | fuel + 1, f => fun w =>
    if setting.limits.maxDepth ≤ w.depth then
      .error (.limit (.depth setting.limits.maxDepth f.name)) w
    else nested (start f (program setting (callFuel fuel) (.body setting.table f))) w

def call (f : Fn) : Watched Unit := callFuel setting (setting.limits.maxDepth + 1) f

def apply (f : Fn) (args : List Value) : Watched (List Value) := applyWith setting (call setting) f args

def step (i : Instr) : Watched Unit := program setting (call setting) (.instr setting.table i)

/-- Instructions in order, up to the first that fails; its fault is classified. -/
def run : List Instr → Watched Unit
  | [] => pure ()
  | i :: code => fun w =>
    match step setting i w with
    | .ok _ w => run code w
    | .error fault w => .error fault.classify w

/-- The final stack of a program on the stack given, bottom first. -/
def evaluate (stack : List Host) (code : List Instr) : Watched (List Value) := do
  stack.forM fun h => watch (Exec.pushHost setting.limits h)
  run setting code
  return (← get).memory.stack.reverse

end Watched

/-! ## Within the limits -/

/-- Every array on the stack has no more elements, and no function starts deeper, than the limits
allow; a call ends as deep as it began. -/
def Event.Within (limits : Limits) : Event → Prop
  | .operated _ stack => ∀ v ∈ stack, Exec.Fits limits v
  | .started depth _ => depth ≤ limits.maxDepth
  | .called before after => after = before

structure Watch.Within (limits : Limits) (w : Watch) : Prop where
  stack : ∀ v ∈ w.memory.stack, Exec.Fits limits v
  seen : ∀ e ∈ w.seen, e.Within limits

namespace Exec

/-- Whether it fails or not, the step leaves only values within the limit if it finds only such. -/
def KeepsFit (limits : Limits) {α : Type} (x : Exec α) : Prop :=
  ∀ m : Memory, (∀ v ∈ m.stack, Fits limits v) →
    match x m with
    | .ok _ m | .error _ m => ∀ v ∈ m.stack, Fits limits v

namespace KeepsFit

variable {limits : Limits}

theorem checkElements (count : Nat) (name : String) : KeepsFit limits (checkElements limits count name) := by
  intro m hm
  unfold Exec.checkElements
  by_cases h : limits.maxElements < count
  · rw [if_pos h]
    exact hm
  · rw [if_neg h]
    exact hm

/-- The one operation that adds a value. -/
theorem push (v : Value) : KeepsFit limits (push limits v) := by
  rintro ⟨stack, context⟩ hm
  by_cases hv : Fits limits v
  · rw [push_fits hv]
    intro u hu
    rcases List.mem_cons.1 hu with rfl | hu
    · exact hv
    · exact hm u hu
  · cases v with
    | fn f => exact absurd trivial hv
    | tensor t =>
      rw [push_too_large (Nat.lt_of_not_le hv)]
      exact hm

theorem pop (name : String) : KeepsFit limits (pop name) := by
  rintro ⟨_ | ⟨v, stack⟩, context⟩ hm
  · exact hm
  · exact fun u hu => hm u (List.mem_cons_of_mem _ hu)

theorem popOne (name : String) : KeepsFit limits (popOne name) := by
  rintro ⟨_ | ⟨v, stack⟩, context⟩ hm
  · exact hm
  · exact fun u hu => hm u (List.mem_cons_of_mem _ hu)

theorem popTwo (name : String) : KeepsFit limits (popTwo name) := by
  rintro ⟨_ | ⟨v, _ | ⟨w, stack⟩⟩, context⟩ hm
  · exact hm
  · exact hm
  · exact fun u hu => hm u (List.mem_cons_of_mem _ (List.mem_cons_of_mem _ hu))

theorem popMany (count : Nat) (name : String) : KeepsFit limits (popMany count name) := by
  rintro ⟨stack, context⟩ hm
  by_cases h : count ≤ stack.length
  · rw [popMany_run h]
    exact fun u hu => hm u (List.mem_of_mem_drop hu)
  · rw [popMany_short (Nat.lt_of_not_le h)]
    exact hm

theorem peek (offset : Nat) (name : String) : KeepsFit limits (peek offset name) := by
  rintro ⟨stack, context⟩ hm
  by_cases h : offset < stack.length
  · rw [peek_run h]
    exact hm
  · rw [peek_short (Nat.le_of_not_lt h)]
    exact hm

theorem restore (name : String) : KeepsFit limits (restore name) := by
  rintro ⟨stack, _ | ⟨s, context⟩⟩ hm <;> exact hm

theorem op (o : Op) : KeepsFit limits (o.run limits) := by
  cases o with
  | check count name => exact checkElements count name
  | push v => exact push v
  | pop name => exact pop name
  | popOne name => exact popOne name
  | popTwo name => exact popTwo name
  | popMany count name => exact popMany count name
  | peek offset name => exact peek offset name
  | save s => exact fun m hm => hm
  | restore name => exact restore name

theorem pushHost (h : Host) : KeepsFit limits (pushHost limits h) := by
  unfold Exec.pushHost
  cases Value.ofHost h with
  | ok v => exact push v
  | error fault => exact fun m hm => hm

theorem link (limits : Limits) : Program.Link Exec Exec fun _ x _ => KeepsFit limits x where
  pure _ := fun _ hm => hm
  throw _ := fun _ hm => hm
  bind {α β x _ f _} hx hf := by
    intro m hm
    have hfit := hx m hm
    cases hrun : x m with
    | ok a m' =>
      rw [hrun] at hfit
      rw [bind_ok f hrun]
      exact hf a m' hfit
    | error fault m' =>
      rw [hrun] at hfit
      rw [bind_error f hrun]
      exact hfit

/-- What a call leaves was pushed in it or stood there before. -/
theorem call {setting : Setting} : ∀ (room : Nat) (f : Fn), KeepsFit setting.limits (call setting room f)
  | 0, _ => fun _ hm => hm
  | room + 1, f => by
    have happly (g : Fn) (args : List Value) :
        KeepsFit setting.limits (lift (applyWith setting (Exec.call setting (room - 1)) g args)) := by
      cases applyWith setting (Exec.call setting (room - 1)) g args <;> exact fun _ hm => hm
    rw [call_succ]
    -- the second of the linked steps is of no account
    exact @Program.Link.body _ _ setting _ (Exec.call setting room) _
      (applyWith setting (Exec.call setting (room - 1))) (link setting.limits) op (call room) rfl happly f

end KeepsFit

end Exec

/-! ## What a watched machine does -/

/-- From a watch to a later one: at the same depth, and within the limits if the first is. -/
structure Watch.Reaches (limits : Limits) (w w' : Watch) : Prop where
  depth : w'.depth = w.depth
  within : w.Within limits → w'.Within limits

namespace Watch.Reaches

variable {limits : Limits} {w w' w'' : Watch}

theorem refl : w.Reaches limits w := ⟨rfl, id⟩

theorem trans (h : w.Reaches limits w') (h' : w'.Reaches limits w'') : w.Reaches limits w'' :=
  ⟨h'.depth.trans h.depth, h'.within ∘ h.within⟩

theorem operated {memory : Memory}
    (h : (∀ v ∈ w.memory.stack, Exec.Fits limits v) → ∀ v ∈ memory.stack, Exec.Fits limits v) :
    w.Reaches limits ⟨w.depth, memory, .operated w.depth memory.stack :: w.seen⟩ :=
  ⟨rfl, fun hw => ⟨h hw.stack, List.forall_mem_cons.2 ⟨h hw.stack, hw.seen⟩⟩⟩

/-- A call counts down what it counted up. -/
theorem nested (h : Reaches limits { w with depth := w.depth + 1 } w') :
    w.Reaches limits (Watched.leave w.depth w') := by
  have hdepth : w'.depth - 1 = w.depth := by simp [h.depth]
  refine ⟨hdepth, fun hw => ?_⟩
  obtain ⟨hstack, hseen⟩ := h.within ⟨hw.stack, hw.seen⟩
  exact ⟨hstack, List.forall_mem_cons.2 ⟨hdepth, hseen⟩⟩

theorem child (h : Reaches limits { depth := w.depth + 1, seen := w.seen } w') :
    w.Reaches limits { w with seen := w'.seen } where
  depth := rfl
  within hw := ⟨hw.stack, (h.within ⟨by simp, hw.seen⟩).seen⟩

theorem started (hdepth : w.depth ≤ limits.maxDepth) (f : Fn) :
    w.Reaches limits { w with seen := .started w.depth f :: w.seen } where
  depth := rfl
  within hw := ⟨hw.stack, List.forall_mem_cons.2 ⟨hdepth, hw.seen⟩⟩

end Watch.Reaches

namespace Watched

/-- The end of a watched step, and of the step on the memory alone. -/
inductive Told (limits : Limits) (w : Watch) {α : Type} :
    EStateM.Result Fault Watch α → EStateM.Result Fault Memory α → Prop
  | ok {w' : Watch} (a : α) (h : w.Reaches limits w') : Told limits w (.ok a w') (.ok a w'.memory)
  | error {w' : Watch} (fault : Fault) (h : w.Reaches limits w') :
    Told limits w (.error fault w') (.error fault w'.memory)

theorem Told.after {limits : Limits} {w w' : Watch} {α : Type} {r : EStateM.Result Fault Watch α}
    {r' : EStateM.Result Fault Memory α} (hw : w.Reaches limits w') (h : Told limits w' r r') :
    Told limits w r r' := by
  cases h with
  | ok a h => exact .ok a (hw.trans h)
  | error fault h => exact .error fault (hw.trans h)

/-- At this depth the watched step does what the other does on the memory. -/
def Follows (limits : Limits) (depth : Nat) {α : Type} (x : Watched α) (y : Exec α) : Prop :=
  ∀ w : Watch, w.depth = depth → Told limits w (x w) (y w.memory)

namespace Follows

variable {limits : Limits} {depth : Nat} {α β : Type}

theorem pure (a : α) : Follows limits depth (pure a) (pure a) := fun _ _ => .ok a .refl

theorem throw (fault : Fault) : Follows limits depth (throw fault : Watched α) (throw fault) :=
  fun _ _ => .error fault .refl

theorem bind {x : Watched α} {y : Exec α} {f : α → Watched β} {g : α → Exec β}
    (hx : Follows limits depth x y) (hf : ∀ a, Follows limits depth (f a) (g a)) :
    Follows limits depth (x >>= f) (y >>= g) := by
  intro w hw
  have h := hx w hw
  change Told limits w (EStateM.bind x f w) (EStateM.bind y g w.memory)
  unfold EStateM.bind
  generalize x w = r at h ⊢
  generalize y w.memory = r' at h ⊢
  cases h with
  | error fault h => exact .error fault h
  | ok a h => exact .after h (hf a _ (h.depth.trans hw))

theorem link (limits : Limits) (depth : Nat) :
    Program.Link Watched Exec fun _ => Follows limits depth where
  pure := pure
  throw := throw
  bind := bind

theorem forM {f : α → Watched Unit} {g : α → Exec Unit} (h : ∀ a, Follows limits depth (f a) (g a)) :
    ∀ xs : List α, Follows limits depth (xs.forM f) (xs.forM g)
  | [] => pure ()
  | x :: xs => (h x).bind fun _ => forM h xs

theorem watch {x : Exec α} (hx : Exec.KeepsFit limits x) : Follows limits depth (watch x) x := by
  intro w hw
  have hm := hx w.memory
  unfold Watched.watch
  cases hr : x w.memory with
  | ok a memory =>
    rw [hr] at hm
    exact .ok a (.operated hm)
  | error fault memory =>
    rw [hr] at hm
    exact .error fault (.operated hm)

theorem nested {x : Watched α} {y : Exec α} (h : Follows limits (depth + 1) x y) :
    Follows limits depth (nested x) y := by
  intro w hw
  subst hw
  have hx := h { w with depth := w.depth + 1 } rfl
  unfold Watched.nested
  generalize x { w with depth := w.depth + 1 } = r at hx ⊢
  dsimp only at hx
  generalize y w.memory = r' at hx ⊢
  -- the count goes down on both ways out
  cases hx with
  | ok a h => exact .ok a h.nested
  | error fault h => exact .error fault h.nested

theorem start {x : Watched α} {y : Exec α} (hdepth : depth ≤ limits.maxDepth) (f : Fn)
    (h : Follows limits depth x y) : Follows limits depth (start f x) y := by
  intro w hw
  subst hw
  exact .after (.started hdepth f) (h _ rfl)

/-- The child's memory is dropped with the child. -/
theorem child {x : Watched α} {y : Exec α} {z : Except Fault α} (h : Follows limits (depth + 1) x y)
    (hok : ∀ a m, y {} = .ok a m → z = .ok a)
    (herror : ∀ fault m, y {} = .error fault m → z = .error fault) :
    Follows limits depth (child x) (Exec.lift z) := by
  intro w hw
  subst hw
  have hx := h { depth := w.depth + 1, seen := w.seen } rfl
  unfold Watched.child
  generalize x { depth := w.depth + 1, seen := w.seen } = r at hx ⊢
  dsimp only at hx
  generalize hy : y {} = r' at hx
  cases hx with
  | ok a h =>
    rw [hok a _ hy]
    exact .ok a h.child
  | error fault h =>
    rw [herror fault _ hy]
    exact .error fault h.child

section

variable {setting : Setting} {call : Fn → Watched Unit} {call' : Fn → Exec Unit}

theorem applyWith (hcall : ∀ f, Follows setting.limits (depth + 1) (call f) (call' f)) (f : Fn)
    (args : List Value) : Follows setting.limits depth (applyWith setting call f args)
      (Exec.lift (Exec.applyWith setting call' f args)) := by
  have hsteps : Follows setting.limits (depth + 1)
      (do
        args.reverse.forM fun v => Watched.watch (Exec.push setting.limits v)
        call f
        Watched.watch (Exec.popMany f.outputs f.name))
      (do
        Exec.pushAll setting.limits args
        call' f
        Exec.popMany f.outputs f.name) :=
    (forM (fun v => watch (Exec.KeepsFit.push v)) _).bind fun _ => (hcall f).bind fun _ =>
      watch (Exec.KeepsFit.popMany _ _)
  refine hsteps.child (fun vs m h => ?_) fun fault m h => ?_
  · rw [Exec.applyWith_eq, h]
  · rw [Exec.applyWith_eq, h]

theorem program {apply : Exec.Apply} (hcall : ∀ f, Follows setting.limits depth (call f) (call' f))
    (happly : ∀ f args, Follows setting.limits depth (Watched.applyWith setting call f args)
      (Exec.lift (apply f args))) (p : Program α) :
    Follows setting.limits depth (program setting call p) (p.run setting call' apply) :=
  (link _ _).interp (fun o => watch (Exec.KeepsFit.op o)) hcall happly p

end

/-- The induction is on the fuel, of which there is always more than room. -/
theorem callFuel (setting : Setting) : ∀ (fuel depth : Nat) (f : Fn),
    setting.limits.maxDepth - depth < fuel → Follows setting.limits depth (callFuel setting fuel f)
      (Exec.call setting (setting.limits.maxDepth - depth) f)
  | 0, _, _, h => absurd h (Nat.not_lt_zero _)
  | fuel + 1, depth, f, h => by
    intro w hw
    unfold Watched.callFuel
    rw [hw]
    by_cases hdepth : setting.limits.maxDepth ≤ depth
    · rw [if_pos hdepth, Nat.sub_eq_zero_of_le hdepth]
      exact .error _ .refl
    · have hroom : setting.limits.maxDepth - depth = setting.limits.maxDepth - (depth + 1) + 1 := by
        omega
      have hchild : setting.limits.maxDepth - (depth + 1) - 1 =
          setting.limits.maxDepth - (depth + 1 + 1) := by omega
      rw [if_neg hdepth, hroom, Exec.call_succ, ← Program.Runs.body, hchild]
      -- the body runs one call deeper, and what it applies a function to, one more
      have hbody := program (fun g => callFuel setting fuel (depth + 1) g (by omega))
        (applyWith fun g => callFuel setting fuel (depth + 1 + 1) g (by omega))
        (.body setting.table f)
      exact (hbody.start (by omega) f).nested w hw

theorem call (setting : Setting) (depth : Nat) (f : Fn) : Follows setting.limits depth
    (call setting f) (Exec.call setting (setting.limits.maxDepth - depth) f) :=
  callFuel setting _ depth f (by omega)

theorem apply (setting : Setting) (depth : Nat) (f : Fn) (args : List Value) :
    Follows setting.limits depth (apply setting f args) (Exec.lift (Exec.applyWith setting
      (Exec.call setting (setting.limits.maxDepth - (depth + 1))) f args)) :=
  applyWith (call setting (depth + 1)) f args

theorem step (setting : Setting) (depth : Nat) (i : Instr) : Follows setting.limits depth
    (step setting i) (Exec.instr setting (Exec.call setting (setting.limits.maxDepth - depth)) i) := by
  rw [← Program.Runs.instr]
  exact program (call setting depth) (apply setting depth) _

end Follows

end Watched

/-! ## Machines -/

/-- The machine that is watched. -/
def Watch.machine (setting : Setting) (w : Watch) : Machine := ⟨setting, w.depth, w.memory⟩

namespace Watched

variable {setting : Setting} {w w' : Watch} {α : Type}

theorem on_ok {x : Watched α} {a : α} (h : x w = .ok a w') : x.on w = (.ok a, w') := by
  unfold on
  rw [h]

theorem on_error {x : Watched α} {fault : Fault} (h : x w = .error fault w') :
    x.on w = (.error fault, w') := by
  unfold on
  rw [h]

theorem on_bind_ok {β : Type} {x : Watched α} {a : α} (f : α → Watched β) (h : x w = .ok a w') :
    (x >>= f).on w = (f a).on w' := by
  change on (EStateM.bind x f) w = _
  simp only [on, EStateM.bind, h]

theorem on_bind_error {β : Type} {x : Watched α} {fault : Fault} (f : α → Watched β)
    (h : x w = .error fault w') : (x >>= f).on w = (.error fault, w') := by
  change on (EStateM.bind x f) w = _
  simp only [on, EStateM.bind, h]

/-- What a watched machine gives and leaves: what the machine does, at the depth of before and within
the limits if it was so before, whatever the outcome. -/
structure Tells (setting : Setting) (w : Watch) {α : Type} (watched : Except Fault α × Watch)
    (result : Except Fault α × Machine) : Prop where
  outcome : watched.1 = result.1
  machine : watched.2.machine setting = result.2
  depth : watched.2.depth = w.depth
  within : w.Within setting.limits → watched.2.Within setting.limits

theorem machine_of_reaches (h : w.Reaches setting.limits w') :
    w'.machine setting = { w.machine setting with memory := w'.memory } := by
  unfold Watch.machine
  rw [h.depth]

theorem Tells.of_reaches (h : w.Reaches setting.limits w') (outcome : Except Fault α) :
    Tells setting w (outcome, w') (outcome, { w.machine setting with memory := w'.memory }) where
  outcome := rfl
  machine := machine_of_reaches h
  depth := h.depth
  within := h.within

section

variable {watched : Except Fault α × Watch} {result : Except Fault α × Machine}

theorem Tells.reaches (ht : Tells setting w watched result) : w.Reaches setting.limits watched.2 :=
  ⟨ht.depth, ht.within⟩

theorem Tells.result_eq (ht : Tells setting w watched result) :
    result = (watched.1, watched.2.machine setting) :=
  Prod.ext ht.outcome.symm ht.machine.symm

theorem Tells.after (h : w.Reaches setting.limits w') (ht : Tells setting w' watched result) :
    Tells setting w watched result where
  outcome := ht.outcome
  machine := ht.machine
  depth := ht.depth.trans h.depth
  within := ht.within ∘ h.within

end

theorem Follows.tells {x : Watched α} {y : Exec α} (h : Follows setting.limits w.depth x y) :
    Tells setting w (x.on w) ((w.machine setting).exec y) := by
  have hx := h w rfl
  generalize hr : x w = r at hx
  generalize hr' : y w.memory = r' at hx
  cases hx with
  | ok a h =>
    rw [on_ok hr, Machine.exec_ok (m := w.machine setting) hr']
    exact .of_reaches h _
  | error fault h =>
    rw [on_error hr, Machine.exec_error (m := w.machine setting) hr']
    exact .of_reaches h _

theorem run_tells (setting : Setting) : ∀ (code : List Instr) (w : Watch),
    Tells setting w ((run setting code).on w) ((w.machine setting).run code)
  | [], w => .of_reaches .refl _
  | i :: code, w => by
    have hx := Follows.step setting w.depth i w rfl
    generalize hr : step setting i w = r at hx
    generalize hr' : Exec.instr setting _ i w.memory = r' at hx
    cases hx with
    | @ok w' a h =>
      have hon : (run setting (i :: code)).on w = (run setting code).on w' := by
        simp only [on, run, hr]
      -- the depth is back, so that the machine goes on from where the watched one is
      rw [hon, Machine.run_cons_ok (m := w.machine setting) code hr', ← machine_of_reaches h]
      exact .after h (run_tells setting code w')
    | @error w' fault h =>
      have hon : (run setting (i :: code)).on w = (.error fault.classify, w') := by
        simp only [on, run, hr]
      rw [hon, Machine.run_cons_error (m := w.machine setting) code hr']
      exact .of_reaches h _

theorem evaluate_reaches (setting : Setting) (stack : List Host) (code : List Instr) :
    ((evaluate setting stack code).on {}).1 = Machine.evaluate setting stack code ∧
      Watch.Reaches setting.limits {} ((evaluate setting stack code).on {}).2 := by
  have hpush : Follows setting.limits 0
      (stack.forM fun h => watch (Exec.pushHost setting.limits h))
      (stack.forM (Exec.pushHost setting.limits)) :=
    .forM (fun h => .watch (.pushHost h)) stack
  have hstack := hpush {} rfl
  unfold evaluate Machine.evaluate
  generalize hr : (stack.forM fun h => watch (Exec.pushHost setting.limits h)) ({} : Watch) = r at hstack
  generalize hr' : stack.forM (Exec.pushHost setting.limits) ({} : Watch).memory = r' at hstack
  cases hstack with
  | error fault h =>
    -- a value of the first stack is beyond the limit already
    rw [on_bind_error _ hr]
    dsimp only
    rw [Machine.exec_error hr']
    exact ⟨rfl, h⟩
  | @ok w a h =>
    have htells := run_tells setting code w
    have hreaches := h.trans htells.reaches
    rw [machine_of_reaches h] at htells
    rw [on_bind_ok _ hr]
    dsimp only
    rw [Machine.exec_ok hr']
    dsimp only
    rw [show Machine.run { setting := setting, memory := w.memory } code = _ from htells.result_eq]
    cases hq : run setting code w with
    | ok b w' =>
      rw [on_ok hq] at hreaches ⊢
      rw [on_bind_ok _ hq]
      exact ⟨rfl, hreaches⟩
    | error fault w' =>
      rw [on_error hq] at hreaches ⊢
      rw [on_bind_error _ hq]
      exact ⟨rfl, hreaches⟩

/-- The limits hold all along. An evaluation that is watched is the evaluation, and every array that
then stands on a stack is within the limit on elements, every function that starts its work within that
on depth, and every call ends as deep as it began, on the machine as on those under it. From any state
calls, applications, steps and runs do what they do on the machine, stay within the limits and end at the
depth at which they began, wherever something may have failed. -/
theorem watched_within (setting : Setting) :
    (∀ (stack : List Host) (code : List Instr),
      ((evaluate setting stack code).on {}).1 = Machine.evaluate setting stack code ∧
      ∀ event ∈ ((evaluate setting stack code).on {}).2.seen, event.Within setting.limits) ∧
    ∀ w : Watch,
      (∀ f, Tells setting w ((call setting f).on w) ((w.machine setting).call f)) ∧
      (∀ f args, Tells setting w ((apply setting f args).on w)
        ((w.machine setting).apply f args, w.machine setting)) ∧
      (∀ i, Tells setting w ((step setting i).on w) ((w.machine setting).step i)) ∧
      ∀ code, Tells setting w ((run setting code).on w) ((w.machine setting).run code) := by
  refine ⟨fun stack code => ?_, fun w => ⟨fun f => ?_, fun f args => ?_, fun i => ?_, fun code => ?_⟩⟩
  · obtain ⟨houtcome, hreaches⟩ := evaluate_reaches setting stack code
    exact ⟨houtcome, (hreaches.within ⟨by simp, by simp⟩).seen⟩
  · exact (Follows.call setting w.depth f).tells
  · have h := (Follows.apply setting w.depth f args).tells
    rw [Machine.exec_lift] at h
    exact h
  · exact (Follows.step setting w.depth i).tells
  · exact run_tells setting code w

/-- Work that has started, the last first, where the additions of a sum would be one call too deep. -/
example :
    let rows : Value := .tensor (.ofInts [2, 2] [1, 2, 3, 4])
    let w := ((evaluate { limits := ⟨4, 4⟩ } [.value rows] [.modify "each" [.name "sum"]]).on {}).2
    w.depth = 0 ∧ (w.seen.filterMap fun | .started depth f => some (depth, f.name) | _ => none) =
      [(3, "sum"), (1, "each(sum)")] := by decide +kernel

end Watched

end Tacit
