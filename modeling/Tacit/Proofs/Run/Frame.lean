/-
Values below. A machine never sees how much lies below the values that it works on: with more of them
a run ends as it does without, leaves them where they are, and fails for another reason only where it
misses a value. The same holds of items below on the context stack, and of a call that misses one.
-/
import Tacit.Proofs.Run.Mirror

namespace Tacit

/-- A fault for want of a value on the stack. -/
def Fault.IsUnderflow (fault : Fault) : Prop := ∃ cause, fault = .underflow cause

/-- More values below the stack, the uppermost first. -/
def Memory.above (below : List Value) (m : Memory) : Memory := { m with stack := m.stack ++ below }

namespace Exec

/-! ## Steps beside themselves -/

section

variable {A : Fault → Prop} {k : Memory → Memory}

theorem Mirrors.eq_ok {α : Type} {x y : Exec α} (h : Mirrors A k x y) {m m' : Memory} {a : α}
    (hx : x m = .ok a m') : y (k m) = .ok a (k m') := by
  have hm := h m
  rw [hx] at hm
  generalize y (k m) = r at hm ⊢
  cases hm
  rfl

theorem Mirrors.checkElements (limits : Limits) (count : Nat) (name : String) :
    Mirrors A k (checkElements limits count name) (checkElements limits count name) := by
  unfold Exec.checkElements
  split
  · exact throw _
  · exact pure ()

/-- A change of the memory that leaves a value on top alone mirrors its push. -/
theorem Mirrors.push (hk : ∀ v stack context, k ⟨v :: stack, context⟩ =
      ⟨v :: (k ⟨stack, context⟩).stack, (k ⟨stack, context⟩).context⟩) (limits : Limits) (v : Value) :
    Mirrors A k (push limits v) (push limits v) := by
  have hadd : Mirrors A k (modify fun m => { m with stack := v :: m.stack } : Exec Unit)
      (modify fun m => { m with stack := v :: m.stack }) := by
    rintro ⟨stack, context⟩
    have hadded := Mirrored.ok (A := A) (k := k) () ⟨v :: stack, context⟩
    rw [hk] at hadded
    exact hadded
  cases v with
  | fn f => exact hadd
  | tensor t => exact (checkElements limits _ _).bind fun _ => hadd

/-- Calls mirror themselves along a change that single operations do; a function applied to values has a memory
of its own, which does not change. -/
theorem Mirrors.call_self {setting : Setting}
    (hop : ∀ o : Op, Mirrors A k (o.run setting.limits) (o.run setting.limits)) :
    ∀ (room : Nat) (f : Fn), Mirrors A k (Exec.call setting room f) (Exec.call setting room f)
  | 0, f => .throw _
  | room + 1, f => by
    rw [call_succ]
    exact (Mirrors.link _ _).body hop (call_self hop room) rfl (fun f args => .lift _) f

end

/-! ## Values below -/

/-- With values below the second step does what the first does without them, unless that misses one. -/
abbrev Framed (below : List Value) {α : Type} (x y : Exec α) : Prop :=
  Mirrors Fault.IsUnderflow (Memory.above below) x y

namespace Framed

variable {below : List Value}

theorem pop (name : String) : Framed below (pop name) (pop name) := by
  rintro ⟨_ | ⟨v, stack⟩, context⟩
  · exact .excused ⟨.empty name, rfl⟩ ..
  · exact .ok v ⟨stack, context⟩

theorem popOne (name : String) : Framed below (popOne name) (popOne name) := by
  rintro ⟨_ | ⟨v, stack⟩, context⟩
  · exact .excused ⟨.short name 1 0, rfl⟩ ..
  · exact .ok v ⟨stack, context⟩

theorem popTwo (name : String) : Framed below (popTwo name) (popTwo name) := by
  rintro ⟨_ | ⟨v, _ | ⟨w, stack⟩⟩, context⟩
  · exact .excused ⟨.short name 2 0, rfl⟩ ..
  · exact .excused ⟨.short name 2 1, rfl⟩ ..
  · exact .ok (v, w) ⟨stack, context⟩

theorem popMany (count : Nat) (name : String) :
    Framed below (popMany count name) (popMany count name) := by
  rintro ⟨stack, context⟩
  by_cases h : count ≤ stack.length
  · have h' : count ≤ (stack ++ below).length := h.trans (by simp)
    rw [popMany_run h, Memory.above, popMany_run h', List.take_append_of_le_length h,
      List.drop_append_of_le_length h]
    exact .ok (stack.take count) ⟨stack.drop count, context⟩
  · rw [popMany_short (Nat.lt_of_not_le h)]
    exact .excused ⟨_, rfl⟩ ..

theorem peek (offset : Nat) (name : String) :
    Framed below (peek offset name) (peek offset name) := by
  rintro ⟨stack, context⟩
  by_cases h : offset < stack.length
  · have h' : offset < (stack ++ below).length := h.trans_le (by simp)
    rw [peek_run h, Memory.above, peek_run h', List.getElem_append_left h]
    exact .ok stack[offset] ⟨stack, context⟩
  · rw [peek_short (Nat.le_of_not_lt h)]
    exact .excused ⟨_, rfl⟩ ..

theorem restore (name : String) : Framed below (restore name) (restore name) := by
  rintro ⟨stack, _ | ⟨s, context⟩⟩
  · exact .error (.domain (.nothingSaved name)) ⟨stack, []⟩
  · exact .ok s ⟨stack, context⟩

theorem op (limits : Limits) (o : Op) : Framed below (o.run limits) (o.run limits) := by
  cases o with
  | check count name => exact Mirrors.checkElements limits count name
  | push v => exact Mirrors.push (fun _ _ _ => rfl) limits v
  | pop name => exact pop name
  | popOne name => exact popOne name
  | popTwo name => exact popTwo name
  | popMany count name => exact popMany count name
  | peek offset name => exact peek offset name
  | save s => exact fun m => .ok () { m with context := s :: m.context }
  | restore name => exact restore name

theorem call (setting : Setting) (room : Nat) (f : Fn) :
    Framed below (call setting room f) (call setting room f) := .call_self (op setting.limits) room f

end Framed

end Exec

/-! ## Items below -/

/-- A fault for want of an item on the context stack. -/
def Fault.IsNothingSaved (fault : Fault) : Prop := ∃ name, fault = .domain (.nothingSaved name)

/-- More items below on the context stack, the uppermost first. -/
def Memory.over (items : List Saved) (m : Memory) : Memory := { m with context := m.context ++ items }

namespace Exec

/-- With items below the second step does what the first does without them, unless that misses one. -/
abbrev Sheltered (items : List Saved) {α : Type} (x y : Exec α) : Prop :=
  Mirrors Fault.IsNothingSaved (Memory.over items) x y

namespace Sheltered

variable {items : List Saved}

theorem pop (name : String) : Sheltered items (pop name) (pop name) := by
  rintro ⟨_ | ⟨v, stack⟩, context⟩
  · exact .error (.underflow (.empty name)) ⟨[], context⟩
  · exact .ok v ⟨stack, context⟩

theorem popOne (name : String) : Sheltered items (popOne name) (popOne name) := by
  rintro ⟨_ | ⟨v, stack⟩, context⟩
  · exact .error (.underflow (.short name 1 0)) ⟨[], context⟩
  · exact .ok v ⟨stack, context⟩

theorem popTwo (name : String) : Sheltered items (popTwo name) (popTwo name) := by
  rintro ⟨_ | ⟨v, _ | ⟨w, stack⟩⟩, context⟩
  · exact .error (.underflow (.short name 2 0)) ⟨[], context⟩
  · exact .error (.underflow (.short name 2 1)) ⟨[v], context⟩
  · exact .ok (v, w) ⟨stack, context⟩

theorem popMany (count : Nat) (name : String) :
    Sheltered items (popMany count name) (popMany count name) := by
  rintro ⟨stack, context⟩
  by_cases h : count ≤ stack.length
  · rw [popMany_run h, Memory.over, popMany_run h]
    exact .ok (stack.take count) ⟨stack.drop count, context⟩
  · have h : stack.length < count := Nat.lt_of_not_le h
    rw [popMany_short h, Memory.over, popMany_short h]
    exact .error _ ⟨stack, context⟩

theorem peek (offset : Nat) (name : String) : Sheltered items (peek offset name) (peek offset name) := by
  rintro ⟨stack, context⟩
  by_cases h : offset < stack.length
  · rw [peek_run h, Memory.over, peek_run h]
    exact .ok stack[offset] ⟨stack, context⟩
  · have h : stack.length ≤ offset := Nat.le_of_not_lt h
    rw [peek_short h, Memory.over, peek_short h]
    exact .error _ ⟨stack, context⟩

theorem restore (name : String) : Sheltered items (restore name) (restore name) := by
  rintro ⟨stack, _ | ⟨s, context⟩⟩
  · exact .excused ⟨name, rfl⟩ ..
  · exact .ok s ⟨stack, context⟩

theorem op (limits : Limits) (o : Op) : Sheltered items (o.run limits) (o.run limits) := by
  cases o with
  | check count name => exact Mirrors.checkElements limits count name
  | push v => exact Mirrors.push (fun _ _ _ => rfl) limits v
  | pop name => exact pop name
  | popOne name => exact popOne name
  | popTwo name => exact popTwo name
  | popMany count name => exact popMany count name
  | peek offset name => exact peek offset name
  | save s => exact fun m => .ok () { m with context := s :: m.context }
  | restore name => exact restore name

theorem call (setting : Setting) (room : Nat) (f : Fn) :
    Sheltered items (call setting room f) (call setting room f) := .call_self (op setting.limits) room f

end Sheltered

end Exec

namespace Machine

theorem instrStep_framed (m : Machine) (below : List Value) (i : Instr) :
    Exec.Framed below (m.instrStep i) (m.instrStep i) :=
  (Exec.Mirrors.link _ _).instr (Exec.Framed.op m.setting.limits)
    (Exec.Framed.call m.setting m.room) rfl i

/-- The machine with more values below its stack, the lowest first. -/
def above (below : List Value) (m : Machine) : Machine :=
  { m with memory := m.memory.above below.reverse }

theorem stack_above (m : Machine) (below : List Value) : (m.above below).stack = below ++ m.stack := by
  simp [stack, above, Memory.above]

/-- Where a run succeeds, it does so above any other values, and leaves them below what it leaves
without them; where it fails for another reason than a missing value, it fails for that reason above
them, and leaves them alone, too. No program finds out or changes what lies below its stack. -/
theorem run_above (m : Machine) (below : List Value) (code : List Instr) :
    ((m.run code).1 = .ok () →
      ((m.above below).run code).1 = .ok () ∧
      ((m.above below).run code).2.stack = below ++ (m.run code).2.stack ∧
      ((m.above below).run code).2.memory.context = (m.run code).2.memory.context) ∧
    ∀ fault, (m.run code).1 = .error fault → (∀ cause, fault ≠ .underflow cause) →
      ((m.above below).run code).1 = .error fault ∧
      ((m.above below).run code).2.stack = below ++ (m.run code).2.stack := by
  have hunderflow : ∀ fault, Fault.IsUnderflow fault → Fault.IsUnderflow fault.classify := by
    rintro _ ⟨cause, rfl⟩
    exact ⟨cause, rfl⟩
  rcases run_mirrored hunderflow (m.instrStep_framed below.reverse) code m.memory with
    ⟨_, ⟨cause, rfl⟩, hmissed⟩ | hrun
  · refine ⟨fun h => ?_, fun fault h hother => ?_⟩
    · rw [hmissed] at h
      cases h
    · rw [hmissed] at h
      cases h
      exact absurd rfl (hother cause)
  · change (m.above below).run code = ((m.run code).1, _) at hrun
    rw [hrun]
    exact ⟨fun h => ⟨h, stack_above _ below, rfl⟩, fun fault h _ => ⟨h, stack_above _ below⟩⟩

/-- Subtracts with a function from the stack, and keeps the deeper argument below the difference. -/
def subtractBy : List Instr := [.quote [.word "subtract"], .modify "by" [], .call]

theorem run_above_subtractBy :
    let m : Machine :=
      { depth := 3, memory := ⟨[.tensor (.int 2), .tensor (.ofInts [2] [7, 9])], [.shape [2]]⟩ }
    let below : List Value := [.tensor (.int 1), .fn .sum]
    ((m.above below).run subtractBy).1 = .ok () ∧
    ((m.above below).run subtractBy).2.stack = below ++ (m.run subtractBy).2.stack ∧
    ((m.above below).run (subtractBy ++ [.call])).1 = .error (.domain (.functionWanted "call")) := by
  intro m below
  have hrun : (m.run subtractBy).1 = .ok () := by decide +kernel
  have hfail : (m.run (subtractBy ++ [.call])).1 = .error (.domain (.functionWanted "call")) := by
    decide +kernel
  obtain ⟨h, hstack, -⟩ := (run_above m below subtractBy).1 hrun
  exact ⟨h, hstack, ((run_above m below _).2 _ hfail fun cause h => nomatch h).1⟩

end Machine

end Tacit
