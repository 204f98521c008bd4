/-
The context stack over whole runs. A run that succeeds leaves it as it was, a run that fails still has
it below whatever was set aside, and no half is left without its item: a program runs as it does where
every under keeps what it sets aside.
-/
import Tacit.Proofs.Run.Handover

namespace Tacit

namespace Machine

/-! ## Machines without a context stack -/

/-- An instruction where every under keeps what its first half sets aside. -/
def ownStep (m : Machine) (i : Instr) : Except Fault Unit × Machine :=
  m.exec (Exec.instr m.setting (Exec.own m.setting m.room).call i)

def runOwn (m : Machine) : List Instr → Except Fault Unit × Machine
  | [] => (.ok (), m)
  | i :: code =>
    match m.ownStep i with
    | (.ok _, m) => m.runOwn code
    | (.error fault, m) => (.error fault.classify, m)

/-- The machine with the memory given. -/
def on (m : Machine) (stack : List Value) (context : List Saved) : Machine :=
  { m with memory := ⟨stack, context⟩ }

theorem classify_ne_nothingSaved {fault : Fault}
    (h : ∀ name, fault ≠ .domain (.nothingSaved name)) (name : String) :
    fault.classify ≠ .domain (.nothingSaved name) := by
  cases fault with
  | substrate c => simp [Fault.classify]
  | _ => exact h name

/-! ## Steps and runs -/

variable {free : Prop}

theorem step_agrees (m : Machine) (ht : m.setting.table.Formed free) {i : Instr}
    (hi : i.Formed free) : Exec.Agrees (Exec.Meets free) (fun _ => True) (m.instrStep i)
      (Exec.instr m.setting (Exec.own m.setting m.room).call i) :=
  (Exec.congruence_agrees _ _).rel_instr Exec.closed_meets rfl (Exec.realm_formed ht)
    (fun f hf => (Exec.call_agrees ht m.room).1 f hf) hi

theorem run_agrees (m : Machine) (ht : m.setting.table.Formed free) (c d : List Saved) :
    ∀ (code : List Instr) (stack : List Value), (∀ i ∈ code, i.Formed free) →
      (∀ v ∈ stack, Exec.Meets free v) →
      ((m.on stack c).run code).1 = ((m.on stack d).runOwn code).1 ∧
      ((m.on stack c).run code).2.memory.stack = ((m.on stack d).runOwn code).2.memory.stack ∧
      (((m.on stack c).run code).1 = .ok () → ((m.on stack c).run code).2.memory.context = c) ∧
      (∀ fault, ((m.on stack c).run code).1 = .error fault →
        c <:+ ((m.on stack c).run code).2.memory.context ∧
        ∀ name, fault ≠ .domain (.nothingSaved name))
  | [], stack, _, _ => ⟨rfl, rfl, fun _ => rfl, fun _ h => by cases h⟩
  | i :: code, stack, hc, hv => by
    have hstep := m.step_agrees ht (hc i (by simp)) stack c d hv
    have hrun : ((m.on stack c).step i) = (m.on stack c).exec (m.instrStep i) := rfl
    have hown : ((m.on stack d).ownStep i) = (m.on stack d).exec
        (Exec.instr m.setting (Exec.own m.setting m.room).call i) := rfl
    rw [run, runOwn, hrun, hown]
    unfold exec
    change Exec.Alike _ _ _ _ ((m.instrStep i).run (m.on stack c).memory)
      ((Exec.instr m.setting (Exec.own m.setting m.room).call i).run (m.on stack d).memory) at hstep
    generalize (m.instrStep i).run (m.on stack c).memory = r at hstep
    generalize (Exec.instr m.setting (Exec.own m.setting m.room).call i).run
      (m.on stack d).memory = r' at hstep
    cases hstep with
    | ok h hv' =>
      obtain ⟨-, -, rfl⟩ := h
      exact run_agrees m ht _ d code _ (fun j hj => hc j (by simp [hj])) hv'
    | error he hcontext =>
      refine ⟨rfl, rfl, fun h => (by cases h), fun fault h => ?_⟩
      cases h
      exact ⟨hcontext, classify_ne_nothingSaved he⟩

/-- Whatever a program is made of, the context stack after a run that succeeds is the one before it,
and after a run that fails that one is still at its bottom; a half never misses its item. The first half
of a derived pair leaves on the context stack just the items that the second half takes back, and the
run has the outcome of machines whose unders pass these items on themselves. -/
theorem run_context (m : Machine) (code : List Instr) (ht : Table.Built True m.setting.table)
    (hs : ∀ v ∈ m.memory.stack, Value.Built True v) (hc : ∀ i ∈ code, Instr.Built True i) :
    ((m.run code).1 = .ok () → (m.run code).2.memory.context = m.memory.context) ∧
    (∀ fault, (m.run code).1 = .error fault →
      m.memory.context <:+ (m.run code).2.memory.context ∧
      ∀ name, fault ≠ .domain (.nothingSaved name)) ∧
    (∀ f pair room, Fn.Built True f → m.setting.table.underPair f = .ok pair →
      Exec.HandsOver m.setting True room pair.before pair.after) ∧
    (m.run code).1 = (m.runOwn code).1 ∧
    (m.run code).2.memory.stack = (m.runOwn code).2.memory.stack := by
  obtain ⟨h1, h2, h3, h4⟩ := m.run_agrees ht.formed m.memory.context m.memory.context code
    m.memory.stack (fun i hi => (hc i hi).formed) fun v hv _ => (hs v hv).formed
  refine ⟨h3, h4, fun f pair room hf hp => ?_, h1, h2⟩
  exact (Exec.call_agrees ht.formed room).2 _ _ ((ht.formed.steps _).2.2 f pair hf.formed hp)

/-- The first two rows are negated in place, by code that is called from the stack. -/
def negateFront : List Instr :=
  [.quote [.modify "under" [.code [.push (.tensor (.int 2)), .word "take"], .name "negate"]], .call]

theorem run_context_negateFront :
    let m : Machine := { memory := ⟨[.tensor (.ofInts [3] [7, 8, 9])], [.shape [2]]⟩ }
    (m.run negateFront).1 = .ok () ∧ (m.run negateFront).2.memory.context = [.shape [2]] := by
  intro m
  have hrun : (m.run negateFront).1 = .ok () := by decide +kernel
  refine ⟨hrun, (run_context m negateFront .standard ?_ ?_).1 hrun⟩
  · simpa [m] using .tensor _
  · simp only [negateFront, List.mem_cons, List.not_mem_nil, or_false]
    rintro _ (rfl | rfl)
    · refine .quote fun _ i hi => ?_
      rw [List.mem_singleton.1 hi]
      refine .modify fun o ho => ?_
      simp only [List.mem_cons, List.not_mem_nil, or_false] at ho
      rcases ho with rfl | rfl
      · refine .code fun j hj => ?_
        simp only [List.mem_cons, List.not_mem_nil, or_false] at hj
        rcases hj with rfl | rfl
        · exact .push fun _ => .tensor _
        · exact .word _
      · exact .name _
    · exact .call trivial

end Machine

end Tacit
