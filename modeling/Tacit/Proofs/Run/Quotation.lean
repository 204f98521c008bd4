/-
Operands quoted on the stack. Code that is quoted comes back from the stack as the function that it is as an
operand, in the order in which it was quoted, so that a modifier makes the same function of quotations as of
the code written as its operands; called at once, that function runs on the same memory.
-/
import Tacit.Proofs.Run.Step

namespace Tacit

namespace Modifier

/-- The code quoted, the modifier applied to what is on the stack, and the function that it makes called. -/
def onStack (d : Modifier) (codes : List (List Instr)) : List Instr :=
  codes.map .quote ++ [.modify d.name [], .call]

/-- The modifier with the code for its operands. -/
def inline (d : Modifier) (codes : List (List Instr)) : Instr := .modify d.name (codes.map .code)

theorem ofName_name (d : Modifier) : ofName d.name = .ok d := by cases d <;> rfl

theorem arity_pos (d : Modifier) : 0 < d.arity := by cases d <;> decide

end Modifier

/-- A modifier applied to code makes its function of the functions that the code is. -/
theorem Table.derive_code (table : Table) {d : Modifier} {codes : List (List Instr)}
    (h : codes.length = d.arity) : table.derive d.name (codes.map .code) =
      codes.mapM table.lambda >>= d.build table.invert table.underPair := by
  have harity : d.checkArity (codes.map Operand.code).length = .ok () := by
    rw [List.length_map]
    exact if_pos h
  unfold derive
  rw [d.ofName_name, Except.ok_bind, harity, Except.ok_bind, List.mapM_map]
  rfl

namespace Exec

variable {setting : Setting} {call : Fn → Exec Unit} {fault : Fault}

/-! ## Quoting -/

/-- Quoted code goes on the stack as the function that it is, if it is one. -/
theorem instr_quote (code : List Instr) (m : Memory) :
    instr setting call (.quote code) m =
      match setting.table.lambda code with
      | .ok f => .ok () ⟨.fn f :: m.stack, m.context⟩
      | .error fault => .error fault m := by
  change (do push setting.limits (.fn (← lift (setting.table.lambda code))) : Exec Unit) m = _
  cases setting.table.lambda code with
  | ok f => rfl
  | error fault => rfl

/-- Quoted code lies on the stack as functions, the last on top. -/
theorem forM_quote {codes : List (List Instr)} {fs : List Fn}
    (h : codes.mapM setting.table.lambda = .ok fs) (stack : List Value) (context : List Saved) :
    (codes.map Instr.quote).forM (instr setting call) ⟨stack, context⟩ =
      .ok () ⟨(fs.map Value.fn).reverse ++ stack, context⟩ := by
  replace h := Except.forall₂_of_mapM h
  -- the functions quoted so far are under the next one, so the stack changes along the list
  induction h generalizing stack with
  | nil => rfl
  | @cons code f codes fs hf _ ih =>
    have hquote : instr setting call (.quote code) ⟨stack, context⟩ = .ok () ⟨.fn f :: stack, context⟩ := by
      rw [instr_quote, hf]
    refine (bind_ok _ hquote).trans ?_
    rw [List.map_cons, List.reverse_cons, List.append_assoc]
    exact ih (.fn f :: stack)

/-- The first code that is no function ends the quoting with its fault. -/
theorem forM_quote_error : ∀ {codes : List (List Instr)}, codes.mapM setting.table.lambda = .error fault →
    ∀ m, ∃ m', (codes.map Instr.quote).forM (instr setting call) m = .error fault m'
  | [], h, _ => nomatch h
  | code :: codes, h, m => by
    rw [List.mapM_cons] at h
    cases hf : setting.table.lambda code with
    | error e =>
      rw [hf] at h
      cases h
      refine ⟨m, bind_error _ ?_⟩
      rw [instr_quote, hf]
    | ok f =>
      have hquote : instr setting call (.quote code) m = .ok () ⟨.fn f :: m.stack, m.context⟩ := by
        rw [instr_quote, hf]
      rw [hf, Except.ok_bind] at h
      cases hfs : codes.mapM setting.table.lambda with
      | ok fs =>
        rw [hfs] at h
        cases h
      | error e =>
        rw [hfs] at h
        cases h
        obtain ⟨m', hm'⟩ := forM_quote_error hfs ⟨.fn f :: m.stack, m.context⟩
        exact ⟨m', (bind_ok _ hquote).trans hm'⟩

/-! ## Modifying -/

/-- As many functions as are asked for come off the stack, the top one first. -/
theorem mapM_popFunction (name : String) (stack : List Value) (context : List Saved) :
    ∀ (is : List Nat) (fs : List Fn), is.length = fs.length →
      (is.mapM fun _ => popFunction name) ⟨fs.map Value.fn ++ stack, context⟩ = .ok fs ⟨stack, context⟩
  | [], [], _ => rfl
  | _ :: is, f :: fs, h => by
    have hpop : popFunction name ⟨(f :: fs).map Value.fn ++ stack, context⟩ =
        .ok f ⟨fs.map Value.fn ++ stack, context⟩ := rfl
    rw [List.mapM_cons]
    refine (bind_ok _ hpop).trans ?_
    exact bind_ok _ (mapM_popFunction name stack context is fs (Nat.succ.inj h))

/-- What a modifier makes of functions from the stack takes their place. -/
theorem instr_modify {d : Modifier} {fs : List Fn} (h : fs.length = d.arity) (stack : List Value)
    (context : List Saved) :
    instr setting call (.modify d.name []) ⟨(fs.map Value.fn).reverse ++ stack, context⟩ =
      match d.build setting.table.invert setting.table.underPair fs with
      | .ok f => .ok () ⟨.fn f :: stack, context⟩
      | .error fault => .error fault ⟨stack, context⟩ := by
  have hpop : ((List.range d.arity).mapM fun _ => popFunction d.name)
      ⟨(fs.map Value.fn).reverse ++ stack, context⟩ = .ok fs.reverse ⟨stack, context⟩ := by
    rw [← List.map_reverse]
    exact mapM_popFunction d.name stack context _ _ (by simp [h])
  change (do
    let m ← lift (Modifier.ofName d.name)
    let operands ← (List.range m.arity).mapM fun _ => popFunction d.name
    let f ← lift (m.build setting.table.invert setting.table.underPair operands.reverse)
    push setting.limits (.fn f) : Exec Unit) _ = _
  rw [d.ofName_name]
  refine (bind_ok _ hpop).trans ?_
  rw [List.reverse_reverse]
  cases d.build setting.table.invert setting.table.underPair fs with
  | ok f => rfl
  | error fault => rfl

/-! ## Both ways -/

section

variable {d : Modifier} {codes : List (List Instr)} (h : codes.length = d.arity)

include h

/-- Written as operands, code is derived from and its function called. -/
theorem instr_inline : instr setting call (d.inline codes) =
    (do call (← lift (setting.table.derive d.name (codes.map .code)))) := by
  cases codes with
  | nil => exact absurd h d.arity_pos.ne
  | cons code codes => rfl

/-- Where a function can be derived, the code on the stack leads to its call on the memory as it was. -/
theorem forM_onStack {f : Fn} (hf : setting.table.derive d.name (codes.map .code) = .ok f) (m : Memory) :
    (d.onStack codes).forM (instr setting call) m = call f m := by
  obtain ⟨stack, context⟩ := m
  rw [Table.derive_code _ h] at hf
  obtain ⟨fs, hfs, hbuild⟩ := Except.bind_ok hf
  have hlength : fs.length = d.arity := (Except.forall₂_of_mapM hfs).length_eq.symm.trans h
  have hmodify : instr setting call (.modify d.name []) ⟨(fs.map Value.fn).reverse ++ stack, context⟩ =
      .ok () ⟨.fn f :: stack, context⟩ := by
    rw [instr_modify hlength, hbuild]
  rw [Modifier.onStack, List.forM_eq_forM, List.forM_append]
  refine (bind_ok _ (forM_quote hfs stack context)).trans ?_
  refine (bind_ok _ hmodify).trans ?_
  change (do call f; pure () : Exec Unit) ⟨stack, context⟩ = _
  rw [bind_pure_unit]

theorem forM_onStack_error (hf : setting.table.derive d.name (codes.map .code) = .error fault) (m : Memory) :
    ∃ m', (d.onStack codes).forM (instr setting call) m = .error fault m' := by
  rw [Table.derive_code _ h] at hf
  rw [Modifier.onStack, List.forM_eq_forM, List.forM_append]
  cases hfs : codes.mapM setting.table.lambda with
  | error e =>
    rw [hfs] at hf
    cases hf
    obtain ⟨m', hquote⟩ : ∃ m', (codes.map Instr.quote).forM (instr setting call) m = .error fault m' :=
      forM_quote_error hfs m
    exact ⟨m', bind_error _ hquote⟩
  | ok fs =>
    have hlength : fs.length = d.arity := (Except.forall₂_of_mapM hfs).length_eq.symm.trans h
    rw [hfs, Except.ok_bind] at hf
    have hmodify : instr setting call (.modify d.name []) ⟨(fs.map Value.fn).reverse ++ m.stack, m.context⟩ =
        .error fault m := by
      rw [instr_modify hlength, hf]
    exact ⟨m, (bind_ok _ (forM_quote hfs m.stack m.context)).trans (bind_error _ hmodify)⟩

end

end Exec

namespace Machine

/-- Code that does the same step by step runs alike. -/
theorem run_congr {m : Machine} {code code' : List Instr}
    (h : code.forM m.instrStep m.memory = code'.forM m.instrStep m.memory) : m.run code = m.run code' := by
  cases hcode : code'.forM m.instrStep m.memory with
  | ok a memory => rw [run_of_forM hcode, run_of_forM (h.trans hcode)]
  | error fault memory => rw [run_of_forM_error hcode, run_of_forM_error (h.trans hcode)]

/-- A modifier that finds its operands quoted on the stack, and whose function is then called, runs to the
outcome that it has with the same code for its operands. It leaves the same machine, too, where it can be
applied to that code at all, as it can where it runs to success. -/
theorem run_onStack (m : Machine) (d : Modifier) {codes : List (List Instr)} (h : codes.length = d.arity) :
    (m.run (d.onStack codes)).1 = (m.run [d.inline codes]).1 ∧
    ((m.run [d.inline codes]).1 = .ok () → m.run (d.onStack codes) = m.run [d.inline codes]) ∧
    ∀ f, m.setting.table.derive d.name (codes.map .code) = .ok f →
      m.run (d.onStack codes) = m.run [d.inline codes] := by
  have hinline : m.instrStep (d.inline codes) = _ := Exec.instr_inline h
  cases hf : m.setting.table.derive d.name (codes.map .code) with
  | ok f =>
    have hrun : m.run (d.onStack codes) = m.run [d.inline codes] := by
      refine run_congr ?_
      change (d.onStack codes).forM m.instrStep m.memory =
        (do m.instrStep (d.inline codes); pure ()) m.memory
      rw [bind_pure_unit, hinline, hf]
      exact Exec.forM_onStack h hf m.memory
    exact ⟨congrArg Prod.fst hrun, fun _ => hrun, fun _ _ => hrun⟩
  | error fault =>
    obtain ⟨memory, hstack⟩ : ∃ memory, (d.onStack codes).forM m.instrStep m.memory = .error fault memory :=
      Exec.forM_onStack_error h hf m.memory
    have herror : m.instrStep (d.inline codes) m.memory = .error fault m.memory := by
      rw [hinline, hf]
      rfl
    rw [run_of_forM_error hstack, run_cons_error [] herror]
    exact ⟨rfl, fun hok => (nomatch hok), fun _ hok => (nomatch hok)⟩

/-- The first two of three numbers negated in place, by a function that calls one from the stack. -/
theorem run_onStack_frontRows :
    let m : Machine := { memory := ⟨[.tensor (.ofInts [3] [7, 8, 9])], [.shape [2]]⟩ }
    let front : List Instr := [.push (.tensor (.int 2)), .word "take"]
    let negate : List Instr := [.quote [.word "negate"], .call]
    [front, negate].length = Modifier.under.arity ∧
    (m.run [Modifier.under.inline [front, negate]]).1 = .ok () ∧
    m.run (Modifier.under.onStack [front, negate]) = m.run [Modifier.under.inline [front, negate]] := by
  intro m front negate
  have hrun : (m.run [Modifier.under.inline [front, negate]]).1 = .ok () := by decide +kernel
  exact ⟨rfl, hrun, (run_onStack m .under rfl).2.1 hrun⟩

end Machine

end Tacit
