/-
The arrays in values, functions and code: the literals that are pushed, at any depth of quoted and derived
code. A derivation makes no array. What holds of the arrays in the table and in what it starts from holds
of those in what it gives.
-/
import Tacit.Proofs.Derive.Pairs

namespace Tacit

mutual

def Value.arrays : Value → List Tensor
  | .tensor t => [t]
  | .fn f => f.arrays

def Instr.arrays : Instr → List Tensor
  | .push v => v.arrays
  | .invoke f => f.arrays
  | .quote code => codeArrays code
  | .modify _ os => operandsArrays os
  | .word _ | .call | .unknown _ => []

def Operand.arrays : Operand → List Tensor
  | .fn f => f.arrays
  | .name _ => []
  | .code code => codeArrays code

def Fn.arrays : Fn → List Tensor
  | .body _ _ _ code => codeArrays code
  | .compose f g => f.arrays ++ g.arrays
  | .under f g before after => f.arrays ++ g.arrays ++ before.arrays ++ after.arrays
  | .resuming f g => f.arrays ++ g.arrays
  | .saving f | .copyTop f | .copyDeepest f | .reduce f | .each f | .groupBy f | .splitBy f => f.arrays
  | _ => []

def codeArrays : List Instr → List Tensor
  | [] => []
  | i :: code => i.arrays ++ codeArrays code

def operandsArrays : List Operand → List Tensor
  | [] => []
  | o :: os => o.arrays ++ operandsArrays os

end

section

variable (P : Tensor → Prop)

def Value.All (v : Value) : Prop := ∀ t ∈ v.arrays, P t

def Instr.All (i : Instr) : Prop := ∀ t ∈ i.arrays, P t

def Operand.All (o : Operand) : Prop := ∀ t ∈ o.arrays, P t

def Fn.All (f : Fn) : Prop := ∀ t ∈ f.arrays, P t

def Table.All (table : Table) : Prop := ∀ e ∈ table.entries, e.2.All P

end

variable {P : Tensor → Prop}

theorem forall_codeArrays {code : List Instr} : (∀ t ∈ codeArrays code, P t) ↔ ∀ i ∈ code, i.All P := by
  induction code with
  | nil => simp [codeArrays]
  | cons i code ih => simp [codeArrays, Instr.All, or_imp, forall_and, ih]

theorem forall_operandsArrays {os : List Operand} : (∀ t ∈ operandsArrays os, P t) ↔ ∀ o ∈ os, o.All P := by
  induction os with
  | nil => simp [operandsArrays]
  | cons o os ih => simp [operandsArrays, Operand.All, or_imp, forall_and, ih]

@[simp] theorem Value.all_tensor {t : Tensor} : (Value.tensor t).All P ↔ P t := by simp [All, arrays]

@[simp] theorem Value.all_fn {f : Fn} : (Value.fn f).All P ↔ f.All P := by simp [All, Fn.All, arrays]

@[simp] theorem Instr.all_push {v : Value} : (Instr.push v).All P ↔ v.All P := by simp [All, Value.All, arrays]

@[simp] theorem Instr.all_word {name : String} : (Instr.word name).All P := List.forall_mem_nil _

@[simp] theorem Instr.all_invoke {f : Fn} : (Instr.invoke f).All P ↔ f.All P := by simp [All, Fn.All, arrays]

@[simp] theorem Instr.all_quote {code : List Instr} : (Instr.quote code).All P ↔ ∀ i ∈ code, i.All P :=
  forall_codeArrays

@[simp] theorem Instr.all_modify {name : String} {os : List Operand} :
    (Instr.modify name os).All P ↔ ∀ o ∈ os, o.All P := forall_operandsArrays

@[simp] theorem Operand.all_fn {f : Fn} : (Operand.fn f).All P ↔ f.All P := by simp [All, Fn.All, arrays]

@[simp] theorem Operand.all_code {code : List Instr} : (Operand.code code).All P ↔ ∀ i ∈ code, i.All P :=
  forall_codeArrays

namespace Fn

@[simp] theorem all_word {w : Word} : (Fn.word w).All P := List.forall_mem_nil _

@[simp] theorem all_body {name : String} {s : Signature} {dynamic : Bool} {code : List Instr} :
    (body name s dynamic code).All P ↔ ∀ i ∈ code, i.All P := forall_codeArrays

@[simp] theorem all_compose {f g : Fn} : (compose f g).All P ↔ f.All P ∧ g.All P := by
  simp [All, arrays, or_imp, forall_and]

@[simp] theorem all_under {f g before after : Fn} :
    (under f g before after).All P ↔ f.All P ∧ g.All P ∧ before.All P ∧ after.All P := by
  simp [All, arrays, or_imp, forall_and]

@[simp] theorem all_resuming {f g : Fn} : (resuming f g).All P ↔ f.All P ∧ g.All P := by
  simp [All, arrays, or_imp, forall_and]

theorem all_ofCode {resolve : Instr → Except Fault Fn} {name : String} {code : List Instr} {f : Fn}
    (h : Fn.ofCode resolve name code = .ok f) (hc : ∀ i ∈ code, i.All P) : f.All P := by
  obtain ⟨s, dynamic, rfl, -⟩ := ofCode_eq h
  exact all_body.2 hc

theorem all_code {f : Fn} {code : List Instr} (hcode : f.code? = some code) (hf : f.All P) :
    ∀ i ∈ code, i.All P := by
  cases f with
  | body => cases hcode; exact all_body.1 hf
  | compose f g =>
    cases hcode
    simpa using hf
  | under f g before after =>
    cases hcode
    obtain ⟨-, hg, hbefore, hafter⟩ := all_under.1 hf
    simpa using ⟨hbefore, hg, hafter⟩
  | _ => cases hcode

theorem all_inverse {f g : Fn} (h : f.inverse? = some (.fn g)) : g.All P := by
  cases isDeclared_of_inverse h with
  | word => exact all_word
  | format | parse => exact List.forall_mem_nil _

end Fn

namespace Table.All

/-! ## One step of a derivation -/

variable {table : Table} (h : table.All P)

include h

theorem get {name : String} {f : Fn} (hf : table.get name = .ok f) : f.All P := h _ (mem_of_get hf)

section

variable {r : Instr → Except Fault Fn} {iv : Fn → Except Fault Fn} {up : Fn → Except Fault UnderPair}
  (hr : ∀ i f, r i = .ok f → i.All P → f.All P) (hi : ∀ f g, iv f = .ok g → f.All P → g.All P)
  (hu : ∀ f p, up f = .ok p → f.All P → p.before.All P ∧ p.after.All P)

theorem functionBy {o : Operand} {f : Fn} (hf : table.functionBy r o = .ok f) (ho : o.All P) : f.All P := by
  cases o with
  | fn g => cases hf; exact Operand.all_fn.1 ho
  | name name => exact h.get hf
  | code code => exact Fn.all_ofCode hf (Operand.all_code.1 ho)

omit h in
include hi hu in
theorem build {m : Modifier} {fs : List Fn} {f : Fn} (hfs : ∀ g ∈ fs, g.All P) (hf : m.build iv up fs = .ok f) :
    f.All P := by
  unfold Modifier.build at hf
  split at hf
  case h_1 =>
    cases hf
    exact Fn.all_compose.2 ⟨hfs _ (by simp), hfs _ (by simp)⟩
  case h_2 => exact hi _ f hf (hfs _ (by simp))
  case h_3 =>
    obtain ⟨p, hp, hf⟩ := Except.bind_ok hf
    cases hf
    exact Fn.all_under.2 ⟨hfs _ (by simp), hfs _ (by simp), hu _ p hp (hfs _ (by simp))⟩
  case h_4 | h_5 =>
    have hg := hfs _ (List.mem_singleton_self _)
    cases hf
    exact hg
  case h_6 | h_7 | h_8 | h_9 =>
    have hg := hfs _ (List.mem_singleton_self _)
    obtain ⟨_, -, hf⟩ := Except.bind_ok hf
    cases hf
    exact hg
  case h_10 => cases hf

include hi hu in
theorem resolveStep {i : Instr} {f : Fn} (hf : table.resolveStep r iv up i = .ok f) (ha : i.All P) : f.All P := by
  cases Table.resolution hf with
  | word hf => exact h.get hf
  | invoke => exact Instr.all_invoke.1 ha
  | modify hfs hf =>
    refine build hi hu (fun g hg => ?_) hf
    obtain ⟨o, ho, hog⟩ := Except.exists_of_mem_mapM hfs hg
    exact h.functionBy hog (Instr.all_modify.1 ha o ho)

include hr hi hu in
theorem invertStep {f g : Fn} (hg : table.invertStep r iv up f = .ok g) (ha : f.All P) : g.All P := by
  cases Table.inversion hg with
  | @declared _ _ inverse hinverse hg =>
    cases inverse with
    | named name => exact h.get hg
    | fn g' => cases hg; exact Fn.all_inverse hinverse
  | under haction hp =>
    obtain ⟨htransform, hact, -⟩ := Fn.all_under.1 ha
    exact Fn.all_under.2 ⟨htransform, hi _ _ haction hact, hu _ _ hp htransform⟩
  | @each f g hg' => exact hi f g hg' ha
  | code hcode _ hsteps hg =>
    have hall := Fn.all_code hcode ha
    refine Fn.all_ofCode hg fun i hmem => ?_
    obtain ⟨j, hj, u, u', hju, huu, ⟨t, -, hmem⟩ | rfl⟩ := of_mem_invertCode hsteps i hmem
    · exact hall i hmem
    · exact Instr.all_invoke.2 (hi u u' huu (hr j u hju (hall j hj)))

omit h in
include hr hu in
theorem ofCodePair {name : String} {code : List Instr} {p : UnderPair}
    (hp : UnderPair.ofCode r up name code = .ok p) (ha : ∀ i ∈ code, i.All P) :
    p.before.All P ∧ p.after.All P := by
  obtain ⟨vs, hvs, hbefore, hafter⟩ := UnderPair.ofCode_eq_ok hp
  have hpair : ∀ v ∈ vs, v.2.before.All P ∧ v.2.after.All P := by
    intro v hv
    obtain ⟨j, hj, hf, hp⟩ := of_mem_pairsOf hvs v hv
    exact hu _ _ hp (hr j _ hf (ha j hj))
  constructor
  · refine Fn.all_ofCode hbefore fun i hi => ?_
    obtain ⟨v, hv, hi⟩ := List.mem_flatMap.1 hi
    rcases List.mem_append.1 hi with hi | hi
    · obtain ⟨t, ht, rfl⟩ := List.mem_map.1 hi
      exact ha _ (mem_of_mem_pairsOf hvs hv ht)
    · rw [List.mem_singleton.1 hi]
      exact Instr.all_invoke.2 (hpair v hv).1
  · refine Fn.all_ofCode hafter fun i hi => ?_
    obtain ⟨v, hv, rfl⟩ := List.mem_map.1 hi
    exact Instr.all_invoke.2 (hpair v (by simpa using hv)).2

omit h in
include hr hi hu in
theorem underPairStep {f : Fn} {p : UnderPair} (hp : Table.underPairStep r iv up f = .ok p) (ha : f.All P) :
    p.before.All P ∧ p.after.All P := by
  cases Table.pairing hp with
  | keeper => exact ⟨List.forall_mem_nil _, List.forall_mem_nil _⟩
  | code hcode _ hp => exact ofCodePair hr hu hp (Fn.all_code hcode ha)
  | inverse _ hg => exact ⟨ha, hi _ _ hg ha⟩
  | parameters hg => exact ⟨ha, Fn.all_resuming.2 ⟨ha, hi _ _ hg ha⟩⟩

end

/-! ## Derivations -/

theorem derived (n : Nat) : (∀ i f, table.resolveIn n i = .ok f → i.All P → f.All P) ∧
    (∀ f g, table.invertIn n f = .ok g → f.All P → g.All P) ∧
    (∀ f p, table.underPairIn n f = .ok p → f.All P → p.before.All P ∧ p.after.All P) := by
  induction n with
  | zero => exact ⟨fun _ _ h => (by cases h), fun _ _ h => (by cases h), fun _ _ h => (by cases h)⟩
  | succ n ih =>
    obtain ⟨hr, hi, hu⟩ := ih
    exact ⟨fun _ _ => h.resolveStep hi hu, fun _ _ => h.invertStep hr hi hu, fun _ _ => underPairStep hr hi hu⟩

theorem made {m : Modifier} {fs : List Fn} {f : Fn} (hf : m.build table.invert table.underPair fs = .ok f)
    (hfs : ∀ g ∈ fs, g.All P) : f.All P :=
  build (fun f g hg => (h.derived _).2.1 f g hg) (fun f p hp => (h.derived _).2.2 f p hp) hfs hf

theorem derive {name : String} {os : List Operand} {f : Fn} (hf : table.derive name os = .ok f)
    (ho : ∀ o ∈ os, o.All P) : f.All P := by
  obtain ⟨m, fs, hf, hfs⟩ := derive_eq_ok hf
  refine h.made hf fun g hg => ?_
  obtain ⟨o, ho', hog⟩ := hfs g hg
  cases o with
  | fn g => cases hog; exact Operand.all_fn.1 (ho _ ho')
  | name name => exact h.get hog
  | code code => exact Fn.all_ofCode hog (Operand.all_code.1 (ho _ ho'))

end Table.All

end Tacit
