/-
Single steps on a memory that is given: what each leaves there, and that it fails only on a stack that
is too short or at a limit. A step ends well if it fails with none but permitted faults.
-/
import Tacit.Proofs.Derive.Heights

namespace Tacit

/-! ## Functions among the arguments of a word -/

theorem Binary.onFunctionBelow_ne_ok {b : Binary} {t : Tensor} {v : Value} : b.onFunctionBelow t ≠ .ok v := by
  intro h
  cases b with
  | reshape | cycleReshape | rotate | formatWith | parseWith =>
    obtain ⟨_, -, h⟩ := Except.bind_ok h
    cases h
  | unrotate =>
    obtain ⟨_, -, h⟩ := Except.bind_ok h
    obtain ⟨_, -, h⟩ := Except.bind_ok h
    cases h
  | unscale op =>
    unfold onFunctionBelow at h
    dsimp only at h
    split at h <;> cases h
  | _ => cases h

/-- A function on top is alike to no array, and joins no fields to the empty text. -/
theorem Binary.onFunctionAbove_eq_ok {b : Binary} {u : Tensor} {v : Value} (h : b.onFunctionAbove u = .ok v) :
    b = .same ∧ v = .tensor (.truth false) ∨ b = .joinFields ∧ v = .tensor (.string []) := by
  cases b with
  | same =>
    cases h
    exact .inl ⟨rfl, rfl⟩
  | joinFields =>
    obtain ⟨texts, -, h⟩ := Except.bind_ok h
    split at h <;> cases h
    exact .inr ⟨rfl, rfl⟩
  | splitFields =>
    obtain ⟨text, -, h⟩ := Except.bind_ok h
    cases h
  | splitOn =>
    unfold onFunctionAbove at h
    dsimp only at h
    split at h <;> cases h
  | _ => cases h

/-- A word of two arguments gives what it makes of two arrays, or one of the two results that a function on top
can lead to. -/
theorem Binary.eval_eq_ok {b : Binary} {v w r : Value} (h : b.eval v w = .ok r) :
    (∃ t u q, v = .tensor t ∧ w = .tensor u ∧ b.onTensors t u = .ok q ∧ r = .tensor q) ∨
      b = .same ∧ r = .tensor (.truth false) ∨ b = .joinFields ∧ r = .tensor (.string []) := by
  match v, w with
  | .tensor t, .tensor u =>
    obtain ⟨q, hq, h⟩ := Except.bind_ok h
    cases h
    exact .inl ⟨t, u, q, rfl, rfl, hq, rfl⟩
  | .fn f, .tensor u => exact .inr (onFunctionAbove_eq_ok h)
  | .tensor t, .fn f => exact absurd h onFunctionBelow_ne_ok
  | .fn f, .fn g => cases b <;> cases h

end Tacit

namespace Tacit.Exec

/-! ## Sequences -/

theorem pure_run {α : Type} (a : α) (m : Memory) : (pure a : Exec α) m = .ok a m := rfl

theorem bind_ok {α β : Type} {x : Exec α} {m m' : Memory} {a : α} (f : α → Exec β)
    (h : x m = .ok a m') : (x >>= f) m = f a m' := by
  change EStateM.bind x f m = _
  unfold EStateM.bind
  rw [h]

theorem bind_error {α β : Type} {x : Exec α} {m m' : Memory} {fault : Fault} (f : α → Exec β)
    (h : x m = .error fault m') : (x >>= f) m = .error fault m' := by
  change EStateM.bind x f m = _
  unfold EStateM.bind
  rw [h]

theorem lift_bind {α β : Type} (x : Except Fault α) (f : α → Except Fault β) :
    lift (x >>= f) = lift x >>= fun a => lift (f a) := by
  cases x <;> rfl

/-- A function applied to values, on an empty memory. -/
theorem applyWith_eq (setting : Setting) (call : Fn → Exec Unit) (f : Fn) (args : List Value) :
    applyWith setting call f args =
      match (do pushAll setting.limits args; call f; popMany f.outputs f.name : Exec _) {} with
      | .ok vs _ => .ok vs
      | .error fault _ => .error fault := rfl

/-! ## Steps that end well -/

/-- The step fails only with a fault of the class `A`; what it gives and leaves is of the class `P`. -/
def Ends (A : Fault → Prop) {α : Type} (P : α → Memory → Prop) (x : Exec α) (m : Memory) : Prop :=
  match x m with
  | .ok a m => P a m
  | .error fault _ => A fault

namespace Ends

variable {A : Fault → Prop} {α β : Type} {P : α → Memory → Prop} {Q : β → Memory → Prop}
  {x : Exec α} {f : α → Exec β} {m m' : Memory}

theorem of_ok {a : α} (h : x m = .ok a m') (hp : P a m') : Ends A P x m := by
  unfold Ends
  rw [h]
  exact hp

theorem of_error {fault : Fault} (h : x m = .error fault m') (ha : A fault) : Ends A P x m := by
  unfold Ends
  rw [h]
  exact ha

theorem of_eq {y : Exec α} (h : y m' = x m) (hx : Ends A P x m) : Ends A P y m' := by
  unfold Ends
  rw [h]
  exact hx

theorem bind (h : Ends A P x m) (hf : ∀ a m, P a m → Ends A Q (f a) m) : Ends A Q (x >>= f) m := by
  unfold Ends at h
  cases hx : x m with
  | ok a m' =>
    rw [hx] at h
    have hfa := hf a m' h
    unfold Ends at hfa ⊢
    rw [bind_ok f hx]
    exact hfa
  | error fault m' =>
    rw [hx] at h
    exact of_error (bind_error f hx) h

theorem mono {P' : α → Memory → Prop} (h : Ends A P x m) (hp : ∀ a m, P a m → P' a m) :
    Ends A P' x m := by
  unfold Ends at h ⊢
  split at h
  · exact hp _ _ h
  · exact h

end Ends

/-! ## The operand stack -/

/-- Within the limit on elements, which functions always are. -/
def Fits (limits : Limits) : Value → Prop
  | .tensor t => t.size ≤ limits.maxElements
  | .fn _ => True

theorem checkElements_run (limits : Limits) (count : Nat) (name : String) (m : Memory) :
    checkElements limits count name m =
      if limits.maxElements < count then .error (.limit (.elements name count limits.maxElements)) m else .ok () m := by
  unfold checkElements
  split <;> rfl

theorem push_fits {limits : Limits} {v : Value} (h : Fits limits v) (stack : List Value)
    (context : List Saved) : push limits v ⟨stack, context⟩ = .ok () ⟨v :: stack, context⟩ := by
  cases v with
  | fn f => rfl
  | tensor t =>
    have hcheck : checkElements limits t.size "push" ⟨stack, context⟩ = .ok () ⟨stack, context⟩ := by
      rw [checkElements_run, if_neg (Nat.not_lt.2 h)]
    exact bind_ok _ hcheck

theorem push_too_large {limits : Limits} {t : Tensor} (h : limits.maxElements < t.size) (m : Memory) :
    push limits (.tensor t) m = .error (.limit (.elements "push" t.size limits.maxElements)) m := by
  refine bind_error _ ?_
  rw [checkElements_run, if_pos h]

theorem popMany_short {n : Nat} {stack : List Value} (h : stack.length < n) (name : String)
    (context : List Saved) : popMany n name ⟨stack, context⟩ =
      .error (.underflow (.short name n stack.length)) ⟨stack, context⟩ := by
  change (if _ then _ else _ : Exec _) _ = _
  rw [if_pos h]; rfl

theorem popMany_run {n : Nat} {stack : List Value} (h : n ≤ stack.length) (name : String)
    (context : List Saved) :
    popMany n name ⟨stack, context⟩ = .ok (stack.take n) ⟨stack.drop n, context⟩ := by
  change (if _ then _ else _ : Exec _) _ = _
  rw [if_neg (Nat.not_lt.2 h)]; rfl

theorem peek_short {offset : Nat} {stack : List Value} (h : stack.length ≤ offset) (name : String)
    (context : List Saved) : peek offset name ⟨stack, context⟩ =
      .error (.underflow (.short name (offset + 1) stack.length)) ⟨stack, context⟩ := by
  unfold peek
  refine (bind_ok _ rfl).trans ?_
  dsimp only
  rw [List.getElem?_eq_none h]; rfl

theorem peek_run {offset : Nat} {stack : List Value} (h : offset < stack.length) (name : String)
    (context : List Saved) : peek offset name ⟨stack, context⟩ = .ok stack[offset] ⟨stack, context⟩ := by
  unfold peek
  refine (bind_ok _ rfl).trans ?_
  dsimp only
  rw [List.getElem?_eq_getElem h]; rfl

/-! ## Words on arrays -/

section

variable {setting : Setting} {m m' : Memory}

/-- A step in two parts that succeeds does so in both. -/
theorem bind_eq_ok {α β : Type} {x : Exec α} {f : α → Exec β} {b : β}
    (h : (x >>= f) m = .ok b m') : ∃ a m'', x m = .ok a m'' ∧ f a m'' = .ok b m' := by
  cases hx : x m with
  | ok a m'' => exact ⟨a, m'', rfl, by rw [← h, bind_ok f hx]⟩
  | error fault m'' => rw [bind_error f hx] at h; cases h

theorem lift_eq_ok {α : Type} {x : Except Fault α} {a : α} (h : lift x m = .ok a m') :
    x = .ok a ∧ m' = m := by
  cases x with
  | ok b => cases h; exact ⟨rfl, rfl⟩
  | error fault => cases h

theorem push_eq_ok {limits : Limits} {v : Value} {a : Unit} (h : push limits v m = .ok a m') :
    Fits limits v ∧ m' = ⟨v :: m.stack, m.context⟩ := by
  by_cases hv : Fits limits v
  · rw [push_fits hv] at h
    cases h
    exact ⟨hv, rfl⟩
  · cases v with
    | fn f => exact absurd trivial hv
    | tensor t => rw [push_too_large (Nat.lt_of_not_le hv)] at h; cases h

theorem checkSize_eq_ok {size : Except Fault (Option Nat)} {name : String} {a : Unit}
    (h : checkSize setting size name m = .ok a m') : m' = m := by
  obtain ⟨n, m'', hn, h⟩ := bind_eq_ok h
  obtain ⟨-, rfl⟩ := lift_eq_ok hn
  cases n with
  | none => cases h; rfl
  | some n =>
    change (if _ then _ else _ : Exec Unit) _ = _ at h
    split at h <;> cases h
    rfl

/-- What a word does once its arguments are popped: the size of its result is checked where it is told, then the
result is pushed. -/
def finish (setting : Setting) (size : Except Fault (Option Nat)) (name : String) (v : Except Fault Value) :
    Exec Unit := do
  checkSize setting size name
  push setting.limits (← lift v)

theorem word_unary (u : Unary) (v : Value) (rest : List Value) (context : List Saved) :
    word setting (.unary u) ⟨v :: rest, context⟩ =
      finish setting (u.size? v) u.name (u.eval v) ⟨rest, context⟩ := rfl

theorem word_binary (b : Binary) (top below : Value) (rest : List Value) (context : List Saved) :
    word setting (.binary b) ⟨top :: below :: rest, context⟩ =
      finish setting (b.size? top below) b.name (b.eval top below) ⟨rest, context⟩ := rfl

theorem finish_unmeasured (name : String) (v : Except Fault Value) :
    finish setting (.ok none) name v = (do push setting.limits (← lift v)) := rfl

theorem finish_measured (n : Nat) (name : String) (v : Value) :
    finish setting (.ok (some n)) name (.ok v) =
      (do checkElements setting.limits n name; push setting.limits v) := rfl

theorem finish_run {name : String} {v : Value} (hfits : Fits setting.limits v) (rest : List Value)
    (context : List Saved) : finish setting (.ok none) name (.ok v) ⟨rest, context⟩ = .ok () ⟨v :: rest, context⟩ :=
  push_fits hfits rest context

theorem finish_eq_ok {size : Except Fault (Option Nat)} {name : String} {v : Except Fault Value} {a : Unit}
    (h : finish setting size name v m = .ok a m') :
    ∃ w, v = .ok w ∧ Fits setting.limits w ∧ m' = ⟨w :: m.stack, m.context⟩ := by
  obtain ⟨_, _, hsize, hrest⟩ := bind_eq_ok h
  cases checkSize_eq_ok hsize
  obtain ⟨w, _, hlift, hpush⟩ := bind_eq_ok hrest
  obtain ⟨hv, rfl⟩ := lift_eq_ok hlift
  exact ⟨w, hv, push_eq_ok hpush⟩

theorem word_unary_eq_ok {u : Unary} {t : Tensor} {rest : List Value} {context : List Saved} {a : Unit}
    (h : word setting (.unary u) ⟨.tensor t :: rest, context⟩ = .ok a m') :
    ∃ r, u.onTensor t = .ok r ∧ Fits setting.limits (.tensor r) ∧
      m' = ⟨.tensor r :: rest, context⟩ := by
  rw [word_unary] at h
  obtain ⟨w, heval, hfits, rfl⟩ := finish_eq_ok h
  obtain ⟨r, hr, hw⟩ := Except.bind_ok heval
  cases hw
  exact ⟨r, hr, hfits, rfl⟩

theorem word_binary_eq_ok {b : Binary} {t u : Tensor} {rest : List Value} {context : List Saved}
    {a : Unit} (h : word setting (.binary b) ⟨.tensor t :: .tensor u :: rest, context⟩ = .ok a m') :
    ∃ r, b.onTensors t u = .ok r ∧ Fits setting.limits (.tensor r) ∧
      m' = ⟨.tensor r :: rest, context⟩ := by
  rw [word_binary] at h
  obtain ⟨w, heval, hfits, rfl⟩ := finish_eq_ok h
  obtain ⟨r, hr, hw⟩ := Except.bind_ok heval
  cases hw
  exact ⟨r, hr, hfits, rfl⟩

theorem size_of_ne_range {u : Unary} (hu : u ≠ .range) (v : Value) : u.size? v = .ok none := by
  cases u with
  | range => exact absurd rfl hu
  | _ => rfl

theorem word_unary_run {u : Unary} {t r : Tensor} (hu : u ≠ .range) (hr : u.onTensor t = .ok r)
    (hfits : Fits setting.limits (.tensor r)) (rest : List Value) (context : List Saved) :
    word setting (.unary u) ⟨.tensor t :: rest, context⟩ = .ok () ⟨.tensor r :: rest, context⟩ := by
  have heval : u.eval (.tensor t) = .ok (.tensor r) := Except.bind_of_ok hr rfl
  rw [word_unary, size_of_ne_range hu, heval]
  exact finish_run hfits rest context

theorem word_binary_run {b : Binary} {t u r : Tensor}
    (hsize : b.size? (.tensor t) (.tensor u) = .ok none) (hr : b.onTensors t u = .ok r)
    (hfits : Fits setting.limits (.tensor r)) (rest : List Value) (context : List Saved) :
    word setting (.binary b) ⟨.tensor t :: .tensor u :: rest, context⟩ =
      .ok () ⟨.tensor r :: rest, context⟩ := by
  have heval : b.eval (.tensor t) (.tensor u) = .ok (.tensor r) := Except.bind_of_ok hr rfl
  rw [word_binary, hsize, heval]
  exact finish_run hfits rest context

end

/-! ## Code and calls -/

/-- A call that would be too deep. -/
def TooDeep (fault : Fault) : Prop := ∃ limit name, fault = .limit (.depth limit name)

theorem forM_append_eq_ok {f : Instr → Exec Unit} {code code' : List Instr} {m m' : Memory} {a : Unit}
    (h : (code ++ code').forM f m = .ok a m') :
    ∃ m'', code.forM f m = .ok () m'' ∧ code'.forM f m'' = .ok a m' := by
  rw [List.forM_eq_forM, List.forM_append] at h
  obtain ⟨_, m'', h, h'⟩ := bind_eq_ok h
  exact ⟨m'', h, h'⟩

theorem call_succ (setting : Setting) (room : Nat) (f : Fn) : call setting (room + 1) f =
    body setting (call setting room) (applyWith setting (call setting (room - 1))) f := by
  cases room <;> rfl

/-! ## Code -/

theorem body_code {f : Fn} {code : List Instr} (hcode : f.code? = some code)
    (hderivation : f.derivation = none) (setting : Setting)
    (call : Fn → Exec Unit) (apply : Apply) : body setting call apply f = code.forM (instr setting call) := by
  cases f with
  | body => cases hcode; rfl
  | compose f g =>
    cases hcode
    change (do call f; call g) = (do call f; call g; pure ())
    rw [bind_pure_unit]
  | under => cases hderivation
  | _ => cases hcode

def pushLiterals (limits : Limits) (ts : List Tensor) : Exec Unit := (ts.map .tensor).forM (push limits)

/-- The literals of a unit pushed and then its function called. -/
def runUnit (setting : Setting) (call : Fn → Exec Unit) (u : CodeUnit) : Exec Unit := do
  pushLiterals setting.limits u.literals
  call u.function

variable {setting : Setting}

theorem instr_word {name : String} {f : Fn} (hget : setting.table.get name = .ok f) (call : Fn → Exec Unit) :
    instr setting call (.word name) = call f := by
  show (do call (← lift (setting.table.get name))) = _
  rw [hget]
  rfl

variable (ht : setting.table.Flat)

include ht

/-- Where an instruction names a function it calls it. -/
theorem instr_of_resolve {i : Instr} {f : Fn} (hf : setting.table.resolve i = .ok f) (call : Fn → Exec Unit) :
    instr setting call i = call f := by
  cases i with
  | word name =>
    rw [ht.resolve_eq] at hf
    exact instr_word hf call
  | invoke g =>
    rw [ht.resolve_eq] at hf
    cases hf
    rfl
  | modify name os =>
    cases os with
    | nil =>
      rw [ht.resolve_eq] at hf
      cases hf
    | cons o os =>
      rw [ht.resolve_modify] at hf
      show (do call (← lift (setting.table.derive name (o :: os)))) = _
      rw [hf]
      rfl
  | push | quote | call | unknown =>
    rw [ht.resolve_eq] at hf
    obtain ⟨_, -, hf⟩ := Except.bind_ok hf
    cases hf

/-- Code does what its units do. The induction is on how the code is read, after the literals that await a
function. -/
theorem forM_units (call : Fn → Exec Unit) {code : List Instr} {pending : List Tensor} {us : List CodeUnit}
    (hus : unitsFrom setting.table.resolve pending code = .ok us) :
    (do pushLiterals setting.limits pending; code.forM (instr setting call)) = us.forM (runUnit setting call) := by
  replace hus := readAs_of_units hus
  induction hus with
  | nil => rfl
  | @literal pending t code us _ ih =>
    rw [← ih]
    unfold pushLiterals
    rw [List.map_append, List.forM_eq_forM, List.forM_eq_forM, List.forM_append, bind_assoc]
    refine bind_congr fun _ => ?_
    show _ = (do (do push setting.limits (.tensor t); pure ()); code.forM (instr setting call))
    rw [bind_pure_unit]
    rfl
  | @use pending i f code us _ hf _ ih =>
    have hrest : code.forM (instr setting call) = us.forM (runUnit setting call) := ih
    rw [List.forM_eq_forM, List.forM_cons, instr_of_resolve ht hf, ← List.forM_eq_forM, hrest,
      List.forM_eq_forM, List.forM_cons, runUnit, bind_assoc]

theorem forM_code {code : List Instr} {us : List CodeUnit} (hus : units setting.table.resolve code = .ok us)
    (call : Fn → Exec Unit) : code.forM (instr setting call) = us.forM (runUnit setting call) := forM_units ht call hus

end Tacit.Exec

namespace Tacit.Machine

/-! ## Machines -/

section

variable {m : Machine} {α : Type} {x : Exec α} {memory : Memory}

theorem exec_ok {a : α} (h : x m.memory = .ok a memory) :
    m.exec x = (.ok a, { m with memory := memory }) := by
  unfold exec EStateM.run
  rw [h]

theorem exec_error {fault : Fault} (h : x m.memory = .error fault memory) :
    m.exec x = (.error fault, { m with memory := memory }) := by
  unfold exec EStateM.run
  rw [h]

theorem exec_lift (m : Machine) (x : Except Fault α) : m.exec (Exec.lift x) = (x, m) := by
  cases x <;> rfl

end

theorem run_cons_ok {m : Machine} {i : Instr} {memory : Memory} {a : Unit} (code : List Instr)
    (h : m.instrStep i m.memory = .ok a memory) :
    m.run (i :: code) = Machine.run { m with memory := memory } code := by
  rw [run, step, exec_ok h]

theorem run_cons_error {m : Machine} {i : Instr} {memory : Memory} {fault : Fault}
    (code : List Instr) (h : m.instrStep i m.memory = .error fault memory) :
    m.run (i :: code) = (.error fault.classify, { m with memory := memory }) := by
  rw [run, step, exec_error h]

theorem instrStep_word (m : Machine) {name : String} {f : Fn} (hget : m.setting.table.get name = .ok f) :
    m.instrStep (.word name) = m.callStep f := Exec.instr_word hget m.callStep

theorem run_of_forM : ∀ {code : List Instr} {m : Machine} {memory : Memory},
    code.forM m.instrStep m.memory = .ok () memory → m.run code = (.ok (), { m with memory := memory })
  | [], m, memory, h => by cases h; rfl
  | i :: code, m, memory, h => by
    obtain ⟨_, memory', hi, h⟩ := Exec.bind_eq_ok h
    rw [run_cons_ok code hi]
    exact run_of_forM (m := { m with memory := memory' }) h

theorem run_of_forM_error : ∀ {code : List Instr} {m : Machine} {fault : Fault} {memory : Memory},
    code.forM m.instrStep m.memory = .error fault memory →
    m.run code = (.error fault.classify, { m with memory := memory })
  | [], _, _, _, h => by cases h
  | i :: code, m, fault, memory, h => by
    cases hi : m.instrStep i m.memory with
    | ok a memory' =>
      rw [run_cons_ok code hi]
      have hrest : (i :: code).forM m.instrStep m.memory = code.forM m.instrStep memory' :=
        Exec.bind_ok _ hi
      exact run_of_forM_error (m := { m with memory := memory' }) (hrest.symm.trans h)
    | error fault' memory' =>
      have herror : (i :: code).forM m.instrStep m.memory = .error fault' memory' := Exec.bind_error _ hi
      cases h.symm.trans herror
      exact run_cons_error code hi

theorem run_setting (m : Machine) (code : List Instr) : (m.run code).2.setting = m.setting := by
  cases h : code.forM m.instrStep m.memory with
  | ok a memory => rw [run_of_forM h]
  | error fault memory => rw [run_of_forM_error h]

theorem forM_of_run : ∀ {code : List Instr} {m : Machine}, (m.run code).1 = .ok () →
    ∃ memory, code.forM m.instrStep m.memory = .ok () memory
  | [], m, _ => ⟨m.memory, rfl⟩
  | i :: code, m, h => by
    cases hi : m.instrStep i m.memory with
    | ok a memory =>
      rw [run_cons_ok code hi] at h
      obtain ⟨memory', hcode⟩ := forM_of_run (m := { m with memory := memory }) h
      exact ⟨memory', (Exec.bind_ok _ hi).trans hcode⟩
    | error fault memory =>
      rw [run_cons_error code hi] at h
      cases h

theorem step_modify (m : Machine) {name : String} {o : Operand} {os : List Operand} {f : Fn}
    (h : m.setting.table.derive name (o :: os) = .ok f) : m.step (.modify name (o :: os)) = m.call f := by
  unfold step call
  change m.exec (do m.callStep (← Exec.lift (m.setting.table.derive name (o :: os)))) = _
  rw [h]
  rfl

theorem step_modify_ok {m : Machine} {name : String} {o : Operand} {os : List Operand} {f : Fn} {memory : Memory}
    (h : m.setting.table.derive name (o :: os) = .ok f)
    (hrun : Exec.call m.setting m.room f m.memory = .ok () memory) :
    m.step (.modify name (o :: os)) = (.ok (), { m with memory := memory }) :=
  (step_modify m h).trans (exec_ok hrun)

end Tacit.Machine
