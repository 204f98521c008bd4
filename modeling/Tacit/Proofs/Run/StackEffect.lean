/-
Stack effects of runs. A step has an effect if it takes and leaves as many values as the effect says,
changes nothing deeper in the stack, and misses no value where there are enough. Effects of steps in a
row compose as their signatures do, so static functions have the effect that they declare.
-/
import Tacit.Proofs.Run.Handover

namespace Tacit

@[simp] def Fault.isUnderflow : Fault → Bool
  | .underflow _ => true
  | _ => false

/-- What leaves the faults of the machine to the machine leaves no stack too short. -/
theorem Avoids.isUnderflow {α : Type} {x : Except Fault α} (h : Avoids Fault.ofMachine x) :
    Avoids Fault.isUnderflow x := by
  intro e he
  have := h e he
  cases e with
  | underflow c => cases this
  | _ => rfl

theorem Avoids.no_underflow {α : Type} {x : Except Fault α} (h : Tame x) :
    Avoids Fault.isUnderflow x := h.ofMachine.isUnderflow

/-- Only words of two arguments have parameters, and only one of them. -/
theorem Fn.parametric_le (f : Fn) : f.parametric ≤ 1 ∧ f.parametric ≤ f.args := by
  cases f with
  | word w =>
    cases w with
    | binary b =>
      simp only [Fn.parametric, Word.parametric, Fn.args, Fn.signature, Word.signature]
      split <;> simp
    | _ => exact ⟨Nat.zero_le _, Nat.zero_le _⟩
  | _ => exact ⟨Nat.zero_le _, Nat.zero_le _⟩

namespace Template

theorem splitFrom_length (t : Template) : ∀ (literals : List Text) (position : Nat) (s : Text)
    (fields : List Text), t.splitFrom position s literals = .ok fields →
      fields.length = literals.length
  | [], _, _, _, h => by cases h; rfl
  | [tail], _, _, _, h => by
    unfold splitFrom at h
    split at h <;> cases h
    rfl
  | literal :: next :: more, position, s, fields, h => by
    unfold splitFrom at h
    split at h
    · cases h
    · split at h
      · cases h
      · obtain ⟨rest, hrest, h⟩ := Except.bind_ok h
        cases h
        rw [List.length_cons, t.splitFrom_length (next :: more) _ _ rest hrest]
        rfl

/-- A subject that fits has a text for each field. -/
theorem unfill_length {t : Template} {v : Value} {us : List Tensor} (h : t.unfill v = .ok us) :
    us.length = t.fields := by
  obtain ⟨u, -, h⟩ := Except.bind_ok h
  obtain ⟨subject, -, h⟩ := Except.bind_ok h
  obtain ⟨texts, htexts, h⟩ := Except.bind_ok h
  cases h
  rw [List.length_map]
  unfold split at htexts
  split at htexts
  · cases htexts
  · split at htexts
    · cases htexts
    · exact t.splitFrom_length _ _ _ _ htexts

end Template

namespace Exec

/-! ## Steps with an effect -/

/-- On enough values the step does not underflow; if it succeeds there were enough, they are gone,
and the result is of the class `P`. -/
def HasEffect (s : Signature) {α : Type} (P : α → Prop) (x : Exec α) : Prop :=
  ∀ stack context,
    match x ⟨stack, context⟩ with
    | .ok a m => P a ∧ s.args ≤ stack.length ∧
      ∃ out, out.length = s.outputs ∧ m.stack = out ++ stack.drop s.args
    | .error fault _ => s.args ≤ stack.length → fault.isUnderflow = false

namespace HasEffect

variable {α β : Type} {s t : Signature} {P : α → Prop} {P' : β → Prop} {x : Exec α}
  {f : α → Exec β}

theorem pure {a : α} (h : P a) : HasEffect .empty P (Pure.pure a : Exec α) :=
  fun stack _ => ⟨h, by simp [Signature.empty], [], rfl, rfl⟩

theorem bind (hx : HasEffect s P x) (hf : ∀ a, P a → HasEffect t P' (f a)) :
    HasEffect (s.andThen t) P' (x >>= f) := by
  intro stack context
  have hx := hx stack context
  cases hrun : x ⟨stack, context⟩ with
  | error fault m =>
    rw [hrun] at hx
    rw [bind_error f hrun]
    intro hle
    exact hx (by simp only [Signature.andThen] at hle; omega)
  | ok a m =>
    rw [hrun] at hx
    obtain ⟨ha, hs, out, hout, hm⟩ := hx
    have hf := hf a ha m.stack m.context
    rw [bind_ok f hrun]
    cases hrun' : f a m with
    | error fault m' =>
      rw [hrun'] at hf
      intro hle
      refine hf ?_
      simp only [Signature.andThen] at hle
      simp only [hm, List.length_append, List.length_drop]
      omega
    | ok b m' =>
      rw [hrun'] at hf
      obtain ⟨hb, ht, out', hout', hm'⟩ := hf
      rw [hm, List.length_append, List.length_drop] at ht
      refine ⟨hb, by simp only [Signature.andThen]; omega, out' ++ out.drop t.args, ?_, ?_⟩
      · simp only [Signature.andThen, List.length_append, List.length_drop]
        omega
      · -- What the second step takes past the output of the first is deeper in the stack.
        rw [hm', hm, List.drop_append, List.append_assoc, List.drop_drop, hout]
        rfl

theorem mono {Q : α → Prop} (h : HasEffect s P x) (hp : ∀ a, P a → Q a) : HasEffect s Q x := by
  intro stack context
  have := h stack context
  cases hrun : x ⟨stack, context⟩ with
  | ok a m =>
    rw [hrun] at this
    exact ⟨hp a this.1, this.2⟩
  | error fault m =>
    rw [hrun] at this
    exact this

theorem of_eq (h : HasEffect s P x) (hs : s = t) : HasEffect t P x := hs ▸ h

theorem lift {y : Except Fault α} (h : Avoids Fault.isUnderflow y) (hp : ∀ a, y = .ok a → P a) :
    HasEffect .empty P (lift y) := by
  cases y with
  | ok a => exact pure (hp a rfl)
  | error e => exact fun _ _ _ => h e rfl

/-- A step before others that takes and leaves nothing. -/
theorem empty_bind (hx : HasEffect .empty P x) (hf : ∀ a, P a → HasEffect t P' (f a)) :
    HasEffect t P' (x >>= f) := (hx.bind hf).of_eq (Signature.empty_andThen t)

theorem lift_bind {y : Except Fault α} (h : Avoids Fault.isUnderflow y)
    (hf : ∀ a, y = .ok a → HasEffect t P' (f a)) : HasEffect t P' (Exec.lift y >>= f) :=
  empty_bind (lift h fun _ ha => ha) hf

theorem map {g : α → β} (h : HasEffect s P x) (hp : ∀ a, P a → P' (g a)) :
    HasEffect s P' (g <$> x) := by
  rw [map_eq_pure_bind]
  exact (h.bind fun a ha => pure (hp a ha)).of_eq (Signature.andThen_empty s)

end HasEffect

/-! ## Steps on the operand stack -/

section

variable {limits : Limits} {name : String}

theorem effect_push (v : Value) : HasEffect ⟨0, 1⟩ (fun _ => True) (push limits v) := by
  intro stack context
  by_cases h : Fits limits v
  · rw [push_fits h]
    exact ⟨trivial, by simp, [v], rfl, rfl⟩
  · cases v with
    | fn f => exact absurd trivial h
    | tensor t =>
      rw [push_too_large (Nat.lt_of_not_le h)]
      exact fun _ => rfl

theorem effect_forM_push : ∀ vs : List Value,
    HasEffect ⟨0, vs.length⟩ (fun _ => True) (vs.forM (push limits))
  | [] => HasEffect.pure trivial
  | v :: vs => ((effect_push v).bind fun _ _ => effect_forM_push vs).of_eq (by
      simp [Signature.andThen])

theorem effect_pushAll (vs : List Value) :
    HasEffect ⟨0, vs.length⟩ (fun _ => True) (pushAll limits vs) :=
  (effect_forM_push vs.reverse).of_eq (by simp)

theorem effect_pop : HasEffect ⟨1, 0⟩ (fun _ => True) (pop name) := by
  intro stack context
  cases stack with
  | nil => exact fun h => by cases h
  | cons v stack => exact ⟨trivial, by simp, [], rfl, rfl⟩

theorem effect_popOne : HasEffect ⟨1, 0⟩ (fun _ => True) (popOne name) := by
  intro stack context
  cases stack with
  | nil => exact fun h => by cases h
  | cons v stack => exact ⟨trivial, by simp, [], rfl, rfl⟩

theorem effect_popTwo : HasEffect ⟨2, 0⟩ (fun _ => True) (popTwo name) := by
  intro stack context
  cases stack with
  | nil => exact fun h => by cases h
  | cons v stack =>
    cases stack with
    | nil => exact fun h => absurd h (by simp)
    | cons w stack => exact ⟨trivial, by simp, [], rfl, rfl⟩

theorem effect_popMany (n : Nat) : HasEffect ⟨n, 0⟩ (fun vs => vs.length = n) (popMany n name) := by
  intro stack context
  by_cases h : stack.length < n
  · rw [popMany_short h]
    exact fun hle => absurd h (Nat.not_lt.2 hle)
  · rw [popMany_run (Nat.not_lt.1 h)]
    exact ⟨by simpa using Nat.not_lt.1 h, Nat.not_lt.1 h, [], rfl, rfl⟩

/-- What is looked at has to be there, and stays. -/
theorem effect_peek (offset : Nat) :
    HasEffect ⟨offset + 1, offset + 1⟩ (fun _ => True) (peek offset name) := by
  intro stack context
  by_cases h : offset < stack.length
  · rw [peek_run h]
    exact ⟨trivial, h, stack.take (offset + 1), by simp; omega, (List.take_append_drop _ _).symm⟩
  · rw [peek_short (Nat.not_lt.1 h)]
    exact fun hle => absurd hle h

end

/-! ## Words -/

variable {setting : Setting}

theorem effect_checkElements {limits : Limits} (n : Nat) (name : String) :
    HasEffect .empty (fun _ => True) (checkElements limits n name) := by
  unfold checkElements
  split
  · exact fun _ _ _ => rfl
  · exact .pure trivial

theorem effect_checkSize {size : Except Fault (Option Nat)} (h : Tame size) (name : String) :
    HasEffect .empty (fun _ => True) (checkSize setting size name) := by
  refine HasEffect.lift_bind (.no_underflow h) fun n _ => ?_
  cases n with
  | none => exact .pure trivial
  | some n => exact effect_checkElements n name

theorem effect_lift_push {limits : Limits} {x : Except Fault Value} (h : Tame x) :
    HasEffect ⟨0, 1⟩ (fun _ => True) (do push limits (← lift x)) :=
  HasEffect.lift_bind (.no_underflow h) fun v _ => effect_push v

theorem effect_word (w : Word) : HasEffect w.signature (fun _ => True) (word setting w) := by
  cases w with
  | dup => exact effect_popOne.bind fun _ _ => (effect_push _).bind fun _ _ => effect_push _
  | pop => exact effect_popOne.map fun _ _ => trivial
  | swap | flip => exact effect_popTwo.bind fun _ _ => (effect_push _).bind fun _ _ => effect_push _
  | dupBelow =>
    exact effect_popTwo.bind fun _ _ => (effect_push _).bind fun _ _ => (effect_push _).bind fun _ _ =>
      effect_push _
  | unary u =>
    exact effect_popOne.bind (t := ⟨0, 1⟩) fun v _ =>
      (effect_checkSize (u.tame_size? v) _).empty_bind fun _ _ => effect_lift_push (u.tame_eval v)
  | binary b =>
    exact effect_popTwo.bind (t := ⟨0, 1⟩) fun p _ =>
      (effect_checkSize (b.tame_size? _ _) _).empty_bind fun _ _ => effect_lift_push (b.tame_eval _ _)

/-! ## Rows -/

/-- Applied to values, the function leaves one and no stack is too short. -/
def LeavesOne (apply : Apply) (f : Fn) (n : Nat) : Prop :=
  ∀ args : List Value, args.length = n →
    Avoids Fault.isUnderflow (apply f args) ∧ ∀ vs, apply f args = .ok vs → vs.length = 1

section

variable {apply : Apply} {f : Fn}

theorem LeavesOne.applyOne {n : Nat} (h : LeavesOne apply f n) {args : List Value}
    (hn : args.length = n) : Avoids Fault.isUnderflow (applyOne apply f args) := by
  refine .bind_of_eq_ok (h args hn).1 fun vs hvs => ?_
  obtain ⟨v, rfl⟩ := List.length_eq_one_iff.1 ((h args hn).2 vs hvs)
  exact .pure v

theorem LeavesOne.foldFrom (h : LeavesOne apply f 2) : ∀ (rows : List Tensor) (acc : Value),
    Avoids Fault.isUnderflow (foldFrom apply f acc rows)
  | [], _ => .pure _
  | _ :: rows, _ => .bind (h.applyOne rfl) fun acc => h.foldFrom rows acc

theorem LeavesOne.foldRows (h : LeavesOne apply f 2) (t : Tensor) :
    Avoids Fault.isUnderflow (foldRows apply f t) := by
  unfold Exec.foldRows
  split
  · exact .pure _
  · split
    · exact h.foldFrom _ _
    · split
      · exact .pure _
      · simp

/-- An array popped and a value pushed that is made of it. -/
theorem effect_popTensor {name : String} {k : Tensor → Exec Unit}
    (h : ∀ t, HasEffect ⟨0, 1⟩ (fun _ => True) (k t)) :
    HasEffect ⟨1, 1⟩ (fun _ => True) (do let t ← lift (← pop name).tensor?; k t) :=
  effect_pop.bind (t := ⟨0, 1⟩) fun v _ =>
    HasEffect.lift_bind (.no_underflow v.tame_tensor?) fun t _ => h t

theorem LeavesOne.fold (h : LeavesOne apply f 2) (name : String) :
    HasEffect ⟨1, 1⟩ (fun _ => True) (fold setting apply f name) :=
  effect_popTensor fun t => HasEffect.lift_bind (h.foldRows t) fun v _ => effect_push v

theorem LeavesOne.each (h : LeavesOne apply f 1) (name : String) :
    HasEffect ⟨1, 1⟩ (fun _ => True) (each setting apply f name) := by
  refine effect_popTensor fun t => ?_
  split
  · exact HasEffect.lift_bind (h.applyOne rfl) fun v _ => effect_push v
  · refine HasEffect.lift_bind (.mapM _ fun row => h.applyOne rfl) fun vs _ => ?_
    split
    · exact effect_push _
    · exact HasEffect.lift_bind (.no_underflow (.mapM _ fun v => v.tame_tensor?)) fun ts _ => effect_push _

theorem avoids_truth (v : Value) (name : String) :
    Avoids Fault.isUnderflow (truth v name) := by
  unfold truth
  repeat' split
  all_goals simp

theorem LeavesOne.runsAfter {same : Tensor → Tensor → Except Fault Bool}
    (h : ∀ t u, Avoids Fault.isUnderflow (same t u)) : ∀ (rows : List Tensor) (last : Tensor)
      (current : List Tensor), Avoids Fault.isUnderflow (runsAfter same last current rows)
  | [], _, _ => .pure _
  | r :: rows, last, current => by
    refine .bind (h last r) fun b => ?_
    split
    · exact runsAfter h rows _ _
    · exact .map (runsAfter h rows _ _)

theorem LeavesOne.groupBy (h : LeavesOne apply f 2) (name : String) :
    HasEffect ⟨1, 1⟩ (fun _ => True) (groupBy setting apply f name) := by
  refine effect_popTensor fun t => HasEffect.lift_bind (.map ?_) fun u _ => effect_push _
  unfold runs
  split
  · exact .pure _
  · exact runsAfter (fun t u => .bind (h.applyOne rfl) fun v => avoids_truth v name) _ _ _

theorem LeavesOne.splitBy (h : LeavesOne apply f 1) (name : String) :
    HasEffect ⟨1, 1⟩ (fun _ => True) (splitBy setting apply f name) := by
  refine effect_popTensor fun t => HasEffect.lift_bind (.mapM _ fun row => ?_) fun mask _ => ?_
  · exact .bind (h.applyOne rfl) fun v => avoids_truth v name
  · exact HasEffect.lift_bind (.no_underflow (by simp)) fun u _ => effect_push _

theorem effect_product (h : LeavesOne apply (.word (.binary (.apply .multiply))) 2) :
    HasEffect ⟨1, 1⟩ (fun _ => True) (product setting apply) := by
  refine effect_popTensor fun t => ?_
  have hfold : ∀ u, HasEffect ⟨0, 1⟩ (fun _ => True)
      (do push setting.limits (← lift (foldRows apply (.word (.binary (.apply .multiply))) u))) :=
    fun u => HasEffect.lift_bind (h.foldRows u) fun v _ => effect_push v
  split
  · split
    · exact hfold _
    · refine HasEffect.lift_bind (.mapM _ fun x => ?_) fun parts _ => ?_
      · exact .bind (h.foldRows x) fun v => .no_underflow v.tame_tensor?
      · exact HasEffect.lift_bind (.no_underflow (by simp)) fun u _ => effect_push _
  · exact hfold t

end

/-! ## Code -/

/-- Calls of formed functions have the effects that their signatures say. -/
def CallsSound (call : Fn → Exec Unit) : Prop :=
  ∀ f, f.Formed False → HasEffect f.signature (fun _ => True) (call f)

section

variable {call : Fn → Exec Unit} (hc : CallsSound call) (ht : setting.table = .standard)

include hc ht

theorem effect_instr {i : Instr} (hi : i.Formed False) {n : Nat} {s : Signature}
    (hs : i.effect (Table.standard.resolveIn n) = .ok s) :
    HasEffect s (fun _ => True) (instr setting call i) := by
  have hstandard : Table.standard.Formed False := .ofStandard
  unfold instr
  rw [ht]
  cases hi with
  | push hv => cases hs; exact effect_push _
  | quote hcode =>
    cases hs
    exact HasEffect.lift_bind (Table.standard.spares_ofMachine.lambda _).isUnderflow fun f _ => effect_push _
  | call hfree | make _ hfree => exact hfree.elim
  | unknown text => cases hs
  | word name =>
    obtain ⟨f, hf, hs⟩ := Except.bind_ok hs
    cases hs
    refine HasEffect.lift_bind (Table.tame_get _ _).ofMachine.isUnderflow fun g hg => ?_
    have hfg : f = g := by
      cases n with
      | zero => cases hf
      | succ n =>
        have : Table.standard.get name = .ok f := hf
        rw [this] at hg
        cases hg
        rfl
    exact hfg ▸ hc g (hstandard.get hg)
  | invoke hf =>
    obtain ⟨g, hg, hs⟩ := Except.bind_ok hs
    cases hs
    cases n with
    | zero => cases hg
    | succ n => cases hg; exact hc _ hf
  | @modify name o os hos =>
    obtain ⟨f, hf, hs⟩ := Except.bind_ok hs
    cases hs
    refine HasEffect.lift_bind (Table.standard.spares_ofMachine.derive _ _).isUnderflow fun g hg => ?_
    -- the run derives the function in other bounds than the inference does
    obtain ⟨k, hk⟩ := (Table.eventually_derive hg).exists_forall_of_atTop
    have hn := Table.resolveIn_mono (Nat.le_max_left n k) hf
    rw [hk _ (Nat.le_max_right n k)] at hn
    cases hn
    exact hc _ (hstandard.derive hos hg)

theorem effect_code {n : Nat} : ∀ {code : List Instr} {s : Signature},
    (∀ i ∈ code, i.Formed False) → stackEffect (Table.standard.resolveIn n) code = .ok s →
    HasEffect s (fun _ => True) (code.forM (instr setting call))
  | [], s, _, hs => by cases hs; exact .pure trivial
  | i :: code, s, hi, hs => by
    obtain ⟨t, u, ht', hu, rfl⟩ := stackEffect_cons hs
    exact (effect_instr hc ht (hi i (by simp)) ht').bind fun _ _ =>
      effect_code (fun j hj => hi j (by simp [hj])) hu

end

/-! ## Functions -/

theorem leavesOne_applyWith {call : Fn → Exec Unit} {f : Fn}
    (hc : HasEffect f.signature (fun _ => True) (call f)) {n : Nat} (hs : f.signature = ⟨n, 1⟩) :
    LeavesOne (applyWith setting call) f n := by
  intro args hn
  have hsteps : HasEffect .empty (fun vs => vs.length = 1)
      (do pushAll setting.limits args; call f; popMany f.outputs f.name) := by
    have houtputs : f.outputs = 1 := by unfold Fn.outputs; rw [hs]
    rw [houtputs]
    refine ((effect_pushAll args).bind fun _ _ => hc.bind fun _ _ => effect_popMany 1).of_eq ?_
    rw [hs, hn]
    simp [Signature.andThen, Signature.empty]
  have hrun := hsteps [] []
  rw [applyWith_eq]
  generalize (do pushAll setting.limits args; call f; popMany f.outputs f.name : Exec _) _ = r at hrun
  cases r with
  | ok vs m => exact ⟨.ok vs, fun us hus => by cases hus; exact hrun.1⟩
  | error fault m =>
    refine ⟨fun e he => ?_, fun us hus => by cases hus⟩
    cases he
    exact hrun (by simp [Signature.empty])

theorem effect_format (t : Template) (call : Fn → Exec Unit) (apply : Apply) :
    HasEffect (Fn.format t).signature (fun _ => True) (body setting call apply (.format t)) := by
  refine (effect_popMany t.fields).bind (t := ⟨0, 1⟩) fun vs _ => ?_
  exact HasEffect.lift_bind (.no_underflow (t.tame_fill vs)) fun u _ => effect_push _

theorem effect_parse (t : Template) (call : Fn → Exec Unit) (apply : Apply) :
    HasEffect (Fn.parse t).signature (fun _ => True) (body setting call apply (.parse t)) := by
  refine effect_popOne.bind (t := ⟨0, t.fields⟩) fun v _ => ?_
  refine HasEffect.lift_bind (.no_underflow (t.tame_unfill v)) fun us hus => ?_
  refine (effect_pushAll _).of_eq ?_
  rw [List.length_map, Template.unfill_length hus]

theorem effect_body {call : Fn → Exec Unit} {apply : Apply} (hc : CallsSound call)
    (ht : setting.table = .standard)
    (hA : ∀ f n, f.Formed False → f.signature = ⟨n, 1⟩ → LeavesOne apply f n) {f : Fn}
    (hf : f.Formed False) (hp : f.isPlain) :
    HasEffect f.signature (fun _ => True) (body setting call apply f) := by
  cases hf with
  | word w => exact effect_word w
  | sum => exact (hA _ 2 (.word _) rfl).fold _
  | product => exact effect_product (hA _ 2 (.word _) rfl)
  | body hi hs =>
    obtain ⟨n, hn⟩ := hs.resolve_left id
    exact effect_code hc ht hi hn
  | compose hf hg => exact (hc _ hf).bind fun _ _ => hc _ hg
  | under => cases hp
  | @copyTop g hg =>
    refine ((effect_peek 0).bind fun v _ => (hc _ hg).bind fun _ _ => effect_push v).of_eq ?_
    simp only [Signature.andThen, Fn.signature, Signature.mk.injEq]
    split <;> omega
  | @copyDeepest g hg =>
    refine ((effect_peek _).bind fun v _ => (hc _ hg).bind fun _ _ =>
      (effect_popMany g.outputs).bind (t := ⟨0, 1 + g.outputs⟩) fun vs hvs => ?_).of_eq ?_
    · exact ((effect_push v).bind fun _ _ => effect_pushAll vs).of_eq (by
        simp [Signature.andThen, hvs]; omega)
    · simp only [Signature.andThen, Fn.signature, Fn.args, Fn.outputs, Signature.mk.injEq]
      split <;> omega
  | reduce hg hs => exact (hA _ 2 hg hs).fold _
  | each hg hs => exact (hA _ 1 hg hs).each _
  | groupBy hg hs => exact (hA _ 2 hg hs).groupBy _
  | splitBy hg hs => exact (hA _ 1 hg hs).splitBy _
  | format t => exact effect_format t call apply
  | parse t => exact effect_parse t call apply

/-! ## Halves -/

/-- The two halves have the effects that their signatures say. -/
def PairSound (r : Runner) (f g : Fn) : Prop :=
  HasEffect f.signature (fun h => HasEffect g.signature (fun _ => True) (r.after g h)) (r.before f)

section

variable {r : Runner} {us : List (List Tensor × UnderPair)}

theorem effect_literals {P : List Handed → Prop} {hs : List Handed} {code : List Instr} {n : Nat}
    (h : ∀ s, stackEffect (Table.standard.resolveIn n) code = .ok s →
      HasEffect s P (beforeCode setting r code hs)) :
    ∀ (ts : List Tensor) (s : Signature), stackEffect (Table.standard.resolveIn n)
        (ts.map (fun t => Instr.push (.tensor t)) ++ code) = .ok s →
      HasEffect s P (beforeCode setting r (ts.map (fun t => Instr.push (.tensor t)) ++ code) hs)
  | [], s, hs => h s hs
  | t :: ts, s, hs => by
    obtain ⟨t', u, ht, hu, rfl⟩ := stackEffect_cons hs
    cases ht
    exact HasEffect.bind (x := instr setting r.call (.push (.tensor t))) (effect_push (.tensor t))
      fun _ _ => effect_literals h ts u hu

/-- An invoked function is resolved to itself. -/
theorem invoke_effect {f : Fn} {n : Nat} {s : Signature}
    (h : (Instr.invoke f).effect (Table.standard.resolveIn n) = .ok s) : s = f.signature := by
  obtain ⟨g, hg, h⟩ := Except.bind_ok h
  cases h
  cases n with
  | zero => cases hg
  | succ n => cases hg; rfl

theorem effect_beforeCode (h : ∀ u ∈ us, PairSound r u.2.before u.2.after) {n : Nat}
    (hs : List Handed) {s : Signature} (hcode : stackEffect (Table.standard.resolveIn n)
      (us.flatMap fun u => halfCode u.1 u.2.before) = .ok s) :
    HasEffect s (fun hs' => ∃ new, hs' = new ++ hs ∧ List.Forall₂ (fun u h =>
        HasEffect u.2.after.signature (fun _ => True) (r.after u.2.after h)) us.reverse new)
      (beforeCode setting r (us.flatMap fun u => halfCode u.1 u.2.before) hs) := by
  induction us generalizing hs s with
  | nil => cases hcode; exact .pure ⟨[], rfl, .nil⟩
  | cons u us ih =>
    rw [List.flatMap_cons, halfCode, List.append_assoc] at hcode ⊢
    refine effect_literals (fun s hcode => ?_) _ s hcode
    obtain ⟨t, t', ht, ht', rfl⟩ := stackEffect_cons hcode
    rw [invoke_effect ht]
    refine (h u (by simp)).bind fun handed hr => ?_
    refine (ih (fun u hu => h u (by simp [hu])) (handed :: hs) ht').mono ?_
    rintro _ ⟨new, rfl, hnew⟩
    -- the first unit hands over first and is undone last
    refine ⟨new ++ [handed], by simp, ?_⟩
    rw [List.reverse_cons]
    exact List.rel_append hnew (.cons hr .nil)

theorem effect_afterCode {us : List (List Tensor × UnderPair)} {hs : List Handed}
    (h : List.Forall₂ (fun u h =>
      HasEffect u.2.after.signature (fun _ => True) (r.after u.2.after h)) us hs)
    {n : Nat} {s : Signature} (hcode : stackEffect (Table.standard.resolveIn n)
      (us.map fun u => .invoke u.2.after) = .ok s) :
    HasEffect s (fun _ => True) (afterCode r (us.map fun u => .invoke u.2.after) hs) := by
  induction h generalizing s with
  | nil => cases hcode; exact .pure trivial
  | cons hr _ ih =>
    obtain ⟨t, t', ht, ht', rfl⟩ := stackEffect_cons hcode
    rw [invoke_effect ht]
    exact hr.bind fun _ _ => ih ht'

end

theorem pairSound_keeper (k : Keeper) (apply : Apply) (r : Runner) :
    HasEffect (Fn.stash k).signature (fun h => HasEffect (Fn.restore k).signature (fun _ => True)
      (r.afterWith setting apply (.restore k) h)) (r.beforeWith setting apply (.stash k)) := by
  have hkeep : HasEffect ⟨k.word.signature.args, 0⟩ (fun _ => True) (setAside k) := by
    cases k with
    | unary u =>
      have hargs : (Keeper.unary u).word.signature.args = 1 := by cases u <;> rfl
      rw [hargs]
      exact effect_popOne.bind fun v _ => .lift (.no_underflow (u.tame_stash v)) fun _ _ => trivial
    | binary b =>
      have hargs : (Keeper.binary b).word.signature.args = 2 := by cases b <;> rfl
      rw [hargs]
      exact effect_popTwo.bind fun p _ => .lift (.no_underflow (b.tame_stash _ _)) fun _ _ => trivial
  refine hkeep.bind (t := ⟨0, 1⟩) fun p _ => (effect_push _).bind fun _ _ => .pure ?_
  exact effect_pop.bind (t := ⟨0, 1⟩) fun new _ => effect_lift_push (k.tame_restore p.1 new)

theorem effect_peekMany {n : Nat} (h : n ≤ 1) {name : String} :
    HasEffect ⟨n, n⟩ (fun vs => vs.length = n) (peekMany n name) := by
  match n, h with
  | 0, _ => exact .pure rfl
  | 1, _ =>
    have hone : peekMany 1 name = do return [← peek 0 name] := by
      unfold peekMany
      rw [List.range_one, List.mapM_cons, List.mapM_nil]
      simp
    rw [hone]
    exact (effect_peek 0).map fun _ _ => rfl

theorem pairSound_parameters {r : Runner} {f g : Fn}
    (hf : HasEffect f.signature (fun _ => True) (r.call f))
    (hg : HasEffect g.signature (fun _ => True) (r.call g)) (hle : f.parametric ≤ g.args)
    (apply : Apply) : HasEffect (Fn.saving f).signature (fun h =>
      HasEffect (Fn.resuming f g).signature (fun _ => True)
        (r.afterWith setting apply (.resuming f g) h)) (r.beforeWith setting apply (.saving f)) := by
  obtain ⟨hone, hargs⟩ := f.parametric_le
  refine ((effect_peekMany hone).bind fun vs hvs => (hf.bind fun _ _ => .pure ?_)).of_eq ?_
  · refine ((effect_pushAll vs).bind fun _ _ => hg).of_eq ?_
    simp only [Signature.andThen, Fn.signature, Fn.args, Signature.mk.injEq, hvs] at hle ⊢
    omega
  · rw [Signature.andThen_empty]
    simp only [Signature.andThen, Fn.signature, Fn.args] at hargs ⊢
    cases hs : f.signature
    simp only [hs, Signature.mk.injEq] at hargs ⊢
    omega

/-- On formed functions without freedom, calls and halves have the effects that they declare. -/
theorem own_sound (ht : setting.table = .standard) (room : Nat) :
    CallsSound (own setting room).call ∧
    ∀ f g, Fn.Halves False f g → PairSound (own setting room) f g := by
  -- what a function calls has one level less, and what it applies to rows another one less
  induction room using Nat.strongRecOn with
  | ind room ih =>
  cases room with
  | zero => exact ⟨fun f _ _ _ _ => rfl, fun f g _ _ _ _ => rfl⟩
  | succ room =>
    obtain ⟨hcall, hhalves⟩ := ih room (by omega)
    have hinner := (ih (room - 1) (by omega)).1
    have hA : ∀ f n, f.Formed False → f.signature = ⟨n, 1⟩ →
        LeavesOne (applyWith setting (own setting (room - 1)).call) f n :=
      fun f n hf hs => leavesOne_applyWith (hinner f hf) hs
    have hfull : CallsSound (own setting (room + 1)).call := by
      intro f hf
      by_cases hp : f.isPlain
      · rw [own_call setting hp]
        exact effect_body hcall ht hA hf hp
      · cases hf with
        | under ht ha hh =>
          rw [own_succ]
          refine ((hhalves _ _ hh).bind fun h hr => (hcall _ ha).bind fun _ _ => hr).of_eq ?_
          rw [← Signature.andThen_assoc]
          rfl
        | _ => exact absurd rfl hp
    refine ⟨hfull, fun f g h => ?_⟩
    unfold PairSound
    cases h with
    | keeper k => rw [own_succ]; exact pairSound_keeper k _ _
    | inverse hf hg hbody =>
      rw [own_before setting hf hbody]
      refine ((hfull f hf).bind fun _ _ => .pure ?_).of_eq (Signature.andThen_empty _)
      rw [own_after]
      exact hfull g hg
    | parameters hf hg hle =>
      rw [own_succ]
      exact pairSound_parameters (hcall _ hf) (hcall _ hg) (hle.resolve_left id) _
    | code hus hs hs' =>
      obtain ⟨n, hn⟩ := hs.resolve_left id
      obtain ⟨n', hn'⟩ := hs'.resolve_left id
      rw [own_succ]
      refine (effect_beforeCode (fun u hu => hhalves _ _ (hus u hu)) [] hn).map ?_
      rintro _ ⟨handed, rfl, hr⟩
      rw [List.append_nil]
      exact effect_afterCode hr hn'

end Exec

/-! ## Machines -/

/-- A function made of standard words and templates by code and modifiers has the effect that its
signature says, from every state over the standard table. On too few values it does not succeed; on
enough, no stack is too short, neither the machine's nor that of a function applied to rows; and what is
deeper stays. -/
theorem Machine.call_signature (m : Machine) (ht : m.setting.table = .standard) {f : Fn}
    (hf : Fn.Built False f) :
    (m.memory.stack.length < f.args → (m.call f).1 ≠ .ok ()) ∧
    (f.args ≤ m.memory.stack.length → ∀ cause, (m.call f).1 ≠ .error (.underflow cause)) ∧
    ((m.call f).1 = .ok () → ∃ out, out.length = f.outputs ∧
      (m.call f).2.memory.stack = out ++ m.memory.stack.drop f.args) := by
  obtain ⟨setting, depth, stack, context⟩ := m
  have htable : setting.table.Formed False := by
    change setting.table = _ at ht
    rw [ht]; exact .ofStandard
  have hagree := (Exec.call_agrees htable (setting.limits.maxDepth - depth)).1 f hf.formed stack context
    context fun _ _ hfree => hfree.elim
  have heffect := (Exec.own_sound ht (setting.limits.maxDepth - depth)).1 f hf.formed stack context
  unfold Machine.call Machine.exec Machine.callStep Machine.room EStateM.run
  dsimp only
  generalize Exec.call setting _ f _ = r at hagree ⊢
  generalize (Exec.own setting _).call f _ = r' at hagree heffect
  cases hagree with
  | ok h hv =>
    obtain ⟨-, hle, out, hout, hstack⟩ := heffect
    exact ⟨fun hlt => absurd hlt (Nat.not_lt.2 hle), fun _ _ h => (by cases h),
      fun _ => ⟨out, hout, hstack⟩⟩
  | error he hc =>
    refine ⟨fun _ h => (by cases h), fun hle cause h => ?_, fun h => (by cases h)⟩
    cases h
    cases heffect hle

/-- An array beside its sum. -/
def withSum : List Instr :=
  [.modify "on" [.code [.modify "reduce" [.name "add"]]], .word "couple"]

theorem call_signature_withSum :
    let f : Fn := .body "lambda" ⟨1, 1⟩ false withSum
    let m : Machine := { memory := { stack := [.tensor (.ofInts [2] [3, 4]), .tensor (.int 5)] } }
    (m.call f).1 = .ok () ∧ ∃ out, out.length = 1 ∧
      (m.call f).2.memory.stack = out ++ [.tensor (.int 5)] := by
  intro f m
  have hcode : ∀ i ∈ withSum, Instr.Built False i := by
    simp only [withSum, List.mem_cons, List.not_mem_nil, or_false]
    rintro _ (rfl | rfl)
    · refine .modify fun o ho => ?_
      rw [List.mem_singleton.1 ho]
      refine .code fun i hi => ?_
      rw [List.mem_singleton.1 hi]
      refine .modify fun o ho => ?_
      rw [List.mem_singleton.1 ho]
      exact .name _
    · exact .word _
  have hf : Fn.Built False f := .code .standard hcode rfl
  have hrun : (m.call f).1 = .ok () := by decide +kernel
  exact ⟨hrun, (m.call_signature rfl hf).2.2 hrun⟩

end Tacit
