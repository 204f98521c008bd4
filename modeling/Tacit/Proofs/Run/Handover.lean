/-
Unders that keep what they set aside. Here the first half of an under hands its saved items to the
under itself, which gives each to the second half it was saved for; there is no context stack at all.
On formed functions the machine runs just so: its context stack holds, above what was there before,
exactly what the unders under way would hold themselves.
-/
import Tacit.Proofs.Run.Congruence
import Tacit.Proofs.Run.Step

namespace Tacit

/-- What a first half leaves for its second half. -/
inductive Handed where
  | nothing
  | item (s : Saved)
  /-- What the first halves of units left, the latest first. -/
  | each (hs : List Handed)

mutual

/-- The items that the context stack holds meanwhile, from the top down. -/
def Handed.items : Handed → List Saved
  | .nothing => []
  | .item s => [s]
  | .each hs => Handed.itemsOf hs

def Handed.itemsOf : List Handed → List Saved
  | [] => []
  | h :: hs => h.items ++ Handed.itemsOf hs

end

theorem Tensor.replaceRowBy_eq {t : Tensor} {i : Int} {v w : Value} (h : t.replaceRowBy i v = .ok w) :
    w = v ∨ ∃ t, w = .tensor t := by
  cases v with
  | tensor new =>
    obtain ⟨u, -, h⟩ := Except.bind_ok h
    cases h; exact .inr ⟨u, rfl⟩
  | fn f =>
    simp only [replaceRowBy] at h
    split at h
    · cases h; exact .inl rfl
    · split at h <;> cases h

/-- A second half gives back an array, or the function that took its place. -/
theorem Keeper.restore_eq {k : Keeper} {s : Saved} {v w : Value} (h : k.restore s v = .ok w) :
    w = v ∨ ∃ t, w = .tensor t := by
  unfold restore at h
  split at h
  · obtain ⟨u, -, h⟩ := Except.bind_ok h
    obtain ⟨u, -, h⟩ := Except.bind_ok h
    cases h; exact .inr ⟨_, rfl⟩
  · obtain ⟨u, -, h⟩ := Except.bind_ok h
    obtain ⟨u, -, h⟩ := Except.bind_ok h
    cases h; exact .inr ⟨_, rfl⟩
  · exact Tensor.replaceRowBy_eq h
  · exact Tensor.replaceRowBy_eq h
  · obtain ⟨u, -, h⟩ := Except.bind_ok h
    split at h
    all_goals
      obtain ⟨u, -, h⟩ := Except.bind_ok h
      cases h; exact .inr ⟨_, rfl⟩
  · obtain ⟨u, -, h⟩ := Except.bind_ok h
    split at h
    all_goals
      obtain ⟨u, -, h⟩ := Except.bind_ok h
      cases h; exact .inr ⟨_, rfl⟩
  · cases h

namespace Exec

/-- Ways to call functions and halves. -/
structure Runner where
  call : Fn → Exec Unit
  before : Fn → Exec Handed
  after : Fn → Handed → Exec Unit

variable (setting : Setting)

/-! ## Running without a context stack -/

/-- What a word's first half saves, and its result. -/
def setAside (k : Keeper) : Exec (Saved × Tensor) :=
  match k with
  | .unary u => do
    let v ← popOne k.name
    lift (u.stash v)
  | .binary b => do
    let (top, below) ← popTwo k.name
    lift (b.stash top below)

/-- The first halves in code, with what they hand over before `hs`. -/
def beforeCode (r : Runner) : List Instr → List Handed → Exec (List Handed)
  | [], hs => pure hs
  | .invoke f :: code, hs => do beforeCode r code ((← r.before f) :: hs)
  | i :: code, hs => do
    instr setting r.call i
    beforeCode r code hs

/-- The second halves in code, each with what its first half handed over. -/
def afterCode (r : Runner) : List Instr → List Handed → Exec Unit
  | [], _ => pure ()
  | .invoke f :: code, h :: hs => do
    r.after f h
    afterCode r code hs
  | _ :: _, _ => throw (.substrate .savedForm)

namespace Runner

/-- An under passes on what its first half hands over. -/
def callWith (r : Runner) (apply : Apply) : Fn → Exec Unit
  | .under _ action before after => do
    let h ← r.before before
    r.call action
    r.after after h
  | f => body setting r.call apply f

def beforeWith (r : Runner) (apply : Apply) : Fn → Exec Handed
  | .stash k => do
    let (saved, result) ← setAside k
    push setting.limits (.tensor result)
    return .item saved
  | .saving f => do
    let vs ← peekMany f.parametric f.name
    r.call f
    return .item (.parameters vs)
  | .body _ _ _ code => return .each (← beforeCode setting r code [])
  | f => do
    r.callWith setting apply f
    return .nothing

def afterWith (r : Runner) (apply : Apply) : Fn → Handed → Exec Unit
  | .restore k, .item saved => do
    let new ← pop k.name
    push setting.limits (← lift (k.restore saved new))
  | .resuming _ inverse, .item (.parameters vs) => do
    pushAll setting.limits vs
    r.call inverse
  | .body _ _ _ code, .each hs => afterCode r code hs
  | f, .nothing => r.callWith setting apply f
  | _, _ => throw (.substrate .savedForm)

end Runner

/-- Calls where `room` more calls may be nested. -/
def own : Nat → Runner
  | 0 =>
    let tooDeep {α : Type} (f : Fn) : Exec α :=
      throw (.limit (.depth setting.limits.maxDepth f.name))
    ⟨tooDeep, tooDeep, fun f _ => tooDeep f⟩
  | room + 1 =>
    let inner := match room with
      | 0 => own 0
      | room + 1 => own room
    let apply := applyWith setting inner.call
    ⟨(own room).callWith setting apply, (own room).beforeWith setting apply,
      (own room).afterWith setting apply⟩

/-! ## The same outcome above a context -/

theorem own_succ (room : Nat) : own setting (room + 1) =
    let apply := applyWith setting (own setting (room - 1)).call
    ⟨(own setting room).callWith setting apply, (own setting room).beforeWith setting apply,
      (own setting room).afterWith setting apply⟩ := by
  cases room <;> rfl

theorem own_call {f : Fn} (hp : f.isPlain) (room : Nat) : (own setting (room + 1)).call f =
    body setting (own setting room).call (applyWith setting (own setting (room - 1)).call) f := by
  rw [own_succ]
  cases f with
  | under => cases hp
  | _ => rfl

/-- A function that serves as a first half itself hands nothing over. -/
theorem own_before {free : Prop} {f : Fn} (hf : f.Formed free)
    (hbody : ∀ name s dynamic code, f ≠ .body name s dynamic code) (room : Nat) :
    (own setting (room + 1)).before f = do
      (own setting (room + 1)).call f
      return .nothing := by
  rw [own_succ]
  cases hf with
  | body => exact absurd rfl (hbody _ _ _ _)
  | _ => rfl

theorem own_after (g : Fn) (room : Nat) :
    (own setting (room + 1)).after g .nothing = (own setting (room + 1)).call g := by
  rw [own_succ]
  cases g <;> rfl

/-- Neither run failed, or both did with the same fault; the stacks are the same, and the context of
the first run is still above `c`. -/
inductive Alike (V : Value → Prop) (c d : List Saved) {α β : Type} (R : α → β → List Saved → Prop) :
    EStateM.Result Fault Memory α → EStateM.Result Fault Memory β → Prop
  | ok {a : α} {b : β} {stack : List Value} {c' : List Saved} : R a b c' →
    (∀ v ∈ stack, V v) → Alike V c d R (.ok a ⟨stack, c'⟩) (.ok b ⟨stack, d⟩)
  | error {fault : Fault} {stack : List Value} {c' : List Saved} :
    (∀ name, fault ≠ .domain (.nothingSaved name)) → c <:+ c' →
    Alike V c d R (.error fault ⟨stack, c'⟩) (.error fault ⟨stack, d⟩)

/-- The two steps give the same value of the class `P` and leave their contexts alone. -/
def Agrees (V : Value → Prop) {α : Type} (P : α → Prop) (x y : Exec α) : Prop :=
  ∀ stack c d, (∀ v ∈ stack, V v) →
    Alike V c d (fun a b c' => a = b ∧ P a ∧ c' = c) (x ⟨stack, c⟩) (y ⟨stack, d⟩)

namespace Alike

variable {V : Value → Prop} {c d : List Saved} {α β α' β' : Type} {R : α → β → List Saved → Prop}
  {R' : α' → β' → List Saved → Prop}

theorem below {x : EStateM.Result Fault Memory α} {y : EStateM.Result Fault Memory β}
    {b : List Saved} (hb : b <:+ c) (h : Alike V c d R x y) : Alike V b d R x y := by
  cases h with
  | ok h hs => exact .ok h hs
  | error he hc => exact .error he (hb.trans hc)

theorem mono {R' : α → β → List Saved → Prop} {x : EStateM.Result Fault Memory α}
    {y : EStateM.Result Fault Memory β} (h : Alike V c d R x y)
    (hr : ∀ a b c', R a b c' → R' a b c') : Alike V c d R' x y := by
  cases h with
  | ok h hs => exact .ok (hr _ _ _ h) hs
  | error he hc => exact .error he hc

theorem bind {x : Exec α} {y : Exec β} {f : α → Exec α'} {g : β → Exec β'} {m m' : Memory}
    (h : Alike V c d R (x m) (y m'))
    (hf : ∀ a b c' stack, R a b c' → (∀ v ∈ stack, V v) →
      Alike V c d R' (f a ⟨stack, c'⟩) (g b ⟨stack, d⟩)) :
    Alike V c d R' ((x >>= f) m) ((y >>= g) m') := by
  change Alike V c d R' (EStateM.bind x f m) (EStateM.bind y g m')
  unfold EStateM.bind
  generalize x m = r at h
  generalize y m' = r' at h
  cases h with
  | ok h hs => exact hf _ _ _ _ h hs
  | error he hc => exact .error he hc

end Alike

section

variable {setting} {V : Value → Prop}

theorem congruence_agrees (setting : Setting) (V : Value → Prop) : Congruence setting setting V
    (fun fault => ∀ name, fault ≠ .domain (.nothingSaved name)) (Agrees V) where
  rel_pure hp := fun _ _ _ hs => .ok ⟨rfl, hp, rfl⟩ hs
  rel_bind h hf := fun stack c d hs => (h stack c d hs).bind fun a b c' stack' hr hs' => by
    obtain ⟨rfl, hp, rfl⟩ := hr
    exact hf a hp stack' c' d hs'
  rel_throw he := fun _ _ _ _ => .error he (List.suffix_refl _)
  tame h := fun name he => by rw [he] at h; cases h
  underflow c := fun name he => by cases he
  rel_check n name := fun stack c d hs => by
    unfold checkElements
    split
    · exact .error (fun _ => by simp) (List.suffix_refl _)
    · exact .ok ⟨rfl, trivial, rfl⟩ hs
  rel_push {v} hv := fun stack c d hs => by
    by_cases hv' : Fits setting.limits v
    · rw [push_fits hv', push_fits hv']
      exact .ok ⟨rfl, trivial, rfl⟩ (by simpa using ⟨hv, hs⟩)
    · cases v with
      | fn f => exact absurd trivial hv'
      | tensor t =>
        rw [push_too_large (Nat.lt_of_not_le hv'), push_too_large (Nat.lt_of_not_le hv')]
        exact .error (fun _ => by simp) (List.suffix_refl _)
  rel_pop name := fun stack c d hs => by
    cases stack with
    | nil => exact .error (fun _ => by simp) (List.suffix_refl _)
    | cons v stack => exact .ok ⟨rfl, hs v (by simp), rfl⟩ fun w hw => hs w (by simp [hw])
  rel_popOne name := fun stack c d hs => by
    cases stack with
    | nil => exact .error (fun _ => by simp) (List.suffix_refl _)
    | cons v stack => exact .ok ⟨rfl, hs v (by simp), rfl⟩ fun w hw => hs w (by simp [hw])
  rel_popTwo name := fun stack c d hs => by
    cases stack with
    | nil => exact .error (fun _ => by simp) (List.suffix_refl _)
    | cons v stack =>
      cases stack with
      | nil => exact .error (fun _ => by simp) (List.suffix_refl _)
      | cons w stack =>
        exact .ok ⟨rfl, ⟨hs v (by simp), hs w (by simp)⟩, rfl⟩ fun u hu => hs u (by simp [hu])
  rel_popMany n name := fun stack c d hs => by
    by_cases h : stack.length < n
    · rw [popMany_short h, popMany_short h]
      exact .error (fun _ => by simp) (List.suffix_refl _)
    · rw [popMany_run (Nat.not_lt.1 h), popMany_run (Nat.not_lt.1 h)]
      exact .ok ⟨rfl, fun v hv => hs v (List.mem_of_mem_take hv), rfl⟩ fun v hv =>
        hs v (List.mem_of_mem_drop hv)
  rel_peek offset name := fun stack c d hs => by
    by_cases h : offset < stack.length
    · rw [peek_run h, peek_run h]
      exact .ok ⟨rfl, hs _ (List.getElem_mem h), rfl⟩ hs
    · rw [peek_short (Nat.not_lt.1 h), peek_short (Nat.not_lt.1 h)]
      exact .error (fun _ => by simp) (List.suffix_refl _)

/-- A function on a memory of its own has the same outcome. -/
theorem applies_agrees {call call' : Fn → Exec Unit}
    {F : Fn → Prop} (h : ∀ f, F f → Agrees V (fun _ => True) (call f) (call' f)) :
    Congruence.Applies V (Agrees V) F (applyWith setting call) (applyWith setting call') := by
  intro f args hf hargs
  have hQ := congruence_agrees setting V
  have hsteps : Agrees V (fun vs => ∀ v ∈ vs, V v)
      (do pushAll setting.limits args; call f; popMany f.outputs f.name)
      (do pushAll setting.limits args; call' f; popMany f.outputs f.name) :=
    hQ.rel_bind (hQ.rel_pushAll hargs) fun _ _ => hQ.rel_bind (h f hf) fun _ _ => hQ.rel_popMany _ _
  have hrun := hsteps [] [] [] (by simp)
  rw [applyWith_eq, applyWith_eq]
  generalize (do pushAll setting.limits args; call f; popMany f.outputs f.name : Exec _) _ = r at hrun
  generalize (do pushAll setting.limits args; call' f; popMany f.outputs f.name : Exec _) _ = r' at hrun
  cases hrun with
  | ok h _ =>
    obtain ⟨rfl, hp, -⟩ := h
    exact hQ.rel_pure hp
  | error he _ => exact hQ.rel_throw he

end

/-! ## Halves of formed pairs -/

section Halves

variable {setting} {free : Prop}

/-- Values that a run over formed functions meets. -/
def Meets (free : Prop) (v : Value) : Prop := free → v.Formed free

/-- Over the items that were handed over, the second half does what it does when it is given them. -/
def Resumes (setting : Setting) (free : Prop) (room : Nat) (h : Handed) (f : Fn) : Prop :=
  ∀ stack c d, (∀ v ∈ stack, Meets free v) →
    Alike (Meets free) c d (fun _ _ c' => c' = c) (call setting room f ⟨stack, h.items ++ c⟩)
      ((own setting room).after f h ⟨stack, d⟩)

/-- The first half leaves on the context stack what it hands over to the second half. -/
def HandsOver (setting : Setting) (free : Prop) (room : Nat) (f g : Fn) : Prop :=
  ∀ stack c d, (∀ v ∈ stack, Meets free v) →
    Alike (Meets free) c d (fun _ h c' => c' = h.items ++ c ∧ Resumes setting free room h g)
      (call setting room f ⟨stack, c⟩) ((own setting room).before f ⟨stack, d⟩)

theorem closed_meets : Closed (Meets free) where
  unary {u v w} hv hw := by
    cases v with
    | tensor t =>
      obtain ⟨t', -, h⟩ := Except.bind_ok hw
      cases h; exact fun _ => .tensor t'
    | fn f => cases u <;> cases hw; exact hv
  binary hv hw hr := by
    rcases Binary.eval_eq_ok hr with ⟨_, _, t, -, -, -, rfl⟩ | ⟨-, rfl⟩ | ⟨-, rfl⟩ <;> exact fun _ => .tensor _
  int n := fun _ => .tensor _
  string t := fun _ => .tensor _
  row _ _ := fun _ => .tensor _
  content _ _ := fun _ => .tensor _
  ofRows _ := fun _ => .tensor _
  boxes _ := fun _ => .tensor _
  reshape _ _ := fun _ => .tensor _
  splitRuns _ _ := fun _ => .tensor _

theorem realm_formed {table : Table} (h : table.Formed free) :
    Realm table (Meets free) (Fn.Formed free) (Instr.Formed free) where
  binary b := .word _
  part {f g} hf hg := by
    cases hf with
    | copyTop hf | copyDeepest hf => rw [List.mem_singleton.1 hg]; exact hf
    | reduce hf | each hf | groupBy hf | splitBy hf => rw [List.mem_singleton.1 hg]; exact hf
    | _ => cases hg
  code hf hp hc := Table.Formed.code hf hp hc
  push hi := by cases hi; assumption
  word hi hf := h.get hf
  invoke hi := by cases hi; assumption
  quote hi hf := fun hfree => by
    cases hi with
    | quote hc => exact .fn (h.lambda (hc hfree) hf)
  call hi hf := by
    cases hi with
    | call hfree => cases hf hfree; assumption
  make hi hg hf := fun hfree => .fn (h.derived (fun g hgs => by cases hg g hgs hfree; assumption) hf)
  modify hi hf := by
    cases hi with
    | modify hos => exact h.derive hos hf

/-! ## Code of halves -/

variable {room : Nat} {us : List (List Tensor × UnderPair)}

/-- A step that agrees from the operand stack does so above items that are handed over. -/
theorem Agrees.above {α : Type} {P : α → Prop} {x y : Exec α} {V : Value → Prop} (h : Agrees V P x y)
    {stack : List Value} (hs : ∀ v ∈ stack, V v) (items c d : List Saved) :
    Alike V c d (fun a b c' => a = b ∧ P a ∧ c' = items ++ c) (x ⟨stack, items ++ c⟩) (y ⟨stack, d⟩) :=
  (h stack (items ++ c) d hs).below (List.suffix_append items c)

/-- Literals go on the operand stack, which the context does not matter to. -/
theorem alike_literals {R : Unit → List Handed → List Saved → Prop} {hs : List Handed}
    {code : List Instr} {c d : List Saved} (h : ∀ stack, (∀ v ∈ stack, Meets free v) →
      Alike (Meets free) c d R
        (code.forM (instr setting (call setting room)) ⟨stack, Handed.itemsOf hs ++ c⟩)
        (beforeCode setting (own setting room) code hs ⟨stack, d⟩)) :
    ∀ (ts : List Tensor) (stack : List Value), (∀ v ∈ stack, Meets free v) →
      Alike (Meets free) c d R
        ((ts.map (fun t => Instr.push (.tensor t)) ++ code).forM (instr setting (call setting room))
          ⟨stack, Handed.itemsOf hs ++ c⟩)
        (beforeCode setting (own setting room) (ts.map (fun t => Instr.push (.tensor t)) ++ code) hs
          ⟨stack, d⟩)
  | [], stack, hv => h stack hv
  | t :: ts, stack, hv => by
    have hpush : Agrees (Meets free) (fun _ => True) (push setting.limits (.tensor t))
        (push setting.limits (.tensor t)) := (congruence_agrees setting _).rel_push fun _ => .tensor t
    refine (hpush.above hv _ c d).bind ?_
    rintro ⟨⟩ ⟨⟩ _ stack ⟨-, -, rfl⟩ hv
    exact alike_literals h ts stack hv

theorem handsOver_code (h : ∀ u ∈ us, HandsOver setting free room u.2.before u.2.after)
    (hs : List Handed) (stack : List Value) (c d : List Saved) (hv : ∀ v ∈ stack, Meets free v) :
    Alike (Meets free) c d
      (fun _ hs' c' => c' = Handed.itemsOf hs' ++ c ∧ ∃ new, hs' = new ++ hs ∧
        List.Forall₂ (fun u h => Resumes setting free room h u.2.after) us.reverse new)
      ((us.flatMap fun u => halfCode u.1 u.2.before).forM (instr setting (call setting room))
        ⟨stack, Handed.itemsOf hs ++ c⟩)
      (beforeCode setting (own setting room) (us.flatMap fun u => halfCode u.1 u.2.before) hs
        ⟨stack, d⟩) := by
  induction us generalizing hs stack with
  | nil => exact .ok ⟨rfl, [], rfl, .nil⟩ hv
  | cons u us ih =>
    rw [List.flatMap_cons, halfCode, List.append_assoc]
    refine alike_literals (fun stack hv => ?_) _ stack hv
    refine ((h u (by simp) stack (Handed.itemsOf hs ++ c) d hv).below (List.suffix_append _ c)).bind ?_
    rintro ⟨⟩ handed _ stack ⟨rfl, hr⟩ hv
    have hrest := ih (fun u hu => h u (by simp [hu])) (handed :: hs) stack hv
    rw [Handed.itemsOf, List.append_assoc] at hrest
    refine hrest.mono ?_
    rintro ⟨⟩ _ _ ⟨hc, new, rfl, hnew⟩
    refine ⟨hc, new ++ [handed], by simp, ?_⟩
    rw [List.reverse_cons]
    exact List.rel_append hnew (.cons hr .nil)

/-- Each second half gets what its first half handed over, the latest first. -/
theorem resumes_code {us : List (List Tensor × UnderPair)} {hs : List Handed}
    (h : List.Forall₂ (fun u h => Resumes setting free room h u.2.after) us hs)
    (stack : List Value) (c d : List Saved) (hv : ∀ v ∈ stack, Meets free v) :
    Alike (Meets free) c d (fun _ _ c' => c' = c)
      ((us.map fun u => .invoke u.2.after).forM (instr setting (call setting room))
        ⟨stack, Handed.itemsOf hs ++ c⟩)
      (afterCode (own setting room) (us.map fun u => .invoke u.2.after) hs ⟨stack, d⟩) := by
  induction h generalizing stack with
  | nil => exact .ok rfl hv
  | @cons u handed us hs hr _ ih =>
    rw [Handed.itemsOf, List.append_assoc]
    refine ((hr stack (Handed.itemsOf hs ++ c) d hv).below (List.suffix_append _ c)).bind ?_
    rintro ⟨⟩ ⟨⟩ _ stack rfl hv
    exact ih stack hv

/-! ## The machine hands over -/

theorem agrees_setAside (k : Keeper) :
    Agrees (Meets free) (fun _ => True) (setAside k) (setAside k) := by
  have hQ := congruence_agrees {} (Meets free)
  cases k with
  | unary u =>
    exact hQ.rel_bind (hQ.rel_popOne _) fun v _ => hQ.rel_lift (u.tame_stash v) fun _ _ => trivial
  | binary b =>
    exact hQ.rel_bind (hQ.rel_popTwo _) fun p _ => hQ.rel_lift (b.tame_stash _ _) fun _ _ => trivial

theorem handsOver_keeper (k : Keeper) :
    HandsOver setting free (room + 1) (.stash k) (.restore k) := by
  have hQ := congruence_agrees setting (Meets free)
  intro stack c d hv
  rw [call_succ]
  have hstash : stash setting k =
      (do let (saved, t) ← setAside k; save saved; push setting.limits (.tensor t)) := by
    cases k <;> simp [stash, setAside]
  rw [own_succ]
  change Alike _ _ _ _ (stash setting k _) ((do
    let (saved, t) ← setAside k
    push setting.limits (.tensor t)
    return Handed.item saved : Exec Handed) _)
  rw [hstash]
  refine (agrees_setAside k stack c d hv).bind ?_
  rintro ⟨saved, t⟩ _ c stack ⟨rfl, -, rfl⟩ hv
  have hpush : Agrees (Meets free) (fun _ => True) (push setting.limits (.tensor t))
      (push setting.limits (.tensor t)) := hQ.rel_push fun _ => .tensor t
  have hsaved := hpush.above hv [saved] c d
  change Alike _ _ _ _ (push setting.limits (.tensor t) ⟨stack, saved :: c⟩) _
  rw [← bind_pure (push setting.limits (.tensor t))]
  refine hsaved.bind ?_
  rintro ⟨⟩ ⟨⟩ _ stack ⟨-, -, rfl⟩ hv
  refine .ok ⟨rfl, fun stack c d hv => ?_⟩ hv
  -- what was saved is on top of the context when the second half asks for it
  rw [call_succ, own_succ]
  change Alike _ _ _ _ (putBack setting k ⟨stack, saved :: c⟩)
    ((do let new ← pop k.name; push setting.limits (← lift (k.restore saved new)) : Exec Unit) _)
  refine ((hQ.rel_pop k.name).above hv [saved] c d).bind ?_
  rintro new _ _ stack ⟨rfl, hn, rfl⟩ hv
  have hagree : Agrees (Meets free) (fun _ => True)
      (do push setting.limits (← lift (k.restore saved new)))
      (do push setting.limits (← lift (k.restore saved new))) := by
    refine hQ.rel_bind (hQ.rel_lift (k.tame_restore saved new) fun w hw => ?_) fun w hw => hQ.rel_push hw
    rcases Keeper.restore_eq hw with rfl | ⟨t, rfl⟩
    · exact hn
    · exact fun _ => .tensor t
  exact (hagree stack c d hv).mono fun _ _ _ h => h.2.2

theorem handsOver_parameters {f g : Fn}
    (hf : Agrees (Meets free) (fun _ => True) (call setting room f) ((own setting room).call f))
    (hg : Agrees (Meets free) (fun _ => True) (call setting room g) ((own setting room).call g)) :
    HandsOver setting free (room + 1) (.saving f) (.resuming f g) := by
  have hQ := congruence_agrees setting (Meets free)
  intro stack c d hv
  rw [call_succ, own_succ]
  change Alike _ _ _ _
    ((do save (.parameters (← peekMany f.parametric f.name)); call setting room f : Exec Unit) _)
    ((do
      let vs ← peekMany f.parametric f.name
      (own setting room).call f
      return Handed.item (.parameters vs) : Exec Handed) _)
  refine (hQ.rel_peekMany f.parametric f.name stack c d hv).bind ?_
  rintro vs _ c stack ⟨rfl, hvs, rfl⟩ hv
  change Alike _ _ _ _ (call setting room f ⟨stack, .parameters vs :: c⟩) _
  rw [← bind_pure (call setting room f)]
  refine (hf.above hv [.parameters vs] c d).bind ?_
  rintro ⟨⟩ ⟨⟩ _ stack ⟨-, -, rfl⟩ hv
  refine .ok ⟨rfl, fun stack c d hv => ?_⟩ hv
  rw [call_succ, own_succ]
  have hagree : Agrees (Meets free) (fun _ => True)
      (do pushAll setting.limits vs; call setting room g)
      (do pushAll setting.limits vs; (own setting room).call g) :=
    hQ.rel_bind (hQ.rel_pushAll hvs) fun _ _ => hg
  exact (hagree stack c d hv).mono fun _ _ _ h => h.2.2

/-- On formed functions the machine has the outcome of unders that keep what they set aside, and its
context stack holds what they keep. -/
theorem call_agrees (ht : setting.table.Formed free) (room : Nat) :
    (∀ f, f.Formed free →
      Agrees (Meets free) (fun _ => True) (call setting room f) ((own setting room).call f)) ∧
    (∀ f g, Fn.Halves free f g → HandsOver setting free room f g) := by
  induction room using Nat.strongRecOn with
  | ind room ih =>
  cases room with
  | zero =>
    exact ⟨fun f _ stack c d _ => .error (fun _ => by simp) (List.suffix_refl _),
      fun f g _ stack c d _ => .error (fun _ => by simp) (List.suffix_refl _)⟩
  | succ room =>
    obtain ⟨hcall, hhalves⟩ := ih room (by omega)
    -- a function on rows has a memory of its own, one level deeper
    have hinner := (ih (room - 1) (by omega)).1
    have hQ := congruence_agrees setting (Meets free)
    have hfull : ∀ f, f.Formed free → Agrees (Meets free) (fun _ => True) (call setting (room + 1) f)
        ((own setting (room + 1)).call f) := by
      intro f hf
      rw [call_succ]
      by_cases hp : f.isPlain
      · rw [own_call setting hp]
        exact hQ.rel_body closed_meets rfl (realm_formed ht) hcall (applies_agrees hinner) hf hp
      · cases hf with
        | under ht ha hh =>
          intro stack c d hv
          rw [own_succ]
          refine Alike.bind (f := fun _ => do call setting room _; call setting room _)
            (hhalves _ _ hh stack c d hv) ?_
          rintro ⟨⟩ h _ stack ⟨rfl, hr⟩ hv
          refine ((hcall _ ha).above hv h.items c d).bind ?_
          rintro ⟨⟩ ⟨⟩ _ stack ⟨-, -, rfl⟩ hv
          exact (hr stack c d hv).mono fun _ _ _ h => ⟨rfl, trivial, h⟩
        | _ => exact absurd rfl hp
    refine ⟨hfull, fun f g h => ?_⟩
    cases h with
    | keeper k => exact handsOver_keeper k
    | parameters hf hg hle => exact handsOver_parameters (hcall _ hf) (hcall _ hg)
    | inverse hf hg hbody =>
      intro stack c d hv
      rw [own_before setting hf hbody, ← bind_pure (call setting (room + 1) f)]
      refine (hfull f hf stack c d hv).bind ?_
      rintro ⟨⟩ ⟨⟩ _ stack ⟨-, -, rfl⟩ hv
      refine .ok ⟨rfl, fun stack c d hv => ?_⟩ hv
      rw [own_after]
      exact (hfull g hg stack c d hv).mono fun _ _ _ h => h.2.2
    | code hus hs hs' =>
      intro stack c d hv
      rw [call_succ, own_succ]
      change Alike _ _ _ _ (List.forM _ (instr setting (call setting room)) _)
        ((do return .each (← beforeCode setting (own setting room) _ []) : Exec Handed) _)
      rw [← bind_pure (List.forM _ _)]
      have hbefore := handsOver_code (fun u hu => hhalves _ _ (hus u hu)) [] stack c d hv
      refine hbefore.bind ?_
      rintro ⟨⟩ _ _ stack ⟨rfl, handed, rfl, hr⟩ hv
      rw [List.append_nil]
      refine .ok ⟨rfl, fun stack c d hv => ?_⟩ hv
      rw [call_succ, own_succ]
      exact resumes_code hr stack c d hv

end Halves

end Exec

end Tacit
