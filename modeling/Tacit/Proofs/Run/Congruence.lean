/-
Two ways to run the same functions. A congruence relates steps on the memory and respects those on the
operand stack; programs that stay within its classes are then related as soon as the calls and
applications in them are.
-/
import Tacit.Proofs.Run.Guard

namespace Tacit

namespace Exec

/-- A relation between steps that respects the steps on the operand stack. -/
structure Congruence (σ τ : Setting) (V : Value → Prop) (A : Fault → Prop)
    (Q : {α : Type} → (α → Prop) → Exec α → Exec α → Prop) : Prop where
  rel_pure {α : Type} {P : α → Prop} {a : α} : P a → Q P (pure a) (pure a)
  rel_bind {α β : Type} {P : α → Prop} {P' : β → Prop} {x y : Exec α} {f g : α → Exec β} :
    Q P x y → (∀ a, P a → Q P' (f a) (g a)) → Q P' (x >>= f) (y >>= g)
  rel_throw {α : Type} {P : α → Prop} {e : Fault} : A e → Q P (throw e) (throw e)
  tame {e : Fault} : e.ofMachine = false → A e
  underflow (c : UnderflowCause) : A (.underflow c)
  rel_check (n : Nat) (name : String) :
    Q (fun _ => True) (checkElements σ.limits n name) (checkElements τ.limits n name)
  rel_push {v : Value} : V v → Q (fun _ => True) (push σ.limits v) (push τ.limits v)
  rel_pop (name : String) : Q V (pop name) (pop name)
  rel_popOne (name : String) : Q V (popOne name) (popOne name)
  rel_popTwo (name : String) : Q (fun p => V p.1 ∧ V p.2) (popTwo name) (popTwo name)
  rel_popMany (n : Nat) (name : String) :
    Q (fun vs => ∀ v ∈ vs, V v) (popMany n name) (popMany n name)
  rel_peek (offset : Nat) (name : String) : Q V (peek offset name) (peek offset name)

variable {σ τ : Setting} {V : Value → Prop} {A : Fault → Prop}
  {Q : {α : Type} → (α → Prop) → Exec α → Exec α → Prop}

namespace Congruence

/-- Related ways to apply the functions of a class to values. -/
def Applies (V : Value → Prop) (Q : {α : Type} → (α → Prop) → Exec α → Exec α → Prop)
    (F : Fn → Prop) (apply apply' : Apply) : Prop :=
  ∀ f args, F f → (∀ v ∈ args, V v) →
    Q (fun vs => ∀ v ∈ vs, V v) (lift (apply f args)) (lift (apply' f args))

/-- What related steps meet; contexts are beyond them. -/
def classes (V : Value → Prop) (F : Fn → Prop) (A : Fault → Prop) : Classes := ⟨V, F, fun _ => False, A⟩

section

variable (hQ : Congruence σ τ V A Q) {F : Fn → Prop}
include hQ

theorem rel_lift {α : Type} {P : α → Prop} {x : Except Fault α} (hx : Tame x)
    (hP : ∀ a, x = .ok a → P a) : Q P (lift x) (lift x) := by
  cases x with
  | ok a => exact hQ.rel_pure (hP a rfl)
  | error e => exact hQ.rel_throw (hQ.tame (hx.ofMachine e rfl))

theorem rel_op {o : Op} (h : o.Given (classes V F A)) :
    Q (o.Gives (classes V F A)) (o.run σ.limits) (o.run τ.limits) := by
  cases o with
  | check n name => exact hQ.rel_check n name
  | push v => exact hQ.rel_push h
  | pop name => exact hQ.rel_pop name
  | popOne name => exact hQ.rel_popOne name
  | popTwo name => exact hQ.rel_popTwo name
  | popMany n name => exact hQ.rel_popMany n name
  | peek offset name => exact hQ.rel_peek offset name
  | save s => exact h.elim
  | restore name => exact h.elim fun _ h => h.elim

section

variable {call call' : Fn → Exec Unit} {apply apply' : Apply}
  (hc : ∀ f, F f → Q (fun _ => True) (call f) (call' f)) (hA : Applies V Q F apply apply')

include hc hA

/-- A program is run alike as long as it stays within the classes. -/
theorem rel_run {α : Type} {P : α → Prop} {p : Program α} (hp : p.Within (classes V F A) P) :
    Q P (p.run σ call apply) (p.run τ call' apply') := by
  induction p with
  | done a => exact hQ.rel_pure hp
  | fail fault => exact hQ.rel_throw hp
  | op o next ih => exact hQ.rel_bind (hQ.rel_op hp.1) fun a ha => ih a (hp.2 a ha)
  | call f next ih => exact hQ.rel_bind (hc f hp.1) fun _ _ => ih () hp.2
  | apply f args next ih => exact hQ.rel_bind (hA f args hp.1 hp.2.1) fun vs hvs => ih vs (hp.2.2 vs hvs)

theorem rel_runs {α : Type} {P : α → Prop} {p : Program α} {x y : Exec α}
    (hx : p.Runs σ call apply x) (hy : p.Runs τ call' apply' y) (hp : p.Within (classes V F A) P) :
    Q P x y := by
  rw [← hx, ← hy]
  exact hQ.rel_run hc hA hp

end

section

variable {I : Instr → Prop} {call call' : Fn → Exec Unit} {apply apply' : Apply} (hV : Closed V)
  (hτ : τ.table = σ.table) (hR : Realm σ.table V F I)
  (hc : ∀ f, F f → Q (fun _ => True) (call f) (call' f))

include hV hR

theorem hold : (classes V F A).Hold σ.table I Fault.ofMachine where
  closed := hV
  realm := hR
  spares := σ.table.spares_ofMachine
  fault := hQ.tame
  underflow := hQ.underflow

include hτ hc

theorem rel_instr {i : Instr} (hi : I i) : Q (fun _ => True) (instr σ call i) (instr τ call' i) := by
  -- an instruction applies nothing itself, so that any way to apply does
  have hx : (Program.instr σ.table i).Runs σ call (fun _ _ => .ok []) (instr σ call i) := Program.Runs.instr i
  have hy : (Program.instr τ.table i).Runs τ call' (fun _ _ => .ok []) (instr τ call' i) := Program.Runs.instr i
  rw [hτ] at hy
  exact hQ.rel_runs hc (fun _ _ _ _ => hQ.rel_pure (List.forall_mem_nil _)) hx hy ((hQ.hold hV hR).instr hi)

theorem rel_body (hA : Applies V Q F apply apply') {f : Fn} (hf : F f) (hn : f.isPlain) :
    Q (fun _ => True) (body σ call apply f) (body τ call' apply' f) := by
  have hy : (Program.body τ.table f).Runs τ call' apply' (body τ call' apply' f) := Program.Runs.body f
  rw [hτ] at hy
  exact hQ.rel_runs hc hA (Program.Runs.body f) hy ((hQ.hold hV hR).plain hf hn)

end

/-- Programs without calls and applications. -/
theorem rel_steps {α : Type} {P : α → Prop} {p : Program α} {x y : Exec α}
    (hx : p.Runs σ (fun _ => pure ()) (fun _ _ => .ok []) x) (hy : p.Runs τ (fun _ => pure ()) (fun _ _ => .ok []) y)
    (hp : p.Within (classes V (fun _ => False) A) P) : Q P x y :=
  hQ.rel_runs (fun _ h => h.elim) (fun _ _ h => h.elim) hx hy hp

theorem rel_pushAll {vs : List Value} (h : ∀ v ∈ vs, V v) :
    Q (fun _ => True) (pushAll σ.limits vs) (pushAll τ.limits vs) :=
  hQ.rel_steps (Program.Runs.pushAll vs) (Program.Runs.pushAll vs) (.pushAll h)

theorem rel_peekMany (n : Nat) (name : String) :
    Q (fun vs => ∀ v ∈ vs, V v) (peekMany n name) (peekMany n name) :=
  hQ.rel_steps (Program.Runs.peekMany n name) (Program.Runs.peekMany n name) (.peekMany n name)

end

end Congruence

end Exec

end Tacit
