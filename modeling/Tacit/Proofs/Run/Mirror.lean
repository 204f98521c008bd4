/-
One run beside another. Two steps mirror each other along a change of the memory if the second does
with the changed memory what the first does, and leaves what that leaves, changed; where the first fails
with an excused fault, the second may do anything. Code whose single instructions mirror each other does.
-/
import Tacit.Proofs.Run.Program

namespace Tacit

namespace Exec

variable {A : Fault → Prop} {k : Memory → Memory} {α β : Type}

/-- The ends of two steps. -/
inductive Mirrored (A : Fault → Prop) (k : Memory → Memory) {α : Type} :
    EStateM.Result Fault Memory α → EStateM.Result Fault Memory α → Prop
  | ok (a : α) (m : Memory) : Mirrored A k (.ok a m) (.ok a (k m))
  | error (fault : Fault) (m : Memory) : Mirrored A k (.error fault m) (.error fault (k m))
  | excused {fault : Fault} (h : A fault) (m : Memory) (r : EStateM.Result Fault Memory α) :
    Mirrored A k (.error fault m) r

/-- A third step beside the second is one beside the first. -/
theorem Mirrored.trans {B : Fault → Prop} {l : Memory → Memory} {r r' r'' : EStateM.Result Fault Memory α}
    (h : Mirrored A k r r') (h' : Mirrored B l r' r'') : Mirrored (fun fault => A fault ∨ B fault) (l ∘ k) r r'' := by
  cases h with
  | ok a m =>
    cases h'
    exact .ok a m
  | error fault m =>
    cases h' with
    | error => exact .error fault m
    | excused h => exact .excused (.inr h) m r''
  | excused h m => exact .excused (.inl h) m r''

def Mirrors (A : Fault → Prop) (k : Memory → Memory) {α : Type} (x y : Exec α) : Prop :=
  ∀ m : Memory, Mirrored A k (x m) (y (k m))

namespace Mirrors

theorem pure (a : α) : Mirrors A k (pure a) (pure a) := fun m => .ok a m

theorem throw (fault : Fault) : Mirrors A k (throw fault : Exec α) (throw fault) :=
  fun m => .error fault m

theorem bind {x y : Exec α} {f g : α → Exec β} (hx : Mirrors A k x y)
    (hf : ∀ a, Mirrors A k (f a) (g a)) : Mirrors A k (x >>= f) (y >>= g) := by
  intro m
  have h := hx m
  change Mirrored A k (EStateM.bind x f m) (EStateM.bind y g (k m))
  unfold EStateM.bind
  generalize x m = r at h ⊢
  generalize y (k m) = r' at h ⊢
  cases h with
  | ok a m => exact hf a m
  | error fault m => exact .error fault m
  | excused h m => exact .excused h m _

theorem link (A : Fault → Prop) (k : Memory → Memory) :
    Program.Link Exec Exec fun _ => Mirrors A k where
  pure := pure
  throw := throw
  bind := bind

theorem lift (x : Except Fault α) : Mirrors A k (lift x) (lift x) := by
  cases x with
  | ok a => exact pure a
  | error fault => exact throw fault

theorem forM {f g : α → Exec Unit} (h : ∀ a, Mirrors A k (f a) (g a)) :
    ∀ xs : List α, Mirrors A k (xs.forM f) (xs.forM g)
  | [] => pure ()
  | x :: xs => (h x).bind fun _ => forM h xs

/-! ## Calls with more room -/

/-- The same step under any limits. -/
theorem refl (x : Exec α) : Mirrors A id x x := by
  intro m
  change Mirrored _ _ (x m) (x m)
  cases x m with
  | ok a m => exact .ok a m
  | error fault m => exact .error fault m

section

variable {σ τ : Setting} (hops : ∀ o : Op, Mirrors A id (o.run σ.limits) (o.run τ.limits))

include hops

theorem applyWith {call call' : Fn → Exec Unit} (hcall : ∀ f, Mirrors A id (call f) (call' f)) (f : Fn)
    (args : List Value) :
    Mirrors A id (Exec.lift (applyWith σ call f args)) (Exec.lift (applyWith τ call' f args)) := by
  have hsteps : Mirrors A id (do pushAll σ.limits args; call f; popMany f.outputs f.name)
      (do pushAll τ.limits args; call' f; popMany f.outputs f.name) :=
    (forM (fun v => hops (.push v)) _).bind fun _ => (hcall f).bind fun _ => refl _
  have hrun := hsteps {}
  rw [id_eq] at hrun
  rw [applyWith_eq, applyWith_eq]
  generalize (do pushAll σ.limits args; call f; popMany f.outputs f.name : Exec _) _ = r at hrun ⊢
  generalize (do pushAll τ.limits args; call' f; popMany f.outputs f.name : Exec _) _ = r' at hrun ⊢
  cases hrun with
  | ok vs m => exact .pure vs
  | error fault m => exact .throw fault
  | excused hfault m => exact fun m => .excused hfault m _

/-- More room changes nothing but what would be too deep. The induction is on the lesser room. -/
theorem call (htable : τ.table = σ.table) (hdeep : ∀ fault, TooDeep fault → A fault) :
    ∀ (room room' : Nat) (f : Fn), room ≤ room' → Mirrors A id (call σ room f) (call τ room' f)
  | 0, _, f, _ => fun m => .excused (hdeep _ ⟨_, _, rfl⟩) m _
  | room + 1, 0, _, hroom => absurd hroom (by omega)
  | room + 1, room' + 1, f, hroom => by
    rw [call_succ, call_succ]
    refine (link _ _).body hops (fun g => call htable hdeep room room' g (by omega)) htable ?_ f
    -- a function that is applied has one call less to go, on either side
    exact applyWith hops fun g => call htable hdeep (room - 1) (room' - 1) g (by omega)

end

end Mirrors

end Exec

namespace Machine

theorem run_mirrored {A : Fault → Prop} {k : Memory → Memory} {m m' : Machine}
    (hA : ∀ fault, A fault → A fault.classify)
    (h : ∀ i, Exec.Mirrors A k (m.instrStep i) (m'.instrStep i)) :
    ∀ (code : List Instr) (memory : Memory),
      (∃ fault, A fault ∧ (run { m with memory := memory } code).1 = .error fault) ∨
        run { m' with memory := k memory } code =
          ((run { m with memory := memory } code).1,
            { m' with memory := k (run { m with memory := memory } code).2.memory })
  | [], memory => .inr rfl
  | i :: code, memory => by
    have hi := h i memory
    generalize hr : m.instrStep i memory = r at hi
    generalize hr' : m'.instrStep i (k memory) = r' at hi
    cases hi with
    | ok a memory' =>
      rw [run_cons_ok (m := { m with memory := memory }) code hr,
        run_cons_ok (m := { m' with memory := k memory }) code hr']
      exact run_mirrored hA h code memory'
    | error fault memory' =>
      rw [run_cons_error (m := { m with memory := memory }) code hr,
        run_cons_error (m := { m' with memory := k memory }) code hr']
      exact .inr rfl
    | excused hfault memory' =>
      rw [run_cons_error (m := { m with memory := memory }) code hr]
      exact .inl ⟨_, hA _ hfault, rfl⟩

end Machine

end Tacit
