/-
Wider limits. A run that hits no limit does the same under limits that are at least as wide: no check
against a limit does anything but fail.
-/
import Tacit.Proofs.Array.Each
import Tacit.Proofs.Run.Mirror

namespace Tacit

/-- The other limits are as wide or wider, both for elements and for calls. -/
structure Limits.Within (limits wider : Limits) : Prop where
  maxElements : limits.maxElements ≤ wider.maxElements
  maxDepth : limits.maxDepth ≤ wider.maxDepth

namespace Exec

/-- The second step does what the first does, unless that hits a limit. -/
abbrev Raises {α : Type} (x y : Exec α) : Prop := Mirrors Fault.IsLimit id x y

namespace Raises

variable {limits wider : Limits}

/-! ## Single operations -/

theorem checkElements (h : limits.Within wider) (count : Nat) (name : String) :
    Raises (checkElements limits count name) (checkElements wider count name) := by
  unfold Exec.checkElements
  by_cases hcount : limits.maxElements < count
  · rw [if_pos hcount]
    exact fun m => .excused ⟨_, rfl⟩ m _
  · have hwider : ¬ wider.maxElements < count := fun hlt => hcount (h.maxElements.trans_lt hlt)
    rw [if_neg hcount, if_neg hwider]
    exact .pure ()

theorem push (h : limits.Within wider) (v : Value) : Raises (push limits v) (push wider v) := by
  -- only arrays are checked
  cases v with
  | fn f => exact .refl _
  | tensor t => exact (checkElements h t.size "push").bind fun _ => .refl _

theorem op (h : limits.Within wider) (o : Op) : Raises (o.run limits) (o.run wider) := by
  cases o with
  | check count name => exact checkElements h count name
  | push v => exact push h v
  | _ => exact .refl _

/-! ## Functions -/

/-- There is as much room under the wider limits. -/
theorem call {σ τ : Setting} (h : σ.limits.Within τ.limits) (htable : τ.table = σ.table)
    {room room' : Nat} (hroom : room ≤ room') (f : Fn) : Raises (call σ room f) (call τ room' f) := by
  refine Mirrors.call (op h) htable ?_ room room' f hroom
  rintro _ ⟨limit, name, rfl⟩
  exact ⟨_, rfl⟩

end Raises

end Exec

namespace Machine

/-- The machine under other limits. -/
def withLimits (limits : Limits) (m : Machine) : Machine :=
  { m with setting := { m.setting with limits := limits } }

theorem instrStep_raises (m : Machine) {wider : Limits} (h : m.setting.limits.Within wider) (i : Instr) :
    Exec.Raises (m.instrStep i) ((m.withLimits wider).instrStep i) := by
  have h' : m.setting.limits.Within (m.withLimits wider).setting.limits := h
  have hroom : m.room ≤ (m.withLimits wider).room := Nat.sub_le_sub_right h.maxDepth m.depth
  exact (Exec.Mirrors.link _ _).instr (Exec.Raises.op h')
    (Exec.Raises.call h' rfl hroom) rfl i

/-- A run that ends with a stack, or with a fault that is none of the limits, ends so under all limits
that are at least as wide, with the same stack and context. -/
theorem run_withLimits (m : Machine) (wider : Limits) (code : List Instr)
    (helements : m.setting.limits.maxElements ≤ wider.maxElements)
    (hdepth : m.setting.limits.maxDepth ≤ wider.maxDepth)
    (hlimit : ∀ cause, (m.run code).1 ≠ .error (.limit cause)) :
    ((m.withLimits wider).run code).1 = (m.run code).1 ∧
    ((m.withLimits wider).run code).2.memory = (m.run code).2.memory := by
  have hclassify : ∀ fault, Fault.IsLimit fault → Fault.IsLimit fault.classify := by
    rintro _ ⟨cause, rfl⟩
    exact ⟨cause, rfl⟩
  rcases run_mirrored hclassify (m.instrStep_raises ⟨helements, hdepth⟩) code m.memory with
    ⟨_, ⟨cause, rfl⟩, hfail⟩ | hrun
  · exact absurd hfail (hlimit cause)
  · change (m.withLimits wider).run code = ((m.run code).1, _) at hrun
    rw [hrun]
    exact ⟨rfl, rfl⟩

/-- The sums of rows, whose additions are the fifth call inside one another. -/
def sumRows : List Instr := [.modify "each" [.name "sum"]]

theorem run_withLimits_sumRows :
    let m : Machine :=
      { setting := { limits := ⟨4, 5⟩ }, memory := ⟨[.tensor (.ofInts [2, 2] [1, 2, 3, 4])], []⟩ }
    ((m.withLimits ⟨4, 9⟩).run sumRows).1 = .ok () ∧
    ((m.withLimits ⟨4, 9⟩).run sumRows).2.memory = (m.run sumRows).2.memory ∧
    ((m.withLimits ⟨8, 5⟩).run (sumRows ++ [.call])).1 = .error (.domain (.functionWanted "call")) := by
  intro m
  have hrun : (m.run sumRows).1 = .ok () := by decide +kernel
  have hfail : (m.run (sumRows ++ [.call])).1 = .error (.domain (.functionWanted "call")) := by
    decide +kernel
  obtain ⟨hok, hmemory⟩ := run_withLimits m ⟨4, 9⟩ sumRows (by decide) (by decide) fun cause h => by
    rw [hrun] at h
    cases h
  obtain ⟨herror, -⟩ := run_withLimits m ⟨8, 5⟩ (sumRows ++ [.call]) (by decide) (by decide)
    fun cause h => by
      rw [hfail] at h
      cases h
  exact ⟨hok.trans hrun, hmemory, herror.trans hfail⟩

end Machine

end Tacit
