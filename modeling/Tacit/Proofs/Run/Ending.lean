/-
Every run over the built-in words ends. A process has no bound on its steps and a derivation none on its
depth; the limit on depth ends the one, and the heights of functions end the other.
-/
import Tacit.Proofs.Derive.Heights
import Tacit.Proofs.Run.Reached

namespace Tacit

/-- Every fault but a definition without end. -/
def Classes.ending : Classes where
  value _ := True
  fn _ := True
  saved _ := True
  fault e := e ≠ .endlessDefinition

namespace Classes

theorem hold_ending : ending.Hold .standard (fun _ => True) Fault.ofRun where
  closed := by constructor <;> intros <;> trivial
  realm := by constructor <;> intros <;> trivial
  spares := Table.flat_standard.spares_ofRun
  fault he := fun h => by subst h; cases he
  underflow _ := fun h => nomatch h

theorem holdHalves_ending : ending.HoldHalves where
  unary _ _ := ⟨trivial, trivial⟩
  binary _ _ _ := ⟨trivial, trivial⟩
  restore _ _ _ := trivial
  parameters := ⟨fun _ _ _ => trivial, fun _ => trivial⟩
  half _ _ := trivial

end Classes

namespace Machine

theorem classify_ne_endless {e : Fault} (h : e ≠ .endlessDefinition) : e.classify ≠ .endlessDefinition := by
  cases e with
  | endlessDefinition => exact absurd rfl h
  | _ => exact fun h => nomatch h

/-- A fault of the machine is no definition without end. -/
theorem ending_ofMachine (e : Fault) (he : e.ofMachine = true) : Classes.ending.fault e := fun h => by
  subst h
  cases he

/-- Every run over the built-in words ends: the process comes to its end in finitely many steps, from any
memory, at any depth and within any limits. No outcome lacks an answer, and every derivation that a run may
ask for comes to rest, whatever function or code it is of. -/
theorem run_ends (limits : Limits) :
    (∀ (depth : Nat) (memory : Memory) (code : List Instr),
      let m : Machine := ⟨{ limits := limits }, depth, memory⟩
      (∃ n, Process.after m.setting m.depth n (.start m code) = .ended (m.run code).1 (m.run code).2.memory) ∧
        (m.run code).1 ≠ .error .endlessDefinition) ∧
    (∀ (hosts : List Host) (code : List Instr),
      evaluate { limits := limits } hosts code ≠ .error .endlessDefinition) ∧
    Table.standard.Settled := by
  refine ⟨fun depth memory code => ⟨Process.start_reaches _ code, fun hrun => ?_⟩, fun hosts code hrun => ?_,
    Table.flat_standard.settled⟩
  · have hmemory : memory.Within .ending := ⟨fun _ _ => trivial, fun _ _ => trivial⟩
    obtain ⟨-, hfault⟩ := run_within ending_ofMachine ⟨{ limits := limits }, depth, memory⟩
      Classes.hold_ending Classes.holdHalves_ending hmemory fun _ (_ : _ ∈ code) => trivial
    obtain ⟨e, he, hclassify⟩ := hfault _ hrun
    exact classify_ne_endless he hclassify
  · have hhosts (h : Host) : (∀ v, Value.ofHost h = .ok v → Classes.ending.value v) ∧
        ∀ e, Value.ofHost h = .error e → Classes.ending.fault e :=
      ⟨fun _ _ => trivial, fun e he hendless => by subst hendless; cases Value.tame_ofHost h _ he⟩
    obtain ⟨-, hfault⟩ := evaluate_within ending_ofMachine { limits := limits } Classes.hold_ending
      Classes.holdHalves_ending (fun h (_ : h ∈ hosts) => hhosts h) fun _ (_ : _ ∈ code) => trivial
    obtain ⟨e, he, rfl | hclassify⟩ := hfault _ hrun
    · exact he rfl
    · exact classify_ne_endless he hclassify

/-- Code that calls a copy of itself ends at the limit on depth. -/
example : evaluate { limits := { maxDepth := 5 } } [] [.quote [.word "dup", .call], .word "dup", .call] =
    .error (.limit (.depth 5 "dup")) := by rfl

end Machine

end Tacit
