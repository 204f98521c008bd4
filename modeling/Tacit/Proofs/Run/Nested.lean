/-
Unders inside one another. An under of code in two parts does what the under of the first part does
around the under of the second: both do the first halves of all units in order, then the action, then the
second halves in reverse order. The two unders differ only in how deep the calls of the inner part are.
-/
import Tacit.Proofs.Derive.Pairs
import Tacit.Proofs.Run.Mirror

namespace Tacit

namespace Exec

/-! ## Less room -/

/-- The second step does what the first does, unless a call in the first would be too deep. -/
abbrev Shallower {α : Type} (x y : Exec α) : Prop := Mirrors TooDeep id x y

variable {setting : Setting} {room : Nat}

theorem shallower_call {room' : Nat} (h : room ≤ room') (f : Fn) :
    Shallower (call setting room f) (call setting room' f) :=
  Mirrors.call (fun _ => .refl _) rfl (fun _ hfault => hfault) room room' f h

/-- The instructions of a body, whose calls have the room given. -/
def runCode (setting : Setting) (room : Nat) (code : List Instr) : Exec Unit :=
  code.forM (instr setting (call setting room))

theorem runCode_append (setting : Setting) (room : Nat) (code code' : List Instr) :
    runCode setting room (code ++ code') = (do runCode setting room code; runCode setting room code') :=
  List.forM_append

theorem call_body_eq (name : String) (s : Signature) (dynamic : Bool) (code : List Instr) :
    call setting (room + 1) (.body name s dynamic code) = runCode setting room code := by
  rw [call_succ]
  rfl

theorem call_under_eq (transform action before after : Fn) :
    call setting (room + 1) (.under transform action before after) =
      (do call setting room before; call setting room action; call setting room after) := by
  rw [call_succ]
  rfl

/-- What the body of a function does takes one call less than the function. -/
theorem shallower_body (name : String) (s : Signature) (dynamic : Bool) (code : List Instr) :
    Shallower (call setting room (.body name s dynamic code)) (runCode setting room code) := by
  rw [← call_body_eq name s dynamic]
  exact shallower_call (Nat.le_succ room) _

/-- Nothing is done where there is no room. -/
theorem shallower_zero (f : Fn) (y : Exec Unit) : Shallower (call setting 0 f) y :=
  fun m => .excused ⟨_, _, rfl⟩ m _

/-! ## Flat and nested unders -/

section

variable {transform transform₁ transform₂ action : Fn} {name name₁ name₂ name' name₁' name₂' : String}
  {s s₁ s₂ s' s₁' s₂' : Signature} (before₁ before₂ after₁ after₂ : List Instr)

/-- The under with its halves in two parts, and the under of the one part around that of the other. -/
theorem nested_shallower : Shallower
    (call setting room (.under transform₁
      (.under transform₂ action (.body name₂ s₂ false before₂) (.body name₂' s₂' false after₂))
      (.body name₁ s₁ false before₁) (.body name₁' s₁' false after₁)))
    (call setting room (.under transform action (.body name s false (before₁ ++ before₂))
      (.body name' s' false (after₂ ++ after₁)))) := by
  rcases room with _ | _ | room
  · exact shallower_zero _ _
  · rw [call_succ, call_succ]
    exact Mirrors.bind (shallower_zero _ _) fun _ => .bind (shallower_zero _ _) fun _ => shallower_zero _ _
  · have hnested : call setting (room + 2) (.under transform₁
        (.under transform₂ action (.body name₂ s₂ false before₂) (.body name₂' s₂' false after₂))
        (.body name₁ s₁ false before₁) (.body name₁' s₁' false after₁)) = (do
          runCode setting room before₁
          call setting room (.body name₂ s₂ false before₂)
          call setting room action
          call setting room (.body name₂' s₂' false after₂)
          runCode setting room after₁) := by
      simp only [call_under_eq, call_body_eq, bind_assoc]
    have hflat : call setting (room + 2) (.under transform action
        (.body name s false (before₁ ++ before₂)) (.body name' s' false (after₂ ++ after₁))) = (do
          runCode setting room before₁
          runCode setting room before₂
          call setting (room + 1) action
          runCode setting room after₂
          runCode setting room after₁) := by
      rw [call_under_eq, call_body_eq, call_body_eq, runCode_append, runCode_append, bind_assoc]
    rw [hnested, hflat]
    refine Mirrors.bind (.refl _) fun _ => ?_
    refine Mirrors.bind (shallower_body name₂ s₂ false before₂) fun _ => ?_
    refine Mirrors.bind (shallower_call (Nat.le_succ room) action) fun _ => ?_
    refine Mirrors.bind (shallower_body name₂' s₂' false after₂) fun _ => ?_
    exact .refl _

end

end Exec

namespace Machine

/-- A call that mirrors another does what that does, unless it goes too deep. -/
theorem call_of_shallower {m : Machine} {f g : Fn}
    (h : Exec.Shallower (m.callStep f) (m.callStep g))
    (hdeep : ∀ limit name, (m.call f).1 ≠ .error (.limit (.depth limit name))) : m.call g = m.call f := by
  have hends := h m.memory
  unfold call
  generalize hf : m.callStep f m.memory = r at hends
  generalize hg : m.callStep g (id m.memory) = r' at hends
  cases hends with
  | ok a memory => rw [exec_ok hf, exec_ok hg]; rfl
  | error fault memory => rw [exec_error hf, exec_error hg]; rfl
  | excused hfault memory =>
    obtain ⟨limit, name, rfl⟩ := hfault
    exact absurd (congrArg Prod.fst (exec_error hf)) (hdeep limit name)

/-- Under distributes over sequences. The under of code in two parts around an action can be derived if
and only if the under of the second part around the action can be, and the under of the first part
around that one; the first part does not end in a literal. From every machine the two then lead to the
same outcome and the same machine, unless the second hits the limit on depth. -/
theorem under_append (m : Machine) {code code' : List Instr} (o : Operand) (hcode : ¬ EndsInLiteral code) :
    ((∃ f, m.setting.table.Makes "under" [.code (code ++ code'), o] f) ↔
      ∃ inner outer, m.setting.table.Makes "under" [.code code', o] inner ∧
        m.setting.table.Makes "under" [.code code, .fn inner] outer) ∧
    ∀ f inner outer, m.setting.table.Makes "under" [.code (code ++ code'), o] f →
      m.setting.table.Makes "under" [.code code', o] inner →
      m.setting.table.Makes "under" [.code code, .fn inner] outer →
      (∀ limit name, (m.call outer).1 ≠ .error (.limit (.depth limit name))) →
      m.call f = m.call outer := by
  refine ⟨⟨?_, ?_⟩, ?_⟩
  · rintro ⟨f, hf⟩
    obtain ⟨vs, action, hvs, ho, -⟩ := Table.of_makes_under hf
    obtain ⟨vs₁, vs₂, rfl, h₁, h₂⟩ := (Table.pairs_append hcode).1 hvs
    obtain ⟨inner, -, hinner⟩ := Table.makes_under h₂ ho
    obtain ⟨outer, -, houter⟩ := Table.makes_under (o := .fn inner) h₁ ⟨0, rfl⟩
    exact ⟨inner, outer, hinner, houter⟩
  · rintro ⟨inner, outer, hinner, houter⟩
    obtain ⟨vs₂, action, h₂, ho, -⟩ := Table.of_makes_under hinner
    obtain ⟨vs₁, -, h₁, -, -⟩ := Table.of_makes_under houter
    obtain ⟨f, -, hf⟩ := Table.makes_under ((Table.pairs_append hcode).2 ⟨vs₁, vs₂, rfl, h₁, h₂⟩) ho
    exact ⟨f, hf⟩
  · intro f inner outer hf hinner houter hdeep
    obtain ⟨vs, action, hvs, ho, hfform⟩ := Table.of_makes_under hf
    obtain ⟨vs₂, action', h₂, ho', hinnerform⟩ := Table.of_makes_under hinner
    obtain ⟨vs₁, inner', h₁, hinner', houterform⟩ := Table.of_makes_under houter
    -- the units and their halves are the same on both sides, and so is the action
    obtain rfl := hvs.unique ((Table.pairs_append hcode).2 ⟨vs₁, vs₂, rfl, h₁, h₂⟩)
    obtain rfl := ho.unique ho'
    obtain rfl : inner' = inner := hinner'.unique ⟨0, rfl⟩
    refine call_of_shallower ?_ hdeep
    cases hinnerform
    cases houterform
    cases hfform
    rw [beforeCode_append, afterCode_append]
    exact Exec.nested_shallower _ _ _ _

/-- The first two rows of an array. -/
def frontRows : List Instr := [.push (.tensor (.int 2)), .word "take"]

theorem under_append_frontRows :
    let m : Machine := { memory := ⟨[.tensor (.ofInts [3] [7, 8, 9])], [.shape [2]]⟩ }
    ¬ EndsInLiteral frontRows ∧ ∃ f inner outer,
      m.setting.table.Makes "under" [.code (frontRows ++ [.word "reverse"]), .name "negate"] f ∧
      m.setting.table.Makes "under" [.code [.word "reverse"], .name "negate"] inner ∧
      m.setting.table.Makes "under" [.code frontRows, .fn inner] outer ∧
      (m.call outer).1 = .ok () ∧ m.call f = m.call outer := by
  intro m
  have hcode : ¬ EndsInLiteral frontRows := by
    rintro ⟨rest, t, h⟩
    have hlast := congrArg List.getLast? h
    rw [List.getLast?_concat] at hlast
    cases hlast
  have hcall : ∀ f inner outer,
      m.setting.table.Makes "under" [.code (frontRows ++ [.word "reverse"]), .name "negate"] f →
      m.setting.table.Makes "under" [.code [.word "reverse"], .name "negate"] inner →
      m.setting.table.Makes "under" [.code frontRows, .fn inner] outer →
      (m.call outer).1 = .ok () → m.call f = m.call outer := by
    intro f inner outer hf hinner houter hok
    refine (under_append m (.name "negate") hcode).2 f inner outer hf hinner houter fun limit name h => ?_
    rw [hok] at h
    cases h
  exact ⟨hcode, _, _, _, ⟨6, rfl⟩, ⟨6, rfl⟩, ⟨6, rfl⟩, by decide +kernel,
    hcall _ _ _ ⟨6, rfl⟩ ⟨6, rfl⟩ ⟨6, rfl⟩ (by decide +kernel)⟩

end Machine

end Tacit
