/-
Formatting after parsing. A subject taken apart by a template, or by separators, and put together again
by the same is the subject, whether its fields lie in an array or on the stack.
-/
import Tacit.Proofs.Run.Step
import Tacit.Proofs.Template.Fields

namespace Tacit

namespace Exec

variable {setting : Setting} {room : Nat} {stack : List Value} {context : List Saved} {m : Memory}

theorem forM_push_eq_ok {limits : Limits} : ∀ {vs stack : List Value},
    vs.forM (push limits) ⟨stack, context⟩ = .ok () m → m = ⟨vs.reverse ++ stack, context⟩
  | [], _, h => by cases h; rfl
  | v :: vs, stack, h => by
    obtain ⟨_, _, hv, h⟩ := bind_eq_ok h
    obtain ⟨-, rfl⟩ := push_eq_ok hv
    rw [forM_push_eq_ok h, List.reverse_cons, List.append_assoc]
    rfl

theorem pushAll_eq_ok {limits : Limits} {vs : List Value}
    (h : pushAll limits vs ⟨stack, context⟩ = .ok () m) : m = ⟨vs ++ stack, context⟩ := by
  rw [forM_push_eq_ok h, List.reverse_reverse]

/-- The texts as strings on the stack. -/
def stringValues (texts : List Text) : List Value := texts.map fun text => .tensor (.string text)

theorem fill_stringValues {t : Template} {texts : List Text} {u : Text} (h : t.join texts = .ok u)
    (hu : u.IsUnicode) : t.fill (stringValues texts) = .ok (.string u) := by
  have htexts : ∀ text ∈ texts, text.IsUnicode := Template.isUnicode_of_join h hu
  have hfields : (stringValues texts).mapM (fun v => do (← v.tensor?).fieldText) = .ok texts := by
    clear h
    induction texts with
    | nil => rfl
    | cons text texts ih =>
      obtain ⟨htext, hrest⟩ := List.forall_mem_cons.1 htexts
      unfold stringValues
      rw [List.map_cons, List.mapM_cons]
      exact Except.bind_of_ok (Tensor.fieldText_string htext) (Except.bind_of_ok (ih hrest) rfl)
  exact Except.bind_of_ok hfields (Except.bind_of_ok h rfl)

theorem call_parse_eq_ok {t : Template} {u : Text} (hu : u.IsUnicode)
    (h : call setting room (.parse t) ⟨.tensor (.string u) :: stack, context⟩ = .ok () m) :
    0 < room ∧ ∃ texts, t.join texts = .ok u ∧ m = ⟨stringValues texts ++ stack, context⟩ := by
  cases room with
  | zero => cases h
  | succ room =>
    rw [call_succ] at h
    obtain ⟨v, _, hpop, h⟩ := bind_eq_ok h
    cases hpop
    obtain ⟨us, _, hlift, h⟩ := bind_eq_ok h
    obtain ⟨hus, rfl⟩ := lift_eq_ok hlift
    obtain ⟨w, hw, hus⟩ := Except.bind_ok hus
    cases hw
    obtain ⟨subject, hsubject, hus⟩ := Except.bind_ok hus
    rw [Tensor.text_string hu] at hsubject
    cases hsubject
    obtain ⟨texts, htexts, hus⟩ := Except.bind_ok hus
    cases hus
    refine ⟨Nat.succ_pos room, texts, Template.join_of_split htexts, ?_⟩
    rw [pushAll_eq_ok h, List.map_map]
    rfl

theorem call_format_run {t : Template} {texts : List Text} {u : Text} (hroom : 0 < room)
    (h : t.join texts = .ok u) (hu : u.IsUnicode) (hfits : Fits setting.limits (.tensor (.string u))) :
    call setting room (.format t) ⟨stringValues texts ++ stack, context⟩ =
      .ok () ⟨.tensor (.string u) :: stack, context⟩ := by
  obtain ⟨room, rfl⟩ := Nat.exists_eq_succ_of_ne_zero hroom.ne'
  have hlength : (stringValues texts).length = t.fields := by
    rw [stringValues, List.length_map]
    exact (Template.join_eq_ok.1 h).1
  rw [call_succ]
  refine (bind_ok _ (popMany_run (by rw [List.length_append]; omega) _ _)).trans ?_
  rw [List.take_left' hlength, List.drop_left' hlength, fill_stringValues h hu]
  exact push_fits hfits stack context

end Exec

open Exec

/-- The stack is as it was before the subject was taken apart. -/
theorem Machine.run_format_after_parse {u : Text} (hu : u.IsUnicode) (m : Machine) (t : Template)
    (h : (m.run [.push (.tensor (.string u)), .modify "invert" [.fn (.format t)]]).1 = .ok ()) :
    m.run [.push (.tensor (.string u)), .modify "invert" [.fn (.format t)], .invoke (.format t)] =
      (.ok (), { m with memory := ⟨.tensor (.string u) :: m.memory.stack, m.memory.context⟩ }) := by
  obtain ⟨memory, hforM⟩ := forM_of_run h
  obtain ⟨_, pushed, hpush, hforM⟩ := bind_eq_ok hforM
  obtain ⟨_, parsed, hparse, -⟩ := bind_eq_ok hforM
  obtain ⟨hfits, rfl⟩ : Fits m.setting.limits (.tensor (.string u)) ∧
      pushed = ⟨.tensor (.string u) :: m.memory.stack, m.memory.context⟩ := push_eq_ok hpush
  obtain ⟨hroom, texts, hjoin, rfl⟩ : 0 < m.room ∧ ∃ texts, t.join texts = .ok u ∧
      parsed = ⟨stringValues texts ++ m.memory.stack, m.memory.context⟩ := call_parse_eq_ok hu hparse
  -- the room and the limit on elements that let the subject be parsed let it be formatted
  have hformat : Exec.call m.setting m.room (.format t) ⟨stringValues texts ++ m.memory.stack, m.memory.context⟩ =
      .ok () ⟨.tensor (.string u) :: m.memory.stack, m.memory.context⟩ := call_format_run hroom hjoin hu hfits
  refine run_of_forM ((bind_ok _ hpush).trans ((bind_ok _ hparse).trans ?_))
  exact bind_ok _ hformat

/-- Parsing and then formatting restores a text: by a separator or a list of separators, where a
string that is not empty always separates; by a template, with the fields in an array; and by a
template's function after its inverse, with the fields on the stack. -/
theorem format_after_parse {u : Text} (hu : u.IsUnicode) :
    (∀ separator fields, Binary.splitFields.onTensors separator (.string u) = .ok fields →
      Binary.joinFields.onTensors separator fields = .ok (.string u)) ∧
    (∀ separator text, separator.text = .ok text → text ≠ [] →
      ∃ fields, Binary.splitFields.onTensors separator (.string u) = .ok fields) ∧
    (∀ template fields, Binary.parseWith.onTensors template (.string u) = .ok fields →
      Binary.formatWith.onTensors template fields = .ok (.string u)) ∧
    (∀ (m : Machine) (t : Template),
      (m.run [.push (.tensor (.string u)), .modify "invert" [.fn (.format t)]]).1 = .ok () →
      m.run [.push (.tensor (.string u)), .modify "invert" [.fn (.format t)], .invoke (.format t)] =
        (.ok (), { m with memory := ⟨.tensor (.string u) :: m.memory.stack, m.memory.context⟩ })) := by
  refine ⟨?separators, ?strings, ?template, ?stack⟩
  case separators =>
    intro separator fields h
    obtain ⟨texts, htexts, hfields⟩ := Except.bind_ok h
    cases hfields
    exact Except.bind_of_ok (Tensor.joinFields_of_splitFields hu htexts) rfl
  case strings =>
    intro separator text htext hne
    obtain ⟨texts, htexts⟩ := Tensor.splitFields_of_text hu htext hne
    exact ⟨.strings texts, Except.bind_of_ok htexts rfl⟩
  case template =>
    intro template fields h
    obtain ⟨source, hsource, h⟩ := Except.bind_ok h
    obtain ⟨subject, hsubject, h⟩ := Except.bind_ok h
    rw [Tensor.text_string hu] at hsubject
    cases hsubject
    obtain ⟨texts, htexts, hfields⟩ := Except.bind_ok h
    cases hfields
    have hjoin := Template.join_of_split htexts
    have hrows := Tensor.fieldTexts_strings (Template.isUnicode_of_join hjoin hu)
    exact Except.bind_of_ok hsource (Except.bind_of_ok hrows (Except.bind_of_ok hjoin rfl))
  case stack =>
    intro m t h
    exact m.run_format_after_parse hu t h

/-- A key and a value around an equals sign, above a number that stays where it is. -/
theorem format_after_parse_pair :
    let u := Text.ofString "k=v"
    let parts := Tensor.strings [Text.ofString "k", Text.ofString "v"]
    let m : Machine := { memory := ⟨[.tensor (.int 7)], []⟩ }
    let t := Template.parse (Text.ofString "_=_")
    Binary.joinFields.onTensors (.string (Text.ofString "=")) parts = .ok (.string u) ∧
    Binary.formatWith.onTensors (.string (Text.ofString "_=_")) parts = .ok (.string u) ∧
    m.run [.push (.tensor (.string u)), .modify "invert" [.fn (.format t)], .invoke (.format t)] =
      (.ok (), { m with memory := ⟨[.tensor (.string u), .tensor (.int 7)], []⟩ }) := by
  intro u parts m t
  have hu : u.IsUnicode := by decide
  obtain ⟨hseparators, -, htemplate, hstack⟩ := format_after_parse hu
  have hparse : (m.run [.push (.tensor (.string u)), .modify "invert" [.fn (.format t)]]).1 = .ok () := by
    decide +kernel
  exact ⟨hseparators _ parts rfl, htemplate _ parts rfl, hstack m t hparse⟩

end Tacit
