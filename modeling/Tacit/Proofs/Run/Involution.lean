/-
What a function inverted twice does. It calls in the same places what the function calls, inverted twice, so
that it ends in the same memory and with the same outcome; only where a fault names code or rows of code the
name is that of the function inverted twice.
-/
import Tacit.Proofs.Derive.Involution
import Tacit.Proofs.Run.StackEffect

namespace Tacit

/-! ## Outcomes alike but for names -/

/-- The same fault, or a function inverted twice is named in it: for want of a value on rows, or of depth. -/
inductive Fault.Renamed : Fault → Fault → Prop
  | same (e : Fault) : Renamed e e
  | empty {f k : Fn} : f.Twice k →
    Renamed (.underflow (.empty (Fn.each f).name)) (.underflow (.empty (Fn.each k).name))
  | depth {f k : Fn} (limit : Nat) : f.Twice k → Renamed (.limit (.depth limit f.name)) (.limit (.depth limit k.name))

namespace Except

variable {α β : Type}

inductive Renamed : Except Fault α → Except Fault α → Prop
  | ok (a : α) : Renamed (.ok a) (.ok a)
  | error {e e' : Fault} : e.Renamed e' → Renamed (.error e) (.error e')

namespace Renamed

theorem refl (x : Except Fault α) : Renamed x x := by
  cases x with
  | ok a => exact .ok a
  | error e => exact .error (.same e)

theorem bind {x y : Except Fault α} {f g : α → Except Fault β} (h : Renamed x y)
    (hf : ∀ a, Renamed (f a) (g a)) : Renamed (x >>= f) (y >>= g) := by
  cases h with
  | ok a => exact hf a
  | error he => exact .error he

theorem mapM {f g : α → Except Fault β} (h : ∀ a, Renamed (f a) (g a)) (xs : List α) :
    Renamed (xs.mapM f) (xs.mapM g) := by
  induction xs with
  | nil => exact refl _
  | cons x xs ih =>
    rw [List.mapM_cons, List.mapM_cons]
    exact (h x).bind fun _ => ih.bind fun _ => refl _

end Renamed

end Except

namespace Exec

variable {α β : Type} {setting : Setting}

/-- The outcomes are alike, and the memory is the same. -/
def Renames (x y : Exec α) : Prop := ∀ m : Memory,
  (∃ a m', x m = .ok a m' ∧ y m = .ok a m') ∨
    ∃ e e' m', x m = .error e m' ∧ y m = .error e' m' ∧ e.Renamed e'

namespace Renames

theorem refl (x : Exec α) : Renames x x := by
  intro m
  cases h : x m with
  | ok a m' => exact .inl ⟨a, m', rfl, rfl⟩
  | error e m' => exact .inr ⟨e, e, m', rfl, rfl, .same e⟩

theorem bind {x y : Exec α} {f g : α → Exec β} (h : Renames x y) (hf : ∀ a, Renames (f a) (g a)) :
    Renames (x >>= f) (y >>= g) := by
  intro m
  rcases h m with ⟨a, m', hx, hy⟩ | ⟨e, e', m', hx, hy, he⟩
  · rw [bind_ok f hx, bind_ok g hy]
    exact hf a m'
  · rw [bind_error f hx, bind_error g hy]
    exact .inr ⟨e, e', m', rfl, rfl, he⟩

theorem lift {x y : Except Fault α} (h : Except.Renamed x y) : Renames (lift x) (lift y) := by
  intro m
  cases h with
  | ok a => exact .inl ⟨a, m, rfl, rfl⟩
  | error he => exact .inr ⟨_, _, m, rfl, rfl, he⟩

theorem forM {R : α → β → Prop} {f : α → Exec Unit} {g : β → Exec Unit} (h : ∀ a b, R a b → Renames (f a) (g b))
    {xs : List α} {ys : List β} (hxs : List.Forall₂ R xs ys) : Renames (xs.forM f) (ys.forM g) := by
  induction hxs with
  | nil => exact refl _
  | cons hab _ ih => exact (h _ _ hab).bind fun _ => ih

theorem pop {f k : Fn} (h : f.Twice k) : Renames (pop (Fn.each f).name) (pop (Fn.each k).name) := by
  rintro ⟨stack, context⟩
  cases stack with
  | nil => exact .inr ⟨_, _, _, rfl, rfl, .empty h⟩
  | cons v stack => exact .inl ⟨v, ⟨stack, context⟩, rfl, rfl⟩

end Renames

/-! ## Rows -/

section

variable {apply apply' : Apply} {f k : Fn} (h : ∀ v, Except.Renamed (apply f [v]) (apply' k [v]))
  (hone : LeavesOne apply f 1)

include h hone

theorem renamed_applyOne (v : Value) : Except.Renamed (applyOne apply f [v]) (applyOne apply' k [v]) := by
  obtain ⟨-, hlength⟩ := hone [v] rfl
  have h := h v
  unfold applyOne
  cases hx : apply f [v] with
  | ok vs =>
    obtain ⟨w, rfl⟩ := List.length_eq_one_iff.1 (hlength vs hx)
    rw [hx] at h
    generalize apply' k [v] = y at h
    cases h
    exact .ok w
  | error e =>
    rw [hx] at h
    generalize apply' k [v] = y at h
    cases h with
    | error he => exact .error he

theorem renames_each (hk : f.Twice k) :
    Renames (each setting apply f (Fn.each f).name) (each setting apply' k (Fn.each k).name) := by
  have hrow := renamed_applyOne h hone
  refine (Renames.pop hk).bind fun v => (Renames.refl _).bind fun t => ?_
  split
  · exact (Renames.lift (hrow _)).bind fun w => .refl _
  · exact (Renames.lift (.mapM (fun row => hrow _) _)).bind fun ws => .refl _

end

/-- The results of two functions that each leave one are taken alike. -/
theorem renamed_applyWith {call call' : Fn → Exec Unit} {f k : Fn} (h : Renames (call f) (call' k))
    (heffect : HasEffect ⟨1, 1⟩ (fun _ => True) (call f)) (hf : f.signature = ⟨1, 1⟩) (hk : k.signature = ⟨1, 1⟩)
    (v : Value) : Except.Renamed (applyWith setting call f [v]) (applyWith setting call' k [v]) := by
  have hsteps : Renames (do pushAll setting.limits [v]; call f) (do pushAll setting.limits [v]; call' k) :=
    (Renames.refl _).bind fun _ => h
  have hleft : HasEffect ⟨0, 1⟩ (fun _ => True) (do pushAll setting.limits [v]; call f) :=
    (effect_pushAll [v]).bind fun _ _ => heffect
  have hassoc (call : Fn → Exec Unit) (f : Fn) : (do
      pushAll setting.limits [v]
      call f
      popMany f.outputs f.name) =
        (do pushAll setting.limits [v]; call f) >>= fun _ => popMany f.outputs f.name := (bind_assoc ..).symm
  rw [applyWith_eq, applyWith_eq, hassoc, hassoc]
  rcases hsteps {} with ⟨_, ⟨stack, context⟩, hx, hy⟩ | ⟨e, e', m, hx, hy, he⟩
  · -- each call leaves a value, so that neither of the two pops comes up short
    have hone := hleft [] []
    rw [show (⟨[], []⟩ : Memory) = {} from rfl, hx] at hone
    obtain ⟨-, -, out, hout, hstack⟩ := hone
    rw [List.drop_nil, List.append_nil] at hstack
    have hlength : 1 ≤ stack.length := by
      rw [show stack = out from hstack, hout]
    rw [bind_ok _ hx, bind_ok _ hy, Fn.outputs, Fn.outputs, hf, hk, popMany_run hlength, popMany_run hlength]
    exact .ok _
  · rw [bind_error _ hx, bind_error _ hy]
    exact .error he

/-! ## Calls -/

theorem effect_units {call : Fn → Exec Unit} : ∀ {us : List CodeUnit},
    (∀ u ∈ us, HasEffect u.function.signature (fun _ => True) (call u.function)) →
    HasEffect (effectOf us) (fun _ => True) (us.forM (runUnit setting call))
  | [], _ => .pure trivial
  | u :: us, h => by
    obtain ⟨hu, hus⟩ := List.forall_mem_cons.1 h
    have hliterals : HasEffect ⟨0, u.literals.length⟩ (fun _ => True) (pushLiterals setting.limits u.literals) :=
      (effect_forM_push _).of_eq (by rw [List.length_map])
    exact (hliterals.bind fun _ _ => hu).bind fun _ _ => effect_units hus

/-- A function with an inverse has the effect that it declares. The induction is on the room. -/
theorem effect_invertible (ht : setting.table = .standard) (room : Nat) : ∀ {f : Fn}, f.Invertible →
    HasEffect f.signature (fun _ => True) (call setting room f) := by
  induction room using Nat.strongRecOn with
  | ind room ih =>
  intro f hf
  cases room with
  | zero => exact fun _ _ _ => rfl
  | succ room =>
    have hinner {f : Fn} (hf : f.Invertible) := ih (room - 1) (by omega) hf
    rw [call_succ]
    cases hf with
    | word => exact effect_word _
    | product => exact effect_product (leavesOne_applyWith (hinner (.word rfl)) rfl)
    | format t => exact effect_format t _ _
    | parse t => exact effect_parse t _ _
    | @code f code us hcode hderivation hs hus _ hinvertible =>
      have hsignature : f.signature = effectOf us :=
        Except.ok.inj (hs.symm.trans (stackEffect_units Table.flat_standard.resolve_unknown hus))
      rw [body_code hcode hderivation, forM_code (ht ▸ Table.flat_standard) (ht ▸ hus), hsignature]
      exact effect_units fun u hu => ih room (by omega) (hinvertible u hu)
    | each hs hf => exact (leavesOne_applyWith (hinner hf) hs).each _

/-- A function inverted twice does what the function does, but for names. The induction is on the room, which
is less in every call. -/
theorem renames_call (ht : setting.table = .standard) (room : Nat) : ∀ {f k : Fn}, f.Invertible → f.Twice k →
    Renames (call setting room f) (call setting room k) := by
  induction room using Nat.strongRecOn with
  | ind room ih =>
  intro f k hf hk
  cases room with
  | zero =>
    -- both calls go too deep, each by the name of its own function
    exact fun m => .inr ⟨_, _, m, rfl, rfl, .depth _ hk⟩
  | succ room =>
    rw [call_succ, call_succ]
    cases hf.redone hk with
    | same => exact .refl _
    | @each g k hg htwice hs hs' =>
      have heffect := effect_invertible ht (room - 1) hg
      have hone : LeavesOne (applyWith setting (call setting (room - 1))) g 1 := leavesOne_applyWith heffect hs
      rw [hs] at heffect
      exact renames_each (renamed_applyWith (ih (room - 1) (by omega) hg htwice) heffect hs hs') hone htwice
    | code hcode hderivation hus hcode' hderivation' hws h =>
      have hflat : setting.table.Flat := ht ▸ Table.flat_standard
      rw [body_code hcode hderivation, body_code hcode' hderivation', forM_code hflat (ht ▸ hus),
        forM_code hflat (ht ▸ hws)]
      refine .forM (fun u w huw => ?_) h
      obtain ⟨hliterals, hinvertible, htwice⟩ := huw
      unfold runUnit
      rw [hliterals]
      exact (Renames.refl _).bind fun _ => ih room (by omega) hinvertible htwice

end Exec

namespace Machine

/-- Code whose units have declared inverses or inverses derived from such has an inverse, and that has one in
turn. The inverse of the inverse leaves every machine as the code does, with the same outcome; only a fault
for want of a value on rows, or at the limit on depth, names a function inverted twice in place of the
function. -/
theorem call_invert_invert {code : List Instr} (h : Invertible code) :
    ∃ f g k, Table.standard.lambda code = .ok f ∧ Table.standard.derive "invert" [.code code] = .ok g ∧
      Table.standard.derive "invert" [.fn g] = .ok k ∧ ∀ m : Machine, m.setting.table = .standard →
        (m.call k).2 = (m.call f).2 ∧ Except.Renamed (m.call f).1 (m.call k).1 := by
  obtain ⟨f, hf, hinvertible⟩ := h.lambda
  obtain ⟨k, g, hg, hk⟩ := hinvertible.twice
  have hinvert {o : Operand} {f g : Fn} (ho : Table.standard.function o = .ok f)
      (hg : Table.standard.invert f = .ok g) : Table.standard.derive "invert" [o] = .ok g :=
    Table.derive_ok (m := .invert) rfl rfl (.cons ho .nil) hg
  refine ⟨f, g, k, hf, hinvert hf hg, hinvert rfl hk, fun m ht => ?_⟩
  rcases Exec.renames_call ht m.room hinvertible ⟨g, hg, hk⟩ m.memory with
    ⟨_, memory, hx, hy⟩ | ⟨e, e', memory, hx, hy, he⟩
  · unfold call callStep
    rw [exec_ok hx, exec_ok hy]
    exact ⟨rfl, .ok _⟩
  · unfold call callStep
    rw [exec_error hx, exec_error hy]
    exact ⟨rfl, .error he⟩

/-- Three added to the numbers of each row, and the rows turned round and put in boxes one by one. -/
def boxedRows : List Instr :=
  [.push (.tensor (.int 3)), .word "add", .modify "each" [.code [.word "reverse", .word "box"]]]

theorem call_invert_invert_boxedRows :
    let m : Machine := { memory := { stack := [.tensor (.ofInts [2, 2] [1, 2, 3, 4])] } }
    Invertible boxedRows ∧ ∃ f g k, Table.standard.lambda boxedRows = .ok f ∧
      Table.standard.derive "invert" [.code boxedRows] = .ok g ∧
      Table.standard.derive "invert" [.fn g] = .ok k ∧ (m.call k).2 = (m.call f).2 := by
  intro m
  have hrow : (Fn.body "lambda" ⟨1, 1⟩ false [.word "reverse", .word "box"]).Invertible := by
    have hus : units Table.standard.resolve [.word "reverse", .word "box"] =
        .ok [⟨[], .word (.unary .reverse)⟩, ⟨[], .word (.unary .box)⟩] := rfl
    refine .code rfl rfl rfl hus ?_ ?_
    · simp [Fn.parametric, Word.parametric]
    · simpa using ⟨.word rfl, .word rfl⟩
  have hcode : Invertible boxedRows := by
    refine ⟨[⟨[.int 3], .word (.binary (.apply .add))⟩,
      ⟨[], .each (.body "lambda" ⟨1, 1⟩ false [.word "reverse", .word "box"])⟩], rfl, ?_, ?_⟩
    · simp [CodeUnit.Complete, Fn.parametric, Word.parametric, Binary.inverse?]
    · simpa using ⟨.word rfl, .each rfl hrow⟩
  obtain ⟨f, g, k, hf, hg, hk, hcall⟩ := call_invert_invert hcode
  exact ⟨hcode, f, g, k, hf, hg, hk, (hcall m rfl).1⟩

/-- On an empty stack the one fault names rows of the code and the other rows of its inverse inverted. -/
theorem call_invert_invert_named :
    let code : List Instr := [.modify "each" [.code [.word "reverse"]]]
    Invertible code ∧ ∃ f g k, Table.standard.lambda code = .ok f ∧
      Table.standard.derive "invert" [.code code] = .ok g ∧ Table.standard.derive "invert" [.fn g] = .ok k ∧
      (({} : Machine).call f).1 = .error (.underflow (.empty "each(lambda)")) ∧
      (({} : Machine).call k).1 = .error (.underflow (.empty "each(invert(invert(lambda)))")) ∧
      (({} : Machine).call k).1 ≠ (({} : Machine).call f).1 := by
  intro code
  have hrow : (Fn.body "lambda" ⟨1, 1⟩ false [.word "reverse"]).Invertible := by
    have hus : units Table.standard.resolve [.word "reverse"] = .ok [⟨[], .word (.unary .reverse)⟩] := rfl
    refine .code rfl rfl rfl hus ?_ ?_
    · simp [Fn.parametric, Word.parametric]
    · simpa using .word rfl
  have hcode : Invertible code := by
    refine ⟨[⟨[], .each (.body "lambda" ⟨1, 1⟩ false [.word "reverse"])⟩], rfl, ?_, ?_⟩
    · simp [CodeUnit.Complete, Fn.parametric]
    · simpa using .each rfl hrow
  refine ⟨hcode, _, _, _, rfl, rfl, rfl, rfl, rfl, ?_⟩
  intro h
  cases h

end Machine

end Tacit
