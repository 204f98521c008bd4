/-
Inverting twice. An inverse is made of the inverses of the units, read backwards, and has the effect read
backwards; inverted again it has the units that the function had, each inverted twice. Words, formats and
templates come back as they were, so that nothing but the names of code is new.
-/
import Tacit.Proofs.Derive.Heights
import Tacit.Proofs.Derive.Pairs

namespace Tacit

open Table (flat_standard)

/-! ## Units -/

/-- What is left for what was taken. -/
def Signature.flip (s : Signature) : Signature := ⟨s.outputs, s.args⟩

theorem Signature.flip_andThen (s t : Signature) : (s.andThen t).flip = t.flip.andThen s.flip := rfl

/-- The effect of the literals and then of the function. -/
def CodeUnit.effect (u : CodeUnit) : Signature :=
  (⟨0, u.literals.length⟩ : Signature).andThen u.function.signature

def effectOf : List CodeUnit → Signature
  | [] => .empty
  | u :: us => u.effect.andThen (effectOf us)

/-- The units one after another. -/
def codeOf (us : List CodeUnit) : List Instr := us.flatMap fun u => u.code u.function

theorem effectOf_append (us vs : List CodeUnit) :
    effectOf (us ++ vs) = (effectOf us).andThen (effectOf vs) := by
  induction us with
  | nil => exact (Signature.empty_andThen _).symm
  | cons u us ih => rw [List.cons_append, effectOf, ih, effectOf, Signature.andThen_assoc]

section

variable {resolve : Instr → Except Fault Fn}

theorem units_codeOf (hinvoke : ∀ f, resolve (.invoke f) = .ok f) (us : List CodeUnit) :
    units resolve (codeOf us) = .ok us := by
  induction us with
  | nil => rfl
  | cons u us ih =>
    have hcode : codeOf (u :: us) =
        u.literals.map (fun t => .push (.tensor t)) ++ .invoke u.function :: codeOf us := by
      show u.code u.function ++ codeOf us = _
      rw [CodeUnit.code, List.append_assoc]
      rfl
    unfold units
    rw [hcode, unitsFrom_literals, List.nil_append]
    exact Except.bind_of_ok (hinvoke _) (Except.bind_of_ok ih rfl)

variable (hunknown : ∀ text f, resolve (.unknown text) ≠ .ok f)

include hunknown

theorem effectFrom_units {code : List Instr} {pending : List Tensor} {us : List CodeUnit}
    (hus : unitsFrom resolve pending code = .ok us) :
    effectFrom resolve ⟨0, pending.length⟩ code = .ok (effectOf us) := by
  replace hus := readAs_of_units hus
  -- what is pending has been pushed and not yet taken, so it is the effect up to here
  induction hus with
  | nil => rfl
  | @literal pending t code us _ ih =>
    rw [List.length_append] at ih
    unfold effectFrom
    rw [show Instr.effect resolve (.push (.tensor t)) = .ok ⟨0, 1⟩ from rfl, Except.ok_bind]
    rw [show (⟨0, pending.length⟩ : Signature).andThen ⟨0, 1⟩ = ⟨0, pending.length + [t].length⟩ by
      simp [Signature.andThen, Nat.add_comm]]
    exact ih
  | @use pending i f code us hi hf _ ih =>
    have hrest : stackEffect resolve code = .ok (effectOf us) := ih
    unfold effectFrom
    rw [Instr.effect_of_use hunknown hi hf, Except.ok_bind, effectFrom_eq, hrest]
    rfl

theorem stackEffect_units {code : List Instr} {us : List CodeUnit} (hus : units resolve code = .ok us) :
    stackEffect resolve code = .ok (effectOf us) := effectFrom_units hunknown hus

theorem ofCode_units {code : List Instr} {us : List CodeUnit} (hus : units resolve code = .ok us)
    (name : String) : Fn.ofCode resolve name code = .ok (.body name (effectOf us) false code) := by
  exact Fn.ofCode_of_static (fun i hi => (effect_of_units hunknown hus i hi).1) (stackEffect_units hunknown hus)

end

/-! ## Functions with an inverse -/

/-- Words with a declared inverse, formats and templates, code of units that have their literals and such
functions, and such functions on rows. -/
inductive Fn.Invertible : Fn → Prop
  | word {w : Word} : w.inverse?.isSome → Invertible (.word w)
  | product : Invertible .product
  | format (t : Template) : Invertible (.format t)
  | parse (t : Template) : Invertible (.parse t)
  | code {f : Fn} {code : List Instr} {us : List CodeUnit} : f.code? = some code → f.derivation = none →
    stackEffect Table.standard.resolve code = .ok f.signature → units Table.standard.resolve code = .ok us →
    (∀ u ∈ us, u.literals.length = u.function.parametric) → (∀ u ∈ us, Invertible u.function) → Invertible f
  | each {f : Fn} : f.signature = ⟨1, 1⟩ → Invertible f → Invertible (.each f)

namespace Fn

/-- The effect with as many literals before the function as its inverse gets again. -/
def effect (f : Fn) : Signature := (⟨0, f.parametric⟩ : Signature).andThen f.signature

theorem effect_of_parametric {f : Fn} (h : f.parametric = 0) : f.effect = f.signature := by
  unfold effect
  rw [h]
  exact Signature.empty_andThen _

theorem parametric_code {f : Fn} {code : List Instr} (h : f.code? = some code) : f.parametric = 0 := by
  cases f with
  | word w => cases h
  | _ => rfl

/-- Words that get a literal again take it beside another argument. -/
theorem parametric_of_signature {f : Fn} (h : f.signature = ⟨1, 1⟩) : f.parametric = 0 := by
  cases f with
  | word w =>
    cases w with
    | binary b => cases h
    | _ => rfl
  | _ => rfl

/-- The inverse that is derived, with the same literals and the effect read backwards. -/
structure UndoneBy (f g : Fn) : Prop where
  derived : Table.standard.invert f = .ok g
  parametric : g.parametric = f.parametric
  effect : g.effect = f.effect.flip

/-- What inverting twice gives. -/
def Twice (f k : Fn) : Prop := ∃ g, Table.standard.invert f = .ok g ∧ Table.standard.invert g = .ok k

theorem Twice.unique {f k k' : Fn} (h : f.Twice k) (h' : f.Twice k') : k = k' := by
  obtain ⟨g, hg, hk⟩ := h
  obtain ⟨g', hg', hk'⟩ := h'
  cases hg.symm.trans hg'
  exact Except.ok.inj (hk.symm.trans hk')

end Fn

/-! ## Words -/

theorem Fn.inverse_twice {f g : Fn} {i j : Inverse} (hi : f.inverse? = some i)
    (hg : Table.standard.ofInverse i = .ok g) (hj : g.inverse? = some j)
    (hf : Table.standard.ofInverse j = .ok f) (hinvertible : g.Invertible) (hparametric : g.parametric = f.parametric)
    (heffect : g.effect = f.effect.flip) :
    ∃ g : Fn, g.Invertible ∧ f.UndoneBy g ∧ Table.standard.invert g = .ok f :=
  ⟨g, hinvertible, ⟨flat_standard.invert_declared hi hg, hparametric, heffect⟩, flat_standard.invert_declared hj hf⟩

/-- A declared inverse has the word for its own. -/
theorem Word.inverse_twice {w : Word} (h : w.inverse?.isSome) :
    ∃ g : Fn, g.Invertible ∧ (Fn.word w).UndoneBy g ∧ Table.standard.invert g = .ok (.word w) := by
  have hword {w v : Word} {i j : Inverse} (hi : (Fn.word w).inverse? = some i)
      (hv : Table.standard.ofInverse i = .ok (.word v)) (hj : (Fn.word v).inverse? = some j)
      (hw : Table.standard.ofInverse j = .ok (.word w)) (hp : (Fn.word v).parametric = (Fn.word w).parametric)
      (he : (Fn.word v).effect = (Fn.word w).effect.flip) :
      ∃ g : Fn, g.Invertible ∧ (Fn.word w).UndoneBy g ∧ Table.standard.invert g = .ok (.word w) := by
    refine Fn.inverse_twice hi hv hj hw (.word ?_) hp he
    obtain ⟨_, h, -⟩ := Option.map_eq_some_iff.1 hj
    rw [h]
    rfl
  cases w with
  | dup | pop | dupBelow => cases h
  | swap | flip => exact hword rfl rfl rfl rfl rfl rfl
  | unary u =>
    cases u with
    | identity | reverse | transpose | untranspose | fix | unfix | box | unbox =>
      exact hword rfl rfl rfl rfl rfl rfl
    | primes => exact Fn.inverse_twice rfl rfl rfl rfl .product rfl rfl
    | map op =>
      cases op with
      | negate | not | reciprocal | sqrt | square => exact hword rfl rfl rfl rfl rfl rfl
      | _ => cases h
    | _ => cases h
  | binary b =>
    cases b with
    | rotate | unrotate | joinFields | splitFields | formatWith | parseWith =>
      exact hword rfl rfl rfl rfl rfl rfl
    | unscale op => cases op <;> exact hword rfl rfl rfl rfl rfl rfl
    | apply op =>
      cases op with
      | add | subtract | multiply | divide => exact hword rfl rfl rfl rfl rfl rfl
      | _ => cases h
    | _ => cases h

/-! ## Rows -/

namespace Fn.UndoneBy

variable {f g : Fn} (h : f.UndoneBy g) (hs : f.signature = ⟨1, 1⟩)

include h hs

theorem signature : g.signature = ⟨1, 1⟩ := by
  have hf := parametric_of_signature hs
  have heffect := h.effect
  rw [effect_of_parametric (h.parametric.trans hf), effect_of_parametric hf, hs] at heffect
  exact heffect

theorem each : (Fn.each f).UndoneBy (.each g) where
  derived := by
    rw [flat_standard.invert_each, h.derived]
    exact Fn.eachOf_ok (h.signature hs)
  parametric := rfl
  effect := rfl

end Fn.UndoneBy

/-! ## Units undone -/

namespace CodeUnit

/-- The same literals before the inverse of the function. -/
structure UndoneBy (u v : CodeUnit) : Prop where
  literals : v.literals = u.literals
  function : u.function.UndoneBy v.function
  invertible : v.function.Invertible

/-- As many literals as the inverse gets again. -/
def Complete (u : CodeUnit) : Prop := u.literals.length = u.function.parametric

variable {u v : CodeUnit}

theorem UndoneBy.complete (h : u.UndoneBy v) (hu : u.Complete) : v.Complete := by
  unfold Complete
  rw [h.literals, h.function.parametric]
  exact hu

theorem Complete.effect (hu : u.Complete) : u.effect = u.function.effect := by
  unfold CodeUnit.effect Fn.effect
  rw [hu]

theorem UndoneBy.inverted (h : u.UndoneBy v) (hu : u.Complete) :
    u.inverted Table.standard.invert = .ok (v.code v.function) := by
  rw [CodeUnit.inverted_ok h.function.derived hu]
  unfold CodeUnit.code
  rw [h.literals]

end CodeUnit

theorem exists_undone {us : List CodeUnit} (h : ∀ u ∈ us, ∃ g : Fn, g.Invertible ∧ u.function.UndoneBy g) :
    ∃ vs, List.Forall₂ CodeUnit.UndoneBy us vs := by
  refine forall₂_of_exists fun u hu => ?_
  obtain ⟨g, hg, hundone⟩ := h u hu
  exact ⟨⟨u.literals, g⟩, rfl, hundone, hg⟩

section

variable {us vs : List CodeUnit} (h : List.Forall₂ CodeUnit.UndoneBy us vs) (hcomplete : ∀ u ∈ us, u.Complete)

include h hcomplete

theorem complete_reverse : ∀ v ∈ vs.reverse, v.Complete := by
  intro v hv
  obtain ⟨u, hu, huv⟩ := exists_of_forall₂ h (List.mem_reverse.1 hv)
  exact huv.complete (hcomplete u hu)

/-- The effects of the units, read backwards, are those of their inverses. -/
theorem effectOf_reverse : effectOf vs.reverse = (effectOf us).flip := by
  induction h with
  | nil => rfl
  | @cons u v us vs huv _ ih =>
    obtain ⟨hu, hus⟩ := List.forall_mem_cons.1 hcomplete
    have heffect : v.effect = u.effect.flip := by
      rw [hu.effect, (huv.complete hu).effect]
      exact huv.function.effect
    calc effectOf (v :: vs).reverse
      _ = (effectOf us).flip.andThen (v.effect.andThen .empty) := by
        rw [List.reverse_cons, effectOf_append, ih hus]
        rfl
      _ = (effectOf us).flip.andThen u.effect.flip := by rw [Signature.andThen_empty, heffect]
      _ = (effectOf (u :: us)).flip := (Signature.flip_andThen ..).symm

theorem invertCode_units {code : List Instr} (hus : units Table.standard.resolve code = .ok us) :
    invertCode Table.standard.resolve Table.standard.invert code = .ok (codeOf vs.reverse) := by
  have hparts : List.Forall₂ (fun u v => u.inverted Table.standard.invert = .ok (v.code v.function)) us vs :=
    ((List.forall₂_and_left _ _).2 ⟨hcomplete, h⟩).imp fun u v huv => huv.2.inverted huv.1
  have hmapM : us.reverse.mapM (CodeUnit.inverted Table.standard.invert) =
      .ok (vs.reverse.map fun v => v.code v.function) := by
    refine Except.mapM_of_forall₂ (List.forall₂_map_right_iff.2 ?_)
    exact List.forall₂_reverse_iff.2 hparts
  exact Except.bind_of_ok hus (Except.bind_of_ok hmapM rfl)

/-- Whatever the function is said to take and leave, what is derived for it has the effect of its units backwards. -/
theorem invert_units {f : Fn} {code : List Instr} (hcode : f.code? = some code) (hderivation : f.derivation = none)
    (hus : units Table.standard.resolve code = .ok us) : Table.standard.invert f =
      .ok (.body s!"invert({f.name})" (effectOf vs.reverse) false (codeOf vs.reverse)) := by
  rw [flat_standard.invert_code hcode hderivation, invertCode_units h hcomplete hus, Except.ok_bind]
  exact ofCode_units flat_standard.resolve_unknown (units_codeOf flat_standard.resolve_invoke _) _

/-- Code is undone by the inverses of its units, read backwards. -/
theorem undoneBy_units {f : Fn} {code : List Instr} (hcode : f.code? = some code)
    (hderivation : f.derivation = none) (hs : stackEffect Table.standard.resolve code = .ok f.signature)
    (hus : units Table.standard.resolve code = .ok us) :
    f.UndoneBy (.body s!"invert({f.name})" (effectOf vs.reverse) false (codeOf vs.reverse)) where
  derived := invert_units h hcomplete hcode hderivation hus
  parametric := (Fn.parametric_code hcode).symm
  effect := by
    have hsignature : f.signature = effectOf us :=
      Except.ok.inj (hs.symm.trans (stackEffect_units flat_standard.resolve_unknown hus))
    rw [Fn.effect_of_parametric rfl, Fn.effect_of_parametric (Fn.parametric_code hcode), hsignature]
    exact effectOf_reverse h hcomplete

end

/-! ## Inverses -/

namespace Fn.Invertible

variable {f k : Fn}

/-- The code of complete units of such functions. -/
theorem ofUnits {us : List CodeUnit} (hcomplete : ∀ u ∈ us, u.Complete)
    (hinvertible : ∀ u ∈ us, u.function.Invertible) (name : String) :
    (Fn.body name (effectOf us) false (codeOf us)).Invertible := by
  have hus : units Table.standard.resolve (codeOf us) = .ok us := units_codeOf flat_standard.resolve_invoke _
  exact .code rfl rfl (stackEffect_units flat_standard.resolve_unknown hus) hus hcomplete hinvertible

theorem reverse_units {us vs : List CodeUnit} (h : List.Forall₂ CodeUnit.UndoneBy us vs) :
    ∀ v ∈ vs.reverse, v.function.Invertible := by
  intro v hv
  obtain ⟨u, -, huv⟩ := exists_of_forall₂ h (List.mem_reverse.1 hv)
  exact huv.invertible

/-- An inverse is derived, and it has an inverse in turn. The induction is on how the function is made. -/
theorem undone (h : f.Invertible) : ∃ g : Fn, g.Invertible ∧ f.UndoneBy g := by
  induction h with
  | word h =>
    obtain ⟨g, hg, hfg, -⟩ := Word.inverse_twice h
    exact ⟨g, hg, hfg⟩
  | product => exact ⟨.word (.unary .primes), .word rfl, flat_standard.invert_declared rfl rfl, rfl, rfl⟩
  | format t =>
    refine ⟨.parse t, .parse t, flat_standard.invert_declared rfl rfl, rfl, ?_⟩
    rw [effect_of_parametric rfl, effect_of_parametric rfl]
    rfl
  | parse t =>
    refine ⟨.format t, .format t, flat_standard.invert_declared rfl rfl, rfl, ?_⟩
    rw [effect_of_parametric rfl, effect_of_parametric rfl]
    rfl
  | @code f code us hcode hderivation hs hus hcomplete _ ih =>
    obtain ⟨vs, hvs⟩ := exists_undone ih
    exact ⟨_, .ofUnits (complete_reverse hvs hcomplete) (reverse_units hvs) _,
      undoneBy_units hvs hcomplete hcode hderivation hs hus⟩
  | @each f hs _ ih =>
    obtain ⟨g, hg, hfg⟩ := ih
    exact ⟨_, .each (hfg.signature hs) hg, hfg.each hs⟩

theorem twice (h : f.Invertible) : ∃ k, f.Twice k := by
  obtain ⟨g, hg, hfg⟩ := h.undone
  obtain ⟨k, -, hgk⟩ := hg.undone
  exact ⟨k, g, hfg.derived, hgk.derived⟩

end Fn.Invertible

/-! ## Functions inverted twice -/

/-- A function beside what inverting it twice gives: itself, rows of a function inverted twice, or code of
units inverted twice. -/
inductive Fn.Redone : Fn → Fn → Prop
  | same (f : Fn) : Redone f f
  | each {f k : Fn} : f.Invertible → f.Twice k → f.signature = ⟨1, 1⟩ → k.signature = ⟨1, 1⟩ →
    Redone (.each f) (.each k)
  | code {f k : Fn} {code code' : List Instr} {us ws : List CodeUnit} :
    f.code? = some code → f.derivation = none → units Table.standard.resolve code = .ok us →
    k.code? = some code' → k.derivation = none → units Table.standard.resolve code' = .ok ws →
    List.Forall₂ (fun u w => w.literals = u.literals ∧ u.function.Invertible ∧ u.function.Twice w.function) us ws →
    Redone f k

theorem Fn.Invertible.redone {f k : Fn} (h : f.Invertible) (hk : f.Twice k) : f.Redone k := by
  have hsame (hf : f.Twice f) : f.Redone k := hf.unique hk ▸ .same f
  cases h with
  | word h =>
    obtain ⟨g, -, hfg, hback⟩ := Word.inverse_twice h
    exact hsame ⟨g, hfg.derived, hback⟩
  | product =>
    exact hsame ⟨.word (.unary .primes), flat_standard.invert_declared rfl rfl, flat_standard.invert_declared rfl rfl⟩
  | format t => exact hsame ⟨.parse t, flat_standard.invert_declared rfl rfl, flat_standard.invert_declared rfl rfl⟩
  | parse t => exact hsame ⟨.format t, flat_standard.invert_declared rfl rfl, flat_standard.invert_declared rfl rfl⟩
  | @code f code us hcode hderivation hs hus hcomplete hinvertible =>
    obtain ⟨vs, hvs⟩ := exists_undone fun u hu => (hinvertible u hu).undone
    obtain ⟨ws, hws⟩ := exists_undone fun v hv => (reverse_units hvs v hv).undone
    have hback : units Table.standard.resolve (codeOf vs.reverse) = .ok vs.reverse :=
      units_codeOf flat_standard.resolve_invoke _
    have hfirst := undoneBy_units hvs hcomplete hcode hderivation hs hus
    have hsecond := undoneBy_units hws (complete_reverse hvs hcomplete)
      (f := .body s!"invert({f.name})" (effectOf vs.reverse) false (codeOf vs.reverse)) rfl rfl
      (stackEffect_units flat_standard.resolve_unknown hback) hback
    obtain rfl := Twice.unique ⟨_, hfirst.derived, hsecond.derived⟩ hk
    refine .code hcode hderivation hus rfl rfl (units_codeOf flat_standard.resolve_invoke _) ?_
    -- read backwards twice, the units stand in their old order
    have hvs' : List.Forall₂ (fun u v => u.function.Invertible ∧ CodeUnit.UndoneBy u v) us vs :=
      (List.forall₂_and_left _ _).2 ⟨hinvertible, hvs⟩
    have hws' : List.Forall₂ CodeUnit.UndoneBy vs ws.reverse :=
      List.forall₂_reverse_iff.1 (by rwa [List.reverse_reverse])
    refine forall₂_comp (fun u v w huv hvw => ?_) hvs' hws'
    exact ⟨hvw.literals.trans huv.2.literals, huv.1, _, huv.2.function.derived, hvw.function.derived⟩
  | @each f hs hf =>
    obtain ⟨g, hg, hfg⟩ := hf.undone
    obtain ⟨k', -, hgk⟩ := hg.undone
    have hgs := hfg.signature hs
    obtain rfl := Twice.unique ⟨_, (hfg.each hs).derived, (hgk.each hgs).derived⟩ hk
    exact .each hf ⟨g, hfg.derived, hgk.derived⟩ hs (hgk.signature hgs)

/-! ## Code inverted twice -/

/-- Code whose units have their literals and a function with an inverse. -/
def Invertible (code : List Instr) : Prop :=
  ∃ us, units Table.standard.resolve code = .ok us ∧ (∀ u ∈ us, u.Complete) ∧ ∀ u ∈ us, u.function.Invertible

theorem Invertible.lambda {code : List Instr} (h : Invertible code) :
    ∃ f : Fn, Table.standard.lambda code = .ok f ∧ f.Invertible := by
  obtain ⟨us, hus, hcomplete, hinvertible⟩ := h
  refine ⟨_, ofCode_units flat_standard.resolve_unknown hus _, ?_⟩
  exact .code rfl rfl (stackEffect_units flat_standard.resolve_unknown hus) hus hcomplete hinvertible

/-! ## Effects of inverses -/

/-- Code whose units have their literals and a function with an inverse has an effect, and of the code as an operand,
as of every function made of the code, an inverse is derived that takes what the code leaves and leaves what the code
takes. That is the effect of the instructions of the inverse, too. -/
theorem Invertible.invert_signature {code : List Instr} (h : Invertible code) :
    ∃ args outputs : Nat, stackEffect Table.standard.resolve code = .ok ⟨args, outputs⟩ ∧
      (∃ g, Table.standard.derive "invert" [.code code] = .ok g ∧ g.signature = ⟨outputs, args⟩) ∧
      ∀ f : Fn, f.code? = some code → f.derivation = none → ∃ g steps, Table.standard.invert f = .ok g ∧
        g.signature = ⟨outputs, args⟩ ∧ g.code? = some steps ∧
        stackEffect Table.standard.resolve steps = .ok ⟨outputs, args⟩ := by
  obtain ⟨us, hus, hcomplete, hinvertible⟩ := h
  obtain ⟨vs, hvs⟩ := exists_undone fun u hu => (hinvertible u hu).undone
  have heffect : effectOf vs.reverse = (effectOf us).flip := effectOf_reverse hvs hcomplete
  have hinvert (f : Fn) (hcode : f.code? = some code) (hderivation : f.derivation = none) :
      Table.standard.invert f = .ok (.body s!"invert({f.name})" (effectOf us).flip false (codeOf vs.reverse)) :=
    heffect ▸ invert_units hvs hcomplete hcode hderivation hus
  refine ⟨_, _, stackEffect_units flat_standard.resolve_unknown hus, ?_, fun f hcode hderivation => ?_⟩
  · have hlambda := ofCode_units flat_standard.resolve_unknown hus "lambda"
    exact ⟨_, Table.derive_ok (m := .invert) rfl rfl (.cons hlambda .nil) (hinvert _ rfl rfl), rfl⟩
  · refine ⟨_, codeOf vs.reverse, hinvert f hcode hderivation, rfl, rfl, ?_⟩
    rw [stackEffect_units flat_standard.resolve_unknown (units_codeOf flat_standard.resolve_invoke vs.reverse), heffect]
    rfl

/-- Rows turned by three, axes moved, and a text read as two fields that change places: two fields are left of one
array, and one array is left of two fields. -/
theorem Invertible.invert_signature_fields :
    let dashed : Template := ⟨[], [[45], []], [95, 45, 95]⟩
    let code : List Instr := [.push (.tensor (.int 3)), .word "rotate",
      .modify "compose" [.name "transpose", .fn (.parse dashed)], .word "swap"]
    Invertible code ∧ stackEffect Table.standard.resolve code = .ok ⟨1, 2⟩ ∧
      ∃ g, Table.standard.derive "invert" [.code code] = .ok g ∧ g.signature = ⟨2, 1⟩ := by
  intro dashed code
  have hread : (Fn.compose (.word (.unary .transpose)) (.parse dashed)).Invertible := by
    have hus : units Table.standard.resolve [.invoke (.word (.unary .transpose)), .invoke (.parse dashed)] =
        .ok [⟨[], .word (.unary .transpose)⟩, ⟨[], .parse dashed⟩] := rfl
    refine .code rfl rfl rfl hus ?_ ?_
    · simp [Fn.parametric, Word.parametric]
    · simpa using ⟨.word rfl, .parse dashed⟩
  have hcode : Invertible code := by
    refine ⟨[⟨[.int 3], .word (.binary .rotate)⟩, ⟨[], .compose (.word (.unary .transpose)) (.parse dashed)⟩,
      ⟨[], .word .swap⟩], rfl, ?_, ?_⟩
    · simp [CodeUnit.Complete, Fn.parametric, Word.parametric, Binary.inverse?]
    · simpa using ⟨.word rfl, hread, .word rfl⟩
  have heffect : stackEffect Table.standard.resolve code = .ok ⟨1, 2⟩ := rfl
  obtain ⟨args, outputs, hs, ⟨g, hg, hsignature⟩, -⟩ := hcode.invert_signature
  cases heffect.symm.trans hs
  exact ⟨hcode, heffect, g, hg, hsignature⟩

end Tacit
