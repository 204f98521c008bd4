/-
Derivations in more steps. A derivation that ends in some number of steps ends the same way in every
larger number, so what a run derives at one bound and what an inference resolves at another agree
wherever both give a function. How one step comes to what it gives is said once, as a resolution, an
inversion or a pairing; whatever derivations preserve is shown by their cases.
-/
import Tacit.Proofs.Derive.Effect
import Mathlib.Order.Filter.AtTopBot.Basic

namespace Tacit

/-- `x` ran out of steps, or it is the answer `y`. -/
def Approx {α : Type} (x y : Except Fault α) : Prop := x = .error .endlessDefinition ∨ x = y

namespace Approx

variable {α β : Type}

theorem refl (x : Except Fault α) : Approx x x := .inr rfl

theorem trans {x y z : Except Fault α} (h : Approx x y) (h' : Approx y z) : Approx x z := by
  rcases h with h | rfl
  · exact .inl h
  · exact h'

theorem bind {x y : Except Fault α} {f g : α → Except Fault β} (h : Approx x y)
    (hf : ∀ a, Approx (f a) (g a)) : Approx (x >>= f) (y >>= g) := by
  rcases h with rfl | rfl
  · exact .inl rfl
  · cases x with
    | error e => exact .inr rfl
    | ok a => exact hf a

theorem map {x y : Except Fault α} (f : α → β) (h : Approx x y) : Approx (f <$> x) (f <$> y) := by
  rcases h with rfl | rfl
  · exact .inl rfl
  · exact .inr rfl

theorem mapM {f g : α → Except Fault β} (h : ∀ a, Approx (f a) (g a)) (xs : List α) :
    Approx (xs.mapM f) (xs.mapM g) := by
  induction xs with
  | nil => exact refl _
  | cons x xs ih =>
    rw [List.mapM_cons, List.mapM_cons]
    exact bind (h x) fun _ => bind ih fun _ => refl _

theorem eq_of_tame {x y : Except Fault α} (h : Approx x y) (hx : Tame x) : x = y := by
  rcases h with rfl | h
  · cases hx _ rfl
  · exact h

theorem eq_ok {x y : Except Fault α} {a : α} (h : Approx x y) (hx : x = .ok a) : y = .ok a := by
  rcases h with h | h
  · rw [h] at hx; cases hx
  · rw [← h, hx]

end Approx

variable {r r' : Instr → Except Fault Fn} {iv iv' : Fn → Except Fault Fn}
  {up up' : Fn → Except Fault UnderPair}

theorem approx_effect (h : ∀ i, Approx (r i) (r' i)) (i : Instr) : Approx (i.effect r) (i.effect r') := by
  cases i with
  | word | invoke => exact (h _).map _
  | modify name os =>
    cases os with
    | nil => exact .refl _
    | cons => exact (h _).map _
  | _ => exact .refl _

theorem approx_effectFrom (h : ∀ i, Approx (r i) (r' i)) :
    ∀ (code : List Instr) (s : Signature), Approx (effectFrom r s code) (effectFrom r' s code)
  | [], _ => .refl _
  | i :: code, _ => (approx_effect h i).bind fun _ => approx_effectFrom h code _

theorem approx_ofCode (h : ∀ i, Approx (r i) (r' i)) (name : String) (code : List Instr) :
    Approx (Fn.ofCode r name code) (Fn.ofCode r' name code) := by
  unfold Fn.ofCode
  split
  · exact .refl _
  · exact (approx_effectFrom h code _).map _

theorem approx_unitsFrom (h : ∀ i, Approx (r i) (r' i)) :
    ∀ (code : List Instr) (pending : List Tensor), Approx (unitsFrom r pending code) (unitsFrom r' pending code)
  | [], _ => .refl _
  | i :: code, pending => by
    cases i with
    | push v =>
      cases v with
      | tensor t => exact approx_unitsFrom h code _
      | fn f => exact .refl _
    | modify name os =>
      cases os with
      | nil => exact .refl _
      | cons => exact (h _).bind fun _ => (approx_unitsFrom h code _).map _
    | quote | call => exact .refl _
    | word | invoke | unknown => exact (h _).bind fun _ => (approx_unitsFrom h code _).map _

theorem approx_invertCode (h : ∀ i, Approx (r i) (r' i)) (hi : ∀ f, Approx (iv f) (iv' f)) (code : List Instr) :
    Approx (invertCode r iv code) (invertCode r' iv' code) :=
  (approx_unitsFrom h code []).bind fun us =>
    (Approx.mapM (fun u => (hi u.function).bind fun _ => .refl _) us.reverse).map _

theorem approx_ofCodePair (h : ∀ i, Approx (r i) (r' i)) (hu : ∀ f, Approx (up f) (up' f)) (name : String)
    (code : List Instr) : Approx (UnderPair.ofCode r up name code) (UnderPair.ofCode r' up' name code) :=
  (approx_unitsFrom h code []).bind fun us =>
    (Approx.mapM (fun u : CodeUnit => hu u.function) us).bind fun _ =>
      (approx_ofCode h _ _).bind fun _ => (approx_ofCode h _ _).bind fun _ => .refl _

theorem approx_build (hi : ∀ f, Approx (iv f) (iv' f)) (hu : ∀ f, Approx (up f) (up' f)) (m : Modifier)
    (fs : List Fn) : Approx (m.build iv up fs) (m.build iv' up' fs) := by
  unfold Modifier.build
  split <;> first | exact .refl _ | exact hi _ | skip
  exact (hu _).bind fun _ => .refl _

theorem unitsFrom_literals (resolve : Instr → Except Fault Fn) (code : List Instr) :
    ∀ ts pending : List Tensor, unitsFrom resolve pending
      (ts.map (fun t => Instr.push (.tensor t)) ++ code) = unitsFrom resolve (pending ++ ts) code
  | [], pending => by rw [List.append_nil]; rfl
  | t :: ts, pending => by
    have hrest := unitsFrom_literals resolve code ts (pending ++ [t])
    rw [List.append_assoc] at hrest
    exact hrest

/-- What is neither an under nor an each is inverted by its code. -/
theorem Fn.derivation_eq_none {f : Fn}
    (hunder : ∀ transform action before after, f = .under transform action before after → False)
    (heach : ∀ g, f = .each g → False) : f.derivation = none := by
  cases f with
  | under => exact (hunder _ _ _ _ rfl).elim
  | each => exact (heach _ rfl).elim
  | _ => rfl

/-- The functions that others declare as their inverses without a name. -/
inductive Fn.IsDeclared : Fn → Prop
  | word (w : Word) : IsDeclared (.word w)
  | format (t : Template) : IsDeclared (.format t)
  | parse (t : Template) : IsDeclared (.parse t)

theorem Fn.isDeclared_of_inverse {f g : Fn} (h : f.inverse? = some (.fn g)) : g.IsDeclared := by
  cases f with
  | word w =>
    obtain ⟨v, -, hv⟩ := Option.map_eq_some_iff.1 h
    cases v with
    | named name => cases hv
    | word v => cases hv; exact .word v
  | format t => cases h; exact .parse t
  | parse t => cases h; exact .format t
  | reduce f =>
    simp only [Fn.inverse?] at h
    split at h <;> cases h
  | _ => cases h

namespace Table

theorem mem_of_get {table : Table} {name : String} {f : Fn} (h : table.get name = .ok f) :
    (name, f) ∈ table.entries := by
  unfold get at h
  split at h
  · rename_i g hg
    cases h
    obtain ⟨_, _, he, -⟩ := List.lookup_eq_some_iff.1 hg
    rw [he]
    simp
  · cases h

/-! ## One step -/

section

variable (table : Table) (r : Instr → Except Fault Fn) (iv : Fn → Except Fault Fn)
  (up : Fn → Except Fault UnderPair)

/-- The function that an operand names, by what its instructions name. -/
def functionBy : Operand → Except Fault Fn
  | .fn f => pure f
  | .name name => table.get name
  | .code code => Fn.ofCode r "lambda" code

/-- The function that an instruction names, by what is derived for its operands. -/
def resolveStep (i : Instr) : Except Fault Fn :=
  match i with
  | .word name => table.get name
  | .invoke f => pure f
  | .modify name (o :: os) => do
    let m ← Modifier.ofName name
    m.checkArity (o :: os).length
    m.build iv up (← (o :: os).mapM (table.functionBy r))
  | i => do
    let text ← i.written
    throw (.domain (.namesNoFunction text))

/-- The function that undoes `f`, by what is derived for its parts. -/
def invertStep (f : Fn) : Except Fault Fn :=
  match f.inverse? with
  | some inverse => table.ofInverse inverse
  | none =>
    match f with
    | .under transform action _ _ => do
      Fn.underOf up transform (← iv action)
    | .each g => do Fn.eachOf (← iv g)
    | f =>
      match f.code? with
      | some code => do
        let steps ← invertCode r iv code
        Fn.ofCode r s!"invert({f.name})" steps
      | none => throw (.notInvertible f.name none)

/-- The halves of `f`, by what is derived for its parts. -/
def underPairStep (f : Fn) : Except Fault UnderPair :=
  match f.keeper? with
  | some k => pure ⟨.stash k, .restore k⟩
  | none =>
    match f.code? with
    | some code =>
      if f.inverse?.isNone ∧ f.derivation.isNone then UnderPair.ofCode r up f.name code
      else return .ofInverse f (← iv f)
    | none => return .ofInverse f (← iv f)

end

/-! ## What a step gives -/

section

variable (table : Table) (r : Instr → Except Fault Fn) (iv : Fn → Except Fault Fn)
  (up : Fn → Except Fault UnderPair)

/-- How an instruction names a function. -/
inductive Resolution : Instr → Fn → Prop
  | word {name : String} {f : Fn} : table.get name = .ok f → Resolution (.word name) f
  | invoke (f : Fn) : Resolution (.invoke f) f
  | modify {name : String} {m : Modifier} {o : Operand} {os : List Operand} {fs : List Fn} {f : Fn} :
    (o :: os).mapM (table.functionBy r) = .ok fs → m.build iv up fs = .ok f →
    Resolution (.modify name (o :: os)) f

/-- How a function is undone: as it declares, through what it is derived from, or through its code. -/
inductive Inversion : Fn → Fn → Prop
  | declared {f g : Fn} {inverse : Inverse} : f.inverse? = some inverse → table.ofInverse inverse = .ok g →
    Inversion f g
  | under {transform action action' before after : Fn} {p : UnderPair} : iv action = .ok action' →
    up transform = .ok p →
    Inversion (.under transform action before after) (.under transform action' p.before p.after)
  | each {f g : Fn} : iv f = .ok g → g.signature = ⟨1, 1⟩ → Inversion (.each f) (.each g)
  | code {f g : Fn} {code steps : List Instr} : f.code? = some code → f.derivation = none →
    invertCode r iv code = .ok steps → Fn.ofCode r s!"invert({f.name})" steps = .ok g → Inversion f g

/-- How a function is halved: as a keeper, through its code, or into itself and its inverse. -/
inductive Pairing : Fn → UnderPair → Prop
  | keeper {f : Fn} {k : Keeper} : f.keeper? = some k → Pairing f ⟨.stash k, .restore k⟩
  | code {f : Fn} {code : List Instr} {p : UnderPair} : f.code? = some code → f.derivation = none →
    UnderPair.ofCode r up f.name code = .ok p → Pairing f p
  | inverse {f g : Fn} :
    (∀ code, f.code? = some code → f.inverse? = none → f.derivation ≠ none) → iv f = .ok g →
    f.parametric = 0 → Pairing f ⟨f, g⟩
  | parameters {f g : Fn} : iv f = .ok g → f.parametric ≠ 0 → Pairing f ⟨.saving f, .resuming f g⟩

variable {table r iv up}

theorem resolution {i : Instr} {f : Fn} (hf : table.resolveStep r iv up i = .ok f) :
    table.Resolution r iv up i f := by
  unfold resolveStep at hf
  split at hf
  · exact .word hf
  · cases hf
    exact .invoke f
  · obtain ⟨m, -, hf⟩ := Except.bind_ok hf
    obtain ⟨_, -, hf⟩ := Except.bind_ok hf
    obtain ⟨fs, hfs, hf⟩ := Except.bind_ok hf
    exact .modify hfs hf
  · obtain ⟨_, -, hf⟩ := Except.bind_ok hf
    cases hf

theorem inversion {f g : Fn} (hg : table.invertStep r iv up f = .ok g) : table.Inversion r iv up f g := by
  unfold invertStep at hg
  split at hg
  · exact .declared ‹_› hg
  · split at hg
    · obtain ⟨action', haction, hg⟩ := Except.bind_ok hg
      obtain ⟨p, hp, hg⟩ := Except.bind_ok hg
      cases hg
      exact .under haction hp
    · obtain ⟨g', hg', hg⟩ := Except.bind_ok hg
      obtain ⟨hs, rfl⟩ := of_checkSignature hg
      exact .each hg' hs
    · rename_i hunder heach
      split at hg
      · obtain ⟨steps, hsteps, hg⟩ := Except.bind_ok hg
        exact .code ‹_› (Fn.derivation_eq_none hunder heach) hsteps hg
      · cases hg

theorem pairing {f : Fn} {p : UnderPair} (hp : underPairStep r iv up f = .ok p) : Pairing r iv up f p := by
  have hinverse (hcode : ∀ code, f.code? = some code → f.inverse? = none → f.derivation ≠ none)
      (hp : (return .ofInverse f (← iv f)) = Except.ok p) : Pairing r iv up f p := by
    obtain ⟨g, hg, hp⟩ := Except.bind_ok hp
    cases hp
    unfold UnderPair.ofInverse
    split
    · exact .inverse hcode hg ‹_›
    · exact .parameters hg ‹_›
  unfold underPairStep at hp
  split at hp
  · cases hp
    exact .keeper ‹_›
  · split at hp
    · split at hp
      · rename_i hd
        exact .code ‹_› (Option.isNone_iff_eq_none.1 hd.2) hp
      · rename_i hd
        refine hinverse (fun _ _ hinverse hderivation => hd ?_) hp
        exact ⟨Option.isNone_iff_eq_none.2 hinverse, Option.isNone_iff_eq_none.2 hderivation⟩
    · rename_i hcode
      exact hinverse (fun code h => nomatch hcode.symm.trans h) hp

end

section

variable {table : Table}

theorem resolveIn_succ (n : Nat) (i : Instr) : table.resolveIn (n + 1) i =
    table.resolveStep (table.resolveIn n) (table.invertIn n) (table.underPairIn n) i := rfl

theorem invertIn_succ (n : Nat) (f : Fn) : table.invertIn (n + 1) f =
    table.invertStep (table.resolveIn n) (table.invertIn n) (table.underPairIn n) f := rfl

variable (hr : ∀ i, Approx (r i) (r' i)) (hi : ∀ f, Approx (iv f) (iv' f)) (hu : ∀ f, Approx (up f) (up' f))

include hr

theorem approx_functionBy (o : Operand) : Approx (table.functionBy r o) (table.functionBy r' o) := by
  cases o with
  | code code => exact approx_ofCode hr _ _
  | _ => exact .refl _

include hi hu

theorem approx_resolveStep (i : Instr) :
    Approx (table.resolveStep r iv up i) (table.resolveStep r' iv' up' i) := by
  unfold resolveStep
  split
  · exact .refl _
  · exact .refl _
  · exact Approx.bind (.refl _) fun m => Approx.bind (.refl _) fun _ =>
      Approx.bind (Approx.mapM (approx_functionBy hr) _) fun fs => approx_build hi hu m fs
  · exact .refl _

theorem approx_invertStep (f : Fn) :
    Approx (table.invertStep r iv up f) (table.invertStep r' iv' up' f) := by
  unfold invertStep
  split
  · exact .refl _
  · split
    · exact (hi _).bind fun _ => (hu _).bind fun _ => .refl _
    · exact (hi _).bind fun _ => .refl _
    · split
      · exact (approx_invertCode hr hi _).bind fun _ => approx_ofCode hr _ _
      · exact .refl _

theorem approx_underPairStep (f : Fn) :
    Approx (underPairStep r iv up f) (underPairStep r' iv' up' f) := by
  unfold underPairStep
  split
  · exact .refl _
  · split
    · split
      · exact approx_ofCodePair hr hu _ _
      · exact (hi _).bind fun _ => .refl _
    · exact (hi _).bind fun _ => .refl _

end

/-! ## More steps -/

variable (table : Table)

theorem approx_succ (n : Nat) :
    (∀ i, Approx (table.resolveIn n i) (table.resolveIn (n + 1) i)) ∧
    (∀ f, Approx (table.invertIn n f) (table.invertIn (n + 1) f)) ∧
    (∀ f, Approx (table.underPairIn n f) (table.underPairIn (n + 1) f)) := by
  induction n with
  | zero => exact ⟨fun _ => .inl rfl, fun _ => .inl rfl, fun _ => .inl rfl⟩
  | succ n ih =>
    obtain ⟨hr, hi, hu⟩ := ih
    exact ⟨approx_resolveStep hr hi hu, approx_invertStep hr hi hu, approx_underPairStep hr hi hu⟩

variable {table}

theorem approx_of_le {n m : Nat} (h : n ≤ m) :
    (∀ i, Approx (table.resolveIn n i) (table.resolveIn m i)) ∧
    (∀ f, Approx (table.invertIn n f) (table.invertIn m f)) ∧
    (∀ f, Approx (table.underPairIn n f) (table.underPairIn m f)) := by
  induction h with
  | refl => exact ⟨fun _ => .refl _, fun _ => .refl _, fun _ => .refl _⟩
  | @step m _ ih =>
    obtain ⟨hr, hi, hu⟩ := table.approx_succ m
    obtain ⟨hr', hi', hu'⟩ := ih
    exact ⟨fun i => (hr' i).trans (hr i), fun f => (hi' f).trans (hi f), fun f => (hu' f).trans (hu f)⟩

theorem resolveIn_mono {n m : Nat} (h : n ≤ m) {i : Instr} {f : Fn} (hi : table.resolveIn n i = .ok f) :
    table.resolveIn m i = .ok f :=
  ((approx_of_le h).1 i).eq_ok hi

theorem invertIn_mono {n m : Nat} (h : n ≤ m) {f g : Fn} (hf : table.invertIn n f = .ok g) :
    table.invertIn m f = .ok g :=
  ((approx_of_le h).2.1 f).eq_ok hf

theorem underPairIn_mono {n m : Nat} (h : n ≤ m) {f : Fn} {pair : UnderPair}
    (hf : table.underPairIn n f = .ok pair) : table.underPairIn m f = .ok pair :=
  ((approx_of_le h).2.2 f).eq_ok hf

/-! ## Derivations that enough steps settle -/

open Filter

theorem eventually_invert {f g : Fn} (h : table.invert f = .ok g) :
    ∀ᶠ n in atTop, table.invertIn n f = .ok g :=
  eventually_atTop.2 ⟨_, fun _ hn => invertIn_mono hn h⟩

theorem eventually_underPair {f : Fn} {pair : UnderPair} (h : table.underPair f = .ok pair) :
    ∀ᶠ n in atTop, table.underPairIn n f = .ok pair :=
  eventually_atTop.2 ⟨_, fun _ hn => underPairIn_mono hn h⟩

/-! ## Code at the bound of its height -/

theorem bound_mono {h h' : Nat} (hle : h ≤ h') : table.bound h ≤ table.bound h' := by
  unfold bound
  omega

theorem effect_of_resolve {i : Instr} {n : Nat} (hn : table.bound i.height ≤ n) {s : Signature}
    (h : i.effect table.resolve = .ok s) : i.effect (table.resolveIn n) = .ok s := by
  have hcall : ∀ i, table.bound i.height ≤ n →
      (return (← table.resolve i).signature : Except Fault Signature) = .ok s →
      (return (← table.resolveIn n i).signature : Except Fault Signature) = .ok s := by
    intro i hn hi
    obtain ⟨f, hf, hs⟩ := Except.bind_ok hi
    exact Except.bind_of_ok (resolveIn_mono hn hf) hs
  cases i with
  | word | invoke => exact hcall _ hn h
  | modify name os =>
    cases os with
    | nil => cases h
    | cons => exact hcall _ hn h
  | _ => exact h

theorem effectFrom_of_resolve {n : Nat} : ∀ {code : List Instr} {before after : Signature},
    table.bound (codeHeight code) ≤ n → effectFrom table.resolve before code = .ok after →
    effectFrom (table.resolveIn n) before code = .ok after
  | [], _, _, _, h => h
  | i :: code, _, _, hn, h => by
    obtain ⟨s, hs, h⟩ := Except.bind_ok h
    refine Except.bind_of_ok (effect_of_resolve ((bound_mono ?_).trans hn) hs)
      (effectFrom_of_resolve ((bound_mono ?_).trans hn) h)
    · exact Nat.le_max_left _ _
    · exact Nat.le_max_right _ _

theorem ofCode_of_resolve {n : Nat} {name : String} {code : List Instr} {f : Fn}
    (hn : table.bound (codeHeight code) ≤ n) (h : Fn.ofCode table.resolve name code = .ok f) :
    Fn.ofCode (table.resolveIn n) name code = .ok f := by
  unfold Fn.ofCode at h ⊢
  split at h
  · rename_i hd
    rw [if_pos hd]
    exact h
  · rename_i hd
    obtain ⟨s, hs, h⟩ := Except.bind_ok h
    rw [if_neg hd]
    exact Except.bind_of_ok (effectFrom_of_resolve hn hs) h

theorem eventually_ofCode {name : String} {code : List Instr} {f : Fn}
    (h : Fn.ofCode table.resolve name code = .ok f) :
    ∀ᶠ n in atTop, Fn.ofCode (table.resolveIn n) name code = .ok f :=
  eventually_atTop.2 ⟨_, fun _ hn => ofCode_of_resolve hn h⟩

/-! ## Modifiers -/

theorem eventually_mapM {α β : Type} {f : α → Except Fault β} {g : Nat → α → Except Fault β}
    (h : ∀ a b, f a = .ok b → ∀ᶠ n in atTop, g n a = .ok b) :
    ∀ {xs : List α} {ys : List β}, xs.mapM f = .ok ys → ∀ᶠ n in atTop, xs.mapM (g n) = .ok ys
  | [], _, hm => .of_forall fun _ => hm
  | x :: xs, ys, hm => by
    rw [List.mapM_cons] at hm
    obtain ⟨y, hy, hm⟩ := Except.bind_ok hm
    obtain ⟨ys', hys, hm⟩ := Except.bind_ok hm
    filter_upwards [h x y hy, eventually_mapM h hys] with n hn hn'
    rw [List.mapM_cons, hn, hn']; exact hm

theorem eventually_build {m : Modifier} {fs : List Fn} {f : Fn}
    (h : m.build table.invert table.underPair fs = .ok f) :
    ∀ᶠ n in atTop, m.build (table.invertIn n) (table.underPairIn n) fs = .ok f := by
  unfold Modifier.build at h ⊢
  split at h
  case h_2 => exact eventually_invert h
  case h_3 =>
    obtain ⟨pair, hp, h⟩ := Except.bind_ok h
    filter_upwards [eventually_underPair hp] with n hn
    rw [Fn.underOf, hn]; exact h
  all_goals exact .of_forall fun _ => h

theorem derive_ok {name : String} {m : Modifier} {os : List Operand} {fs : List Fn} {f : Fn}
    (hm : Modifier.ofName name = .ok m) (harity : m.checkArity os.length = .ok ())
    (hos : List.Forall₂ (fun o f => table.function o = .ok f) os fs)
    (hf : m.build table.invert table.underPair fs = .ok f) : table.derive name os = .ok f :=
  Except.bind_of_ok hm (Except.bind_of_ok harity (Except.bind_of_ok (Except.mapM_of_forall₂ hos) hf))

/-- A modifier makes its function of what the operands name. -/
theorem derive_eq_ok {name : String} {os : List Operand} {f : Fn} (h : table.derive name os = .ok f) :
    ∃ (m : Modifier) (fs : List Fn), m.build table.invert table.underPair fs = .ok f ∧
      ∀ g ∈ fs, ∃ o ∈ os, table.function o = .ok g := by
  obtain ⟨m, -, h⟩ := Except.bind_ok h
  obtain ⟨_, -, h⟩ := Except.bind_ok h
  obtain ⟨fs, hfs, h⟩ := Except.bind_ok h
  exact ⟨m, fs, h, fun g hg => Except.exists_of_mem_mapM hfs hg⟩

/-- The function that an operand names, found in bounded steps. -/
abbrev functionIn (table : Table) (n : Nat) : Operand → Except Fault Fn :=
  table.functionBy (table.resolveIn n)

/-- The function that a modifier derives in a run is the one that its instruction names. -/
theorem eventually_derive {name : String} {o : Operand} {os : List Operand} {f : Fn}
    (h : table.derive name (o :: os) = .ok f) :
    ∀ᶠ n in atTop, table.resolveIn n (.modify name (o :: os)) = .ok f := by
  obtain ⟨m, hm, h⟩ := Except.bind_ok h
  obtain ⟨u, ha, h⟩ := Except.bind_ok h
  obtain ⟨fs, hfs, h⟩ := Except.bind_ok h
  have hfunction : ∀ o g, table.function o = .ok g → ∀ᶠ n in atTop, table.functionIn n o = .ok g := by
    intro o g hg
    cases o with
    | code code => exact eventually_ofCode hg
    | _ => exact .of_forall fun _ => hg
  have hop := eventually_mapM hfunction hfs
  have : ∀ᶠ n in atTop, table.resolveIn (n + 1) (.modify name (o :: os)) = .ok f := by
    filter_upwards [hop, eventually_build h] with n hn hb
    rw [resolveIn, hm]
    refine Except.bind_of_ok rfl (Except.bind_of_ok ha (Except.bind_of_ok hn hb))
  obtain ⟨n, hn⟩ := eventually_atTop.1 this
  exact eventually_atTop.2 ⟨n + 1, fun m hm => resolveIn_mono hm (hn n le_rfl)⟩

/-- The modifier makes the function of its operands, in however many steps. -/
def Makes (table : Table) (name : String) (os : List Operand) (f : Fn) : Prop :=
  ∃ n, table.resolveIn n (.modify name os) = .ok f

theorem makes_of_derive {name : String} {o : Operand} {os : List Operand} {f : Fn}
    (h : table.derive name (o :: os) = .ok f) : table.Makes name (o :: os) f :=
  (eventually_derive h).exists

end Table

end Tacit
