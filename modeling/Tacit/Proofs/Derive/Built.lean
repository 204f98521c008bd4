/-
What programs are made of. Built functions are those that tables, templates, code and modifiers give,
starting from the standard table. Formed functions are the same seen from outside: a function by its
constructor, and the two halves of an under by how they were paired. Every derivation leads from
formed functions to formed functions, so what is built is formed.

Where `free` does not hold there is no table but the standard one, and no code calls or modifies what a
run finds on the stack; the declared effect of such code is the inferred one.
-/
import Tacit.Proofs.Derive.Pairs

namespace Tacit

/-! ## Built functions -/

mutual

/-- The standard table and what comes of it as built functions are entered. -/
inductive Table.Built (free : Prop) : Table → Prop
  | standard : Table.Built free .standard
  | insert {table : Table} {name : String} {f : Fn} : free → Table.Built free table →
    Fn.Built free f → Table.Built free (table.insert name f)

inductive Fn.Built (free : Prop) : Fn → Prop
  | entry {table : Table} {name : String} {f : Fn} : Table.Built free table →
    table.find? name = some f → Fn.Built free f
  | format (source : Text) : Fn.Built free (.format (.parse source))
  | code {table : Table} {code : List Instr} {f : Fn} : Table.Built free table →
    (∀ i ∈ code, Instr.Built free i) → table.lambda code = .ok f → Fn.Built free f
  | derived {table : Table} {m : Modifier} {gs : List Fn} {f : Fn} : Table.Built free table →
    (∀ g ∈ gs, Fn.Built free g) → m.build table.invert table.underPair gs = .ok f → Fn.Built free f

/-- What is only pushed or quoted is not run, so it counts only where what a run finds is called. -/
inductive Instr.Built (free : Prop) : Instr → Prop
  | push {v : Value} : (free → Value.Built free v) → Instr.Built free (.push v)
  | word (name : String) : Instr.Built free (.word name)
  | invoke {f : Fn} : Fn.Built free f → Instr.Built free (.invoke f)
  | quote {code : List Instr} : (free → ∀ i ∈ code, Instr.Built free i) →
    Instr.Built free (.quote code)
  | call : free → Instr.Built free .call
  | make (name : String) : free → Instr.Built free (.modify name [])
  | modify {name : String} {o : Operand} {os : List Operand} :
    (∀ p ∈ o :: os, Operand.Built free p) → Instr.Built free (.modify name (o :: os))
  | unknown (text : Text) : Instr.Built free (.unknown text)

inductive Operand.Built (free : Prop) : Operand → Prop
  | fn {f : Fn} : Fn.Built free f → Operand.Built free (.fn f)
  | name (name : String) : Operand.Built free (.name name)
  | code {code : List Instr} : (∀ i ∈ code, Instr.Built free i) → Operand.Built free (.code code)

inductive Value.Built (free : Prop) : Value → Prop
  | tensor (t : Tensor) : Value.Built free (.tensor t)
  | fn {f : Fn} : Fn.Built free f → Value.Built free (.fn f)

end

/-! ## Formed functions -/

/-- The effect that the standard table gives the code. -/
def Infers (code : List Instr) (s : Signature) : Prop :=
  ∃ n, stackEffect (Table.standard.resolveIn n) code = .ok s

/-- Literals, then a half of an under pair. -/
def halfCode (literals : List Tensor) (f : Fn) : List Instr :=
  literals.map (fun t => .push (.tensor t)) ++ [.invoke f]

mutual

inductive Fn.Formed (free : Prop) : Fn → Prop
  | word (w : Word) : Fn.Formed free (.word w)
  | sum : Fn.Formed free .sum
  | product : Fn.Formed free .product
  | format (t : Template) : Fn.Formed free (.format t)
  | parse (t : Template) : Fn.Formed free (.parse t)
  | body {name : String} {s : Signature} {dynamic : Bool} {code : List Instr} :
    (∀ i ∈ code, Instr.Formed free i) → (free ∨ Infers code s) →
    Fn.Formed free (.body name s dynamic code)
  | compose {f g : Fn} : Fn.Formed free f → Fn.Formed free g → Fn.Formed free (.compose f g)
  | under {transform action before after : Fn} : Fn.Formed free transform →
    Fn.Formed free action → Fn.Halves free before after →
    Fn.Formed free (.under transform action before after)
  | copyTop {f : Fn} : Fn.Formed free f → Fn.Formed free (.copyTop f)
  | copyDeepest {f : Fn} : Fn.Formed free f → Fn.Formed free (.copyDeepest f)
  | reduce {f : Fn} : Fn.Formed free f → f.signature = ⟨2, 1⟩ → Fn.Formed free (.reduce f)
  | each {f : Fn} : Fn.Formed free f → f.signature = ⟨1, 1⟩ → Fn.Formed free (.each f)
  | groupBy {f : Fn} : Fn.Formed free f → f.signature = ⟨2, 1⟩ → Fn.Formed free (.groupBy f)
  | splitBy {f : Fn} : Fn.Formed free f → f.signature = ⟨1, 1⟩ → Fn.Formed free (.splitBy f)

/-- The two halves of an under: a word's own, a function and its inverse, the same with parameters
saved between them, or code with the halves of its units. -/
inductive Fn.Halves (free : Prop) : Fn → Fn → Prop
  | keeper (k : Keeper) : Fn.Halves free (.stash k) (.restore k)
  | inverse {f g : Fn} : Fn.Formed free f → Fn.Formed free g →
    (∀ name s dynamic code, f ≠ .body name s dynamic code) → Fn.Halves free f g
  | parameters {f g : Fn} : Fn.Formed free f → Fn.Formed free g →
    (free ∨ f.parametric ≤ g.args) → Fn.Halves free (.saving f) (.resuming f g)
  | code {name name' : String} {s s' : Signature} {dynamic dynamic' : Bool}
    {us : List (List Tensor × UnderPair)} : (∀ u ∈ us, Fn.Halves free u.2.before u.2.after) →
    (free ∨ Infers (us.flatMap fun u => halfCode u.1 u.2.before) s) →
    (free ∨ Infers (us.reverse.map fun u => .invoke u.2.after) s') →
    Fn.Halves free (.body name s dynamic (us.flatMap fun u => halfCode u.1 u.2.before))
      (.body name' s' dynamic' (us.reverse.map fun u => .invoke u.2.after))

inductive Instr.Formed (free : Prop) : Instr → Prop
  | push {v : Value} : (free → Value.Formed free v) → Instr.Formed free (.push v)
  | word (name : String) : Instr.Formed free (.word name)
  | invoke {f : Fn} : Fn.Formed free f → Instr.Formed free (.invoke f)
  | quote {code : List Instr} : (free → ∀ i ∈ code, Instr.Formed free i) →
    Instr.Formed free (.quote code)
  | call : free → Instr.Formed free .call
  | make (name : String) : free → Instr.Formed free (.modify name [])
  | modify {name : String} {o : Operand} {os : List Operand} :
    (∀ p ∈ o :: os, Operand.Formed free p) → Instr.Formed free (.modify name (o :: os))
  | unknown (text : Text) : Instr.Formed free (.unknown text)

inductive Operand.Formed (free : Prop) : Operand → Prop
  | fn {f : Fn} : Fn.Formed free f → Operand.Formed free (.fn f)
  | name (name : String) : Operand.Formed free (.name name)
  | code {code : List Instr} : (∀ i ∈ code, Instr.Formed free i) → Operand.Formed free (.code code)

inductive Value.Formed (free : Prop) : Value → Prop
  | tensor (t : Tensor) : Value.Formed free (.tensor t)
  | fn {f : Fn} : Fn.Formed free f → Value.Formed free (.fn f)

end

/-- Every entry is formed; without freedom there is only the standard table. -/
structure Table.Formed (free : Prop) (table : Table) : Prop where
  entry : ∀ e ∈ table.entries, Fn.Formed free e.2
  standard : free ∨ table = .standard

variable {free : Prop}

namespace Table.Formed

theorem get {table : Table} (h : table.Formed free) {name : String} {f : Fn}
    (hf : table.get name = .ok f) : f.Formed free := h.entry _ (Table.mem_of_get hf)

theorem ofStandard : Table.standard.Formed free := by
  refine ⟨fun e he => ?_, .inr rfl⟩
  rcases List.mem_append.1 he with he | he
  · obtain ⟨w, -, rfl⟩ := List.mem_map.1 he
    exact .word w
  · simp only [List.mem_cons, List.not_mem_nil, or_false] at he
    rcases he with rfl | rfl
    · exact .sum
    · exact .product

theorem insert {table : Table} (h : table.Formed free) (hfree : free) {f : Fn} (hf : f.Formed free)
    (name : String) : (table.insert name f).Formed free := by
  refine ⟨fun e he => ?_, .inl hfree⟩
  unfold Table.insert at he
  split at he
  · obtain ⟨⟨n, g⟩, hg, rfl⟩ := List.mem_map.1 he
    dsimp only
    split
    · exact hf
    · exact h.entry _ hg
  · rcases List.mem_append.1 he with he | he
    · exact h.entry e he
    · rw [List.mem_singleton.1 he]; exact hf

end Table.Formed

/-! ## Derivations of formed functions -/

/-- Neither a half of an under pair nor an under. -/
def Fn.isPlain : Fn → Bool
  | .stash _ | .restore _ | .saving _ | .resuming _ _ | .under _ _ _ _ => false
  | _ => true

theorem Fn.isPlain_of_code {f : Fn} {code : List Instr} (hcode : f.code? = some code)
    (hderivation : f.derivation = none) : f.isPlain := by
  cases f with
  | under => cases hderivation
  | stash | restore | saving | resuming => cases hcode
  | _ => rfl

/-- Without freedom nothing calls or modifies what a run finds. -/
theorem Instr.Formed.isStatic {i : Instr} (h : i.Formed free) : free ∨ i.isDynamic = false := by
  cases h with
  | call hf | make _ hf => exact .inl hf
  | _ => exact .inr rfl

namespace Table.Formed

variable {table : Table} (h : table.Formed free) {n : Nat}
include h

/-- The effect that code is given is the inferred one, unless it may be dynamic. -/
theorem ofCode {name : String} {code : List Instr} {f : Fn}
    (hc : ∀ i ∈ code, free ∨ i.isDynamic = false)
    (hf : Fn.ofCode (table.resolveIn n) name code = .ok f) :
    ∃ s dynamic, f = .body name s dynamic code ∧ (free ∨ Infers code s) := by
  obtain ⟨s, dynamic, rfl, hs⟩ := Fn.ofCode_eq hf
  refine ⟨s, dynamic, rfl, ?_⟩
  rcases h.standard with hfree | rfl
  · exact .inl hfree
  · by_cases hfree : free
    · exact .inl hfree
    · refine .inr ⟨n, hs ?_⟩
      rw [List.any_eq_false]
      intro i hi
      simpa [hfree] using hc i hi

theorem body {name : String} {code : List Instr} {f : Fn} (hc : ∀ i ∈ code, i.Formed free)
    (hf : Fn.ofCode (table.resolveIn n) name code = .ok f) : f.Formed free := by
  obtain ⟨s, dynamic, rfl, hs⟩ := h.ofCode (fun i hi => (hc i hi).isStatic) hf
  exact .body hc hs

theorem ofInverse {inverse : Inverse} {f g : Fn} (hi : f.inverse? = some inverse)
    (hg : table.ofInverse inverse = .ok g) : g.Formed free := by
  cases inverse with
  | named name => exact h.get hg
  | fn g' =>
    cases hg
    cases Fn.isDeclared_of_inverse hi with
    | word w => exact .word w
    | format t => exact .format t
    | parse t => exact .parse t

theorem operand {o : Operand} {f : Fn} (ho : o.Formed free)
    (hf : table.functionIn n o = .ok f) : f.Formed free := by
  cases ho with
  | fn hg => cases hf; exact hg
  | name name => exact h.get hf
  | code hc => exact h.body hc hf

omit h in
/-- Inverted code calls the inverses of its units. -/
theorem invertCode {resolve : Instr → Except Fault Fn} {invert : Fn → Except Fault Fn}
    (hr : ∀ i f, Instr.Formed free i → resolve i = .ok f → f.Formed free)
    (hi : ∀ f g, f.Formed free → invert f = .ok g → g.Formed free) {code steps : List Instr}
    (hc : ∀ i ∈ code, Instr.Formed free i) (hs : Tacit.invertCode resolve invert code = .ok steps) :
    ∀ i ∈ steps, Instr.Formed free i := by
  intro i hstep
  obtain ⟨j, hj, f, g, hf, hg, ⟨t, rfl, -⟩ | rfl⟩ := of_mem_invertCode hs i hstep
  · exact .push fun _ => .tensor t
  · exact .invoke (hi f g (hr j f (hc j hj) hf) hg)

omit h in
/-- A modifier makes formed functions of formed functions. -/
theorem build {invert : Fn → Except Fault Fn} {underPair : Fn → Except Fault UnderPair}
    (hi : ∀ f g, f.Formed free → invert f = .ok g → g.Formed free)
    (hu : ∀ f p, f.Formed free → underPair f = .ok p → Fn.Halves free p.before p.after)
    {m : Modifier} {gs : List Fn} {f : Fn} (hg : ∀ g ∈ gs, g.Formed free)
    (hf : m.build invert underPair gs = .ok f) : f.Formed free := by
  unfold Modifier.build at hf
  split at hf
  · cases hf; exact .compose (hg _ (by simp)) (hg _ (by simp))
  · exact hi _ _ (hg _ (by simp)) hf
  · obtain ⟨p, hp, hf⟩ := Except.bind_ok hf
    cases hf; exact .under (hg _ (by simp)) (hg _ (by simp)) (hu _ _ (hg _ (by simp)) hp)
  · cases hf; exact .copyTop (hg _ (by simp))
  · cases hf; exact .copyDeepest (hg _ (by simp))
  · obtain ⟨hs, rfl⟩ := of_checkSignature hf; exact .reduce (hg _ (by simp)) hs
  · obtain ⟨hs, rfl⟩ := of_checkSignature hf; exact .each (hg _ (by simp)) hs
  · obtain ⟨hs, rfl⟩ := of_checkSignature hf; exact .groupBy (hg _ (by simp)) hs
  · obtain ⟨hs, rfl⟩ := of_checkSignature hf; exact .splitBy (hg _ (by simp)) hs
  · cases hf

omit h in
/-- The code of two functions in a row is formed with them. -/
theorem code {f : Fn} (hf : f.Formed free) (hp : f.isPlain) {code : List Instr}
    (hc : f.code? = some code) : ∀ i ∈ code, Instr.Formed free i := by
  cases hf with
  | body hi => cases hc; exact hi
  | compose hf hg =>
    cases hc
    simpa using ⟨.invoke hf, .invoke hg⟩
  | under => cases hp
  | _ => cases hc

/-- Parameters saved for an inverse are among its arguments. -/
theorem parametric {f g : Fn} (hf : f.Formed free) (hg : table.invertIn n f = .ok g)
    (hp : f.parametric ≠ 0) : free ∨ f.parametric ≤ g.args := by
  rcases h.standard with hfree | rfl
  · exact .inl hfree
  · right
    cases f with
    | word w =>
      cases w with
      | binary b =>
        cases n with
        | zero => cases hg
        | succ n =>
          cases b with
          | apply op => cases op <;> first | (cases hg; decide) | exact absurd rfl hp
          | unscale op => cases op <;> (cases hg; decide)
          | _ => first | (cases hg; decide) | exact absurd rfl hp
      | _ => exact absurd rfl hp
    | _ => exact absurd rfl hp

theorem ofCodePair {underPair : Fn → Except Fault UnderPair}
    (hr : ∀ i f, Instr.Formed free i → table.resolveIn n i = .ok f → f.Formed free)
    (hu : ∀ f p, f.Formed free → underPair f = .ok p → Fn.Halves free p.before p.after)
    {name : String} {code : List Instr} {p : UnderPair} (hc : ∀ i ∈ code, Instr.Formed free i)
    (hp : UnderPair.ofCode (table.resolveIn n) underPair name code = .ok p) :
    Fn.Halves free p.before p.after := by
  obtain ⟨vs, hvs, hb, ha⟩ := UnderPair.ofCode_eq_ok hp
  obtain ⟨before, after⟩ := p
  obtain ⟨s, d, rfl, hs⟩ := h.ofCode (fun i hi => .inr (made_beforeCode _ i hi).isDynamic) hb
  obtain ⟨s', d', rfl, hs'⟩ := h.ofCode (fun i hi => .inr (made_afterCode _ i hi).isDynamic) ha
  -- the literals of each unit with its pair are all that the two halves are made of
  let us := vs.map fun v => (v.1.literals, v.2)
  have hbefore : beforeCode vs = us.flatMap fun u => halfCode u.1 u.2.before := by
    rw [List.flatMap_map]
    rfl
  have hafter : afterCode vs = us.reverse.map fun u => .invoke u.2.after := by
    rw [← List.map_reverse, List.map_map]
    rfl
  rw [hbefore] at hs ⊢
  rw [hafter] at hs' ⊢
  refine .code (fun u hmem => ?_) hs hs'
  obtain ⟨v, hv, rfl⟩ := List.mem_map.1 hmem
  obtain ⟨i, hi, hf, hpair⟩ := of_mem_pairsOf hvs v hv
  exact hu _ _ (hr i _ (hc i hi) hf) hpair

section

variable (hr : ∀ i f, Instr.Formed free i → table.resolveIn n i = .ok f → f.Formed free)
  (hi : ∀ f g, f.Formed free → table.invertIn n f = .ok g → g.Formed free)
  (hu : ∀ f p, f.Formed free → table.underPairIn n f = .ok p → Fn.Halves free p.before p.after)

include hi hu in
theorem resolve_succ {i : Instr} {f : Fn} (hf : i.Formed free) (hg : table.resolveIn (n + 1) i = .ok f) :
    f.Formed free := by
  cases Table.resolution hg with
  | word hg => exact h.get hg
  | invoke =>
    cases hf
    assumption
  | modify hfs hg =>
    refine build hi hu (fun g hgs => ?_) hg
    obtain ⟨o, ho, hog⟩ := Except.exists_of_mem_mapM hfs hgs
    cases hf with
    | modify hos => exact h.operand (hos o ho) hog

include hr hi hu in
theorem invert_succ {f g : Fn} (hf : f.Formed free) (hg : table.invertIn (n + 1) f = .ok g) : g.Formed free := by
  cases Table.inversion hg with
  | declared hinverse hg => exact h.ofInverse hinverse hg
  | under haction hp =>
    cases hf with
    | under ht ha _ => exact .under ht (hi _ _ ha haction) (hu _ _ ht hp)
  | each hg' hs' =>
    cases hf with
    | each hf _ => exact .each (hi _ _ hf hg') hs'
  | code hcode hderivation hsteps hg =>
    exact h.body (invertCode hr hi (Formed.code hf (Fn.isPlain_of_code hcode hderivation) hcode) hsteps) hg

include hr hi hu in
theorem underPair_succ {f : Fn} {p : UnderPair} (hf : f.Formed free)
    (hp : table.underPairIn (n + 1) f = .ok p) : Fn.Halves free p.before p.after := by
  cases Table.pairing hp with
  | keeper => exact .keeper _
  | code hcode hderivation hp =>
    exact h.ofCodePair hr hu (Formed.code hf (Fn.isPlain_of_code hcode hderivation) hcode) hp
  | inverse hcode hg =>
    -- what has no halves of its own is paired with its inverse, and no body is paired so
    refine .inverse hf (hi _ _ hf hg) ?_
    rintro name s dynamic code rfl
    exact hcode code rfl rfl rfl
  | parameters hg hparametric => exact .parameters hf (hi _ _ hf hg) (h.parametric hf hg hparametric)

end

/-- Derivations lead from formed functions to formed functions, and to halves of them. -/
theorem steps (n : Nat) :
    (∀ i f, Instr.Formed free i → table.resolveIn n i = .ok f → f.Formed free) ∧
    (∀ f g, f.Formed free → table.invertIn n f = .ok g → g.Formed free) ∧
    (∀ f p, f.Formed free → table.underPairIn n f = .ok p → Fn.Halves free p.before p.after) := by
  induction n with
  | zero => exact ⟨fun _ _ _ h => (by cases h), fun _ _ _ h => (by cases h), fun _ _ _ h => (by cases h)⟩
  | succ n ih =>
    obtain ⟨hr, hi, hu⟩ := ih
    exact ⟨fun _ _ hf hg => h.resolve_succ hi hu hf hg, fun _ _ hf hg => h.invert_succ hr hi hu hf hg,
      fun _ _ hf hp => h.underPair_succ hr hi hu hf hp⟩

theorem lambda {code : List Instr} {f : Fn} (hc : ∀ i ∈ code, Instr.Formed free i)
    (hf : table.lambda code = .ok f) : f.Formed free := by
  obtain ⟨n, hn⟩ := (Table.eventually_ofCode hf).exists
  exact h.body hc hn

theorem derived {m : Modifier} {gs : List Fn} {f : Fn} (hg : ∀ g ∈ gs, Fn.Formed free g)
    (hf : m.build table.invert table.underPair gs = .ok f) : f.Formed free :=
  build (fun f => (h.steps _).2.1 f) (fun f => (h.steps _).2.2 f) hg hf

theorem derive {name : String} {os : List Operand} {f : Fn} (hos : ∀ o ∈ os, Operand.Formed free o)
    (hf : table.derive name os = .ok f) : f.Formed free := by
  obtain ⟨m, fs, hf, hfs⟩ := derive_eq_ok hf
  refine h.derived (fun g hg => ?_) hf
  obtain ⟨o, ho, hog⟩ := hfs g hg
  cases hos o ho with
  | fn hf => cases hog; exact hf
  | name name => exact h.get hog
  | code hc => exact h.lambda hc hog

end Table.Formed

/-! ## What is built is formed -/

mutual

theorem Table.Built.formed {table : Table} : Table.Built free table → table.Formed free
  | .standard => .ofStandard
  | .insert hfree ht hf => ht.formed.insert hfree hf.formed _

theorem Fn.Built.formed {f : Fn} : Fn.Built free f → f.Formed free
  | .entry ht hf => ht.formed.get (by unfold Table.get; rw [hf]; rfl)
  | .format source => .format _
  | .code ht hc hf => ht.formed.lambda (fun i hi => (hc i hi).formed) hf
  | .derived ht hg hf => ht.formed.derived (fun g hg' => (hg g hg').formed) hf

theorem Instr.Built.formed {i : Instr} : Instr.Built free i → i.Formed free
  | .push hv => .push fun hfree => (hv hfree).formed
  | .word name => .word name
  | .invoke hf => .invoke hf.formed
  | .quote hc => .quote fun hfree i hi => (hc hfree i hi).formed
  | .call hfree => .call hfree
  | .make name hfree => .make name hfree
  | .modify hos => .modify fun p hp => (hos p hp).formed
  | .unknown text => .unknown text

theorem Operand.Built.formed {o : Operand} : Operand.Built free o → o.Formed free
  | .fn hf => .fn hf.formed
  | .name name => .name name
  | .code hc => .code fun i hi => (hc i hi).formed

theorem Value.Built.formed {v : Value} : Value.Built free v → v.Formed free
  | .tensor t => .tensor t
  | .fn hf => .fn hf.formed

end

end Tacit
