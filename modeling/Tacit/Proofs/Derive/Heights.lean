/-
Heights of derived functions. Over a table of words that are not made of other functions no derivation
gives a function that is higher than what it starts from, so twice the height bounds the steps that a
derivation takes: each ends, with the same outcome in any larger number of steps.
-/
import Tacit.Proofs.Fault.Derivation

namespace Tacit

/-! ## Heights of code -/

theorem Fn.height_pos (f : Fn) : 1 ≤ f.height := by
  cases f <;> simp [height]

theorem Instr.height_pos (i : Instr) : 1 ≤ i.height := by
  cases i with
  | invoke f => exact f.height_pos
  | modify => simp [height]
  | _ => exact le_rfl

theorem codeHeight_le_iff {code : List Instr} {h : Nat} :
    codeHeight code ≤ h ↔ ∀ i ∈ code, i.height ≤ h := by
  induction code with
  | nil => simp [codeHeight]
  | cons i code ih => simp [codeHeight, ih]

theorem height_le_codeHeight {i : Instr} {code : List Instr} (hi : i ∈ code) :
    i.height ≤ codeHeight code := codeHeight_le_iff.1 le_rfl i hi

theorem operandsHeight_le_iff {os : List Operand} {h : Nat} :
    operandsHeight os ≤ h ↔ ∀ o ∈ os, o.height ≤ h := by
  induction os with
  | nil => simp [operandsHeight]
  | cons o os ih => simp [operandsHeight, ih]

theorem height_le_operandsHeight {o : Operand} {os : List Operand} (ho : o ∈ os) :
    o.height ≤ operandsHeight os := operandsHeight_le_iff.1 le_rfl o ho

/-- Code is one level below the function that it is the code of, unless that is an under. -/
theorem Fn.height_code {f : Fn} {code : List Instr} (hcode : f.code? = some code)
    (hderivation : f.derivation = none) : f.height = codeHeight code + 1 := by
  cases f with
  | body => cases hcode; rfl
  | compose f g =>
    cases hcode
    simp only [Fn.height, codeHeight, Instr.height]
    omega
  | under => cases hderivation
  | _ => cases hcode

theorem Fn.height_lt_of_mem {f : Fn} {code : List Instr} {i : Instr} (hcode : f.code? = some code)
    (hderivation : f.derivation = none) (hi : i ∈ code) : i.height < f.height := by
  rw [Fn.height_code hcode hderivation]
  exact Nat.lt_succ_of_le (height_le_codeHeight hi)

theorem Fn.height_ofCode {resolve : Instr → Except Fault Fn} {name : String} {code : List Instr} {f : Fn}
    (h : Fn.ofCode resolve name code = .ok f) : f.height = codeHeight code + 1 := by
  obtain ⟨s, dynamic, rfl, -⟩ := Fn.ofCode_eq h
  rfl

theorem height_inverse {f g : Fn} (h : f.inverse? = some (.fn g)) : g.height = 1 := by
  cases Fn.isDeclared_of_inverse h <;> rfl

namespace Table

/-! ## Derived functions are no higher -/

/-- No word is made of other functions. -/
def Flat (table : Table) : Prop := ∀ e ∈ table.entries, e.2.height = 1

theorem flat_standard : Table.standard.Flat := by
  intro e he
  rcases List.mem_append.1 he with he | he
  · obtain ⟨w, -, rfl⟩ := List.mem_map.1 he
    rfl
  · simp only [List.mem_cons, List.not_mem_nil, or_false] at he
    rcases he with rfl | rfl <;> rfl

namespace Flat

variable {table : Table} (h : table.Flat)

include h

theorem height_get {name : String} {f : Fn} (hf : table.get name = .ok f) : f.height = 1 :=
  h _ (mem_of_get hf)

section

variable {r : Instr → Except Fault Fn} {iv : Fn → Except Fault Fn} {up : Fn → Except Fault UnderPair}

theorem height_functionBy {o : Operand} {f : Fn} (hf : table.functionBy r o = .ok f) :
    f.height ≤ o.height := by
  cases o with
  | fn g => cases hf; exact le_rfl
  | name name => exact (h.height_get hf).le
  | code code => exact (Fn.height_ofCode hf).le

omit h in
/-- Code that a derivation makes is no higher than the functions that it calls. -/
theorem height_steps {k : Nat} {code steps : List Instr} {name : String} {f : Fn}
    (hsteps : ∀ i ∈ steps, ∃ j ∈ code, (∃ t, i = .push (.tensor t)) ∨
      ∃ g, g.height ≤ j.height ∧ i = .invoke g)
    (hf : Fn.ofCode r name steps = .ok f) (hk : codeHeight code + 1 ≤ k) : f.height ≤ k := by
  rw [Fn.height_ofCode hf]
  refine le_trans (Nat.succ_le_succ (codeHeight_le_iff.2 fun i hi => ?_)) hk
  obtain ⟨j, hj, ⟨t, rfl⟩ | ⟨g, hg, rfl⟩⟩ := hsteps i hi
  · exact j.height_pos.trans (height_le_codeHeight hj)
  · exact hg.trans (height_le_codeHeight hj)

variable (hr : ∀ i f, r i = .ok f → f.height ≤ i.height) (hi : ∀ f g, iv f = .ok g → g.height ≤ f.height)
  (hu : ∀ f p, up f = .ok p → p.before.height ≤ f.height ∧ p.after.height ≤ f.height)

omit h in
include hi in
/-- A modifier adds one level. -/
theorem height_build {m : Modifier} {fs : List Fn} {f : Fn} {k : Nat} (hfs : ∀ g ∈ fs, g.height ≤ k)
    (hf : m.build iv up fs = .ok f) : f.height ≤ k + 1 := by
  have hone (g : Fn) (hg : g ∈ fs) : g.height + 1 ≤ k + 1 := Nat.succ_le_succ (hfs g hg)
  have htwo (g g' : Fn) (hg : g ∈ fs) (hg' : g' ∈ fs) : max g.height g'.height + 1 ≤ k + 1 :=
    Nat.succ_le_succ (max_le (hfs g hg) (hfs g' hg'))
  unfold Modifier.build at hf
  split at hf
  case h_1 =>
    cases hf
    exact htwo _ _ (by simp) (by simp)
  case h_2 => exact (hi _ f hf).trans ((hfs _ (by simp)).trans (Nat.le_succ k))
  case h_3 =>
    obtain ⟨p, -, hf⟩ := Except.bind_ok hf
    cases hf
    exact htwo _ _ (by simp) (by simp)
  case h_4 | h_5 =>
    cases hf
    exact hone _ (by simp)
  case h_6 | h_7 | h_8 | h_9 =>
    obtain ⟨_, -, hf⟩ := Except.bind_ok hf
    cases hf
    exact hone _ (by simp)
  case h_10 => cases hf

include hi in
theorem height_resolveStep {i : Instr} {f : Fn} (hf : table.resolveStep r iv up i = .ok f) :
    f.height ≤ i.height := by
  cases resolution hf with
  | word hf => exact (h.height_get hf).le
  | invoke => exact le_rfl
  | modify hfs hf =>
    refine height_build hi (fun g hg => ?_) hf
    obtain ⟨p, hp, hpg⟩ := Except.exists_of_mem_mapM hfs hg
    exact (h.height_functionBy hpg).trans (height_le_operandsHeight hp)

include hr hi in
theorem height_invertStep {f g : Fn} (hg : table.invertStep r iv up f = .ok g) :
    g.height ≤ f.height := by
  cases inversion hg with
  | @declared _ _ inverse hinverse hg =>
    cases inverse with
    | named name => exact (h.height_get hg).trans_le f.height_pos
    | fn g' => cases hg; exact (height_inverse hinverse).trans_le f.height_pos
  | @under _ action action' _ _ _ haction =>
    have := hi action action' haction
    simp only [Fn.height]
    omega
  | each hg' => exact Nat.succ_le_succ (hi _ _ hg')
  | code hcode hderivation hsteps hg =>
    refine height_steps (fun i hmem => ?_) hg (Fn.height_code hcode hderivation).ge
    obtain ⟨j, hj, u, u', hju, huu, hmem⟩ := of_mem_invertCode hsteps i hmem
    exact ⟨j, hj, hmem.imp (fun ⟨t, ht, _⟩ => ⟨t, ht⟩) fun hstep =>
      ⟨u', (hi u u' huu).trans (hr j u hju), hstep⟩⟩

omit h in
include hr hu in
theorem height_ofCodePair {name : String} {code : List Instr} {p : UnderPair}
    (hp : UnderPair.ofCode r up name code = .ok p) :
    p.before.height ≤ codeHeight code + 1 ∧ p.after.height ≤ codeHeight code + 1 := by
  obtain ⟨vs, hvs, hbefore, hafter⟩ := UnderPair.ofCode_eq_ok hp
  have hpair : ∀ v ∈ vs, ∃ j ∈ code, v.2.before.height ≤ j.height ∧ v.2.after.height ≤ j.height := by
    intro v hv
    obtain ⟨j, hj, hf, hp⟩ := of_mem_pairsOf hvs v hv
    obtain ⟨hb, ha⟩ := hu _ _ hp
    exact ⟨j, hj, hb.trans (hr j _ hf), ha.trans (hr j _ hf)⟩
  constructor
  · refine height_steps (fun i hi => ?_) hbefore le_rfl
    obtain ⟨v, hv, hi⟩ := List.mem_flatMap.1 hi
    obtain ⟨j, hj, hb, -⟩ := hpair v hv
    refine ⟨j, hj, ?_⟩
    rcases List.mem_append.1 hi with hi | hi
    · obtain ⟨t, -, rfl⟩ := List.mem_map.1 hi
      exact .inl ⟨t, rfl⟩
    · exact .inr ⟨_, hb, List.mem_singleton.1 hi⟩
  · refine height_steps (fun i hi => ?_) hafter le_rfl
    obtain ⟨v, hv, rfl⟩ := List.mem_map.1 hi
    obtain ⟨j, hj, -, ha⟩ := hpair v (by simpa using hv)
    exact ⟨j, hj, .inr ⟨_, ha, rfl⟩⟩

omit h in
include hr hi hu in
theorem height_underPairStep {f : Fn} {p : UnderPair} (hp : underPairStep r iv up f = .ok p) :
    p.before.height ≤ f.height ∧ p.after.height ≤ f.height := by
  have hpos := f.height_pos
  cases pairing hp with
  | keeper => exact ⟨hpos, hpos⟩
  | code hcode hderivation hp =>
    rw [Fn.height_code hcode hderivation]
    exact height_ofCodePair hr hu hp
  | inverse _ hg => exact ⟨le_rfl, hi _ _ hg⟩
  | parameters => exact ⟨hpos, hpos⟩

end

/-- Naming, inverting and pairing lead to functions that are no higher. -/
theorem height_le (n : Nat) : (∀ i f, table.resolveIn n i = .ok f → f.height ≤ i.height) ∧
    (∀ f g, table.invertIn n f = .ok g → g.height ≤ f.height) ∧
    (∀ f p, table.underPairIn n f = .ok p → p.before.height ≤ f.height ∧ p.after.height ≤ f.height) := by
  induction n with
  | zero => exact ⟨fun _ _ h => (by cases h), fun _ _ h => (by cases h), fun _ _ h => (by cases h)⟩
  | succ n ih =>
    obtain ⟨hr, hi, hu⟩ := ih
    exact ⟨fun _ _ => h.height_resolveStep hi, fun _ _ => h.height_invertStep hr hi,
      fun _ _ => height_underPairStep hr hi hu⟩

/-! ## Enough steps -/

omit h in
/-- An instruction that a derivation makes names its function at once. -/
theorem tame_resolveIn_made {n : Nat} (hn : 0 < n) {i : Instr} (hmade : i.IsMade) : Tame (table.resolveIn n i) := by
  obtain ⟨n, rfl⟩ := Nat.exists_eq_add_of_le' hn
  rcases hmade with ⟨t, rfl⟩ | ⟨g, rfl⟩
  · exact Avoids.bind (Instr.tame_written _) fun _ => by simp
  · exact .pure g

/-- Two steps for each level, and one more for a pair, are enough. -/
theorem avoids_ofRun (n : Nat) : (∀ i, 2 * i.height ≤ n → Tame (table.resolveIn n i)) ∧
    (∀ f, 2 * f.height ≤ n → Tame (table.invertIn n f)) ∧
    (∀ f, 2 * f.height + 1 ≤ n → Tame (table.underPairIn n f)) := by
  have hbad : ∀ e : Fault, e.ofRun = true → e.ofRun = true := fun _ he => he
  induction n with
  | zero =>
    refine ⟨fun i hn => ?_, fun f hn => ?_, fun f hn => by omega⟩
    · have := i.height_pos
      omega
    · have := f.height_pos
      omega
  | succ n ih =>
    obtain ⟨hr, hi, hu⟩ := ih
    obtain ⟨hr', -, -⟩ := h.height_le n
    -- the instructions of code are a level below it, and so are the functions that they name
    have hsteps {f : Fn} {code : List Instr} {i : Instr} (hn : 2 * f.height ≤ n + 1) (hcode : f.code? = some code)
        (hderivation : f.derivation = none) (hmem : i ∈ code) : Tame (table.resolveIn n i) ∧
          ∀ g, table.resolveIn n i = .ok g → 2 * g.height + 2 ≤ 2 * f.height := by
      have hlt := Fn.height_lt_of_mem hcode hderivation hmem
      refine ⟨hr i (by omega), fun g hg => ?_⟩
      have := hr' i g hg
      omega
    refine ⟨fun i hn => ?_, fun f hn => ?_, fun f hn => ?_⟩
    · refine avoids_resolveStep hbad (fun name os code he hmem j hj => hr j ?_)
        fun name os o f he hmem hf => ?_
      · have h₁ := height_le_codeHeight hj
        have h₂ := height_le_operandsHeight hmem
        subst he
        simp only [Instr.height, Operand.height] at *
        omega
      · have h₁ := h.height_functionBy hf
        have h₂ := height_le_operandsHeight hmem
        subst he
        simp only [Instr.height] at *
        exact ⟨hi f (by omega), hu f (by omega)⟩
    · have hpos := f.height_pos
      refine avoids_invertStep hbad (fun i => tame_resolveIn_made (by omega)) (fun transform action _ _ he => ?_)
        (fun g he => ?_) fun code hcode hderivation i hmem => ?_
      · subst he
        simp only [Fn.height] at hn
        exact ⟨hi action (by omega), hu transform (by omega)⟩
      · subst he
        simp only [Fn.height] at hn
        exact hi g (by omega)
      · obtain ⟨hnamed, hbelow⟩ := hsteps hn hcode hderivation hmem
        refine ⟨hnamed, fun g hg => hi g ?_⟩
        have := hbelow g hg
        omega
    · have hpos := f.height_pos
      refine avoids_underPairStep hbad (fun i => tame_resolveIn_made (by omega)) (hi f (by omega))
        fun code hcode hderivation i hmem => ?_
      obtain ⟨hnamed, hbelow⟩ := hsteps (by omega) hcode hderivation hmem
      refine ⟨hnamed, fun g hg => hu g ?_⟩
      have := hbelow g hg
      omega

/-! ## Derivations that have ended -/

theorem spares_ofRun : table.Spares Fault.ofRun where
  ofRun _ he := he
  resolve i := (h.avoids_ofRun _).1 i (by unfold bound; omega)
  invert f := (h.avoids_ofRun _).2.1 f (by unfold bound; omega)
  underPair f := (h.avoids_ofRun _).2.2 f (by unfold bound; omega)

theorem resolveIn_eq {n : Nat} {i : Instr} (hn : table.bound i.height ≤ n) :
    table.resolveIn n i = table.resolve i :=
  (((approx_of_le hn).1 i).eq_of_tame (h.spares_ofRun.resolve i)).symm

theorem invertIn_eq {n : Nat} {f : Fn} (hn : table.bound f.height ≤ n) :
    table.invertIn n f = table.invert f :=
  (((approx_of_le hn).2.1 f).eq_of_tame (h.spares_ofRun.invert f)).symm

theorem underPairIn_eq {n : Nat} {f : Fn} (hn : table.bound f.height ≤ n) :
    table.underPairIn n f = table.underPair f :=
  (((approx_of_le hn).2.2 f).eq_of_tame (h.spares_ofRun.underPair f)).symm

/-- In any number of steps a derivation runs out or ends as it does in enough. -/
theorem approx (n : Nat) : (∀ i, Approx (table.resolveIn n i) (table.resolve i)) ∧
    (∀ f, Approx (table.invertIn n f) (table.invert f)) ∧
    (∀ f, Approx (table.underPairIn n f) (table.underPair f)) := by
  refine ⟨fun i => ?_, fun f => ?_, fun f => ?_⟩
  · rw [← h.resolveIn_eq (Nat.le_max_right n _)]
    exact (approx_of_le (Nat.le_max_left n _)).1 i
  · rw [← h.invertIn_eq (Nat.le_max_right n _)]
    exact (approx_of_le (Nat.le_max_left n _)).2.1 f
  · rw [← h.underPairIn_eq (Nat.le_max_right n _)]
    exact (approx_of_le (Nat.le_max_left n _)).2.2 f

/-- Naming a function takes one step and then what is derived for its operands. -/
theorem resolve_eq (i : Instr) :
    table.resolve i = table.resolveStep table.resolve table.invert table.underPair i := by
  obtain ⟨hr, hi, hu⟩ := h.approx (table.bound i.height)
  have hstep := @approx_resolveStep _ _ _ _ _ _ table hr hi hu i
  rw [← resolveIn_succ, h.resolveIn_eq (Nat.le_succ _)] at hstep
  exact hstep.eq_of_tame (h.spares_ofRun.resolve i)

/-- Inverting takes one step and then what is derived for the parts. -/
theorem invert_eq (f : Fn) :
    table.invert f = table.invertStep table.resolve table.invert table.underPair f := by
  obtain ⟨hr, hi, hu⟩ := h.approx (table.bound f.height)
  have hstep := @approx_invertStep _ _ _ _ _ _ table hr hi hu f
  rw [← invertIn_succ, h.invertIn_eq (Nat.le_succ _)] at hstep
  exact hstep.eq_of_tame (h.spares_ofRun.invert f)

theorem resolve_invoke (f : Fn) : table.resolve (.invoke f) = .ok f := h.resolve_eq _

theorem resolve_unknown (text : Text) (f : Fn) : table.resolve (.unknown text) ≠ .ok f := by
  rw [h.resolve_eq]
  exact fun h => nomatch h

/-- A declared inverse is what inverting gives. -/
theorem invert_declared {f g : Fn} {inverse : Inverse} (hf : f.inverse? = some inverse)
    (hg : table.ofInverse inverse = .ok g) : table.invert f = .ok g := by
  rw [h.invert_eq]
  unfold invertStep
  rw [hf]
  exact hg

theorem invert_each (f : Fn) : table.invert (.each f) = table.invert f >>= Fn.eachOf := h.invert_eq _

theorem invert_code {f : Fn} {code : List Instr} (hcode : f.code? = some code) (hderivation : f.derivation = none) :
    table.invert f = invertCode table.resolve table.invert code >>=
      Fn.ofCode table.resolve s!"invert({f.name})" := by
  rw [h.invert_eq]
  cases f with
  | body => cases hcode; rfl
  | compose => cases hcode; rfl
  | under => cases hderivation
  | _ => cases hcode

/-- What a run derives is what the instruction names. -/
theorem resolve_modify (name : String) (o : Operand) (os : List Operand) :
    table.resolve (.modify name (o :: os)) = table.derive name (o :: os) := by
  rw [h.resolve_eq]
  have hfunction : table.functionBy table.resolve = table.function := by
    funext p
    cases p <;> rfl
  unfold resolveStep derive
  rw [hfunction]

/-- Over such a table a run derives all that can be derived. -/
theorem makes_iff {name : String} {o : Operand} {os : List Operand} {f : Fn} :
    table.Makes name (o :: os) f ↔ table.derive name (o :: os) = .ok f := by
  constructor
  · rintro ⟨n, hn⟩
    rw [← h.resolve_modify]
    exact ((h.approx n).1 _).eq_ok hn
  · exact makes_of_derive

end Flat

/-! ## Derivations that come to rest -/

/-- In enough steps there is the one answer, however many more are allowed, and it is not that they ran
out. -/
def Settles {α : Type} (x : Nat → Except Fault α) (y : Except Fault α) : Prop :=
  y ≠ .error .endlessDefinition ∧ ∃ n, ∀ k, n ≤ k → x k = y

theorem settles_of_approx {α : Type} {x : Nat → Except Fault α} {y : Except Fault α} (n : Nat)
    (hx : ∀ k, n ≤ k → Tame (x k)) (h : ∀ k, Approx (x k) y) : Settles x y := by
  have heq : ∀ k, n ≤ k → x k = y := fun k hk => (h k).eq_of_tame (hx k hk)
  refine ⟨fun hy => ?_, n, heq⟩
  have hends := hx n le_rfl _ ((heq n le_rfl).trans hy)
  cases hends

/-- Whatever is derived over the table comes to rest where the table's own derivation does. -/
structure Settled (table : Table) : Prop where
  resolve (i : Instr) : Settles (table.resolveIn · i) (table.resolve i)
  invert (f : Fn) : Settles (table.invertIn · f) (table.invert f)
  underPair (f : Fn) : Settles (table.underPairIn · f) (table.underPair f)
  derive (name : String) (o : Operand) (os : List Operand) :
    Settles (table.resolveIn · (.modify name (o :: os))) (table.derive name (o :: os))
  build (m : Modifier) (fs : List Fn) :
    Settles (fun n => m.build (table.invertIn n) (table.underPairIn n) fs)
      (m.build table.invert table.underPair fs)
  stackEffect (code : List Instr) :
    Settles (fun n => stackEffect (table.resolveIn n) code) (stackEffect table.resolve code)
  lambda (code : List Instr) :
    Settles (fun n => Fn.ofCode (table.resolveIn n) "lambda" code) (table.lambda code)

theorem Flat.settled {table : Table} (h : table.Flat) : table.Settled where
  resolve i := settles_of_approx _ (fun n hn => (h.avoids_ofRun n).1 i hn) fun n => (h.approx n).1 i
  invert f := settles_of_approx _ (fun n hn => (h.avoids_ofRun n).2.1 f hn) fun n => (h.approx n).2.1 f
  underPair f := settles_of_approx _ (fun n hn => (h.avoids_ofRun n).2.2 f hn) fun n => (h.approx n).2.2 f
  derive name o os := by
    rw [← h.resolve_modify]
    exact settles_of_approx _ (fun n hn => (h.avoids_ofRun n).1 _ hn) fun n => (h.approx n).1 _
  build m fs := by
    refine settles_of_approx (2 * codeHeight (fs.map .invoke) + 1) (fun n hn => ?_) fun n => ?_
    · have hheight : ∀ f ∈ fs, f.height ≤ codeHeight (fs.map .invoke) := fun f hf =>
        height_le_codeHeight (List.mem_map_of_mem (f := Instr.invoke) hf)
      obtain ⟨-, hi, hu⟩ := h.avoids_ofRun n
      refine Modifier.avoids_build (fun _ he => he) (fun f hf => hi f ?_) (fun f hf => hu f ?_) m
      · have := hheight f hf
        omega
      · have := hheight f hf
        omega
    · exact approx_build (h.approx n).2.1 (h.approx n).2.2 m fs
  stackEffect code := by
    refine settles_of_approx (2 * codeHeight code) (fun n hn => ?_) fun n => approx_effectFrom (h.approx n).1 code _
    refine avoids_effectFrom (fun _ he => he) _ fun i hi => (h.avoids_ofRun n).1 i ?_
    have := height_le_codeHeight hi
    omega
  lambda code := by
    refine settles_of_approx (2 * codeHeight code) (fun n hn => ?_) fun n => approx_ofCode (h.approx n).1 _ code
    refine Fn.avoids_ofCode (fun _ he => he) (fun i hi => (h.avoids_ofRun n).1 i ?_) _
    have := height_le_codeHeight hi
    omega

end Table

end Tacit
