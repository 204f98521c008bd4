/-
Faults of derivations: resolving names, inverting, forming under pairs and writing instructions in
messages fail only with faults of their own.
-/
import Tacit.Proofs.Derive.Pairs

namespace Tacit

namespace Table

variable (table : Table)

@[simp] theorem tame_get (name : String) : Tame (table.get name) := by
  unfold get; split <;> simp

end Table

mutual

theorem Tensor.tame_toHost : ∀ t : Tensor, Tame t.toHost
  | ⟨s, .numbers xs⟩ => by simp [toHost]
  | ⟨s, .characters cs⟩ => by simp [toHost]
  | ⟨s, .boxes ts⟩ => by
    unfold toHost
    exact (tame_toHosts ts).map

theorem Tensor.tame_toHosts : ∀ ts : List Tensor, Tame (toHosts ts)
  | [] => by simp [toHosts]
  | t :: ts => by
    unfold toHosts
    exact Avoids.bind (tame_toHost t) fun _ => (tame_toHosts ts).map

end

mutual

theorem Tensor.tame_ofHost : ∀ h : Host, Tame (ofHost h)
  | .list hs | .tuple hs => by
    unfold ofHost
    exact (tame_ofHosts hs).map
  | .value (.tensor _) | .value (.fn _) | .none | .text _ | .char _ | .bool _ | .float _ | .grid _ _ => by
    simp [ofHost]
  | .int n => by simp [ofHost, ofInt]

theorem Tensor.tame_ofHosts : ∀ hs : List Host, Tame (ofHosts hs)
  | [] => by simp [ofHosts]
  | h :: hs => by
    unfold ofHosts
    exact Avoids.bind (tame_ofHost h) fun _ => (tame_ofHosts hs).map

end

theorem Value.tame_ofHost (h : Host) : Tame (ofHost h) := by
  unfold ofHost
  split
  · exact .pure _
  · exact (Tensor.tame_ofHost h).map

theorem Value.tame_written (v : Value) : Tame v.written := by
  cases v with
  | tensor t => exact (Tensor.tame_toHost t).map
  | fn f => simp [written]

mutual

theorem Instr.tame_written : ∀ i : Instr, Tame i.written
  | .push v => by unfold Instr.written; exact (Value.tame_written v).map
  | .quote code => by unfold Instr.written; exact (Instr.tame_writtenAll code).map
  | .modify name os => by unfold Instr.written; exact (Operand.tame_writtenAll os).map
  | .word _ | .invoke _ | .call | .unknown _ => by simp [Instr.written]

theorem Instr.tame_writtenAll : ∀ code : List Instr, Tame (Instr.writtenAll code)
  | [] => by simp [Instr.writtenAll]
  | i :: code => by
    unfold Instr.writtenAll
    exact Avoids.bind (Instr.tame_written i) fun _ => (Instr.tame_writtenAll code).map

theorem Operand.tame_written : ∀ o : Operand, Tame o.written
  | .fn _ | .name _ => by simp [Operand.written]
  | .code code => by unfold Operand.written; exact (Instr.tame_writtenAll code).map

theorem Operand.tame_writtenAll : ∀ os : List Operand, Tame (Operand.writtenAll os)
  | [] => by simp [Operand.writtenAll]
  | o :: os => by
    unfold Operand.writtenAll
    exact Avoids.bind (Operand.tame_written o) fun _ => (Operand.tame_writtenAll os).map

end

section

variable {bad : Fault → Bool} (hbad : ∀ e, bad e = true → e.ofRun = true)
  {resolve : Instr → Except Fault Fn} {invert : Fn → Except Fault Fn}
  {underPair : Fn → Except Fault UnderPair} {code : List Instr}

include hbad

theorem avoids_effectFrom : ∀ {code : List Instr} (s : Signature),
    (∀ i ∈ code, Avoids bad (resolve i)) → Avoids bad (effectFrom resolve s code)
  | [], _, _ => Avoids.of_tame hbad (by simp [effectFrom])
  | i :: code, s, h => by
    have hi := h i (by simp)
    refine Avoids.bind ?_ fun _ => avoids_effectFrom _ fun j hj => h j (by simp [hj])
    cases i with
    | push | quote => exact .pure _
    | call | unknown => exact .of_tame hbad (by simp [Instr.effect])
    | word | invoke => exact hi.map
    | modify name os =>
      cases os with
      | nil => exact .of_tame hbad (by simp [Instr.effect])
      | cons => exact hi.map

theorem Fn.avoids_ofCode (h : ∀ i ∈ code, Avoids bad (resolve i)) (name : String) :
    Avoids bad (Fn.ofCode resolve name code) := by
  unfold ofCode
  split
  · exact .pure _
  · exact (avoids_effectFrom hbad _ h).map

theorem avoids_unitsFrom : ∀ {code : List Instr} (pending : List Tensor),
    (∀ i ∈ code, Avoids bad (resolve i)) → Avoids bad (unitsFrom resolve pending code)
  | [], _, _ => Avoids.of_tame hbad (by simp [unitsFrom])
  | i :: code, pending, h => by
    have hcode : ∀ j ∈ code, Avoids bad (resolve j) := fun j hj => h j (by simp [hj])
    have hunit : Avoids bad (do let f ← resolve i; return ⟨pending, f⟩ :: (← unitsFrom resolve [] code)) :=
      Avoids.bind (h i (by simp)) fun _ => (avoids_unitsFrom _ hcode).map
    cases i with
    | push v =>
      cases v with
      | tensor t =>
        show Avoids bad (unitsFrom resolve (pending ++ [t]) code)
        exact avoids_unitsFrom _ hcode
      | fn f => exact .of_tame hbad (by simp [unitsFrom])
    | modify name os =>
      cases os with
      | nil => exact .of_tame hbad (by simp [unitsFrom])
      | cons => exact hunit
    | quote | call => exact .of_tame hbad (by simp [unitsFrom])
    | word | invoke | unknown => exact hunit

/-- Only what the code names is inverted. -/
theorem avoids_invertCode (h : ∀ i ∈ code, Avoids bad (resolve i))
    (hi : ∀ i ∈ code, ∀ f, resolve i = .ok f → Avoids bad (invert f)) :
    Avoids bad (invertCode resolve invert code) := by
  refine Avoids.bind_of_eq_ok (avoids_unitsFrom hbad [] h) fun us hus => ?_
  refine (Avoids.mapM_mem _ fun u hu => ?_).map
  obtain ⟨i, hmem, hf⟩ := of_mem_units hus u (by simpa using hu)
  exact Avoids.bind (hi i hmem _ hf) fun _ => .of_tame hbad (by simp)

theorem avoids_pairsOf (h : ∀ i ∈ code, Avoids bad (resolve i))
    (hu : ∀ i ∈ code, ∀ f, resolve i = .ok f → Avoids bad (underPair f)) :
    Avoids bad (pairsOf resolve underPair code) := by
  refine Avoids.bind_of_eq_ok (avoids_unitsFrom hbad [] h) fun us hus => ?_
  refine Avoids.mapM_mem _ fun u hmem => ?_
  obtain ⟨i, hi, hf⟩ := of_mem_units hus u hmem
  exact (hu i hi _ hf).map

theorem UnderPair.avoids_ofCode (hmade : ∀ i, i.IsMade → Avoids bad (resolve i))
    (h : ∀ i ∈ code, Avoids bad (resolve i))
    (hu : ∀ i ∈ code, ∀ f, resolve i = .ok f → Avoids bad (underPair f)) (name : String) :
    Avoids bad (UnderPair.ofCode resolve underPair name code) := by
  rw [UnderPair.ofCode_eq]
  refine Avoids.bind (avoids_pairsOf hbad h hu) fun vs => ?_
  have hbefore : ∀ i ∈ beforeCode vs, Avoids bad (resolve i) := fun i hi => hmade i (made_beforeCode _ i hi)
  have hafter : ∀ i ∈ afterCode vs, Avoids bad (resolve i) := fun i hi => hmade i (made_afterCode _ i hi)
  exact Avoids.bind (Fn.avoids_ofCode hbad hbefore _) fun _ => (Fn.avoids_ofCode hbad hafter _).map

theorem Modifier.avoids_build {fs : List Fn} (hi : ∀ f ∈ fs, Avoids bad (invert f))
    (hu : ∀ f ∈ fs, Avoids bad (underPair f)) (m : Modifier) :
    Avoids bad (m.build invert underPair fs) := by
  unfold build
  split
  case h_2 => exact hi _ (by simp)
  case h_3 => exact (hu _ (by simp)).map
  all_goals exact .of_tame hbad (by simp [Fn.eachOf, checkSignature])

end

theorem Modifier.tame_ofName (name : String) : Tame (ofName name) := by
  unfold ofName; split <;> simp

/-! ## One step of a derivation -/

namespace Table

section

variable {bad : Fault → Bool} (hbad : ∀ e, bad e = true → e.ofRun = true) {table : Table}
  {r : Instr → Except Fault Fn} {iv : Fn → Except Fault Fn} {up : Fn → Except Fault UnderPair}

include hbad

theorem avoids_functionBy {o : Operand} (h : ∀ code, o = .code code → ∀ i ∈ code, Avoids bad (r i)) :
    Avoids bad (table.functionBy r o) := by
  cases o with
  | fn f => exact .pure f
  | name name => exact .of_tame hbad (table.tame_get name)
  | code code => exact Fn.avoids_ofCode hbad (h code rfl) _

/-- Naming a function fails as naming, inverting and pairing the operands of a modifier does. -/
theorem avoids_resolveStep {i : Instr}
    (hcode : ∀ name os code, i = .modify name os → .code code ∈ os → ∀ j ∈ code, Avoids bad (r j))
    (hoperand : ∀ name os o f, i = .modify name os → o ∈ os → table.functionBy r o = .ok f →
      Avoids bad (iv f) ∧ Avoids bad (up f)) : Avoids bad (table.resolveStep r iv up i) := by
  unfold resolveStep
  split
  · exact .of_tame hbad (table.tame_get _)
  · exact .pure _
  · rename_i name o os
    refine Avoids.bind (.of_tame hbad (Modifier.tame_ofName _)) fun m => ?_
    refine Avoids.bind (.of_tame hbad (by simp [Modifier.checkArity])) fun _ => ?_
    refine Avoids.bind_of_eq_ok (Avoids.mapM_mem _ fun p hp => ?_) fun fs hfs => ?_
    · exact avoids_functionBy hbad fun code hp' j hj => hcode name _ code rfl (hp' ▸ hp) j hj
    · refine Modifier.avoids_build hbad (fun f hf => ?_) (fun f hf => ?_) m
      all_goals obtain ⟨p, hp, hpf⟩ := Except.exists_of_mem_mapM hfs hf
      · exact (hoperand name _ p f rfl hp hpf).1
      · exact (hoperand name _ p f rfl hp hpf).2
  · exact Avoids.bind (.of_tame hbad (Instr.tame_written _)) fun _ => .of_tame hbad (by simp)

/-- Inverting fails as inverting the parts does. -/
theorem avoids_invertStep {f : Fn} (hmade : ∀ i, i.IsMade → Avoids bad (r i))
    (hunder : ∀ transform action before after, f = .under transform action before after →
      Avoids bad (iv action) ∧ Avoids bad (up transform))
    (heach : ∀ g, f = .each g → Avoids bad (iv g))
    (hcode : ∀ code, f.code? = some code → f.derivation = none → ∀ i ∈ code,
      Avoids bad (r i) ∧ ∀ g, r i = .ok g → Avoids bad (iv g)) :
    Avoids bad (table.invertStep r iv up f) := by
  unfold invertStep
  split
  · rename_i inverse _
    cases inverse with
    | named name => exact .of_tame hbad (table.tame_get name)
    | fn g => exact .pure g
  · split
    · obtain ⟨haction, htransform⟩ := hunder _ _ _ _ rfl
      exact Avoids.bind haction fun _ => htransform.map
    · refine Avoids.bind (heach _ rfl) fun _ => .of_tame hbad ?_
      simp [Fn.eachOf, Modifier.checkSignature]
    · rename_i hnunder hneach
      split
      · rename_i code hc
        have hcode := hcode code hc (Fn.derivation_eq_none hnunder hneach)
        refine Avoids.bind_of_eq_ok (avoids_invertCode hbad (fun i hi => (hcode i hi).1)
          fun i hi => (hcode i hi).2) fun steps hsteps => Fn.avoids_ofCode hbad (fun i hi => ?_) _
        obtain ⟨-, -, -, g, -, -, hmem⟩ := of_mem_invertCode hsteps i hi
        exact hmade i (hmem.imp (fun ⟨t, ht, _⟩ => ⟨t, ht⟩) fun h => ⟨g, h⟩)
      · exact .of_tame hbad (by simp)

/-- Pairing fails as inverting the function or pairing the parts of its code does. -/
theorem avoids_underPairStep {f : Fn} (hmade : ∀ i, i.IsMade → Avoids bad (r i))
    (hinvert : Avoids bad (iv f))
    (hcode : ∀ code, f.code? = some code → f.derivation = none → ∀ i ∈ code,
      Avoids bad (r i) ∧ ∀ g, r i = .ok g → Avoids bad (up g)) :
    Avoids bad (underPairStep r iv up f) := by
  unfold underPairStep
  split
  · exact .pure _
  · split
    · rename_i code hc
      split
      · rename_i hd
        have hcode := hcode code hc (Option.isNone_iff_eq_none.1 hd.2)
        exact UnderPair.avoids_ofCode hbad hmade (fun i hi => (hcode i hi).1) (fun i hi => (hcode i hi).2) _
      · exact hinvert.map
    · exact hinvert.map

end

/-! ## Derivations -/

/-- No derivation over the table ends with a fault of the class, to which only such faults belong as no
word ends with. -/
structure Spares (table : Table) (bad : Fault → Bool) : Prop where
  ofRun : ∀ e, bad e = true → e.ofRun = true
  resolve : ∀ i, Avoids bad (table.resolve i)
  invert : ∀ f, Avoids bad (table.invert f)
  underPair : ∀ f, Avoids bad (table.underPair f)

namespace Spares

variable {table : Table} {bad : Fault → Bool} (h : table.Spares bad)

include h

theorem lambda (code : List Instr) : Avoids bad (table.lambda code) :=
  Fn.avoids_ofCode h.ofRun (fun i _ => h.resolve i) _

theorem build (m : Modifier) (fs : List Fn) : Avoids bad (m.build table.invert table.underPair fs) :=
  Modifier.avoids_build h.ofRun (fun f _ => h.invert f) (fun f _ => h.underPair f) m

theorem derive (name : String) (os : List Operand) : Avoids bad (table.derive name os) := by
  refine Avoids.bind (.of_tame h.ofRun (Modifier.tame_ofName name)) fun m => ?_
  refine Avoids.bind (.of_tame h.ofRun (by simp [Modifier.checkArity])) fun _ => ?_
  refine Avoids.bind (Avoids.mapM _ fun o => ?_) fun fs => h.build m fs
  cases o with
  | fn f => exact .pure f
  | name name => exact .of_tame h.ofRun (table.tame_get name)
  | code code => exact h.lambda code

end Spares

theorem avoids_ofMachine (table : Table) (n : Nat) : (∀ i, Avoids Fault.ofMachine (table.resolveIn n i)) ∧
    (∀ f, Avoids Fault.ofMachine (table.invertIn n f)) ∧
    (∀ f, Avoids Fault.ofMachine (table.underPairIn n f)) := by
  have hbad := Fault.ofRun_of_ofMachine
  induction n with
  | zero => exact ⟨fun _ => by simp [resolveIn], fun _ => by simp [invertIn], fun _ => by simp [underPairIn]⟩
  | succ n ih =>
    obtain ⟨hr, hi, hu⟩ := ih
    refine ⟨fun i => ?_, fun f => ?_, fun f => ?_⟩
    · exact avoids_resolveStep hbad (fun _ _ _ _ _ j _ => hr j) fun _ _ _ f _ _ _ => ⟨hi f, hu f⟩
    · exact avoids_invertStep hbad (fun i _ => hr i) (fun _ action _ _ _ => ⟨hi action, hu _⟩)
        (fun g _ => hi g) fun _ _ _ i _ => ⟨hr i, fun g _ => hi g⟩
    · exact avoids_underPairStep hbad (fun i _ => hr i) (hi f) fun _ _ _ i _ => ⟨hr i, fun g _ => hu g⟩

/-- Derivations leave the faults of the machine to the machine. -/
theorem spares_ofMachine (table : Table) : table.Spares Fault.ofMachine where
  ofRun := Fault.ofRun_of_ofMachine
  resolve _ := (table.avoids_ofMachine _).1 _
  invert _ := (table.avoids_ofMachine _).2.1 _
  underPair _ := (table.avoids_ofMachine _).2.2 _

end Table

end Tacit
