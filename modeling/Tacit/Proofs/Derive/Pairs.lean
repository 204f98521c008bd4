/-
Unders of code. What an under of code is made of are the units of the code and the halves that each
unit has; code in two parts has the units of the one part and then those of the other, as long as no
literal at the end of the first is left for a word of the second.
-/
import Tacit.Proofs.Derive.Steps

namespace Tacit

/-! ## Units of code in two parts -/

/-- The last instruction pushes an array, as a literal for a function that does not follow. -/
def EndsInLiteral (code : List Instr) : Prop := ∃ rest t, code = rest ++ [.push (.tensor t)]

theorem EndsInLiteral.cons {i : Instr} {code : List Instr} (h : EndsInLiteral code) :
    EndsInLiteral (i :: code) := by
  obtain ⟨rest, t, rfl⟩ := h
  exact ⟨i :: rest, t, rfl⟩

theorem unitsFrom_append (resolve : Instr → Except Fault Fn) (code' : List Instr) :
    ∀ (code : List Instr) (pending : List Tensor), ¬ EndsInLiteral code →
      (code = [] → pending = []) → unitsFrom resolve pending (code ++ code') = (do
        let us ← unitsFrom resolve pending code
        let vs ← unitsFrom resolve [] code'
        return us ++ vs)
  | [], pending, _, hnil => by
    rw [hnil rfl]
    exact (bind_pure _).symm
  | i :: code, pending, hend, _ => by
    have hcode : ¬ EndsInLiteral code := fun h => hend h.cons
    let unit (rest : Except Fault (List CodeUnit)) : Except Fault (List CodeUnit) := do
      let f ← resolve i
      return ⟨pending, f⟩ :: (← rest)
    have hunit : unit (unitsFrom resolve [] (code ++ code')) =
        unit (unitsFrom resolve [] code) >>= fun us =>
          unitsFrom resolve [] code' >>= fun vs => pure (us ++ vs) := by
      rw [unitsFrom_append resolve code' code [] hcode fun _ => rfl]
      simp only [unit, bind_assoc, pure_bind, List.cons_append]
    cases i with
    | push v =>
      cases v with
      | fn f => rfl
      | tensor t =>
        refine unitsFrom_append resolve code' code (pending ++ [t]) hcode fun hnil => ?_
        exact absurd ⟨[], t, by rw [hnil]; rfl⟩ hend
    | modify name os =>
      cases os with
      | nil => rfl
      | cons => exact hunit
    | quote | call => rfl
    | word | invoke | unknown => exact hunit

theorem Instr.isDynamic_of_use {i : Instr} (h : i.isUse = true) : i.isDynamic = false := by
  cases i with
  | modify name os =>
    cases os with
    | nil => cases h
    | cons => rfl
  | call => cases h
  | _ => rfl

section

variable {resolve : Instr → Except Fault Fn} (hresolve : ∀ text f, resolve (.unknown text) ≠ .ok f)

include hresolve

theorem Instr.effect_of_use {i : Instr} {f : Fn} (h : i.isUse = true) (hf : resolve i = .ok f) :
    i.effect resolve = .ok f.signature := by
  cases i with
  | word | invoke => exact Except.bind_of_ok hf rfl
  | modify name os =>
    cases os with
    | nil => cases h
    | cons => exact Except.bind_of_ok hf rfl
  | unknown text => exact absurd hf (hresolve text f)
  | push | quote | call => cases h

/-- Code with units calls nothing but functions that can be told before it runs. -/
theorem effect_of_units {code : List Instr} {pending : List Tensor} {us : List CodeUnit}
    (hus : unitsFrom resolve pending code = .ok us) :
    ∀ i ∈ code, i.isDynamic = false ∧ ∃ s, i.effect resolve = .ok s := by
  replace hus := readAs_of_units hus
  induction hus with
  | nil => exact List.forall_mem_nil _
  | literal _ ih => exact List.forall_mem_cons.2 ⟨⟨rfl, _, rfl⟩, ih⟩
  | use hi hf _ ih =>
    exact List.forall_mem_cons.2 ⟨⟨Instr.isDynamic_of_use hi, _, Instr.effect_of_use hresolve hi hf⟩, ih⟩

end

/-! ## Halves of code -/

/-- The units of the code with the halves that each of them has. -/
def pairsOf (resolve : Instr → Except Fault Fn) (underPair : Fn → Except Fault UnderPair)
    (code : List Instr) : Except Fault (List (CodeUnit × UnderPair)) := do
  (← units resolve code).mapM fun u => do return (u, ← underPair u.function)

theorem of_mem_pairsOf {resolve : Instr → Except Fault Fn} {underPair : Fn → Except Fault UnderPair}
    {code : List Instr} {vs : List (CodeUnit × UnderPair)} (h : pairsOf resolve underPair code = .ok vs) :
    ∀ v ∈ vs, ∃ i ∈ code, resolve i = .ok v.1.function ∧ underPair v.1.function = .ok v.2 := by
  obtain ⟨us, hus, h⟩ := Except.bind_ok h
  intro v hv
  obtain ⟨u, hu, hv⟩ := Except.exists_of_mem_mapM h hv
  obtain ⟨pair, hpair, hv⟩ := Except.bind_ok hv
  cases hv
  obtain ⟨i, hi, hf⟩ := of_mem_units hus u hu
  exact ⟨i, hi, hf, hpair⟩

theorem mem_of_mem_pairsOf {resolve : Instr → Except Fault Fn} {underPair : Fn → Except Fault UnderPair}
    {code : List Instr} {vs : List (CodeUnit × UnderPair)} (h : pairsOf resolve underPair code = .ok vs)
    {v : CodeUnit × UnderPair} (hv : v ∈ vs) {t : Tensor} (ht : t ∈ v.1.literals) :
    .push (.tensor t) ∈ code := by
  obtain ⟨us, hus, h⟩ := Except.bind_ok h
  obtain ⟨u, hu, hv⟩ := Except.exists_of_mem_mapM h hv
  obtain ⟨pair, -, hv⟩ := Except.bind_ok hv
  cases hv
  exact (mem_of_mem_literals hus hu ht).resolve_left List.not_mem_nil

/-- The first halves of units, each after the literals of its unit. -/
def beforeCode (vs : List (CodeUnit × UnderPair)) : List Instr :=
  vs.flatMap fun v => v.1.code v.2.before

/-- The second halves of units, from the last unit to the first. -/
def afterCode (vs : List (CodeUnit × UnderPair)) : List Instr :=
  vs.reverse.map fun v => .invoke v.2.after

theorem beforeCode_append (vs ws : List (CodeUnit × UnderPair)) :
    beforeCode (vs ++ ws) = beforeCode vs ++ beforeCode ws := List.flatMap_append

theorem afterCode_append (vs ws : List (CodeUnit × UnderPair)) :
    afterCode (vs ++ ws) = afterCode ws ++ afterCode vs := by
  unfold afterCode
  rw [List.reverse_append, List.map_append]

/-- What stands in code that a derivation makes. -/
def Instr.IsMade (i : Instr) : Prop := (∃ t, i = .push (.tensor t)) ∨ ∃ f, i = .invoke f

theorem Instr.IsMade.isDynamic {i : Instr} (h : i.IsMade) : i.isDynamic = false := by
  rcases h with ⟨t, rfl⟩ | ⟨f, rfl⟩ <;> rfl

theorem made_beforeCode (vs : List (CodeUnit × UnderPair)) : ∀ i ∈ beforeCode vs, i.IsMade := by
  intro i hi
  obtain ⟨v, -, hi⟩ := List.mem_flatMap.1 hi
  rcases List.mem_append.1 hi with hi | hi
  · obtain ⟨t, -, rfl⟩ := List.mem_map.1 hi
    exact .inl ⟨t, rfl⟩
  · exact .inr ⟨_, List.mem_singleton.1 hi⟩

theorem made_afterCode (vs : List (CodeUnit × UnderPair)) : ∀ i ∈ afterCode vs, i.IsMade := by
  intro i hi
  obtain ⟨v, -, rfl⟩ := List.mem_map.1 hi
  exact .inr ⟨_, rfl⟩

theorem Fn.ofCode_made {resolve : Instr → Except Fault Fn} (hresolve : ∀ f, resolve (.invoke f) = .ok f)
    (name : String) {code : List Instr} (h : ∀ i ∈ code, i.IsMade) :
    ∃ s, Fn.ofCode resolve name code = .ok (.body name s false code) := by
  refine Fn.ofCode_ok name fun i hi => ⟨(h i hi).isDynamic, ?_⟩
  rcases h i hi with ⟨t, rfl⟩ | ⟨f, rfl⟩
  · exact ⟨_, rfl⟩
  · exact ⟨_, Except.bind_of_ok (hresolve f) rfl⟩

theorem mapM_pairs (underPair : Fn → Except Fault UnderPair) (us : List CodeUnit) :
    (us.mapM fun u => do return (u, ← underPair u.function) : Except Fault _) =
      us.zip <$> us.mapM fun u => underPair u.function := by
  induction us with
  | nil => rfl
  | cons u us ih =>
    rw [List.mapM_cons, List.mapM_cons, ih]
    cases underPair u.function with
    | error e => rfl
    | ok pair => cases us.mapM fun u => underPair u.function <;> rfl

/-- The halves of code are made of its units with their halves. -/
theorem UnderPair.ofCode_eq (resolve : Instr → Except Fault Fn)
    (underPair : Fn → Except Fault UnderPair) (name : String) (code : List Instr) :
    UnderPair.ofCode resolve underPair name code = (do
      let vs ← pairsOf resolve underPair code
      return ⟨← Fn.ofCode resolve s!"{name} (before)" (beforeCode vs),
        ← Fn.ofCode resolve s!"{name} (after)" (afterCode vs)⟩) := by
  unfold UnderPair.ofCode pairsOf
  cases units resolve code with
  | error e => rfl
  | ok us =>
    rw [Except.ok_bind, Except.ok_bind, mapM_pairs]
    cases hpairs : us.mapM fun u => underPair u.function with
    | error e => rfl
    | ok pairs =>
      have hlength := (Except.forall₂_of_mapM hpairs).length_eq
      have hafter : (pairs.reverse.map fun pair => Instr.invoke pair.after) = afterCode (us.zip pairs) := by
        have hsnd : (us.zip pairs).map Prod.snd = pairs := List.map_snd_zip hlength.ge
        conv_lhs => rw [← hsnd, ← List.map_reverse, List.map_map]
        rfl
      rw [Except.ok_bind, hafter]
      rfl

theorem UnderPair.ofCode_eq_ok {resolve : Instr → Except Fault Fn} {underPair : Fn → Except Fault UnderPair}
    {name : String} {code : List Instr} {p : UnderPair} (h : UnderPair.ofCode resolve underPair name code = .ok p) :
    ∃ vs, pairsOf resolve underPair code = .ok vs ∧
      Fn.ofCode resolve s!"{name} (before)" (beforeCode vs) = .ok p.before ∧
      Fn.ofCode resolve s!"{name} (after)" (afterCode vs) = .ok p.after := by
  rw [UnderPair.ofCode_eq] at h
  obtain ⟨vs, hvs, h⟩ := Except.bind_ok h
  obtain ⟨before, hbefore, h⟩ := Except.bind_ok h
  obtain ⟨after, hafter, h⟩ := Except.bind_ok h
  cases h
  exact ⟨vs, hvs, hbefore, hafter⟩

/-! ## Derived unders -/

namespace Table

variable {table : Table}

/-- The units of the code with the halves that each of them has, found in however many steps. -/
def Pairs (table : Table) (code : List Instr) (vs : List (CodeUnit × UnderPair)) : Prop :=
  ∃ n, pairsOf (table.resolveIn n) (table.underPairIn n) code = .ok vs

/-- The operand names the function. -/
def Names (table : Table) (o : Operand) (f : Fn) : Prop := ∃ n, table.functionIn n o = .ok f

section

variable {n m : Nat} (h : n ≤ m) {code : List Instr}

include h

theorem pairsOf_mono {vs : List (CodeUnit × UnderPair)}
    (hvs : pairsOf (table.resolveIn n) (table.underPairIn n) code = .ok vs) :
    pairsOf (table.resolveIn m) (table.underPairIn m) code = .ok vs := by
  obtain ⟨hr, -, hu⟩ := @approx_of_le table _ _ h
  refine Approx.eq_ok ?_ hvs
  exact (approx_unitsFrom hr code []).bind fun us => Approx.mapM (fun u => (hu _).map _) us

theorem functionIn_mono {o : Operand} {f : Fn} (hf : table.functionIn n o = .ok f) :
    table.functionIn m o = .ok f := by
  cases o with
  | code code => exact (approx_ofCode (approx_of_le h).1 "lambda" code).eq_ok hf
  | _ => exact hf

end

theorem Pairs.unique {code : List Instr} {vs ws : List (CodeUnit × UnderPair)}
    (hvs : table.Pairs code vs) (hws : table.Pairs code ws) : vs = ws := by
  obtain ⟨n, hvs⟩ := hvs
  obtain ⟨m, hws⟩ := hws
  have hvs' := pairsOf_mono (Nat.le_max_left n m) hvs
  rw [pairsOf_mono (Nat.le_max_right n m) hws] at hvs'
  exact (Except.ok.inj hvs').symm

theorem Names.unique {o : Operand} {f g : Fn} (hf : table.Names o f) (hg : table.Names o g) : f = g := by
  obtain ⟨n, hf⟩ := hf
  obtain ⟨m, hg⟩ := hg
  have hf' := functionIn_mono (Nat.le_max_left n m) hf
  rw [functionIn_mono (Nat.le_max_right n m) hg] at hf'
  exact (Except.ok.inj hf').symm

theorem pairs_append {code code' : List Instr} (hcode : ¬ EndsInLiteral code)
    {vs : List (CodeUnit × UnderPair)} : table.Pairs (code ++ code') vs ↔
      ∃ vs₁ vs₂, vs = vs₁ ++ vs₂ ∧ table.Pairs code vs₁ ∧ table.Pairs code' vs₂ := by
  have hpairs : ∀ n, pairsOf (table.resolveIn n) (table.underPairIn n) (code ++ code') = (do
      let us ← units (table.resolveIn n) code
      let us' ← units (table.resolveIn n) code'
      (us ++ us').mapM fun u => do return (u, ← table.underPairIn n u.function)) := fun n => by
    unfold pairsOf units
    rw [unitsFrom_append (table.resolveIn n) code' code [] hcode fun _ => rfl]
    simp only [bind_assoc, pure_bind]
  constructor
  · rintro ⟨n, hvs⟩
    rw [hpairs] at hvs
    obtain ⟨us, hus, hvs⟩ := Except.bind_ok hvs
    obtain ⟨us', hus', hvs⟩ := Except.bind_ok hvs
    rw [List.mapM_append] at hvs
    obtain ⟨vs₁, h₁, hvs⟩ := Except.bind_ok hvs
    obtain ⟨vs₂, h₂, hvs⟩ := Except.bind_ok hvs
    cases hvs
    exact ⟨vs₁, vs₂, rfl, ⟨n, Except.bind_of_ok hus h₁⟩, ⟨n, Except.bind_of_ok hus' h₂⟩⟩
  · rintro ⟨vs₁, vs₂, rfl, ⟨n, h₁⟩, ⟨m, h₂⟩⟩
    obtain ⟨us, hus, h₁⟩ := Except.bind_ok (pairsOf_mono (Nat.le_max_left n m) h₁)
    obtain ⟨us', hus', h₂⟩ := Except.bind_ok (pairsOf_mono (Nat.le_max_right n m) h₂)
    refine ⟨max n m, ?_⟩
    rw [hpairs]
    refine Except.bind_of_ok hus (Except.bind_of_ok hus' ?_)
    rw [List.mapM_append]
    exact Except.bind_of_ok h₁ (Except.bind_of_ok h₂ rfl)

/-- The under of the code around the action, given the units of the code with their halves. -/
inductive UnderOf (code : List Instr) (action : Fn) (vs : List (CodeUnit × UnderPair)) : Fn → Prop
  | intro (s before after : Signature) : UnderOf code action vs
    (.under (.body "lambda" s false code) action (.body "lambda (before)" before false (beforeCode vs))
      (.body "lambda (after)" after false (afterCode vs)))

theorem resolveIn_unknown (n : Nat) (text : Text) (f : Fn) :
    table.resolveIn n (.unknown text) ≠ .ok f := by
  intro h
  cases n with
  | zero => cases h
  | succ n => cases h

/-- Code with units is a function, and so are its halves. -/
theorem underPairIn_code {n : Nat} {code : List Instr} {vs : List (CodeUnit × UnderPair)}
    (hvs : pairsOf (table.resolveIn (n + 1)) (table.underPairIn (n + 1)) code = .ok vs) :
    ∃ s sb sa, Fn.ofCode (table.resolveIn (n + 2)) "lambda" code = .ok (.body "lambda" s false code) ∧
      table.underPairIn (n + 2) (.body "lambda" s false code) =
        .ok ⟨.body "lambda (before)" sb false (beforeCode vs),
          .body "lambda (after)" sa false (afterCode vs)⟩ := by
  obtain ⟨us, hus, -⟩ := Except.bind_ok (pairsOf_mono (Nat.le_succ (n + 1)) hvs)
  obtain ⟨s, hs⟩ := Fn.ofCode_ok "lambda" (effect_of_units (resolveIn_unknown (n + 2)) hus)
  have hresolve : ∀ f, table.resolveIn (n + 1) (.invoke f) = .ok f := fun _ => rfl
  obtain ⟨sb, hsb⟩ := Fn.ofCode_made hresolve "lambda (before)" (made_beforeCode vs)
  obtain ⟨sa, hsa⟩ := Fn.ofCode_made hresolve "lambda (after)" (made_afterCode vs)
  refine ⟨s, sb, sa, hs, ?_⟩
  change UnderPair.ofCode _ _ "lambda" code = _
  rw [UnderPair.ofCode_eq]
  exact Except.bind_of_ok hvs (Except.bind_of_ok hsb (Except.bind_of_ok hsa rfl))

theorem makes_under {code : List Instr} {o : Operand} {action : Fn}
    {vs : List (CodeUnit × UnderPair)} (hvs : table.Pairs code vs) (ho : table.Names o action) :
    ∃ f, UnderOf code action vs f ∧ table.Makes "under" [.code code, o] f := by
  obtain ⟨n, hvs⟩ := hvs
  obtain ⟨m, ho⟩ := ho
  obtain ⟨s, sb, sa, hs, hpair⟩ := underPairIn_code (n := max n m) (pairsOf_mono (by omega) hvs)
  have hfs : [Operand.code code, o].mapM (table.functionIn (max n m + 2)) =
      .ok [.body "lambda" s false code, action] :=
    Except.mapM_of_forall₂ (.cons hs (.cons (functionIn_mono (by omega) ho) .nil))
  refine ⟨_, .intro s sb sa, max n m + 3, ?_⟩
  exact Except.bind_of_ok (a := Modifier.under) rfl (Except.bind_of_ok rfl
    (Except.bind_of_ok hfs (Except.bind_of_ok hpair rfl)))

theorem of_makes_under {code : List Instr} {o : Operand} {f : Fn}
    (h : table.Makes "under" [.code code, o] f) :
    ∃ vs action, table.Pairs code vs ∧ table.Names o action ∧ UnderOf code action vs f := by
  obtain ⟨n, h⟩ := h
  have h := resolveIn_mono (Nat.le_add_right n 3) h
  obtain ⟨m, hm, h⟩ := Except.bind_ok h
  cases hm
  obtain ⟨_, -, h⟩ := Except.bind_ok h
  obtain ⟨fs, hfs, h⟩ := Except.bind_ok h
  have hall := Except.forall₂_of_mapM (f := table.functionIn (n + 2)) hfs
  obtain ⟨transform, _, htransform, hrest, rfl⟩ := List.forall₂_cons_left_iff.1 hall
  obtain ⟨action, _, haction, hnil, rfl⟩ := List.forall₂_cons_left_iff.1 hrest
  obtain rfl := List.forall₂_nil_left_iff.1 hnil
  obtain ⟨pair, hpair, h⟩ := Except.bind_ok h
  cases h
  obtain ⟨_, _, rfl, -⟩ := Fn.ofCode_eq htransform
  have hcode : UnderPair.ofCode (table.resolveIn (n + 1)) (table.underPairIn (n + 1)) "lambda" code =
      .ok pair := hpair
  rw [UnderPair.ofCode_eq] at hcode
  obtain ⟨vs, hvs, -⟩ := Except.bind_ok hcode
  obtain ⟨s, sb, sa, hs, hpair'⟩ := underPairIn_code hvs
  cases htransform.symm.trans hs
  cases hpair.symm.trans hpair'
  exact ⟨vs, action, ⟨n + 1, hvs⟩, ⟨n + 2, haction⟩, .intro _ sb sa⟩

end Table

end Tacit
