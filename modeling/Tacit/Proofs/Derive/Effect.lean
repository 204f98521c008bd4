/-
Stack effects of code and its units. Effects compose associatively, so the effect of code in two parts is
that of the first part and then of the second, and code has an effect if each of its instructions has one.
Code is read as units, each a function after the literals that stand before it.
-/
import Tacit.Inverse
import Tacit.Proofs.Fault.Tame

namespace Tacit

/-! ## Signatures -/

namespace Signature

@[simp] theorem empty_andThen (s : Signature) : empty.andThen s = s := by
  simp [empty, andThen]

@[simp] theorem andThen_empty (s : Signature) : s.andThen empty = s := by
  simp [empty, andThen]

theorem andThen_assoc (s t u : Signature) : (s.andThen t).andThen u = s.andThen (t.andThen u) := by
  simp only [andThen, Signature.mk.injEq]
  omega

end Signature

/-! ## Code -/

theorem effectFrom_eq (resolve : Instr → Except Fault Fn) : ∀ (code : List Instr) (s : Signature),
    effectFrom resolve s code = s.andThen <$> stackEffect resolve code
  | [], s => by simp [stackEffect, effectFrom]
  | i :: code, s => by
    unfold stackEffect effectFrom
    cases i.effect resolve with
    | error e => rfl
    | ok t =>
      change effectFrom resolve (s.andThen t) code =
        s.andThen <$> effectFrom resolve (Signature.empty.andThen t) code
      rw [effectFrom_eq resolve code, effectFrom_eq resolve code]
      cases stackEffect resolve code with
      | error e => rfl
      | ok u =>
        change Except.ok _ = Except.ok _
        rw [Signature.empty_andThen, Signature.andThen_assoc]

theorem stackEffect_cons {resolve : Instr → Except Fault Fn} {i : Instr} {code : List Instr}
    {s : Signature} (h : stackEffect resolve (i :: code) = .ok s) :
    ∃ t u, i.effect resolve = .ok t ∧ stackEffect resolve code = .ok u ∧ s = t.andThen u := by
  obtain ⟨t, ht, h⟩ := Except.bind_ok h
  rw [effectFrom_eq, Signature.empty_andThen] at h
  cases hu : stackEffect resolve code with
  | error e => rw [hu] at h; cases h
  | ok u =>
    rw [hu] at h
    cases h
    exact ⟨t, u, ht, rfl, rfl⟩

theorem effectFrom_append (resolve : Instr → Except Fault Fn) (code code' : List Instr) (s : Signature) :
    effectFrom resolve s (code ++ code') = effectFrom resolve s code >>= fun t => effectFrom resolve t code' := by
  induction code generalizing s with
  | nil => rfl
  | cons i code ih =>
    rw [List.cons_append, effectFrom, effectFrom, bind_assoc]
    exact bind_congr fun t => ih _

/-- Whichever part has no effect first, for the same reason the whole has none. -/
theorem stackEffect_append_eq (resolve : Instr → Except Fault Fn) (code code' : List Instr) :
    stackEffect resolve (code ++ code') = do
      return (← stackEffect resolve code).andThen (← stackEffect resolve code') := by
  rw [stackEffect, effectFrom_append]
  refine bind_congr fun s => ?_
  rw [effectFrom_eq, map_eq_pure_bind]

theorem stackEffect_append {resolve : Instr → Except Fault Fn} {code code' : List Instr}
    {s t : Signature} (h : stackEffect resolve code = .ok s) (h' : stackEffect resolve code' = .ok t) :
    stackEffect resolve (code ++ code') = .ok (s.andThen t) := by
  rw [stackEffect_append_eq, h, h']
  rfl

theorem stackEffect_flatten (resolve : Instr → Except Fault Fn) (parts : List (List Instr)) :
    stackEffect resolve parts.flatten = List.foldr .andThen .empty <$> parts.mapM (stackEffect resolve) := by
  induction parts with
  | nil => rfl
  | cons code parts ih =>
    rw [List.flatten_cons, stackEffect_append_eq, ih, List.mapM_cons]
    cases stackEffect resolve code with
    | error e => rfl
    | ok s => cases parts.mapM (stackEffect resolve) <;> rfl

/-- Wherever code is cut, its effect is that of the first part and then that of the second, and it has none just
where one of them has none, for the reason of the first that has none. So it is with any number of parts, however
they are put together, for effects compose associatively and the empty effect, that of no code, is neutral. -/
theorem stackEffect_cut (resolve : Instr → Except Fault Fn) :
    (∀ code code' : List Instr, stackEffect resolve (code ++ code') = do
      let s ← stackEffect resolve code
      let t ← stackEffect resolve code'
      return s.andThen t) ∧
    (∀ parts : List (List Instr), stackEffect resolve parts.flatten =
      List.foldr .andThen .empty <$> parts.mapM (stackEffect resolve)) ∧
    stackEffect resolve [] = .ok .empty ∧
    (∀ s : Signature, Signature.empty.andThen s = s ∧ s.andThen .empty = s) ∧
    ∀ s t u : Signature, (s.andThen t).andThen u = s.andThen (t.andThen u) :=
  ⟨stackEffect_append_eq resolve, stackEffect_flatten resolve, rfl,
    fun s => ⟨s.empty_andThen, s.andThen_empty⟩, Signature.andThen_assoc⟩

/-! ## Code as a function -/

theorem Fn.ofCode_eq {resolve : Instr → Except Fault Fn} {name : String} {code : List Instr} {f : Fn}
    (h : Fn.ofCode resolve name code = .ok f) : ∃ s dynamic, f = .body name s dynamic code ∧
      (code.any Instr.isDynamic = false → stackEffect resolve code = .ok s) := by
  unfold Fn.ofCode at h
  split at h
  · rename_i hd
    cases h
    exact ⟨_, _, rfl, fun hs => by rw [hs] at hd; cases hd⟩
  · obtain ⟨s, hs, h⟩ := Except.bind_ok h
    cases h
    exact ⟨s, false, rfl, fun _ => hs⟩

/-- Code that neither calls nor modifies what it finds on the stack is a function of its own effect. -/
theorem Fn.ofCode_of_static {resolve : Instr → Except Fault Fn} {name : String} {code : List Instr} {s : Signature}
    (hstatic : ∀ i ∈ code, i.isDynamic = false) (hs : stackEffect resolve code = .ok s) :
    Fn.ofCode resolve name code = .ok (.body name s false code) := by
  have hany : code.any Instr.isDynamic = false := List.any_eq_false.2 fun i hi => by simp [hstatic i hi]
  unfold Fn.ofCode
  rw [hany]
  exact Except.bind_of_ok hs rfl

/-- Code is a function if each of its instructions has an effect. -/
theorem Fn.ofCode_ok {resolve : Instr → Except Fault Fn} (name : String) {code : List Instr}
    (h : ∀ i ∈ code, i.isDynamic = false ∧ ∃ s, i.effect resolve = .ok s) :
    ∃ s, Fn.ofCode resolve name code = .ok (.body name s false code) := by
  -- from every effect so far, as each instruction adds its own to it
  have heffect : ∀ s, ∃ s', effectFrom resolve s code = .ok s' := by
    induction code with
    | nil => exact fun s => ⟨s, rfl⟩
    | cons i code ih =>
      intro s
      obtain ⟨-, t, ht⟩ := h i (by simp)
      obtain ⟨s', hs'⟩ := ih (fun j hj => h j (by simp [hj])) (s.andThen t)
      exact ⟨s', Except.bind_of_ok ht hs'⟩
  obtain ⟨s, hs⟩ := heffect .empty
  exact ⟨s, Fn.ofCode_of_static (fun i hi => (h i hi).1) hs⟩

/-- A modifier that asks for a signature gets it. -/
theorem of_checkSignature {m : Modifier} {role : Role} {wanted : Signature} {f g g' : Fn}
    (h : (do m.checkSignature role wanted f; return g : Except Fault Fn) = .ok g') :
    f.signature = wanted ∧ g' = g := by
  unfold Modifier.checkSignature at h
  split at h <;> cases h
  exact ⟨‹_›, rfl⟩

theorem Fn.eachOf_ok {f : Fn} (h : f.signature = ⟨1, 1⟩) : Fn.eachOf f = .ok (.each f) := by
  unfold Fn.eachOf Modifier.checkSignature
  rw [if_pos h]
  rfl

/-! ## Units -/

/-- The instructions that are read as a function after its literals. -/
def Instr.isUse : Instr → Bool
  | .word _ | .invoke _ | .modify _ (_ :: _) | .unknown _ => true
  | _ => false

/-- Code after pending literals, and the units that it is read as. -/
inductive ReadAs (resolve : Instr → Except Fault Fn) : List Tensor → List Instr → List CodeUnit → Prop
  | nil : ReadAs resolve [] [] []
  | literal {pending : List Tensor} {t : Tensor} {code : List Instr} {us : List CodeUnit} :
    ReadAs resolve (pending ++ [t]) code us → ReadAs resolve pending (.push (.tensor t) :: code) us
  | use {pending : List Tensor} {i : Instr} {f : Fn} {code : List Instr} {us : List CodeUnit} :
    i.isUse = true → resolve i = .ok f → ReadAs resolve [] code us →
    ReadAs resolve pending (i :: code) (⟨pending, f⟩ :: us)

theorem readAs_of_units {resolve : Instr → Except Fault Fn} : ∀ {code : List Instr} {pending : List Tensor}
    {us : List CodeUnit}, unitsFrom resolve pending code = .ok us → ReadAs resolve pending code us
  | [], pending, us, hus => by
    unfold unitsFrom at hus
    split at hus
    · rename_i hpending
      cases hus
      rw [List.isEmpty_iff.1 hpending]
      exact .nil
    · cases hus
  | i :: code, pending, us, hus => by
    have huse (hi : i.isUse = true)
        (hus : (do let f ← resolve i; return ⟨pending, f⟩ :: (← unitsFrom resolve [] code)) = Except.ok us) :
        ReadAs resolve pending (i :: code) us := by
      obtain ⟨f, hf, hus⟩ := Except.bind_ok hus
      obtain ⟨vs, hvs, hus⟩ := Except.bind_ok hus
      cases hus
      exact .use hi hf (readAs_of_units hvs)
    cases i with
    | push v =>
      cases v with
      | tensor t => exact .literal (readAs_of_units hus)
      | fn f => cases hus
    | modify name os =>
      cases os with
      | nil => cases hus
      | cons => exact huse rfl hus
    | quote | call => cases hus
    | word | invoke | unknown => exact huse rfl hus

/-- Units are functions that instructions of the code name. -/
theorem of_mem_units {resolve : Instr → Except Fault Fn} {code : List Instr} {pending : List Tensor}
    {us : List CodeUnit} (hus : unitsFrom resolve pending code = .ok us) :
    ∀ u ∈ us, ∃ i ∈ code, resolve i = .ok u.function := by
  replace hus := readAs_of_units hus
  induction hus with
  | nil => exact List.forall_mem_nil _
  | literal _ ih =>
    intro u hu
    obtain ⟨i, hi, hf⟩ := ih u hu
    exact ⟨i, List.mem_cons_of_mem _ hi, hf⟩
  | @use _ i f _ _ _ hf _ ih =>
    rw [List.forall_mem_cons]
    refine ⟨⟨i, List.mem_cons_self, hf⟩, fun u hu => ?_⟩
    obtain ⟨j, hj, hg⟩ := ih u hu
    exact ⟨j, List.mem_cons_of_mem _ hj, hg⟩

/-- An inverted unit is its literals and the inverse. -/
theorem CodeUnit.inverted_eq_ok {invert : Fn → Except Fault Fn} {u : CodeUnit} {part : List Instr}
    (h : u.inverted invert = .ok part) : ∃ g, invert u.function = .ok g ∧
      u.literals.length = u.function.parametric ∧ part = u.code g := by
  obtain ⟨g, hg, h⟩ := Except.bind_ok h
  dsimp only at h
  split at h
  · cases h
  · split at h
    · cases h
    · cases h
      exact ⟨g, hg, by omega, rfl⟩

theorem CodeUnit.inverted_ok {invert : Fn → Except Fault Fn} {u : CodeUnit} {g : Fn}
    (hg : invert u.function = .ok g) (hlength : u.literals.length = u.function.parametric) :
    u.inverted invert = .ok (u.code g) := by
  refine Except.bind_of_ok hg ?_
  dsimp only
  rw [if_neg (by omega), if_neg (by omega)]
  rfl

/-- The literals of a unit are those of the code, or those that came before it. -/
theorem mem_of_mem_literals {resolve : Instr → Except Fault Fn} {code : List Instr} {pending : List Tensor}
    {us : List CodeUnit} (hus : unitsFrom resolve pending code = .ok us) :
    ∀ {u}, u ∈ us → ∀ {t}, t ∈ u.literals → t ∈ pending ∨ .push (.tensor t) ∈ code := by
  replace hus := readAs_of_units hus
  induction hus with
  | nil => exact fun hu => nomatch hu
  | literal _ ih =>
    intro u hu t ht
    rcases ih hu ht with ht | ht
    · rcases List.mem_append.1 ht with ht | ht
      · exact .inl ht
      · rw [List.mem_singleton.1 ht]
        exact .inr List.mem_cons_self
    · exact .inr (List.mem_cons_of_mem _ ht)
  | use _ _ _ ih =>
    intro u hu t ht
    rcases List.mem_cons.1 hu with rfl | hu
    · exact .inl ht
    · rcases ih hu ht with ht | ht
      · cases ht
      · exact .inr (List.mem_cons_of_mem _ ht)

/-- Inverted code pushes literals of the code and calls inverses of what the instructions of the code name. -/
theorem of_mem_invertCode {resolve : Instr → Except Fault Fn} {invert : Fn → Except Fault Fn}
    {code steps : List Instr} (h : invertCode resolve invert code = .ok steps) :
    ∀ i ∈ steps, ∃ j ∈ code, ∃ f g, resolve j = .ok f ∧ invert f = .ok g ∧
      ((∃ t, i = .push (.tensor t) ∧ i ∈ code) ∨ i = .invoke g) := by
  obtain ⟨us, hus, h⟩ := Except.bind_ok h
  obtain ⟨parts, hparts, h⟩ := Except.bind_ok h
  cases h
  intro i hi
  obtain ⟨part, hpart, hi⟩ := List.mem_flatten.1 hi
  obtain ⟨u, hu, hpart⟩ := Except.exists_of_mem_mapM hparts hpart
  obtain ⟨g, hg, -, rfl⟩ := CodeUnit.inverted_eq_ok hpart
  obtain ⟨j, hj, hf⟩ := of_mem_units hus u (by simpa using hu)
  refine ⟨j, hj, u.function, g, hf, hg, ?_⟩
  rcases List.mem_append.1 hi with hi | hi
  · obtain ⟨t, ht, rfl⟩ := List.mem_map.1 hi
    refine .inl ⟨t, rfl, ?_⟩
    exact (mem_of_mem_literals hus (by simpa using hu) ht).resolve_left List.not_mem_nil
  · exact .inr (List.mem_singleton.1 hi)

end Tacit
