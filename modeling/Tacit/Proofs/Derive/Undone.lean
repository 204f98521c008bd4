/-
Functions that can be undone, and the inverses that are derived for them: words that lose nothing,
integers added, subtracted or rotated by, code of such functions, and such functions on rows. An inverse
has the effect of the function.
-/
import Tacit.Proofs.Array.Restore
import Tacit.Proofs.Derive.Heights

namespace Tacit

open Table (flat_standard)

/-! ## Undoable code -/

/-- The function that an instruction names, whatever is on the stack. -/
inductive Instr.Names : Instr → Fn → Prop
  | word {name : String} {f : Fn} : Table.standard.get name = .ok f → Instr.Names (.word name) f
  | invoke (f : Fn) : Instr.Names (.invoke f) f
  | compose {o p : Operand} {f g : Fn} : Table.standard.function o = .ok f →
    Table.standard.function p = .ok g → Instr.Names (.modify "compose" [o, p]) (.compose f g)
  | each {o : Operand} {f : Fn} : Table.standard.function o = .ok f → f.signature = ⟨1, 1⟩ →
    Instr.Names (.modify "each" [o]) (.each f)

/-- Words that lose nothing; `fix` counts among them only where `fixes` says so. -/
def Word.Undoable (fixes : Bool) (w : Word) : Prop :=
  w ∈ [.unary .reverse, .unary .transpose, .unary .untranspose, .unary .box, .unary .identity, .swap,
    .flip, .unary (.map .negate), .unary (.map .not)] ∨ fixes = true ∧ w = .unary .fix

/-- With the integer on top, the word loses nothing of what is below. -/
def Binary.UndoableWith (n : Int32) (b : Binary) : Prop :=
  (b = .rotate ∨ b = .unrotate) ∧ n ≠ Int32.minValue ∨ b = .apply .add ∨ b = .apply .subtract

mutual

/-- Made of words that lose nothing; on rows there is no `fix`, which would make an array of a scalar. -/
inductive Fn.Undoable : Bool → Fn → Prop
  | word {fixes : Bool} {w : Word} : w.Undoable fixes → Fn.Undoable fixes (.word w)
  | body {fixes : Bool} {name : String} {s : Signature} {code : List Instr} :
    Undoable fixes code → stackEffect Table.standard.resolve code = .ok s →
    Fn.Undoable fixes (.body name s false code)
  | compose {fixes : Bool} {f g : Fn} : Fn.Undoable fixes f → Fn.Undoable fixes g →
    Fn.Undoable fixes (.compose f g)
  | each {fixes : Bool} {f : Fn} : Fn.Undoable false f → f.signature = ⟨1, 1⟩ →
    Fn.Undoable fixes (.each f)

/-- Instructions that name such functions, and words with an integer pushed right before them. -/
inductive Undoable : Bool → List Instr → Prop
  | nil {fixes : Bool} : Undoable fixes []
  | step {fixes : Bool} {i : Instr} {f : Fn} {code : List Instr} : i.Names f → Fn.Undoable fixes f →
    Undoable fixes code → Undoable fixes (i :: code)
  | literal {fixes : Bool} {n : Int32} {i : Instr} {b : Binary} {code : List Instr} :
    i.Names (.word (.binary b)) → b.UndoableWith n → Undoable fixes code →
    Undoable fixes (.push (.tensor (.int n)) :: i :: code)

end

/-! ## Inverses -/

/-- A word and the word that undoes it. -/
inductive Word.UndoneBy : Bool → Word → Word → Prop
  | rearrange {fixes : Bool} {u v : Unary} : u.UndoneBy v → (fixes = false → u ≠ .fix) →
    Word.UndoneBy fixes (.unary u) (.unary v)
  | map {fixes : Bool} {op : Monadic} : op = .negate ∨ op = .not →
    Word.UndoneBy fixes (.unary (.map op)) (.unary (.map op))
  | swap {fixes : Bool} : Word.UndoneBy fixes .swap .swap
  | flip {fixes : Bool} : Word.UndoneBy fixes .flip .flip

/-- The words that undo each other with the same integer on top. -/
inductive Binary.UndoneBy (n : Int32) : Binary → Binary → Prop
  | rotate : n ≠ Int32.minValue → Binary.UndoneBy n .rotate .unrotate
  | unrotate : n ≠ Int32.minValue → Binary.UndoneBy n .unrotate .rotate
  | add : Binary.UndoneBy n (.apply .add) (.apply .subtract)
  | subtract : Binary.UndoneBy n (.apply .subtract) (.apply .add)

mutual

/-- A function that takes and leaves `k` values, and the inverse derived for it. -/
inductive Fn.Inverts : Bool → Nat → Fn → Fn → Prop
  | word {fixes : Bool} {w v : Word} : w.UndoneBy fixes v →
    Fn.Inverts fixes w.signature.args (.word w) (.word v)
  | code {fixes : Bool} {k : Nat} {f : Fn} {code steps : List Instr} : f.code? = some code →
    f.derivation = none → f.signature = ⟨k, k⟩ → Inverts fixes k code steps →
    Fn.Inverts fixes k f (.body s!"invert({f.name})" ⟨k, k⟩ false steps)
  | each {fixes : Bool} {f g : Fn} : Fn.Inverts false 1 f g → Fn.Inverts fixes 1 (.each f) (.each g)

/-- Code and the instructions that undo it, from its last unit to its first. -/
inductive Inverts : Bool → Nat → List Instr → List Instr → Prop
  | nil {fixes : Bool} : Inverts fixes 0 [] []
  | step {fixes : Bool} {k l : Nat} {i : Instr} {f g : Fn} {code steps : List Instr} : i.Names f →
    Fn.Inverts fixes k f g → Inverts fixes l code steps →
    Inverts fixes (max k l) (i :: code) (steps ++ [.invoke g])
  | literal {fixes : Bool} {l : Nat} {n : Int32} {i : Instr} {b c : Binary} {code steps : List Instr} :
    i.Names (.word (.binary b)) → b.UndoneBy n c → Inverts fixes l code steps →
    Inverts fixes (max 1 l) (.push (.tensor (.int n)) :: i :: code)
      (steps ++ [.push (.tensor (.int n)), .invoke (.word (.binary c))])

end

/-! ## What instructions name -/

namespace Instr.Names

variable {i : Instr} {f : Fn}

theorem isDynamic (h : i.Names f) : i.isDynamic = false := by
  cases h <;> rfl

theorem resolve (h : i.Names f) : Table.standard.resolve i = .ok f := by
  cases h with
  | word hf => exact (flat_standard.resolve_eq _).trans hf
  | invoke => exact flat_standard.resolve_invoke f
  | compose hf hg =>
    rw [flat_standard.resolve_modify]
    exact Table.derive_ok (m := .compose) rfl rfl (.cons hf (.cons hg .nil)) rfl
  | each hf hs =>
    rw [flat_standard.resolve_modify]
    exact Table.derive_ok (m := .each) rfl rfl (.cons hf .nil) (Fn.eachOf_ok hs)

theorem effect (h : i.Names f) : i.effect Table.standard.resolve = .ok f.signature := by
  have hf := h.resolve
  cases h <;> exact Except.bind_of_ok hf rfl

theorem unitsFrom (h : i.Names f) {code : List Instr} {us : List CodeUnit}
    (hus : Tacit.unitsFrom Table.standard.resolve [] code = .ok us) (pending : List Tensor) :
    Tacit.unitsFrom Table.standard.resolve pending (i :: code) = .ok (⟨pending, f⟩ :: us) := by
  have hf := h.resolve
  cases h <;> exact Except.bind_of_ok hf (Except.bind_of_ok hus rfl)

end Instr.Names

/-! ## Effects of inverses -/

theorem Signature.square_andThen (k l : Nat) :
    (⟨k, k⟩ : Signature).andThen ⟨l, l⟩ = ⟨max k l, max k l⟩ := by
  simp only [Signature.andThen, Signature.mk.injEq]
  omega

theorem Fn.Inverts.signature {fixes : Bool} {k : Nat} {f g : Fn} (h : Fn.Inverts fixes k f g) :
    f.signature = ⟨k, k⟩ ∧ g.signature = ⟨k, k⟩ := by
  cases h with
  | word h => cases h <;> exact ⟨rfl, rfl⟩
  | code _ _ hs _ => exact ⟨hs, rfl⟩
  | each _ => exact ⟨rfl, rfl⟩

theorem Fn.Inverts.parametric {fixes : Bool} {k : Nat} {f g : Fn} (h : Fn.Inverts fixes k f g) :
    f.parametric = 0 := by
  cases h with
  | word h => cases h <;> rfl
  | code hcode _ _ _ => cases f <;> first | rfl | cases hcode
  | each _ => rfl

namespace Inverts

variable {fixes : Bool}

theorem effect : ∀ {k : Nat} {code steps : List Instr}, Inverts fixes k code steps →
    stackEffect Table.standard.resolve code = .ok ⟨k, k⟩
  | _, _, _, .nil => rfl
  | _, _, _, @Inverts.step _ k l i f g code steps hi hf hcode => by
    have hone : stackEffect Table.standard.resolve [i] = .ok ⟨k, k⟩ := by
      refine Except.bind_of_ok hi.effect ?_
      rw [Signature.empty_andThen, hf.signature.1]
      rfl
    rw [← Signature.square_andThen]
    exact stackEffect_append hone hcode.effect
  | _, _, _, @Inverts.literal _ l n i b c code steps hi _ hcode => by
    have hone : stackEffect Table.standard.resolve [.push (.tensor (.int n)), i] = .ok ⟨1, 1⟩ := by
      refine Except.bind_of_ok rfl ?_
      exact Except.bind_of_ok hi.effect rfl
    rw [← Signature.square_andThen]
    exact stackEffect_append hone hcode.effect

/-- Code that keeps its arguments stays so, and static, with more such code after it. -/
theorem effect_append {k l : Nat} {steps more : List Instr}
    (hsteps : stackEffect Table.standard.resolve steps = .ok ⟨l, l⟩ ∧ ∀ i ∈ steps, i.isDynamic = false)
    (hmore : stackEffect Table.standard.resolve more = .ok ⟨k, k⟩) (hstatic : ∀ i ∈ more, i.isDynamic = false) :
    stackEffect Table.standard.resolve (steps ++ more) = .ok ⟨max k l, max k l⟩ ∧
      ∀ i ∈ steps ++ more, i.isDynamic = false := by
  refine ⟨?_, fun i hi => (List.mem_append.1 hi).elim (hsteps.2 i) (hstatic i)⟩
  rw [Nat.max_comm, ← Signature.square_andThen]
  exact stackEffect_append hsteps.1 hmore

/-- The inverse has the effect of the code. -/
theorem effect_steps : ∀ {k : Nat} {code steps : List Instr}, Inverts fixes k code steps →
    stackEffect Table.standard.resolve steps = .ok ⟨k, k⟩ ∧ ∀ i ∈ steps, i.isDynamic = false
  | _, _, _, .nil => ⟨rfl, by simp⟩
  | _, _, _, @Inverts.step _ k l i f g code steps _ hf hcode => by
    have hone : stackEffect Table.standard.resolve [.invoke g] = .ok ⟨k, k⟩ := by
      refine Except.bind_of_ok (Instr.Names.invoke g).effect ?_
      rw [Signature.empty_andThen, hf.signature.2]
      rfl
    exact effect_append hcode.effect_steps hone (by simp [Instr.isDynamic])
  | _, _, _, @Inverts.literal _ l n i b c code steps _ _ hcode => by
    have hone : stackEffect Table.standard.resolve [.push (.tensor (.int n)), .invoke (.word (.binary c))] =
        .ok ⟨1, 1⟩ := by
      refine Except.bind_of_ok rfl ?_
      exact Except.bind_of_ok (Instr.Names.invoke (.word (.binary c))).effect rfl
    exact effect_append hcode.effect_steps hone (by simp [Instr.isDynamic])

end Inverts

/-! ## Derived inverses -/

/-- A unit before code is undone after it. -/
theorem invertCode_cons (ts : List Tensor) {i : Instr} {f g : Fn} {code steps : List Instr} (hi : i.Names f)
    (hg : Table.standard.invert f = .ok g) (hlength : ts.length = f.parametric)
    (h : invertCode Table.standard.resolve Table.standard.invert code = .ok steps) :
    invertCode Table.standard.resolve Table.standard.invert (ts.map (fun t => .push (.tensor t)) ++ i :: code) =
      .ok (steps ++ (ts.map (fun t => .push (.tensor t)) ++ [.invoke g])) := by
  obtain ⟨us, hus, h⟩ := Except.bind_ok h
  obtain ⟨parts, hparts, h⟩ := Except.bind_ok h
  cases h
  have hunits : units Table.standard.resolve (ts.map (fun t => .push (.tensor t)) ++ i :: code) =
      .ok (⟨ts, f⟩ :: us) := by
    unfold units
    rw [unitsFrom_literals, List.nil_append]
    exact hi.unitsFrom hus ts
  have hunit : CodeUnit.inverted Table.standard.invert ⟨ts, f⟩ = .ok (CodeUnit.code ⟨ts, f⟩ g) :=
    CodeUnit.inverted_ok hg hlength
  have hall : (⟨ts, f⟩ :: us : List CodeUnit).reverse.mapM (CodeUnit.inverted Table.standard.invert) =
      .ok (parts ++ [CodeUnit.code ⟨ts, f⟩ g]) := by
    rw [List.reverse_cons, List.mapM_append, List.mapM_cons, List.mapM_nil]
    exact Except.bind_of_ok hparts (Except.bind_of_ok (Except.bind_of_ok hunit rfl) rfl)
  refine Except.bind_of_ok hunits (Except.bind_of_ok hall ?_)
  rw [List.flatten_append, List.flatten_singleton]
  rfl

theorem Word.UndoneBy.derived {fixes : Bool} {w v : Word} (h : w.UndoneBy fixes v) :
    Table.standard.invert (.word w) = .ok (.word v) := by
  cases h with
  | rearrange h _ => cases h <;> exact flat_standard.invert_declared rfl rfl
  | map h => rcases h with rfl | rfl <;> exact flat_standard.invert_declared rfl rfl
  | swap => exact flat_standard.invert_declared rfl rfl
  | flip => exact flat_standard.invert_declared rfl rfl

theorem Binary.UndoneBy.derived {n : Int32} {b c : Binary} (h : b.UndoneBy n c) :
    Table.standard.invert (.word (.binary b)) = .ok (.word (.binary c)) := by
  cases h <;> exact flat_standard.invert_declared rfl rfl

theorem Binary.UndoneBy.parametric {n : Int32} {b c : Binary} (h : b.UndoneBy n c) :
    (Fn.word (.binary b)).parametric = 1 := by
  cases h <;> rfl

mutual

theorem Fn.Inverts.derived {fixes : Bool} {k : Nat} {f g : Fn} : Fn.Inverts fixes k f g →
    Table.standard.invert f = .ok g
  | .word h => h.derived
  | .code hcode hderivation _ h => by
    obtain ⟨heffect, hstatic⟩ := h.effect_steps
    rw [flat_standard.invert_code hcode hderivation, h.derived, Except.ok_bind]
    exact Fn.ofCode_of_static hstatic heffect
  | .each h => by
    rw [flat_standard.invert_each, h.derived]
    exact Fn.eachOf_ok h.signature.2

theorem Inverts.derived {fixes : Bool} {k : Nat} {code steps : List Instr} : Inverts fixes k code steps →
    invertCode Table.standard.resolve Table.standard.invert code = .ok steps
  | .nil => rfl
  | .step hi hf hcode => invertCode_cons [] hi hf.derived hf.parametric.symm hcode.derived
  | @Inverts.literal _ l n _ _ _ _ _ hi hb hcode =>
    invertCode_cons [.int n] hi hb.derived hb.parametric.symm hcode.derived

end

theorem Inverts.static {fixes : Bool} {k : Nat} {code steps : List Instr} :
    Inverts fixes k code steps → ∀ i ∈ code, i.isDynamic = false
  | .nil, _, h => by cases h
  | .step hi _ hcode, j, h => by
    rcases List.mem_cons.1 h with rfl | h
    · exact hi.isDynamic
    · exact hcode.static j h
  | .literal hi _ hcode, j, h => by
    rcases List.mem_cons.1 h with rfl | h
    · rfl
    · rcases List.mem_cons.1 h with rfl | h
      · exact hi.isDynamic
      · exact hcode.static j h

/-- The code as an operand of the modifier. -/
theorem Inverts.derive {fixes : Bool} {k : Nat} {code steps : List Instr} (h : Inverts fixes k code steps) :
    ∃ name, Table.standard.derive "invert" [.code code] = .ok (.body name ⟨k, k⟩ false steps) := by
  have hlambda : Table.standard.lambda code = .ok (.body "lambda" ⟨k, k⟩ false code) :=
    Fn.ofCode_of_static h.static h.effect
  have hinvert := (Fn.Inverts.code (f := .body "lambda" ⟨k, k⟩ false code) rfl rfl rfl h).derived
  exact ⟨_, Table.derive_ok (m := .invert) rfl rfl (.cons hlambda .nil) hinvert⟩

/-! ## Inverses of undoable code -/

theorem Word.Undoable.undoneBy {fixes : Bool} {w : Word} (h : w.Undoable fixes) :
    ∃ v, w.UndoneBy fixes v := by
  rcases h with h | ⟨rfl, rfl⟩
  · simp only [List.mem_cons, List.not_mem_nil, or_false] at h
    rcases h with rfl | rfl | rfl | rfl | rfl | rfl | rfl | rfl | rfl
    · exact ⟨_, .rearrange .reverse (by simp)⟩
    · exact ⟨_, .rearrange .transpose (by simp)⟩
    · exact ⟨_, .rearrange .untranspose (by simp)⟩
    · exact ⟨_, .rearrange .box (by simp)⟩
    · exact ⟨_, .rearrange .identity (by simp)⟩
    · exact ⟨_, .swap⟩
    · exact ⟨_, .flip⟩
    · exact ⟨_, .map (.inl rfl)⟩
    · exact ⟨_, .map (.inr rfl)⟩
  · exact ⟨_, .rearrange .fix (by simp)⟩

theorem Binary.UndoableWith.undoneBy {n : Int32} {b : Binary} (h : b.UndoableWith n) :
    ∃ c, b.UndoneBy n c := by
  rcases h with ⟨rfl | rfl, hn⟩ | rfl | rfl
  · exact ⟨_, .rotate hn⟩
  · exact ⟨_, .unrotate hn⟩
  · exact ⟨_, .add⟩
  · exact ⟨_, .subtract⟩

mutual

theorem Fn.Undoable.inverts {fixes : Bool} {f : Fn} : Fn.Undoable fixes f →
    ∃ k g, Fn.Inverts fixes k f g
  | .word h => by
    obtain ⟨v, hv⟩ := h.undoneBy
    exact ⟨_, _, .word hv⟩
  | .body h hs => by
    obtain ⟨k, steps, hsteps⟩ := h.inverts
    cases hs.symm.trans hsteps.effect
    exact ⟨k, _, .code rfl rfl rfl hsteps⟩
  | @Fn.Undoable.compose _ f g hf hg => by
    obtain ⟨k, f', hf'⟩ := hf.inverts
    obtain ⟨l, g', hg'⟩ := hg.inverts
    have hsignature : (Fn.compose f g).signature = ⟨max k (max l 0), max k (max l 0)⟩ := by
      unfold Fn.signature
      rw [hf'.signature.1, hg'.signature.1, Signature.square_andThen, Nat.max_zero]
    exact ⟨_, _, .code rfl rfl hsignature (.step (.invoke f) hf' (.step (.invoke g) hg' .nil))⟩
  | @Fn.Undoable.each _ f hf hs => by
    obtain ⟨k, g, hg⟩ := hf.inverts
    cases hs.symm.trans hg.signature.1
    exact ⟨1, _, .each hg⟩

theorem Undoable.inverts {fixes : Bool} {code : List Instr} : Undoable fixes code →
    ∃ k steps, Inverts fixes k code steps
  | .nil => ⟨0, [], .nil⟩
  | .step hi hf hcode => by
    obtain ⟨k, g, hg⟩ := hf.inverts
    obtain ⟨l, steps, hsteps⟩ := hcode.inverts
    exact ⟨_, _, .step hi hg hsteps⟩
  | .literal hi hb hcode => by
    obtain ⟨c, hc⟩ := hb.undoneBy
    obtain ⟨l, steps, hsteps⟩ := hcode.inverts
    exact ⟨_, _, .literal hi hc hsteps⟩

end

end Tacit
