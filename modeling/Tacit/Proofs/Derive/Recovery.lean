/-
Code that can be put back: words that lose nothing, words that set aside what they lose, and rotations,
each after its literals. An under of such code is derived from the halves of its units.
-/
import Tacit.Proofs.Array.Restore
import Tacit.Proofs.Derive.Built
import Tacit.Proofs.Derive.Heights

namespace Tacit

/-! ## Recoverable code -/

/-- Code of words that lose nothing or can set aside what they lose, with literals for the words of two
arguments. -/
inductive Recoverable : List Instr → Prop
  | nil : Recoverable []
  | word {name : String} {code : List Instr} :
    name ∈ ["first", "deshape", "reverse", "transpose", "untranspose", "fix", "unfix", "box",
      "identity"] → Recoverable code → Recoverable (.word name :: code)
  | cut {name : String} {code : List Instr} (t : Tensor) :
    name ∈ ["index_at", "take", "drop", "reshape"] → Recoverable code →
    Recoverable (.push (.tensor t) :: .word name :: code)
  | turn {name : String} {code : List Instr} {n : Int32} : n ≠ Int32.minValue →
    name ∈ ["rotate", "unrotate"] → Recoverable code →
    Recoverable (.push (.tensor (.int n)) :: .word name :: code)

/-- A word after its literals, with the halves that it is given under an action. -/
structure Recovery where
  literals : List Tensor
  word : Word
  pair : UnderPair

namespace Recovery

/-- The halves of words that lose nothing, of words that set something aside, and of rotations. -/
inductive Sound : Recovery → Prop
  | unary {u v : Unary} : u.UndoneBy v → Sound ⟨[], .unary u, .word (.unary u), .word (.unary v)⟩
  | keepUnary (k : UnaryKeeper) :
    Sound ⟨[], (Keeper.unary k).word, .stash (.unary k), .restore (.unary k)⟩
  | keepBinary (k : BinaryKeeper) (t : Tensor) :
    Sound ⟨[t], (Keeper.binary k).word, .stash (.binary k), .restore (.binary k)⟩
  | rotate {n : Int32} : n ≠ Int32.minValue → Sound ⟨[.int n], .binary .rotate,
      .saving (.word (.binary .rotate)), .resuming (.word (.binary .rotate)) (.word (.binary .unrotate))⟩
  | unrotate {n : Int32} : n ≠ Int32.minValue → Sound ⟨[.int n], .binary .unrotate,
      .saving (.word (.binary .unrotate)), .resuming (.word (.binary .unrotate)) (.word (.binary .rotate))⟩

/-- The instructions that a unit is written as. -/
def code (r : Recovery) : List Instr :=
  r.literals.map (fun t => .push (.tensor t)) ++ [.word r.word.name]

def before (r : Recovery) : List Instr := halfCode r.literals r.pair.before

end Recovery

namespace Recoverable

variable {name : String}

theorem exists_word (h : name ∈ ["first", "deshape", "reverse", "transpose", "untranspose", "fix", "unfix", "box",
    "identity"]) : ∃ r : Recovery, r.Sound ∧ r.code = [.word name] := by
  simp only [List.mem_cons, List.not_mem_nil, or_false] at h
  rcases h with rfl | rfl | rfl | rfl | rfl | rfl | rfl | rfl | rfl
  · exact ⟨_, .keepUnary .first, rfl⟩
  · exact ⟨_, .keepUnary .deshape, rfl⟩
  · exact ⟨_, .unary .reverse, rfl⟩
  · exact ⟨_, .unary .transpose, rfl⟩
  · exact ⟨_, .unary .untranspose, rfl⟩
  · exact ⟨_, .unary .fix, rfl⟩
  · exact ⟨_, .unary .unfix, rfl⟩
  · exact ⟨_, .unary .box, rfl⟩
  · exact ⟨_, .unary .identity, rfl⟩

theorem exists_cut (h : name ∈ ["index_at", "take", "drop", "reshape"]) (t : Tensor) :
    ∃ r : Recovery, r.Sound ∧ r.code = [.push (.tensor t), .word name] := by
  simp only [List.mem_cons, List.not_mem_nil, or_false] at h
  rcases h with rfl | rfl | rfl | rfl
  · exact ⟨_, .keepBinary .indexAt t, rfl⟩
  · exact ⟨_, .keepBinary .take t, rfl⟩
  · exact ⟨_, .keepBinary .drop t, rfl⟩
  · exact ⟨_, .keepBinary .reshape t, rfl⟩

theorem exists_turn (h : name ∈ ["rotate", "unrotate"]) {n : Int32} (hn : n ≠ Int32.minValue) :
    ∃ r : Recovery, r.Sound ∧ r.code = [.push (.tensor (.int n)), .word name] := by
  simp only [List.mem_cons, List.not_mem_nil, or_false] at h
  rcases h with rfl | rfl
  · exact ⟨_, .rotate hn, rfl⟩
  · exact ⟨_, .unrotate hn, rfl⟩

/-- Code is written out of units with sound halves. -/
def Units (code : List Instr) : Prop := ∃ rs : List Recovery, (∀ r ∈ rs, r.Sound) ∧ code = rs.flatMap Recovery.code

theorem Units.cons {unit code : List Instr} (hunit : ∃ r : Recovery, r.Sound ∧ r.code = unit) (h : Units code) :
    Units (unit ++ code) := by
  obtain ⟨r, hr, rfl⟩ := hunit
  obtain ⟨rs, hrs, rfl⟩ := h
  exact ⟨r :: rs, List.forall_mem_cons.2 ⟨hr, hrs⟩, List.flatMap_cons.symm⟩

/-- Recoverable code is units with sound halves. -/
theorem units {code : List Instr} (h : Recoverable code) : Units code := by
  induction h with
  | nil => exact ⟨[], by simp, rfl⟩
  | word hname _ ih => exact ih.cons (exists_word hname)
  | cut t hname _ ih => exact ih.cons (exists_cut hname t)
  | turn hn hname _ ih => exact ih.cons (exists_turn hname hn)

end Recoverable

/-! ## Derived halves -/

namespace Recovery

variable {r : Recovery} {rs : List Recovery}

theorem Sound.get (h : r.Sound) : Table.standard.get r.word.name = .ok (.word r.word) := by
  cases h with
  | unary h => cases h <;> rfl
  | keepUnary k => cases k <;> rfl
  | keepBinary k t => cases k <;> rfl
  | rotate | unrotate => rfl

theorem Sound.underPairIn (h : r.Sound) (n : Nat) :
    Table.standard.underPairIn (n + 2) (.word r.word) = .ok r.pair := by
  cases h with
  | unary h => cases h <;> rfl
  | keepUnary k => cases k <;> rfl
  | keepBinary k t => cases k <;> rfl
  | rotate | unrotate => rfl

/-- A word that cuts has one literal before it. -/
theorem Sound.literals_cut (h : r.Sound) (hw : r.word = .binary .take ∨ r.word = .binary .drop) :
    ∃ t, r.literals = [t] := by
  cases h with
  | unary h => rcases hw with hw | hw <;> cases hw
  | keepUnary k => cases k <;> rcases hw with hw | hw <;> cases hw
  | keepBinary k t => exact ⟨t, rfl⟩
  | @rotate n | @unrotate n => exact ⟨.int n, rfl⟩

/-- The unit with its halves. -/
def paired (r : Recovery) : CodeUnit × UnderPair := (⟨r.literals, .word r.word⟩, r.pair)

/-- The instructions that undo the units, from the last to the first. -/
def afters (rs : List Recovery) : List Instr := rs.reverse.map fun r => .invoke r.pair.after

theorem beforeCode_paired : beforeCode (rs.map paired) = rs.flatMap before := List.flatMap_map ..

theorem afterCode_paired : afterCode (rs.map paired) = afters rs := by
  unfold afterCode
  rw [← List.map_reverse, List.map_map]
  rfl

theorem pairs (h : ∀ r ∈ rs, r.Sound) : Table.standard.Pairs (rs.flatMap code) (rs.map paired) := by
  refine ⟨2, Except.bind_of_ok (a := rs.map fun r => (paired r).1) ?_ ?_⟩
  · unfold Tacit.units
    induction rs with
    | nil => rfl
    | cons r rs ih =>
      obtain ⟨hr, hrs⟩ := List.forall_mem_cons.1 h
      rw [List.flatMap_cons, code, List.append_assoc, unitsFrom_literals]
      exact Except.bind_of_ok hr.get (Except.bind_of_ok (ih hrs) rfl)
  · refine Except.mapM_of_forall₂ (List.forall₂_map_left_iff.2 (List.forall₂_map_right_iff.2 ?_))
    exact List.forall₂_same.2 fun r hr => Except.bind_of_ok ((h r hr).underPairIn 0) rfl

/-- An under of units has the first halves of the units in order and the second halves in reverse. -/
theorem derive_under (h : ∀ r ∈ rs, r.Sound) {name : String} {action : Fn}
    (hf : Table.standard.get name = .ok action) : ∃ transform s s',
      Table.standard.derive "under" [.code (rs.flatMap code), .name name] =
        .ok (.under transform action (.body "lambda (before)" s false (rs.flatMap before))
          (.body "lambda (after)" s' false (afters rs))) := by
  obtain ⟨f, hunder, hmakes⟩ := Table.makes_under (pairs h) (o := .name name) ⟨0, hf⟩
  rw [Table.flat_standard.makes_iff] at hmakes
  cases hunder with
  | intro s sb sa =>
    rw [beforeCode_paired, afterCode_paired] at hmakes
    exact ⟨_, sb, sa, hmakes⟩

end Recovery

end Tacit
