/-
Templates read back from the source that separators are recorded with. A placeholder in a separator is escaped,
and so is read as it was. A backslash at the end of a separator is not: with the mark of the next field after
it, it is read as the escape of that mark, and there is one field less.
-/
import Tacit.Template.Basic
import Mathlib.Tactic

namespace Tacit.Template

open Text

/-! ## Reading what was escaped -/

theorem literalsOf_escape (s : Text) : literalsOf placeholder (backslash :: (placeholder ++ s)) =
    (placeholder ++ (literalsOf placeholder s).1, (literalsOf placeholder s).2) := rfl

theorem literalsOf_mark (s : Text) : literalsOf placeholder (placeholder ++ s) =
    ([], (literalsOf placeholder s).1 :: (literalsOf placeholder s).2) := by
  have hplain : ¬(95 = backslash ∧ s.take 1 = placeholder) := fun h => absurd h.1 (by decide)
  show literalsOf placeholder (95 :: s) = _
  conv_lhs => unfold literalsOf
  rw [if_neg hplain]
  rfl

theorem literalsOf_plain {c : Nat} {s : Text} (hescape : c = backslash → s.take 1 ≠ placeholder)
    (hmark : [c] ≠ placeholder) : literalsOf placeholder (c :: s) =
      (c :: (literalsOf placeholder s).1, (literalsOf placeholder s).2) := by
  conv_lhs => unfold literalsOf
  rw [if_neg (not_and.2 hescape)]
  exact if_neg hmark

theorem escaped_plain {c : Nat} (h : [c] ≠ placeholder) (t : Text) : escaped (c :: t) = c :: escaped t := by
  rw [escaped, List.flatMap_cons, if_neg h]
  rfl

theorem escaped_concat_backslash (t : Text) : escaped (t ++ [backslash]) = escaped t ++ [backslash] :=
  List.flatMap_append

/-- What is escaped begins with no mark. -/
theorem take_escaped {t : Text} (ht : t ≠ []) (s : Text) : (escaped t ++ s).take 1 ≠ placeholder := by
  obtain ⟨c, t, rfl⟩ := List.exists_cons_of_ne_nil ht
  by_cases hc : [c] = placeholder
  · obtain rfl := List.singleton_inj.1 hc
    exact (by decide : [backslash] ≠ placeholder)
  · rw [escaped_plain hc]
    exact hc

/-- An escaped literal is read as it was, unless its last backslash comes to stand before a mark. -/
theorem literalsOf_escaped {s : Text} : ∀ {t : Text}, (t.getLast? = some backslash → s.take 1 ≠ placeholder) →
    literalsOf placeholder (escaped t ++ s) =
      (t ++ (literalsOf placeholder s).1, (literalsOf placeholder s).2)
  | [], _ => rfl
  | c :: t, h => by
    have ih := literalsOf_escaped (s := s) (t := t) fun hlast => h (by simp [List.getLast?_cons, hlast])
    by_cases hc : [c] = placeholder
    · obtain rfl := List.singleton_inj.1 hc
      show literalsOf placeholder (backslash :: (placeholder ++ (escaped t ++ s))) = _
      rw [literalsOf_escape, ih]
      rfl
    · rw [escaped_plain hc, List.cons_append, literalsOf_plain (fun hbackslash => ?_) hc, ih]
      · rfl
      · subst hbackslash
        by_cases ht : t = []
        · subst ht
          exact h rfl
        · exact take_escaped ht s

/-! ## Literals with marks between -/

/-- What a literal and those after it are read as when they stand escaped with a mark between neighbours: a
backslash at the end of one makes the mark after it literal. -/
def readAs : Text → List Text → Text × List Text
  | literal, [] => (literal, [])
  | literal, next :: more =>
    let read := readAs next more
    if literal.getLast? = some backslash then (literal.dropLast ++ placeholder ++ read.1, read.2)
    else (literal, read.1 :: read.2)

theorem literalsOf_joinWith : ∀ (more : List Text) (literal : Text),
    literalsOf placeholder (joinWith placeholder ((literal :: more).map escaped)) = readAs literal more
  | [], literal => by
    show literalsOf placeholder (escaped literal) = (literal, [])
    have h := literalsOf_escaped (s := []) (t := literal) fun _ => (by decide : [] ≠ placeholder)
    rw [List.append_nil] at h
    rw [h]
    exact congrArg (·, []) (List.append_nil literal)
  | next :: more, literal => by
    have ih := literalsOf_joinWith more next
    generalize hsource : joinWith placeholder ((next :: more).map escaped) = source at ih
    have hjoin : joinWith placeholder ((literal :: next :: more).map escaped) =
        escaped literal ++ (placeholder ++ source) := by
      rw [← List.append_assoc, ← hsource]
      rfl
    rw [hjoin, readAs, ← ih]
    by_cases hlast : literal.getLast? = some backslash
    · -- the backslash is read with the mark after it, not with the literal
      obtain ⟨front, rfl⟩ := List.getLast?_eq_some_iff.1 hlast
      have hfront := literalsOf_escaped (s := backslash :: (placeholder ++ source)) (t := front)
        fun _ => (by decide : [backslash] ≠ placeholder)
      rw [literalsOf_escape] at hfront
      rw [if_pos hlast, List.dropLast_concat, escaped_concat_backslash, List.append_assoc, List.append_assoc]
      exact hfront
    · rw [if_neg hlast, literalsOf_escaped fun h => absurd h hlast, literalsOf_mark, List.append_nil]

/-- Each literal that ends with a backslash, but for the last, costs a field. -/
theorem length_readAs : ∀ (more : List Text) (literal : Text), (readAs literal more).2.length +
    (literal :: more).dropLast.countP (·.getLast? = some backslash) = more.length
  | [], _ => rfl
  | next :: more, literal => by
    have ih := length_readAs more next
    rw [readAs, List.dropLast_cons_cons, List.countP_cons, List.length_cons]
    by_cases hlast : literal.getLast? = some backslash
    · rw [if_pos hlast, if_pos (by simpa using hlast), ← ih]
      exact (Nat.add_assoc _ _ 1).symm
    · rw [if_neg hlast, if_neg (by simpa using hlast), List.length_cons]
      omega

theorem readAs_of_forall : ∀ {more : List Text} {literal : Text},
    (∀ l ∈ (literal :: more).dropLast, l.getLast? ≠ some backslash) → readAs literal more = (literal, more)
  | [], _, _ => rfl
  | next :: more, literal, h => by
    rw [List.dropLast_cons_cons, List.forall_mem_cons] at h
    rw [readAs, readAs_of_forall h.2, if_neg h.1]

/-- The source of a template made of separators reads back as these separators just if none of them ends with a
backslash; each that does is read together with the next, around a literal placeholder. -/
theorem parse_ofSeparators (separators : List Text) :
    let read := parse (ofSeparators separators).source
    (read.lead, read.rest) = readAs [] (separators ++ [[]]) ∧
    read.fields + separators.countP (·.getLast? = some backslash) = separators.length + 1 ∧
    (read.literals = [] :: (separators ++ [[]]) ↔ ∀ separator ∈ separators, separator.getLast? ≠ some backslash) := by
  intro read
  have hread : (read.lead, read.rest) = readAs [] (separators ++ [[]]) :=
    literalsOf_joinWith (separators ++ [[]]) []
  have hlast : ([] :: (separators ++ [[]])).dropLast = [] :: separators := by
    rw [← List.cons_append, List.dropLast_concat]
  have hfields : read.fields + separators.countP (·.getLast? = some backslash) = separators.length + 1 := by
    have hlength := length_readAs (separators ++ [[]]) []
    rw [← hread, hlast, List.countP_cons_of_neg (by decide), List.length_append] at hlength
    exact hlength
  refine ⟨hread, hfields, fun h => ?_, fun h => ?_⟩
  · have hrest : read.rest = separators ++ [[]] := (List.cons.inj h).2
    have hcount : separators.countP (·.getLast? = some backslash) = 0 := by
      rw [fields, hrest, List.length_append] at hfields
      simpa using hfields
    simpa using List.countP_eq_zero.1 hcount
  · rw [readAs_of_forall (by simpa [hlast] using h)] at hread
    obtain ⟨hlead, hrest⟩ := Prod.mk.inj hread
    rw [literals, hlead, hrest]

/-- A backslash as the one separator: its source is that of a template with one field and a literal placeholder
after it. -/
theorem parse_ofSeparators_backslash :
    (ofSeparators [[backslash]]).source = ofString "_\\_" ∧
    (ofSeparators [[backslash]]).literals = [[], [backslash], []] ∧
    (parse (ofSeparators [[backslash]]).source).literals = [[], placeholder] ∧
    (parse (ofSeparators [[backslash]]).source).literals ≠ [[], [backslash], []] := by
  decide

end Tacit.Template
