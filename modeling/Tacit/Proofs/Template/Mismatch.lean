/-
What a mismatch blames. A subject that does not split is refused at the first literal that is not where it has
to be: the leading one at the start, one between two fields anywhere from the place reached on, the last at the
end. The position reported is the one that the literals before it lead to, each taken at its leftmost place.
-/
import Tacit.Proofs.Template.Split

namespace Tacit

namespace Text

/-! ## Leftmost places -/

/-- The leftmost place of the pattern from position `p` on. -/
structure FirstFrom (pat s : Text) (p i : Nat) : Prop where
  le : p ≤ i
  occurs : OccursAt pat s i
  first : ∀ j, p ≤ j → j < i → ¬OccursAt pat s j

theorem occursAt_drop {pat s : Text} {p i : Nat} : OccursAt pat (s.drop p) i ↔ OccursAt pat s (p + i) := by
  rw [OccursAt, List.drop_drop, OccursAt]

theorem FirstFrom.unique {pat s : Text} {p i j : Nat} (hi : FirstFrom pat s p i) (hj : FirstFrom pat s p j) :
    i = j := by
  rcases Nat.lt_trichotomy i j with hlt | heq | hlt
  · exact absurd hi.occurs (hj.first i hi.le hlt)
  · exact heq
  · exact absurd hj.occurs (hi.first j hj.le hlt)

/-- A cut of what is left is made at the leftmost place. -/
theorem firstFrom_of_cut? {pat s before after : Text} {p : Nat} (h : cut? pat (s.drop p) = some (before, after)) :
    FirstFrom pat s p (p + before.length) ∧ after = s.drop (p + before.length + pat.length) := by
  obtain ⟨hs, hfirst⟩ := cut?_eq_some.1 h
  refine ⟨⟨Nat.le_add_right p _, ?_, fun j hj hlt => ?_⟩, ?_⟩
  · rw [← occursAt_drop, OccursAt, hs, List.append_assoc, List.drop_left]
    exact List.prefix_append pat after
  · obtain ⟨i, rfl⟩ := Nat.exists_eq_add_of_le hj
    rw [← occursAt_drop]
    exact hfirst i (by omega)
  · rw [Nat.add_assoc, ← List.drop_drop, hs, ← List.length_append, List.drop_left]

end Text

namespace Template

open Text

/-- From position `p` of the subject the literals, each at its leftmost place after the one before, lead to
position `q`. -/
inductive Leads (s : Text) : Nat → List Text → Nat → Prop
  | nil (p : Nat) : Leads s p [] p
  | cons {p i q : Nat} {literal : Text} {more : List Text} : FirstFrom literal s p i →
    Leads s (i + literal.length) more q → Leads s p (literal :: more) q

variable {t : Template} {s : Text} {p q : Nat}

theorem leads_nil : Leads s p [] q ↔ q = p := by
  constructor
  · rintro (_ | _)
    rfl
  · rintro rfl
    exact .nil q

theorem not_leads_of_cut? {literal : Text} {more : List Text} (h : cut? literal (s.drop p) = none) :
    ¬Leads s p (literal :: more) q := by
  rintro (_ | ⟨hi, -⟩)
  obtain ⟨k, rfl⟩ := Nat.exists_eq_add_of_le hi.le
  exact not_occursAt_of_cut? h k (occursAt_drop.2 hi.occurs)

/-! ## The literal that is missing -/

/-- Among the literals of a passage from position `p` on, those before `literal` lead to position `q`, and
there it is missing: at the end of the subject if it is the last, anywhere from there on if it is not. -/
def MissingFrom (s : Text) (p : Nat) (literals : List Text) (q : Nat) (literal : Text) : Prop :=
  ∃ earlier later, literals = earlier ++ literal :: later ∧ (∀ l ∈ earlier, l ≠ []) ∧ Leads s p earlier q ∧
    if later = [] then ¬literal <:+ s.drop q else ¬literal <:+: s.drop q

theorem not_missingFrom_nil {literal : Text} : ¬MissingFrom s p [] q literal := by
  rintro ⟨earlier, later, h, -⟩
  exact List.append_ne_nil_of_right_ne_nil earlier (List.cons_ne_nil literal later) h.symm

theorem missingFrom_singleton {tail literal : Text} :
    MissingFrom s p [tail] q literal ↔ literal = tail ∧ q = p ∧ ¬tail <:+ s.drop p := by
  constructor
  · rintro ⟨earlier, later, hsplit, -, hleads, hmissing⟩
    obtain ⟨rfl, hone⟩ := List.append_eq_singleton_iff.1 hsplit.symm |>.resolve_right (by simp)
    obtain ⟨rfl, rfl⟩ := List.cons.inj hone
    obtain rfl := leads_nil.1 hleads
    exact ⟨rfl, rfl, hmissing⟩
  · rintro ⟨rfl, rfl, h⟩
    exact ⟨[], [], rfl, by simp, .nil q, h⟩

theorem missingFrom_cons {first next literal : Text} {more : List Text} :
    MissingFrom s p (first :: next :: more) q literal ↔
      (literal = first ∧ q = p ∧ ¬first <:+: s.drop p) ∨
      (first ≠ [] ∧ ∃ i, FirstFrom first s p i ∧ MissingFrom s (i + first.length) (next :: more) q literal) := by
  constructor
  · rintro ⟨earlier, later, hsplit, hseparated, hleads, hmissing⟩
    cases earlier with
    | nil =>
      obtain ⟨rfl, rfl⟩ := List.cons.inj hsplit
      obtain rfl := leads_nil.1 hleads
      exact .inl ⟨rfl, rfl, by simpa using hmissing⟩
    | cons l earlier =>
      obtain ⟨rfl, hrest⟩ := List.cons.inj hsplit
      obtain ⟨hl, hseparated⟩ := List.forall_mem_cons.1 hseparated
      cases hleads with
      | cons hi hleads => exact .inr ⟨hl, _, hi, earlier, later, hrest, hseparated, hleads, hmissing⟩
  · rintro (⟨rfl, rfl, h⟩ | ⟨hfirst, i, hi, earlier, later, hsplit, hseparated, hleads, hmissing⟩)
    · exact ⟨[], next :: more, rfl, by simp, .nil q, by simpa using h⟩
    · exact ⟨first :: earlier, later, by rw [hsplit, List.cons_append], List.forall_mem_cons.2 ⟨hfirst, hseparated⟩,
        .cons hi hleads, hmissing⟩

theorem mismatch_eq_literal {α : Type} {source literal : Text} {cause : MismatchCause} :
    t.mismatch p cause = (.error (.mismatch ⟨source, q, .literal literal⟩) : Except Fault α) ↔
      source = t.source ∧ q = p ∧ cause = .literal literal := by
  unfold mismatch
  constructor
  · rintro ⟨⟩
    exact ⟨rfl, rfl, rfl⟩
  · rintro ⟨rfl, rfl, rfl⟩
    rfl

/-- The last literal is blamed if what is left does not end with it. -/
theorem splitFrom_last {tail : Text} (source literal : Text) :
    t.splitFrom p (s.drop p) [tail] = .error (.mismatch ⟨source, q, .literal literal⟩) ↔
      source = t.source ∧ MissingFrom s p [tail] q literal := by
  rw [missingFrom_singleton]
  unfold splitFrom
  cases htrail : dropTrail? tail (s.drop p) with
  | some front =>
    constructor
    · rintro ⟨⟩
    · rintro ⟨-, -, -, h⟩
      exact absurd ⟨front, (dropTrail?_eq_some.1 htrail).symm⟩ h
  | none =>
    have hmissing := dropTrail?_eq_none.1 htrail
    dsimp only
    rw [mismatch_eq_literal]
    constructor
    · rintro ⟨rfl, rfl, ⟨⟩⟩
      exact ⟨rfl, rfl, rfl, hmissing⟩
    · rintro ⟨rfl, rfl, rfl, -⟩
      exact ⟨rfl, rfl, rfl⟩

/-- From each literal on, splitting blames the one that is missing. -/
theorem splitFrom_eq_literal (source literal : Text) : ∀ (literals : List Text) (p : Nat),
    t.splitFrom p (s.drop p) literals = .error (.mismatch ⟨source, q, .literal literal⟩) ↔
      source = t.source ∧ MissingFrom s p literals q literal
  | [], p => by
    constructor
    · rintro ⟨⟩
    · rintro ⟨-, h⟩
      exact absurd h not_missingFrom_nil
  | [tail], p => splitFrom_last source literal
  | first :: next :: more, p => by
    rw [missingFrom_cons]
    unfold splitFrom
    by_cases hfirst : first = []
    · -- an empty literal is found anywhere, and is no literal that is blamed
      subst hfirst
      rw [if_pos List.isEmpty_nil, mismatch_eq_literal]
      constructor
      · rintro ⟨-, -, ⟨⟩⟩
      · rintro ⟨-, ⟨-, -, h⟩ | ⟨h, -⟩⟩
        · exact absurd (List.nil_infix ..) h
        · exact absurd rfl h
    · rw [if_neg (by simpa using hfirst)]
      cases hcut : cut? first (s.drop p) with
      | none =>
        dsimp only
        rw [mismatch_eq_literal]
        constructor
        · rintro ⟨rfl, rfl, ⟨⟩⟩
          exact ⟨rfl, .inl ⟨rfl, rfl, cut?_eq_none.1 hcut⟩⟩
        · rintro ⟨rfl, ⟨rfl, rfl, -⟩ | ⟨-, i, hi, -⟩⟩
          · exact ⟨rfl, rfl, rfl⟩
          · exact absurd (Leads.cons hi (.nil _)) (not_leads_of_cut? hcut)
      | some parts =>
        obtain ⟨field, after⟩ := parts
        obtain ⟨hplace, rfl⟩ := firstFrom_of_cut? hcut
        have ih := splitFrom_eq_literal source literal (next :: more) (p + field.length + first.length)
        have hfound : first <:+: s.drop p := ⟨field, _, (cut?_eq_some.1 hcut).1.symm⟩
        constructor
        · intro h
          obtain ⟨hsource, hmissing⟩ := ih.1 (Except.bind_pure_eq_error_iff.1 h)
          exact ⟨hsource, .inr ⟨hfirst, _, hplace, hmissing⟩⟩
        · rintro ⟨hsource, ⟨-, -, h⟩ | ⟨-, i, hi, hmissing⟩⟩
          · exact absurd hfound h
          · obtain rfl := hi.unique hplace
            exact Except.bind_pure_eq_error_iff.2 (ih.2 ⟨hsource, hmissing⟩)

/-! ## A whole subject -/

/-- What a template blames on a subject, at which position: the leading literal where the subject does not begin
with it; a literal between two fields that stands nowhere from the place on that the literals before it lead to;
the last literal if the subject does not end with it after the place that all others lead to. -/
inductive Blames (t : Template) (s : Text) : Nat → Text → Prop
  | lead : ¬t.lead <+: s → Blames t s 0 t.lead
  | between {earlier later : List Text} {p : Nat} {literal : Text} : t.lead <+: s →
    t.interior = earlier ++ literal :: later → (∀ l ∈ earlier, l ≠ []) → Leads s t.lead.length earlier p →
    ¬literal <:+: s.drop p → Blames t s p literal
  | tail {p : Nat} {literal : Text} : t.lead <+: s → t.rest = t.interior ++ [literal] →
    (∀ l ∈ t.interior, l ≠ []) → Leads s t.lead.length t.interior p → ¬literal <:+ s.drop p → Blames t s p literal

theorem blames_iff {literal : Text} : Blames t s p literal ↔
    (p = 0 ∧ literal = t.lead ∧ ¬t.lead <+: s) ∨
    (t.lead <+: s ∧ MissingFrom s t.lead.length t.rest p literal) := by
  constructor
  · rintro (h | @⟨earlier, later, _, _, hlead, hinterior, hseparated, hleads, hmissing⟩ |
      ⟨hlead, hrest, hseparated, hleads, hmissing⟩)
    · exact .inl ⟨rfl, rfl, h⟩
    · have hne : t.rest ≠ [] := by
        intro h
        rw [interior, h] at hinterior
        exact List.append_ne_nil_of_right_ne_nil _ (List.cons_ne_nil _ _) hinterior.symm
      -- a literal between two fields has the last one after it
      refine .inr ⟨hlead, earlier, later ++ [t.rest.getLast hne], ?_, hseparated, hleads, ?_⟩
      · calc t.rest = t.interior ++ [t.rest.getLast hne] := (List.dropLast_append_getLast hne).symm
          _ = earlier ++ literal :: (later ++ [t.rest.getLast hne]) := by
            rw [hinterior, List.append_assoc, List.cons_append]
      · rwa [if_neg (List.append_ne_nil_of_right_ne_nil later (List.cons_ne_nil _ []))]
    · exact .inr ⟨hlead, t.interior, [], hrest, hseparated, hleads, hmissing⟩
  · rintro (⟨rfl, rfl, h⟩ | ⟨hlead, earlier, later, hrest, hseparated, hleads, hmissing⟩)
    · exact .lead h
    · have hinterior : t.interior = (earlier ++ literal :: later).dropLast := congrArg List.dropLast hrest
      by_cases hlater : later = []
      · subst hlater
        rw [List.dropLast_concat] at hinterior
        rw [← hinterior] at hrest hseparated hleads
        exact .tail hlead hrest hseparated hleads hmissing
      · rw [List.dropLast_append_of_ne_nil (List.cons_ne_nil literal later),
          List.dropLast_cons_of_ne_nil hlater] at hinterior
        rw [if_neg hlater] at hmissing
        exact .between hlead hinterior hseparated hleads hmissing

/-- A subject that does not begin with the leading literal is refused for it at the start. -/
theorem split_without_lead {source literal : Text} (hlead : ¬t.lead <+: s) :
    t.split s = .error (.mismatch ⟨source, p, .literal literal⟩) ↔ source = t.source ∧ p = 0 ∧ literal = t.lead := by
  unfold split
  rw [dropLead?_eq_none.2 hlead]
  dsimp only
  rw [mismatch_eq_literal]
  constructor
  · rintro ⟨rfl, rfl, ⟨⟩⟩
    exact ⟨rfl, rfl, rfl⟩
  · rintro ⟨rfl, rfl, rfl⟩
    exact ⟨rfl, rfl, rfl⟩

/-- Splitting fails with a mismatch at a literal just if the template blames it there. -/
theorem split_blames (t : Template) (s source : Text) (position : Nat) (literal : Text) :
    t.split s = .error (.mismatch ⟨source, position, .literal literal⟩) ↔
      source = t.source ∧ Blames t s position literal := by
  rw [blames_iff]
  cases hlead : dropLead? t.lead s with
  | none =>
    have hnot := dropLead?_eq_none.1 hlead
    rw [split_without_lead hnot]
    constructor
    · rintro ⟨rfl, rfl, rfl⟩
      exact ⟨rfl, .inl ⟨rfl, rfl, hnot⟩⟩
    · rintro ⟨rfl, ⟨rfl, rfl, -⟩ | ⟨h, -⟩⟩
      · exact ⟨rfl, rfl, rfl⟩
      · exact absurd h hnot
  | some after =>
    obtain rfl := dropLead?_eq_some.1 hlead
    have hfound : t.lead <+: t.lead ++ after := List.prefix_append t.lead after
    have hfrom := splitFrom_eq_literal (t := t) (s := t.lead ++ after) (q := position) source literal t.rest
      t.lead.length
    rw [List.drop_left] at hfrom
    rw [split_lead]
    by_cases htrailing : t.fields = 0 ∧ after ≠ []
    · -- a template without fields has no literal left to look for
      have hrest : t.rest = [] := List.length_eq_zero_iff.1 htrailing.1
      rw [if_pos htrailing, mismatch_eq_literal]
      constructor
      · rintro ⟨-, -, ⟨⟩⟩
      · rintro ⟨-, ⟨-, -, h⟩ | ⟨-, h⟩⟩
        · exact absurd hfound h
        · rw [hrest] at h
          exact absurd h not_missingFrom_nil
    · rw [if_neg htrailing, hfrom]
      constructor
      · rintro ⟨hsource, h⟩
        exact ⟨hsource, .inr ⟨hfound, h⟩⟩
      · rintro ⟨hsource, ⟨-, -, h⟩ | ⟨-, h⟩⟩
        · exact absurd hfound h
        · exact ⟨hsource, h⟩

/-- The first dash leads to position two, where the second is missing. -/
example : (parse (ofString "_-_-_")).split (ofString "a-b") =
    .error (.mismatch ⟨ofString "_-_-_", 2, .literal (ofString "-")⟩) := by rfl

end Template

end Tacit
