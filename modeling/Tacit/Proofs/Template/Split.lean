/-
Splitting by a template is joining read backwards. The fields it finds are the shortest: no literal
between two fields stands in the subject before the place where it was found. Taking each literal where
it first stands loses no subject: whatever follows the literal in another reading is still there to be
read.
-/
import Tacit.Template.Basic
import Tacit.Proofs.Fault.Tame
import Tacit.Proofs.Text.Search

namespace Tacit

namespace Text

/-- A field ends where the literal after it first stands. -/
def EndsAt (field literal : Text) : Prop := ∀ i < field.length, ¬OccursAt literal (field ++ literal) i

theorem endsAt_iff {field literal : Text} (after : Text) : EndsAt field literal ↔
    ∀ i < field.length, ¬OccursAt literal (field ++ literal ++ after) i := by
  have hsame : ∀ i < field.length,
      (OccursAt literal (field ++ literal ++ after) i ↔ OccursAt literal (field ++ literal) i) := by
    intro i hi
    exact occursAt_append (by rw [List.length_append]; omega)
  constructor
  · intro h i hi
    rw [hsame i hi]
    exact h i hi
  · intro h i hi
    rw [← hsame i hi]
    exact h i hi

instance (field literal : Text) : Decidable (EndsAt field literal) :=
  inferInstanceAs (Decidable (∀ i < field.length, ¬literal <+: (field ++ literal).drop i))

end Text

namespace Template

open Text

/-- The literals between two fields. -/
def interior (t : Template) : List Text := t.rest.dropLast

/-! ## The shortest fields -/

/-- The fields read the text up to the literals, and each ends where its literal first stands; the
last takes all that its literal leaves. -/
structure Shortest (literals fields : List Text) (s : Text) : Prop where
  separated : ∀ literal ∈ literals.dropLast, literal ≠ []
  length : fields.length = literals.length
  reads : weave fields literals = s
  ends : ∀ p ∈ fields.zip literals.dropLast, EndsAt p.1 p.2

theorem shortest_singleton {tail s : Text} {fields : List Text} :
    Shortest [tail] fields s ↔ ∃ field, fields = [field] ∧ s = field ++ tail := by
  constructor
  · rintro ⟨-, hlength, hreads, -⟩
    obtain ⟨field, rfl⟩ := List.length_eq_one_iff.1 hlength
    exact ⟨field, rfl, by simpa [weave] using hreads.symm⟩
  · rintro ⟨field, rfl, rfl⟩
    exact ⟨by simp, rfl, by simp [weave], by simp⟩

theorem shortest_cons {literal next s : Text} {more fields : List Text} :
    Shortest (literal :: next :: more) fields s ↔ literal ≠ [] ∧ ∃ field rest after,
      fields = field :: rest ∧ cut? literal s = some (field, after) ∧ Shortest (next :: more) rest after := by
  constructor
  · rintro ⟨hseparated, hlength, rfl, hends⟩
    obtain ⟨field, rest, rfl⟩ : ∃ field rest, fields = field :: rest := by
      cases fields with
      | nil => cases hlength
      | cons field rest => exact ⟨field, rest, rfl⟩
    rw [List.dropLast_cons_cons] at hseparated hends
    have hfield : EndsAt field literal := hends (field, literal) (by simp)
    refine ⟨hseparated literal (by simp), field, rest, weave rest (next :: more), rfl, ?_, ?_⟩
    · exact cut?_eq_some.2 ⟨rfl, (endsAt_iff _).1 hfield⟩
    · exact ⟨fun l hl => hseparated l (by simp [hl]), by simpa using hlength, rfl,
        fun p hp => hends p (by simp [hp])⟩
  · rintro ⟨hliteral, field, rest, after, rfl, hcut, hseparated, hlength, rfl, hends⟩
    obtain ⟨rfl, hfirst⟩ := cut?_eq_some.1 hcut
    refine ⟨?_, by simpa using hlength, rfl, ?_⟩ <;> rw [List.dropLast_cons_cons]
    · rintro l (_ | ⟨_, hl⟩)
      · exact hliteral
      · exact hseparated l hl
    · rintro p (_ | ⟨_, hp⟩)
      · exact (endsAt_iff _).2 hfirst
      · exact hends p hp

/-- From each literal on, splitting finds the shortest fields and nothing else. -/
theorem splitFrom_eq_ok (t : Template) : ∀ (literals : List Text), literals ≠ [] →
    ∀ (position : Nat) (s : Text) (fields : List Text),
      t.splitFrom position s literals = .ok fields ↔ Shortest literals fields s
  | [], hne, _, _, _ => absurd rfl hne
  | [tail], _, position, s, fields => by
    rw [shortest_singleton]
    unfold splitFrom
    cases htrail : dropTrail? tail s with
    | none =>
      constructor
      · rintro ⟨⟩
      · rintro ⟨field, rfl, rfl⟩
        rw [dropTrail?_eq_some.2 rfl] at htrail
        cases htrail
    | some front =>
      have hs := dropTrail?_eq_some.1 htrail
      constructor
      · rintro ⟨⟩
        exact ⟨front, rfl, hs⟩
      · rintro ⟨field, rfl, hfield⟩
        rw [List.append_cancel_right (hfield.symm.trans hs)]
        rfl
  | literal :: next :: more, _, position, s, fields => by
    rw [shortest_cons]
    unfold splitFrom
    by_cases hliteral : literal = []
    · -- a literal that stands everywhere ends no field
      subst hliteral
      constructor
      · rintro ⟨⟩
      · rintro ⟨h, -⟩
        exact absurd rfl h
    · rw [if_neg (by simpa using hliteral)]
      cases hcut : cut? literal s with
      | none =>
        constructor
        · rintro ⟨⟩
        · rintro ⟨-, _, _, _, -, hparts, -⟩
          cases hparts
      | some parts =>
        obtain ⟨field, after⟩ := parts
        have ih := t.splitFrom_eq_ok (next :: more) (by simp) (position + field.length + literal.length) after
        constructor
        · intro h
          obtain ⟨rest, hrest, hfields⟩ := Except.bind_ok h
          cases hfields
          exact ⟨hliteral, field, rest, after, rfl, rfl, (ih rest).1 hrest⟩
        · rintro ⟨-, _, rest, _, rfl, hparts, hrest⟩
          cases hparts
          exact Except.bind_of_ok ((ih rest).2 hrest) rfl

/-! ## Joining and splitting a whole subject -/

theorem join_eq_ok {t : Template} {fields : List Text} {s : Text} : t.join fields = .ok s ↔
    fields.length = t.fields ∧ t.lead ++ weave fields t.rest = s := by
  unfold join
  by_cases hlength : fields.length = t.fields
  · rw [if_neg (by simpa using hlength)]
    constructor
    · rintro ⟨⟩
      exact ⟨hlength, rfl⟩
    · rintro ⟨-, rfl⟩
      rfl
  · rw [if_pos hlength]
    constructor
    · rintro ⟨⟩
    · rintro ⟨h, -⟩
      exact absurd h hlength

theorem split_lead (t : Template) (after : Text) : t.split (t.lead ++ after) =
    if t.fields = 0 ∧ after ≠ [] then t.mismatch t.lead.length .trailingText
    else t.splitFrom t.lead.length after t.rest := by
  unfold split
  rw [dropLead?_eq_some.2 rfl]

theorem lead_of_split {t : Template} {s : Text} {fields : List Text} (h : t.split s = .ok fields) :
    ∃ after, s = t.lead ++ after := by
  unfold split at h
  cases hlead : dropLead? t.lead s with
  | none =>
    rw [hlead] at h
    cases h
  | some after => exact ⟨after, dropLead?_eq_some.1 hlead⟩

/-- A template without fields matches its literal alone. -/
theorem split_of_no_fields {t : Template} (ht : t.fields = 0) {s : Text} {fields : List Text} :
    t.split s = .ok fields ↔ s = t.lead ∧ fields = [] := by
  have hrest : t.rest = [] := List.length_eq_zero_iff.1 ht
  constructor
  · intro h
    obtain ⟨after, rfl⟩ := lead_of_split h
    rw [split_lead, hrest] at h
    by_cases hafter : after = []
    · rw [if_neg (by simp [hafter])] at h
      cases h
      exact ⟨by rw [hafter, List.append_nil], rfl⟩
    · rw [if_pos ⟨ht, hafter⟩] at h
      cases h
  · rintro ⟨rfl, rfl⟩
    have h := t.split_lead []
    rw [List.append_nil, if_neg (by simp), hrest] at h
    exact h

theorem split_of_fields {t : Template} (ht : 1 ≤ t.fields) {s : Text} {fields : List Text} :
    t.split s = .ok fields ↔ ∃ after, s = t.lead ++ after ∧ Shortest t.rest fields after := by
  have hrest : t.rest ≠ [] := List.length_pos_iff.1 ht
  have hsplit : ∀ after, t.split (t.lead ++ after) = .ok fields ↔ Shortest t.rest fields after := by
    intro after
    rw [split_lead, if_neg (by omega), t.splitFrom_eq_ok t.rest hrest]
  constructor
  · intro h
    obtain ⟨after, rfl⟩ := lead_of_split h
    exact ⟨after, rfl, (hsplit after).1 h⟩
  · rintro ⟨after, rfl, h⟩
    exact (hsplit after).2 h

theorem split_eq_ok_iff (t : Template) (s : Text) (fields : List Text) : t.split s = .ok fields ↔
    (t.fields = 0 ∧ s = t.lead ∧ fields = []) ∨
    (1 ≤ t.fields ∧ (∀ literal ∈ t.interior, literal ≠ []) ∧ fields.length = t.fields ∧
      t.join fields = .ok s ∧ ∀ p ∈ fields.zip t.interior, EndsAt p.1 p.2) := by
  rcases Nat.eq_zero_or_pos t.fields with ht | ht
  · rw [split_of_no_fields ht]
    constructor
    · rintro ⟨hs, hfields⟩
      exact .inl ⟨ht, hs, hfields⟩
    · rintro (⟨-, hs, hfields⟩ | ⟨hpos, -⟩)
      · exact ⟨hs, hfields⟩
      · omega
  · rw [split_of_fields ht]
    constructor
    · rintro ⟨after, rfl, hseparated, hlength, rfl, hends⟩
      exact .inr ⟨ht, hseparated, hlength, join_eq_ok.2 ⟨hlength, rfl⟩, hends⟩
    · rintro (⟨hzero, -⟩ | ⟨-, hseparated, hlength, hjoin, hends⟩)
      · omega
      · obtain ⟨-, rfl⟩ := join_eq_ok.1 hjoin
        exact ⟨weave fields t.rest, rfl, hseparated, hlength, rfl, hends⟩

/-- What was split joins to the subject again. -/
theorem join_of_split {t : Template} {s : Text} {fields : List Text} (h : t.split s = .ok fields) :
    t.join fields = .ok s := by
  rcases (split_eq_ok_iff t s fields).1 h with ⟨hzero, rfl, rfl⟩ | ⟨-, -, -, hjoin, -⟩
  · exact join_eq_ok.2 ⟨hzero.symm, by simp [weave]⟩
  · exact hjoin

/-- Splitting finds the fields that join to the subject and in which no literal stands early. -/
theorem split_shortest (t : Template) (s : Text) (fields : List Text) :
    (t.split s = .ok fields ↔
      (t.fields = 0 ∧ s = t.lead ∧ fields = []) ∨
      (1 ≤ t.fields ∧ (∀ literal ∈ t.interior, literal ≠ []) ∧ fields.length = t.fields ∧
        t.join fields = .ok s ∧ ∀ p ∈ fields.zip t.interior, EndsAt p.1 p.2)) ∧
    (t.split s = .ok fields → t.join fields = .ok s) ∧
    (t.join fields = .ok s → (t.split s = .ok fields ↔
      (∀ literal ∈ t.interior, literal ≠ []) ∧ ∀ p ∈ fields.zip t.interior, EndsAt p.1 p.2)) := by
  refine ⟨split_eq_ok_iff t s fields, join_of_split, fun hjoin => ?_⟩
  rw [split_eq_ok_iff]
  obtain ⟨hlength, hs⟩ := join_eq_ok.1 hjoin
  constructor
  · rintro (⟨hzero, rfl, rfl⟩ | ⟨-, hseparated, -, -, hends⟩)
    · have hrest : t.rest = [] := List.length_eq_zero_iff.1 hzero
      exact ⟨by simp [interior, hrest], by simp⟩
    · exact ⟨hseparated, hends⟩
  · rintro ⟨hseparated, hends⟩
    rcases Nat.eq_zero_or_pos t.fields with hzero | hpos
    · have hfields : fields = [] := List.length_eq_zero_iff.1 (hlength.trans hzero)
      subst hfields
      exact .inl ⟨hzero, by simpa [weave] using hs.symm, rfl⟩
    · exact .inr ⟨hpos, hseparated, hlength, hjoin, hends⟩

/-- The subject `a---b` has two readings with `--` between the fields; the field that ends early is
the one found. -/
theorem split_shortest_dashes :
    (parse (ofString "_--_")).join [ofString "a", ofString "-b"] = .ok (ofString "a---b") ∧
    (parse (ofString "_--_")).split (ofString "a---b") = .ok [ofString "a", ofString "-b"] ∧
    (parse (ofString "_--_")).join [ofString "a-", ofString "b"] = .ok (ofString "a---b") ∧
    (parse (ofString "_--_")).split (ofString "a---b") ≠ .ok [ofString "a-", ofString "b"] := by
  have hfound := (split_shortest (parse (ofString "_--_")) (ofString "a---b") [ofString "a", ofString "-b"]).2.2
    (by decide)
  have hlater := (split_shortest (parse (ofString "_--_")) (ofString "a---b") [ofString "a-", ofString "b"]).2.2
    (by decide)
  refine ⟨by decide, hfound.2 (by decide), by decide, fun h => ?_⟩
  exact absurd (hlater.1 h) (by decide)

/-! ## Every subject that a joining gives -/

/-- If fields stand anywhere after a passage of the text, it can be split from the passage's start. -/
theorem splitFrom_weave (t : Template) : ∀ (literals : List Text),
    (∀ literal ∈ literals.dropLast, literal ≠ []) → ∀ (fields : List Text),
    fields.length = literals.length → ∀ (position : Nat) (passage : Text),
      ∃ found, t.splitFrom position (passage ++ weave fields literals) literals = .ok found
  | [], _, fields, hlength, _, _ => ⟨[], rfl⟩
  | [tail], _, fields, hlength, position, passage => by
    obtain ⟨field, rfl⟩ := List.length_eq_one_iff.1 hlength
    refine ⟨[passage ++ field], (t.splitFrom_eq_ok _ (by simp) _ _ _).2 (shortest_singleton.2 ?_)⟩
    exact ⟨_, rfl, by simp [weave]⟩
  | literal :: next :: more, hseparated, [], hlength, _, _ => by cases hlength
  | literal :: next :: more, hseparated, field :: fields, hlength, position, passage => by
    rw [List.dropLast_cons_cons] at hseparated
    -- the literal is found here or earlier, with the rest of this reading still ahead
    obtain ⟨before, skipped, hcut⟩ := cut?_append literal (passage ++ field) (weave fields (next :: more))
    have htext : passage ++ weave (field :: fields) (literal :: next :: more) =
        passage ++ field ++ literal ++ weave fields (next :: more) := by simp [weave]
    obtain ⟨rest, hrest⟩ := t.splitFrom_weave (next :: more) (fun l hl => hseparated l (by simp [hl])) fields
      (by simpa using hlength) 0 skipped
    refine ⟨before :: rest, (t.splitFrom_eq_ok _ (by simp) _ _ _).2 (shortest_cons.2 ?_)⟩
    rw [htext]
    exact ⟨hseparated literal (by simp), before, rest, _, rfl, hcut,
      (t.splitFrom_eq_ok _ (by simp) _ _ _).1 hrest⟩

theorem split_of_join {t : Template} (ht : ∀ literal ∈ t.interior, literal ≠ []) {fields : List Text} {s : Text}
    (h : t.join fields = .ok s) : ∃ found, t.split s = .ok found := by
  obtain ⟨hlength, rfl⟩ := join_eq_ok.1 h
  rcases Nat.eq_zero_or_pos t.fields with hzero | hpos
  · have hrest : t.rest = [] := List.length_eq_zero_iff.1 hzero
    have hfields : fields = [] := List.length_eq_zero_iff.1 (hlength.trans hzero)
    exact ⟨[], (split_of_no_fields hzero).2 ⟨by simp [hfields, hrest, weave], rfl⟩⟩
  · obtain ⟨found, hfound⟩ := t.splitFrom_weave t.rest ht fields hlength 0 []
    have hshortest := (t.splitFrom_eq_ok _ (List.length_pos_iff.1 hpos) _ _ _).1 hfound
    exact ⟨found, (split_of_fields hpos).2 ⟨_, rfl, hshortest⟩⟩

/-! ## Subjects that do not fit -/

/-- Anything but a mismatch with the template. -/
@[simp] def foreign (t : Template) : Fault → Bool
  | .mismatch m => m.template != t.source
  | _ => true

theorem mismatch_avoids (t : Template) {α : Type} (position : Nat) (cause : MismatchCause) :
    Avoids t.foreign (t.mismatch position cause : Except Fault α) := by
  simp [mismatch]

theorem splitFrom_avoids (t : Template) : ∀ (literals : List Text) (position : Nat) (s : Text),
    Avoids t.foreign (t.splitFrom position s literals)
  | [], _, _ => Avoids.pure _
  | [tail], position, s => by
    unfold splitFrom
    split
    · exact Avoids.pure _
    · exact t.mismatch_avoids position _
  | literal :: next :: more, position, s => by
    unfold splitFrom
    refine Avoids.ite (t.mismatch_avoids position _) ?_
    split
    · exact t.mismatch_avoids position _
    · exact Avoids.bind (t.splitFrom_avoids (next :: more) _ _) fun _ => Avoids.pure _

theorem split_error {t : Template} {s : Text} {e : Fault} (h : t.split s = .error e) :
    ∃ position cause, e = .mismatch ⟨t.source, position, cause⟩ := by
  have havoids : Avoids t.foreign (t.split s) := by
    unfold split
    split
    · exact t.mismatch_avoids 0 _
    · exact Avoids.ite (t.mismatch_avoids _ _) (t.splitFrom_avoids _ _ _)
  have he := havoids e h
  cases e with
  | mismatch m =>
    have hsource : m.template = t.source := by simpa using he
    exact ⟨m.position, m.cause, by rw [← hsource]⟩
  | _ => cases he

/-- Splitting accepts exactly what joining gives, and every other subject is a mismatch. -/
theorem split_complete (t : Template) (ht : ∀ literal ∈ t.interior, literal ≠ []) (s : Text) :
    ((∃ found, t.split s = .ok found) ↔ ∃ fields, t.join fields = .ok s) ∧
    ((¬∃ fields, t.join fields = .ok s) →
      ∃ position cause, t.split s = .error (.mismatch ⟨t.source, position, cause⟩)) := by
  have hiff : (∃ found, t.split s = .ok found) ↔ ∃ fields, t.join fields = .ok s := by
    constructor
    · rintro ⟨found, h⟩
      exact ⟨found, join_of_split h⟩
    · rintro ⟨fields, h⟩
      exact split_of_join ht h
  refine ⟨hiff, fun hnone => ?_⟩
  cases hsplit : t.split s with
  | ok found => exact absurd (hiff.1 ⟨found, hsplit⟩) hnone
  | error e =>
    obtain ⟨position, cause, rfl⟩ := split_error hsplit
    exact ⟨position, cause, rfl⟩

/-- A field may hold the literal itself: the subject still splits, though not into the same fields. -/
theorem split_complete_dashes :
    (parse (ofString "_--_")).join [ofString "a--b", ofString "c"] = .ok (ofString "a--b--c") ∧
    (∃ found, (parse (ofString "_--_")).split (ofString "a--b--c") = .ok found) ∧
    ¬∃ fields, (parse (ofString "_--_")).join fields = .ok (ofString "a-b") := by
  have hfits := split_complete (parse (ofString "_--_")) (by decide) (ofString "a--b--c")
  have hmisses := split_complete (parse (ofString "_--_")) (by decide) (ofString "a-b")
  refine ⟨by decide, hfits.1.2 ⟨[ofString "a--b", ofString "c"], by decide⟩, fun h => ?_⟩
  obtain ⟨found, hfound⟩ := hmisses.1.2 h
  have herror : (parse (ofString "_--_")).split (ofString "a-b") =
      .error (.mismatch ⟨ofString "_--_", 0, .literal (ofString "--")⟩) := by decide
  rw [herror] at hfound
  cases hfound

end Template

end Tacit
