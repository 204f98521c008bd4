/-
Searching in texts. Cutting at a pattern finds its first occurrence, and finds one wherever there is one;
counting goes from each occurrence to the first after it.
-/
import Tacit.Text.Basic
import Mathlib.Tactic

namespace Tacit.Text

/-- The text reads `pat` from position `i` on. -/
def OccursAt (pat s : Text) (i : Nat) : Prop := pat <+: s.drop i

/-! ## Leading and trailing texts -/

theorem dropLead?_eq_some {pat s rest : Text} : dropLead? pat s = some rest ↔ s = pat ++ rest := by
  induction pat generalizing s with
  | nil => simp [dropLead?]
  | cons p pat ih =>
    cases s with
    | nil => simp [dropLead?]
    | cons c s =>
      unfold dropLead?
      by_cases h : p = c
      · subst h
        rw [if_pos rfl, ih]
        simp
      · rw [if_neg h]
        constructor
        · rintro ⟨⟩
        · intro hs
          injection hs with hc
          exact absurd hc.symm h

theorem dropTrail?_eq_some {pat s front : Text} : dropTrail? pat s = some front ↔ s = front ++ pat := by
  unfold dropTrail?
  constructor
  · intro h
    obtain ⟨rest, hrest, rfl⟩ := Option.map_eq_some_iff.1 h
    have hs := congrArg List.reverse (dropLead?_eq_some.1 hrest)
    simpa using hs
  · rintro rfl
    have hlead : dropLead? pat.reverse (front ++ pat).reverse = some front.reverse :=
      dropLead?_eq_some.2 (by simp)
    rw [hlead, Option.map_some, List.reverse_reverse]

theorem dropLead?_eq_none {pat s : Text} : dropLead? pat s = none ↔ ¬pat <+: s := by
  rw [Option.eq_none_iff_forall_ne_some]
  exact ⟨fun h ⟨rest, hs⟩ => h rest (dropLead?_eq_some.2 hs.symm), fun h rest hrest =>
    h ⟨rest, (dropLead?_eq_some.1 hrest).symm⟩⟩

theorem dropTrail?_eq_none {pat s : Text} : dropTrail? pat s = none ↔ ¬pat <:+ s := by
  rw [Option.eq_none_iff_forall_ne_some]
  exact ⟨fun h ⟨front, hs⟩ => h front (dropTrail?_eq_some.2 hs.symm), fun h front hfront =>
    h ⟨front, (dropTrail?_eq_some.1 hfront).symm⟩⟩

/-! ## Occurrences -/

theorem occursAt_cons {pat : Text} {c : Nat} {s : Text} {i : Nat} :
    OccursAt pat (c :: s) (i + 1) ↔ OccursAt pat s i := Iff.rfl

/-- Whether the pattern occurs is settled where it ends. -/
theorem occursAt_append {pat s rest : Text} {i : Nat} (hi : i + pat.length ≤ s.length) :
    OccursAt pat (s ++ rest) i ↔ OccursAt pat s i := by
  unfold OccursAt
  rw [List.drop_append_of_le_length (by omega)]
  constructor
  · intro h
    exact List.prefix_of_prefix_length_le h (List.prefix_append _ _) (by rw [List.length_drop]; omega)
  · intro h
    exact h.trans (List.prefix_append _ _)

theorem occursAt_zero {pat s : Text} : OccursAt pat s 0 ↔ (dropLead? pat s).isSome := by
  rw [Option.isSome_iff_exists]
  constructor
  · rintro ⟨rest, hrest⟩
    exact ⟨rest, dropLead?_eq_some.2 hrest.symm⟩
  · rintro ⟨rest, hrest⟩
    exact ⟨rest, (dropLead?_eq_some.1 hrest).symm⟩

/-! ## The first occurrence -/

/-- A text is cut at the first occurrence of the pattern. -/
theorem cut?_eq_some {pat s before after : Text} : cut? pat s = some (before, after) ↔
    s = before ++ pat ++ after ∧ ∀ i < before.length, ¬OccursAt pat s i := by
  induction s generalizing before after with
  | nil =>
    unfold cut?
    constructor
    · intro h
      obtain ⟨rest, hrest, heq⟩ := Option.map_eq_some_iff.1 h
      cases heq
      exact ⟨dropLead?_eq_some.1 hrest, by simp⟩
    · rintro ⟨hs, -⟩
      obtain ⟨rfl, rfl, rfl⟩ : before = [] ∧ pat = [] ∧ after = [] := by simpa using hs.symm
      rfl
  | cons c s ih =>
    unfold cut?
    cases hlead : dropLead? pat (c :: s) with
    | some rest =>
      have hs := dropLead?_eq_some.1 hlead
      constructor
      · rintro ⟨⟩
        exact ⟨hs, by simp⟩
      · rintro ⟨hcut, hfirst⟩
        -- the pattern stands in front already, so nothing can be before it
        have hbefore : before = [] := by
          by_contra hne
          exact hfirst 0 (List.length_pos_iff.2 hne) (occursAt_zero.2 (by simp [hlead]))
        subst hbefore
        have hafter : rest = after := List.append_cancel_left (hs.symm.trans hcut)
        rw [hafter]
    | none =>
      have hnot : ¬OccursAt pat (c :: s) 0 := by simp [occursAt_zero, hlead]
      constructor
      · intro h
        obtain ⟨⟨front, rest⟩, hfront, heq⟩ := Option.map_eq_some_iff.1 h
        cases heq
        obtain ⟨hs, hfirst⟩ := ih.1 hfront
        refine ⟨by simp [hs], ?_⟩
        rintro (_ | i) hi
        · exact hnot
        · exact fun hocc => hfirst i (Nat.lt_of_succ_lt_succ hi) (occursAt_cons.1 hocc)
      · rintro ⟨hcut, hfirst⟩
        cases before with
        | nil => exact absurd ⟨after, hcut.symm⟩ hnot
        | cons d front =>
          injection hcut with hc hs
          subst hc
          have hrest := ih.2 ⟨hs, fun i hi hocc => hfirst (i + 1) (Nat.succ_lt_succ hi) (occursAt_cons.2 hocc)⟩
          rw [hrest]
          rfl

/-- Wherever the pattern occurs, the cut comes no later: what follows that occurrence is still
there after the cut. -/
theorem cut?_append (pat front rest : Text) :
    ∃ before skipped, cut? pat (front ++ pat ++ rest) = some (before, skipped ++ rest) := by
  induction front with
  | nil =>
    refine ⟨[], [], ?_⟩
    rw [cut?_eq_some]
    exact ⟨rfl, by simp⟩
  | cons c front ih =>
    show ∃ before skipped, cut? pat (c :: (front ++ pat ++ rest)) = some (before, skipped ++ rest)
    unfold cut?
    cases hlead : dropLead? pat (c :: (front ++ pat ++ rest)) with
    | none =>
      obtain ⟨before, skipped, hcut⟩ := ih
      exact ⟨c :: before, skipped, by simp only [hcut, Option.map_some]⟩
    | some after =>
      -- the pattern stands in front of the occurrence, so more is left after it
      have hs : (c :: front ++ pat) ++ rest = pat ++ after := dropLead?_eq_some.1 hlead
      have hsuffix : rest <:+ after := by
        refine List.suffix_of_suffix_length_le ⟨_, hs⟩ (List.suffix_append _ _) ?_
        have hlength := congrArg List.length hs
        simp only [List.length_append, List.length_cons] at hlength
        omega
      obtain ⟨skipped, rfl⟩ := hsuffix
      exact ⟨[], skipped, rfl⟩

theorem cut?_eq_none {pat s : Text} : cut? pat s = none ↔ ¬pat <:+: s := by
  constructor
  · rintro hnone ⟨front, rest, rfl⟩
    obtain ⟨before, skipped, hcut⟩ := cut?_append pat front rest
    rw [hnone] at hcut
    cases hcut
  · intro h
    cases hcut : cut? pat s with
    | none => rfl
    | some parts => exact absurd ⟨parts.1, parts.2, (cut?_eq_some.1 hcut).1.symm⟩ h

/-- Where the pattern is nowhere found it occurs at no position. -/
theorem not_occursAt_of_cut? {pat s : Text} (h : cut? pat s = none) (i : Nat) : ¬OccursAt pat s i := fun hi =>
  cut?_eq_none.1 h (hi.isInfix.trans (List.drop_suffix i s).isInfix)

/-! ## Counting -/

/-- Code points of an occurrence counted already are passed over. -/
theorem countFrom_append (pat : Text) : ∀ passed s : Text,
    countFrom pat passed.length (passed ++ s) = countFrom pat 0 s
  | [], _ => rfl
  | _ :: passed, s => countFrom_append pat passed s

theorem count_of_cut? {pat s before after : Text} (hpat : pat ≠ [])
    (h : cut? pat s = some (before, after)) : count pat s = count pat after + 1 := by
  induction s generalizing before with
  | nil =>
    obtain ⟨hs, -⟩ := cut?_eq_some.1 h
    simp_all
  | cons c s ih =>
    unfold cut? at h
    show countFrom pat 0 (c :: s) = _
    unfold countFrom
    cases hlead : dropLead? pat (c :: s) with
    | some rest =>
      rw [hlead] at h
      cases h
      obtain ⟨p, pat, rfl⟩ := List.exists_cons_of_ne_nil hpat
      injection dropLead?_eq_some.1 hlead with _ hs
      subst hs
      exact congrArg (· + 1) (countFrom_append (p :: pat) pat after)
    | none =>
      rw [hlead] at h
      obtain ⟨⟨front, rest⟩, hfront, heq⟩ := Option.map_eq_some_iff.1 h
      cases heq
      exact ih hfront

theorem count_of_cut?_eq_none {pat s : Text} (h : cut? pat s = none) : count pat s = 0 := by
  induction s with
  | nil => rfl
  | cons c s ih =>
    unfold cut? at h
    show countFrom pat 0 (c :: s) = 0
    unfold countFrom
    cases hlead : dropLead? pat (c :: s) with
    | some rest => simp [hlead] at h
    | none =>
      rw [hlead] at h
      exact ih (Option.map_eq_none_iff.1 h)

end Tacit.Text
