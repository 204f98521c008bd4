/-
Joining end to end. Arrays without boxes and of one rank join just where the rows that they have are of one kind
and shape, an array without rows giving way to the other whatever its own row shape and type; what joins is put one
after another in the joint type. So three arrays join in either grouping or in neither, and to the same array.
-/
import Tacit.Proofs.Array.WellFormed

namespace Tacit.Tensor

/-! ## Elements one after another -/

theorem concat_singleton (s : Shape) (e : Elements Tensor) : concat e.kind [⟨s, e⟩] = e := by
  cases e with
  | numbers xs => exact congrArg Elements.numbers (Numbers.concat_singleton xs)
  | characters cs => exact congrArg Elements.characters (List.append_nil cs)
  | boxes ts => exact congrArg Elements.boxes (List.append_nil ts)

/-- Parts that were put together first. -/
theorem concat_append (kind : Kind) (s s' : Shape) (rows rows' : List Tensor) :
    concat kind (rows ++ rows') = concat kind [⟨s, concat kind rows⟩, ⟨s', concat kind rows'⟩] := by
  cases kind with
  | number =>
    unfold concat
    rw [List.filterMap_append, Numbers.concat_append]
    rfl
  | character => simp [concat, Elements.codePoints]
  | box => simp [concat, Elements.contents]

theorem concat_assoc {kind : Kind} {a b c : Tensor} (ha : a.kind = kind) (hc : c.kind = kind) {s s' : Shape} :
    concat kind [⟨s, concat kind [a, b]⟩, c] = concat kind [a, ⟨s', concat kind [b, c]⟩] := by
  have ha' : concat kind [a] = a.elements := ha ▸ concat_singleton a.shape a.elements
  have hc' : concat kind [c] = c.elements := hc ▸ concat_singleton c.shape c.elements
  calc concat kind [⟨s, concat kind [a, b]⟩, c]
      = concat kind [⟨s, concat kind [a, b]⟩, ⟨c.shape, concat kind [c]⟩] := by
        rw [hc']
        rfl
    _ = concat kind ([a, b] ++ [c]) := (concat_append kind s c.shape [a, b] [c]).symm
    _ = concat kind [⟨a.shape, concat kind [a]⟩, ⟨s', concat kind [b, c]⟩] := concat_append kind a.shape s' [a] [b, c]
    _ = concat kind [a, ⟨s', concat kind [b, c]⟩] := by
        rw [ha']
        rfl

/-! ## Two arrays -/

variable {a b c : Tensor}

/-- Rows of both, where both have any, are of one kind and shape. -/
def Fits (a b : Tensor) : Prop :=
  a.rowCount ≠ 0 → b.rowCount ≠ 0 → a.kind = b.kind ∧ a.shape.row = b.shape.row

/-- The rows of `a` before those of `b`, which fit. -/
def appended (a b : Tensor) : Tensor :=
  if b.rowCount = 0 then a
  else if a.rowCount = 0 then b
  else ⟨(a.rowCount + b.rowCount) :: a.shape.row, concat a.kind [a, b]⟩

theorem appended_of_right (hb : b.rowCount = 0) : a.appended b = a := if_pos hb

theorem appended_of_left (hb : b.rowCount ≠ 0) (ha : a.rowCount = 0) : a.appended b = b := by
  unfold appended
  rw [if_neg hb, if_pos ha]

theorem appended_of_rows (ha : a.rowCount ≠ 0) (hb : b.rowCount ≠ 0) :
    a.appended b = ⟨(a.rowCount + b.rowCount) :: a.shape.row, concat a.kind [a, b]⟩ := by
  unfold appended
  rw [if_neg hb, if_neg ha]

/-- A full array of the rank given, not of boxes. -/
structure Plain (rank : Nat) (a : Tensor) : Prop where
  full : a.Full
  rank : a.rank = rank
  kind : a.kind ≠ .box

theorem rows_eq_nil_iff : a.rows = [] ↔ a.rowCount = 0 := by
  rw [← List.length_eq_zero_iff, length_rows]

theorem Plain.exists_eq {k : Nat} (ha : a.Plain (k + 1)) : ∃ n s e, a = ⟨n :: s, e⟩ ∧ s.length = k := by
  obtain ⟨s, e⟩ := a
  cases s with
  | nil => cases ha.rank
  | cons n s => exact ⟨n, s, e, rfl, Nat.succ.inj ha.rank⟩

section

variable {k : Nat} (ha : a.Plain (k + 1)) (hb : b.Plain (k + 1))

include ha hb

theorem join_of_fits (h : a.Fits b) : a.join b = .ok (a.appended b) := by
  obtain ⟨p, s, e, rfl, rfl⟩ := ha.exists_eq
  obtain ⟨q, s', e', rfl, hlength⟩ := hb.exists_eq
  have hrank : Tensor.rank ⟨q :: s', e'⟩ = s.length + 1 := hb.rank
  cases q with
  | zero =>
    have hnone : rows ⟨0 :: s', e'⟩ = [] := rows_eq_nil_iff.2 rfl
    exact join_of_rows ha.full rfl hrank (by rw [hnone, List.append_nil]) fun _ => rfl
  | succ q =>
    cases p with
    | zero =>
      have hnone : rows ⟨0 :: s, e⟩ = [] := rows_eq_nil_iff.2 rfl
      exact join_of_rows hb.full (by rw [hlength]; rfl) (by rw [hlength]; exact hb.rank) (by rw [hnone, List.nil_append])
        nofun
    | succ p =>
      obtain ⟨hkind, rfl⟩ : e.kind = e'.kind ∧ s = s' := h (Nat.succ_ne_zero p) (Nat.succ_ne_zero q)
      have hall : ∀ r ∈ rows ⟨(p + 1) :: s, e⟩ ++ rows ⟨(q + 1) :: s, e'⟩, r.kind = e.kind ∧ r.shape = s := by
        intro r hr
        rcases List.mem_append.1 hr with hr | hr
        · exact of_mem_rows hr
        · exact hkind ▸ of_mem_rows hr
      have hne : rows ⟨(p + 1) :: s, e⟩ ++ rows ⟨(q + 1) :: s, e'⟩ ≠ [] := by
        intro hnil
        exact absurd (rows_eq_nil_iff.1 (List.append_eq_nil_iff.1 hnil).1) (Nat.succ_ne_zero p)
      have hleft : concat e.kind (rows ⟨(p + 1) :: s, e⟩) = e := concat_blocks s ha.full
      have hright : concat e.kind (rows ⟨(q + 1) :: s, e'⟩) = e' := by
        rw [hkind]
        exact concat_blocks s hb.full
      rw [join_rows rfl hrank hall hne, ofRows_eq hne hall, List.length_append, length_rows, length_rows,
        concat_append e.kind ((p + 1) :: s) ((q + 1) :: s), hleft, hright]
      rfl

theorem join_of_not_fits (h : ¬a.Fits b) : a.join b = .error (.shape (.join a.shape b.shape)) := by
  obtain ⟨p, s, e, rfl, rfl⟩ := ha.exists_eq
  obtain ⟨q, s', e', rfl, -⟩ := hb.exists_eq
  have hrank : Tensor.rank ⟨q :: s', e'⟩ = s.length + 1 := hb.rank
  unfold Fits at h
  push Not at h
  obtain ⟨hp, hq, hdiffer⟩ := h
  obtain ⟨first, rest, hleft⟩ := List.exists_cons_of_ne_nil (mt rows_eq_nil_iff.1 hp)
  obtain ⟨r, hr⟩ := List.exists_mem_of_ne_nil _ (mt rows_eq_nil_iff.1 hq)
  obtain ⟨hkind, hshape⟩ := of_mem_rows (hleft ▸ List.mem_cons_self : first ∈ rows ⟨p :: s, e⟩)
  obtain ⟨hkind', hshape'⟩ := of_mem_rows hr
  -- a row on the right does not go with the first on the left
  have hunlike : ¬((rest ++ rows ⟨q :: s', e'⟩).all fun r => r.kind == first.kind && r.shape == first.shape) = true := by
    intro hall
    have hlike := List.all_eq_true.1 hall r (List.mem_append_right rest hr)
    simp only [Bool.and_eq_true, beq_iff_eq, hkind, hkind', hshape, hshape'] at hlike
    exact hdiffer hlike.1.symm hlike.2.symm
  obtain ⟨hleftRows, hrightRows⟩ := rowsOfRank_join (rfl : Tensor.rank ⟨p :: s, e⟩ = s.length + 1) hrank
  unfold join
  dsimp only
  rw [hleftRows, hrightRows, hleft, List.cons_append]
  dsimp only
  rw [if_pos ⟨ha.kind, hb.kind, by rwa [Bool.not_eq_true', ← Bool.not_eq_true]⟩]
  rfl

theorem plain_appended (h : a.Fits b) : (a.appended b).Plain (k + 1) := by
  unfold appended
  split
  · exact ha
  split
  · exact hb
  rename_i hq hp
  obtain ⟨hkind, hshape⟩ := h hp hq
  obtain ⟨p, s, e, rfl, rfl⟩ := ha.exists_eq
  obtain ⟨q, s', e', rfl, -⟩ := hb.exists_eq
  obtain rfl : s = s' := hshape
  have hfull : e.length = p * Shape.size s := ha.full
  have hfull' : e'.length = q * Shape.size s := hb.full
  refine ⟨?_, rfl, ?_⟩
  · have hkinds : ∀ r ∈ [Tensor.mk (p :: s) e, ⟨q :: s, e'⟩], r.kind = e.kind := by
      simp only [List.forall_mem_cons]
      exact ⟨rfl, hkind.symm, nofun⟩
    show (concat e.kind _).length = (p + q) * Shape.size s
    rw [length_concat_rows hkinds, Nat.add_mul]
    simp [hfull, hfull']
  · show (concat e.kind _).kind ≠ .box
    rw [kind_concat]
    exact ha.kind

end

theorem rowCount_appended (a b : Tensor) : (a.appended b).rowCount = a.rowCount + b.rowCount := by
  unfold appended
  split
  · omega
  split
  · omega
  · rfl

theorem appended_like_left (ha : a.rowCount ≠ 0) :
    (a.appended b).kind = a.kind ∧ (a.appended b).shape.row = a.shape.row := by
  unfold appended
  rw [if_neg ha]
  split
  · exact ⟨rfl, rfl⟩
  · exact ⟨kind_concat a.kind _, rfl⟩

theorem appended_like_right (h : a.Fits b) (hb : b.rowCount ≠ 0) :
    (a.appended b).kind = b.kind ∧ (a.appended b).shape.row = b.shape.row := by
  by_cases ha : a.rowCount = 0
  · unfold appended
    rw [if_neg hb, if_pos ha]
    exact ⟨rfl, rfl⟩
  · obtain ⟨hkind, hshape⟩ := h ha hb
    rw [← hkind, ← hshape]
    exact appended_like_left ha

/-! ## Three arrays -/

/-- With others go the rows of two arrays that fit just where those of each do. -/
theorem fits_appended_left (h : a.Fits b) : (a.appended b).Fits c ↔ a.Fits c ∧ b.Fits c := by
  unfold Fits
  rw [rowCount_appended]
  constructor
  · intro hfits
    refine ⟨fun ha hc => ?_, fun hb hc => ?_⟩
    · obtain ⟨hkind, hshape⟩ := appended_like_left (b := b) ha
      rw [← hkind, ← hshape]
      exact hfits (by omega) hc
    · obtain ⟨hkind, hshape⟩ := appended_like_right h hb
      rw [← hkind, ← hshape]
      exact hfits (by omega) hc
  · rintro ⟨hac, hbc⟩ hrows hc
    by_cases hb : b.rowCount = 0
    · have ha : a.rowCount ≠ 0 := by omega
      obtain ⟨hkind, hshape⟩ := appended_like_left (b := b) ha
      rw [hkind, hshape]
      exact hac ha hc
    · obtain ⟨hkind, hshape⟩ := appended_like_right h hb
      rw [hkind, hshape]
      exact hbc hb hc

theorem fits_comm : a.Fits b ↔ b.Fits a := by
  have hswap {a b : Tensor} (h : a.Fits b) : b.Fits a := by
    intro hb ha
    obtain ⟨hkind, hshape⟩ := h ha hb
    exact ⟨hkind.symm, hshape.symm⟩
  exact ⟨hswap, hswap⟩

theorem fits_appended_right (h : b.Fits c) : a.Fits (b.appended c) ↔ a.Fits b ∧ a.Fits c := by
  rw [fits_comm, fits_appended_left h, fits_comm, @fits_comm c a]

theorem appended_assoc (hab : a.Fits b) (hac : a.Fits c) :
    (a.appended b).appended c = a.appended (b.appended c) := by
  by_cases hc : c.rowCount = 0
  · rw [appended_of_right hc, appended_of_right hc]
  by_cases hb : b.rowCount = 0
  · rw [appended_of_right hb, appended_of_left hc hb]
  by_cases ha : a.rowCount = 0
  · have hrest : (b.appended c).rowCount ≠ 0 := by
      rw [rowCount_appended]
      omega
    rw [appended_of_left hb ha, appended_of_left hrest ha]
  · have hfirst : (a.appended b).rowCount ≠ 0 := by
      rw [rowCount_appended]
      omega
    have hlast : (b.appended c).rowCount ≠ 0 := by
      rw [rowCount_appended]
      omega
    obtain ⟨hkind, hshape⟩ := appended_like_left (b := b) ha
    obtain ⟨hkinds, -⟩ := hab ha hb
    obtain ⟨hkinds', -⟩ := hac ha hc
    rw [appended_of_rows hfirst hc, appended_of_rows ha hlast, rowCount_appended, rowCount_appended, hkind, hshape,
      Nat.add_assoc, appended_of_rows ha hb, appended_of_rows hb hc, ← hkinds, concat_assoc rfl hkinds'.symm]

section

variable {k : Nat} (ha : a.Plain (k + 1)) (hb : b.Plain (k + 1)) (hc : c.Plain (k + 1))

include ha hb hc

theorem join_left_first : (a.Fits b ∧ a.Fits c ∧ b.Fits c →
      (do (← a.join b).join c) = .ok ((a.appended b).appended c)) ∧
    (¬(a.Fits b ∧ a.Fits c ∧ b.Fits c) → ∃ fault, (do (← a.join b).join c) = .error (.shape fault)) := by
  by_cases hab : a.Fits b
  · have hfirst := plain_appended ha hb hab
    rw [join_of_fits ha hb hab, Except.ok_bind, ← fits_appended_left hab, and_iff_right hab]
    exact ⟨join_of_fits hfirst hc, fun h => ⟨_, join_of_not_fits hfirst hc h⟩⟩
  · rw [join_of_not_fits ha hb hab]
    exact ⟨fun h => absurd h.1 hab, fun _ => ⟨_, rfl⟩⟩

theorem join_right_first : (a.Fits b ∧ a.Fits c ∧ b.Fits c →
      (do a.join (← b.join c)) = .ok (a.appended (b.appended c))) ∧
    (¬(a.Fits b ∧ a.Fits c ∧ b.Fits c) → ∃ fault, (do a.join (← b.join c)) = .error (.shape fault)) := by
  by_cases hbc : b.Fits c
  · have hlast := plain_appended hb hc hbc
    rw [join_of_fits hb hc hbc, Except.ok_bind, ← and_assoc, ← fits_appended_right hbc, and_iff_left hbc]
    exact ⟨join_of_fits ha hlast, fun h => ⟨_, join_of_not_fits ha hlast h⟩⟩
  · rw [join_of_not_fits hb hc hbc]
    exact ⟨fun h => absurd h.2.2 hbc, fun _ => ⟨_, rfl⟩⟩

end

/-- Three arrays of one rank and without boxes join to the same array in either grouping, just where those of them
that have rows have rows of one kind and shape; else neither grouping joins, and it is the shapes that are blamed. -/
theorem join_regrouped {k : Nat} (ha : a.Plain (k + 1)) (hb : b.Plain (k + 1)) (hc : c.Plain (k + 1)) :
    ((a.Fits b ∧ a.Fits c ∧ b.Fits c) ∧
      ∃ r, (do (← a.join b).join c) = .ok r ∧ (do a.join (← b.join c)) = .ok r) ∨
    (¬(a.Fits b ∧ a.Fits c ∧ b.Fits c) ∧ ∃ fault fault',
      (do (← a.join b).join c) = .error (.shape fault) ∧ (do a.join (← b.join c)) = .error (.shape fault')) := by
  obtain ⟨hleft, hleft'⟩ := join_left_first ha hb hc
  obtain ⟨hright, hright'⟩ := join_right_first ha hb hc
  by_cases hfits : a.Fits b ∧ a.Fits c ∧ b.Fits c
  · refine .inl ⟨hfits, _, hleft hfits, ?_⟩
    rw [hright hfits, appended_assoc hfits.1 hfits.2.1]
  · obtain ⟨fault, hfault⟩ := hleft' hfits
    obtain ⟨fault', hfault'⟩ := hright' hfits
    exact .inr ⟨hfits, fault, fault', hfault, hfault'⟩

/-- Truth values above integers, with floats in longer rows, of which there are none, between them. -/
theorem join_regrouped_mixed :
    let a := ofNumbers [1, 2] (.bools [true, false])
    let b := ofNumbers [0, 3] (.floats [])
    let c := ofInts [1, 2] [7, 8]
    a.Plain 2 ∧ b.Plain 2 ∧ c.Plain 2 ∧
      (do (← a.join b).join c) = .ok (ofInts [2, 2] [1, 0, 7, 8]) ∧
      (do a.join (← b.join c)) = .ok (ofInts [2, 2] [1, 0, 7, 8]) := by
  intro a b c
  have ha : a.Plain 2 := ⟨rfl, rfl, Kind.noConfusion⟩
  have hb : b.Plain 2 := ⟨rfl, rfl, Kind.noConfusion⟩
  have hc : c.Plain 2 := ⟨rfl, rfl, Kind.noConfusion⟩
  have hfirst : a.join b = .ok a := rfl
  have hjoined : (do (← a.join b).join c) = .ok (ofInts [2, 2] [1, 0, 7, 8]) := Except.bind_of_ok hfirst rfl
  refine ⟨ha, hb, hc, hjoined, ?_⟩
  rcases join_regrouped ha hb hc with ⟨-, r, hleft, hright⟩ | ⟨-, _, _, hleft, -⟩
  · rw [hright, ← hleft, hjoined]
  · cases hjoined.symm.trans hleft

end Tacit.Tensor
