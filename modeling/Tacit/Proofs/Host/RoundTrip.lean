/-
Host values in arrays and back. Rows that convert to arrays of one kind and shape are stacked, and the
stack reads as the list of what its rows read as, since it is cut where they were joined; other rows are
boxed, and every box reads as its content. So a list reads as itself once its members do.
-/
import Tacit.Proofs.Array.Exact
import Tacit.Proofs.Template.Fields

namespace Tacit

/-! ## Host values -/

/-- Integers of 32 bits, texts, and lists of such values to any depth. -/
inductive Host.Plain : Host → Prop
  | int {n : Int} (hmin : -2 ^ 31 ≤ n) (hmax : n < 2 ^ 31) : Plain (.int n)
  | text {t : Text} (h : t.IsUnicode) : Plain (.text t)
  | list {items : List Host} (h : ∀ item ∈ items, Plain item) : Plain (.list items)

namespace Host.Plain

@[simp] theorem int_iff {n : Int} : (Host.int n).Plain ↔ -2 ^ 31 ≤ n ∧ n < 2 ^ 31 :=
  ⟨fun | .int hmin hmax => ⟨hmin, hmax⟩, fun h => .int h.1 h.2⟩

@[simp] theorem text_iff {t : Text} : (Host.text t).Plain ↔ t.IsUnicode := ⟨fun | .text h => h, .text⟩

@[simp] theorem list_iff {items : List Host} : (Host.list items).Plain ↔ ∀ item ∈ items, item.Plain :=
  ⟨fun | .list h => h, .list⟩

end Host.Plain

/-! ## Lists side by side -/

variable {α β γ : Type}

/-- Pairs that each come from one source come from a list of sources. -/
theorem exists_map_of_forall₂ {P : γ → Prop} {f : γ → α} {g : γ → β} {xs : List α} {ys : List β}
    (h : List.Forall₂ (fun x y => ∃ c, P c ∧ x = f c ∧ y = g c) xs ys) :
    ∃ cs : List γ, (∀ c ∈ cs, P c) ∧ xs = cs.map f ∧ ys = cs.map g := by
  induction h with
  | nil => exact ⟨[], by simp, rfl, rfl⟩
  | cons hxy _ ih =>
    obtain ⟨c, hc, rfl, rfl⟩ := hxy
    obtain ⟨cs, hcs, rfl, rfl⟩ := ih
    exact ⟨c :: cs, List.forall_mem_cons.2 ⟨hc, hcs⟩, rfl, rfl⟩

namespace Host

/-- Rows of elements that stand for leaves, laid out one after another: there is a leaf for every element,
an element for every place, and the leaves read as the list of what the rows read as. -/
theorem nested_flatMap {R : α → β → Prop} {leaf : Nat} {whole : List β → Host} {s : Shape}
    (hleaf : leaf ≤ s.length) {rows : List (List α × List β)}
    (h : ∀ row ∈ rows, row.1.length = s.size ∧ List.Forall₂ R row.1 row.2) :
    (rows.flatMap Prod.fst).length = Shape.size (rows.length :: s) ∧
    List.Forall₂ R (rows.flatMap Prod.fst) (rows.flatMap Prod.snd) ∧
    nested leaf whole (rows.length :: s) (rows.flatMap Prod.snd) =
      .list (rows.map fun row => nested leaf whole s row.2) := by
  have hfst : ∀ row ∈ rows, row.1.length = s.size := fun row hrow => (h row hrow).1
  have hsnd : ∀ row ∈ rows, row.2.length = s.size := fun row hrow =>
    (h row hrow).2.length_eq.symm.trans (hfst row hrow)
  have hread : List.Forall₂ R (rows.flatMap Prod.fst) (rows.flatMap Prod.snd) := by
    rw [List.flatMap_def, List.flatMap_def]
    refine List.rel_flatten (List.forall₂_map_left_iff.2 (List.forall₂_map_right_iff.2 ?_))
    exact List.forall₂_same.2 fun row hrow => (h row hrow).2
  refine ⟨Tensor.length_flatMap_of_forall hfst, hread, ?_⟩
  rw [nested, if_neg (Nat.not_lt.2 hleaf), Tensor.blocks_flatMap hsnd, List.map_map]
  rfl

theorem nested_vector (hs : List Host) : nested 0 only [hs.length] hs = .list hs := by
  have hblocks : blocks hs.length (Shape.size []) hs = hs.map fun h => [h] := blocks_one hs
  rw [nested, if_neg (Nat.not_lt_zero _), hblocks, List.map_map]
  exact congrArg list (List.map_id' hs)

end Host

namespace Tensor

/-! ## Reading an array -/

theorem toHosts_of_forall₂ {ts : List Tensor} {hs : List Host}
    (h : List.Forall₂ (fun t h => toHost t = .ok h) ts hs) : toHosts ts = .ok hs := by
  induction h with
  | nil => rfl
  | cons ht _ ih =>
    rw [toHosts, ht, ih]
    rfl

/-- Full arrays of integers, characters or boxes, which read as a host value; only numbers are scalars. -/
inductive Reads : Tensor → Host → Prop
  | numbers {s : Shape} {ns : List Int32} {hs : List Host} (hlength : ns.length = s.size)
      (hread : List.Forall₂ (fun n h => .int n.toInt = h) ns hs) :
    Reads ⟨s, .numbers (.ints ns)⟩ (.nested 0 Host.only s hs)
  | characters {s : Shape} {cs : List Int32} {t : Text} (haxis : s ≠ []) (hlength : cs.length = s.size)
      (hread : List.Forall₂ (fun c d => codePoint c = .ok d) cs t) :
    Reads ⟨s, .characters cs⟩ (.nested 1 Host.text s t)
  | boxes {s : Shape} {ts : List Tensor} {hs : List Host} (haxis : s ≠ []) (hlength : ts.length = s.size)
      (hread : List.Forall₂ (fun t h => toHost t = .ok h) ts hs) :
    Reads ⟨s, .boxes ts⟩ (.nested 0 Host.only s hs)

namespace Reads

variable {t : Tensor} {h : Host}

theorem toHost (hread : t.Reads h) : t.toHost = .ok h := by
  cases hread with
  | @numbers s ns hs hlength hread =>
    have hleaves : (Numbers.ints ns).toList.map Number.toHost = hs := by
      rw [Numbers.toList, List.map_map, ← List.forall₂_eq_eq_eq, List.forall₂_map_left_iff]
      exact hread
    rw [Tensor.toHost, hleaves]
    rfl
  | characters haxis hlength hread =>
    rw [Tensor.toHost, Except.mapM_of_forall₂ hread]
    rfl
  | boxes haxis hlength hread =>
    rw [Tensor.toHost, toHosts_of_forall₂ hread]
    rfl

theorem shape_ne (hread : t.Reads h) (hkind : t.kind ≠ .number) : t.shape ≠ [] := by
  cases hread with
  | numbers => exact absurd rfl hkind
  | characters haxis | boxes haxis => exact haxis

/-- No box is a scalar, so none loses its content as a row. -/
theorem asContent (hread : t.Reads h) : t.asContent = t := by
  refine if_neg fun hbox => ?_
  obtain ⟨hkind, hscalar⟩ := Bool.and_eq_true_iff.1 hbox
  refine hread.shape_ne (fun hnumber => ?_) (List.isEmpty_iff.1 hscalar)
  rw [hnumber] at hkind
  cases hkind

end Reads

/-! ## Stacking rows -/

section

variable {rows : List Tensor} {hs : List Host} {s : Shape} (hread : List.Forall₂ Reads rows hs)

include hread

theorem reads_numbers (hne : rows ≠ []) (hrows : ∀ r ∈ rows, r.kind = .number ∧ r.shape = s) :
    Reads ⟨rows.length :: s, concat .number rows⟩ (.list hs) := by
  obtain ⟨parts, hparts, rfl, rfl⟩ : ∃ parts : List (List Int32 × List Host),
      (∀ p ∈ parts, p.1.length = s.size ∧ List.Forall₂ (fun n h => Host.int n.toInt = h) p.1 p.2) ∧
      rows = parts.map (fun p => ofInts s p.1) ∧ hs = parts.map fun p => .nested 0 Host.only s p.2 := by
    refine exists_map_of_forall₂ (((List.forall₂_and_left _ _).2 ⟨hrows, hread⟩).imp ?_)
    rintro r h ⟨⟨hkind, rfl⟩, hread⟩
    cases hread with
    | @numbers _ ns hs hlength hread => exact ⟨(ns, hs), ⟨hlength, hread⟩, rfl, rfl⟩
    | characters | boxes => cases hkind
  obtain ⟨hlength, hleaves, hlist⟩ := Host.nested_flatMap (Nat.zero_le s.length) hparts
  have hconcat : concat .number (parts.map fun p => ofInts s p.1) = .numbers (.ints (parts.flatMap Prod.fst)) := by
    rw [List.flatMap_def, ← concat_ints (by simpa using hne)]
    simp [concat, List.filterMap_map, Function.comp_def, ofInts, ofNumbers, Elements.toNumbers?]
  rw [hconcat, List.length_map, ← hlist]
  exact .numbers hlength hleaves

theorem reads_characters (haxis : s ≠ []) (hrows : ∀ r ∈ rows, r.kind = .character ∧ r.shape = s) :
    Reads ⟨rows.length :: s, concat .character rows⟩ (.list hs) := by
  obtain ⟨parts, hparts, rfl, rfl⟩ : ∃ parts : List (List Int32 × Text),
      (∀ p ∈ parts, p.1.length = s.size ∧ List.Forall₂ (fun c d => codePoint c = .ok d) p.1 p.2) ∧
      rows = parts.map (fun p => ⟨s, .characters p.1⟩) ∧ hs = parts.map fun p => .nested 1 Host.text s p.2 := by
    refine exists_map_of_forall₂ (((List.forall₂_and_left _ _).2 ⟨hrows, hread⟩).imp ?_)
    rintro r h ⟨⟨hkind, rfl⟩, hread⟩
    cases hread with
    | @characters _ cs t haxis hlength hread => exact ⟨(cs, t), ⟨hlength, hread⟩, rfl, rfl⟩
    | numbers | boxes => cases hkind
  obtain ⟨hlength, hleaves, hlist⟩ := Host.nested_flatMap (List.length_pos_of_ne_nil haxis) hparts
  rw [List.length_map, ← hlist, concat, List.flatMap_map]
  exact .characters (List.cons_ne_nil _ _) hlength hleaves

theorem reads_boxes (hrows : ∀ r ∈ rows, r.kind = .box ∧ r.shape = s) :
    Reads ⟨rows.length :: s, concat .box rows⟩ (.list hs) := by
  obtain ⟨parts, hparts, rfl, rfl⟩ : ∃ parts : List (List Tensor × List Host),
      (∀ p ∈ parts, p.1.length = s.size ∧ List.Forall₂ (fun t h => toHost t = .ok h) p.1 p.2) ∧
      rows = parts.map (fun p => ⟨s, .boxes p.1⟩) ∧ hs = parts.map fun p => .nested 0 Host.only s p.2 := by
    refine exists_map_of_forall₂ (((List.forall₂_and_left _ _).2 ⟨hrows, hread⟩).imp ?_)
    rintro r h ⟨⟨hkind, rfl⟩, hread⟩
    cases hread with
    | @boxes _ ts hs haxis hlength hread => exact ⟨(ts, hs), ⟨hlength, hread⟩, rfl, rfl⟩
    | numbers | characters => cases hkind
  obtain ⟨hlength, hleaves, hlist⟩ := Host.nested_flatMap (Nat.zero_le s.length) hparts
  rw [List.length_map, ← hlist, concat, List.flatMap_map]
  exact .boxes (List.cons_ne_nil _ _) hlength hleaves

theorem map_asContent : rows.map Tensor.asContent = rows := by
  induction hread with
  | nil => rfl
  | cons hfirst _ ih => rw [List.map_cons, hfirst.asContent, ih]

/-- Rows that read as host values make an array that reads as the list of these, stacked or boxed. -/
theorem reads_ofRows : (ofRows rows).Reads (.list hs) := by
  cases hread with
  | nil => exact .numbers (s := [0]) rfl .nil
  | @cons first h rest hs hfirst hrest =>
    have hread : List.Forall₂ Reads (first :: rest) (h :: hs) := .cons hfirst hrest
    by_cases hall : ∀ r ∈ first :: rest, r.kind = first.kind ∧ r.shape = first.shape
    · -- rows of one kind and shape are stacked, and how depends on the kind alone
      have hne : first :: rest ≠ [] := List.cons_ne_nil first rest
      have haxis := hfirst.shape_ne
      rw [ofRows_eq hne hall]
      cases hkind : first.kind with
      | number => exact reads_numbers hread hne (hkind ▸ hall)
      | character => exact reads_characters hread (haxis (by simp [hkind])) (hkind ▸ hall)
      | box => exact reads_boxes hread (hkind ▸ hall)
    · have hboxed : ofRows (first :: rest) = Tensor.boxes (first :: rest) := by
        have hunlike : ¬(rest.all fun r => r.kind == first.kind && r.shape == first.shape) = true := by
          simpa using hall
        unfold ofRows
        dsimp only
        rw [if_neg hunlike, map_asContent hread]
      rw [hboxed, ← Host.nested_vector, ← hread.length_eq]
      exact .boxes (List.cons_ne_nil _ _) (Nat.mul_one _).symm (hread.imp fun _ _ h => h.toHost)

end

/-! ## Conversion -/

theorem reads_int {n : Int} (hmin : -2 ^ 31 ≤ n) (hmax : n < 2 ^ 31) :
    ∃ t, ofInt n = .ok t ∧ t.Reads (.int n) := by
  have hrange : toInt32 n = .ok (Int32.ofInt n) := if_pos ⟨hmin, Int.le_sub_one_of_lt hmax⟩
  have hback : (Int32.ofInt n).toInt = n := by
    rw [Int32.toInt_ofInt]
    exact Int.bmod_eq_of_le hmin hmax
  refine ⟨int (Int32.ofInt n), by rw [ofInt, hrange]; rfl, ?_⟩
  exact .numbers (s := []) rfl (.cons (congrArg Host.int hback) .nil)

theorem reads_string {t : Text} (h : t.IsUnicode) : (string t).Reads (.text t) := by
  have hlength : (t.map fun c => Int32.ofNat c).length = Shape.size [t.length] := by simp [Shape.size]
  exact .characters (List.cons_ne_nil _ _) hlength (Except.forall₂_of_mapM (mapM_codePoint h))

theorem exists_ofHosts {hs : List Host} (h : ∀ h ∈ hs, ∃ t, ofHost h = .ok t ∧ t.Reads h) :
    ∃ ts, ofHosts hs = .ok ts ∧ List.Forall₂ Reads ts hs := by
  induction hs with
  | nil => exact ⟨[], rfl, .nil⟩
  | cons first rest ih =>
    obtain ⟨t, ht, hread⟩ := h first (by simp)
    obtain ⟨ts, hts, hreads⟩ := ih fun h' hmem => h h' (by simp [hmem])
    exact ⟨t :: ts, by rw [ofHosts, ht, hts]; rfl, .cons hread hreads⟩

/-- Plain host values are converted, and read as themselves. -/
theorem exists_ofHost {h : Host} (hplain : h.Plain) : ∃ t, ofHost h = .ok t ∧ t.Reads h := by
  induction hplain with
  | int hmin hmax => exact reads_int hmin hmax
  | text h => exact ⟨string _, rfl, reads_string h⟩
  | list _ ih =>
    obtain ⟨ts, hts, hread⟩ := exists_ofHosts ih
    exact ⟨ofRows ts, by rw [ofHost, hts]; rfl, reads_ofRows hread⟩

/-- A plain host value is converted into an array that reads as this value. -/
theorem toHost_ofHost {h : Host} (hplain : h.Plain) : ∃ t, ofHost h = .ok t ∧ t.toHost = .ok h := by
  obtain ⟨t, ht, hread⟩ := exists_ofHost hplain
  exact ⟨t, ht, hread.toHost⟩

/-- Nothing, an empty text, a matrix of characters and a list of lists of two depths in one list. -/
theorem toHost_ofHost_mixed :
    let matrix : Host := .list [.text [97, 98], .text [99, 100]]
    let ragged : Host := .list [.list [.int (-2 ^ 31), .list []], .list [.int 7]]
    let h : Host := .list [.list [], .text [], matrix, ragged]
    h.Plain ∧ ∃ t, ofHost h = .ok t ∧ t.toHost = .ok h := by
  intro matrix ragged h
  have hplain : h.Plain := by simp [h, matrix, ragged, Text.IsUnicode]
  exact ⟨hplain, toHost_ofHost hplain⟩

end Tensor

end Tacit
