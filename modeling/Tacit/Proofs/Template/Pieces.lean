/-
Texts between separators. Splitting by one separator cuts it out wherever it stands first, so the pieces are
told by the text alone, and they are the fields that were joined just if the separator stands in none of them
early. Splitting a string as an array of rows leaves the same pieces, but for the empty ones.
-/
import Tacit.Proofs.Template.Fields
import Tacit.Proofs.Array.Equality
import Tacit.Proofs.Array.Windows

namespace Tacit

namespace Text

/-! ## Pieces -/

/-- The texts left when a separator is cut out where it first stands, then where it first stands in the rest, as
long as it does. -/
inductive Pieces (separator : Text) : Text → List Text → Prop
  | last {s : Text} : cut? separator s = none → Pieces separator s [s]
  | cut {s piece after : Text} {pieces : List Text} : cut? separator s = some (piece, after) →
    Pieces separator after pieces → Pieces separator s (piece :: pieces)

variable {separator s : Text} {pieces : List Text}

theorem pieces_singleton {piece : Text} : Pieces separator s [piece] ↔ s = piece ∧ ¬separator <:+: piece := by
  constructor
  · intro h
    cases h with
    | last hnone => exact ⟨rfl, cut?_eq_none.1 hnone⟩
    | cut _ hrest => cases hrest
  · rintro ⟨rfl, h⟩
    exact .last (cut?_eq_none.2 h)

theorem pieces_cons {piece next : Text} : Pieces separator s (piece :: next :: pieces) ↔
    ∃ after, s = piece ++ separator ++ after ∧ EndsAt piece separator ∧ Pieces separator after (next :: pieces) := by
  constructor
  · intro h
    cases h with
    | cut hcut hrest =>
      obtain ⟨rfl, hfirst⟩ := cut?_eq_some.1 hcut
      exact ⟨_, rfl, (endsAt_iff _).2 hfirst, hrest⟩
  · rintro ⟨after, rfl, hends, hrest⟩
    exact .cut (cut?_eq_some.2 ⟨rfl, (endsAt_iff after).1 hends⟩) hrest

/-- The pieces of joined texts are these texts just if the last does not hold the separator and no other reads it
before its end. -/
theorem pieces_joinWith : ∀ {fields : List Text} (hne : fields ≠ []),
    Pieces separator (joinWith separator fields) fields ↔
      ¬separator <:+: fields.getLast hne ∧ ∀ field ∈ fields.dropLast, EndsAt field separator
  | [field], _ => by
    rw [pieces_singleton]
    constructor
    · rintro ⟨-, h⟩
      exact ⟨h, nofun⟩
    · rintro ⟨h, -⟩
      exact ⟨rfl, h⟩
  | field :: next :: fields, _ => by
    have ih : Pieces separator (joinWith separator (next :: fields)) (next :: fields) ↔ _ :=
      pieces_joinWith (List.cons_ne_nil next fields)
    rw [pieces_cons, List.dropLast_cons_cons, List.forall_mem_cons, List.getLast_cons_cons]
    constructor
    · rintro ⟨after, hafter, hends, hrest⟩
      obtain rfl : joinWith separator (next :: fields) = after := List.append_cancel_left hafter
      obtain ⟨hlast, hothers⟩ := ih.1 hrest
      exact ⟨hlast, hends, hothers⟩
    · rintro ⟨hlast, hends, hothers⟩
      exact ⟨_, rfl, hends, ih.2 ⟨hlast, hothers⟩⟩

/-- With as many separators as are counted, the shortest fields are the pieces: each cut leaves one less to count. -/
theorem shortest_replicate (hseparator : separator ≠ []) : ∀ {n : Nat} {s : Text} {fields : List Text},
    count separator s = n →
    (Template.Shortest (List.replicate n separator ++ [[]]) fields s ↔ Pieces separator s fields)
  | 0, s, fields, hcount => by
    have hnone : cut? separator s = none := by
      cases hcut : cut? separator s with
      | none => rfl
      | some parts =>
        have hone := count_of_cut? hseparator hcut
        omega
    show Template.Shortest [[]] fields s ↔ _
    rw [Template.shortest_singleton]
    constructor
    · rintro ⟨field, rfl, rfl⟩
      rw [List.append_nil] at hnone ⊢
      exact .last hnone
    · intro h
      cases h with
      | last => exact ⟨s, rfl, (List.append_nil s).symm⟩
      | cut hcut => cases hnone.symm.trans hcut
  | n + 1, s, fields, hcount => by
    cases hcut : cut? separator s with
    | none =>
      rw [count_of_cut?_eq_none hcut] at hcount
      cases hcount
    | some parts =>
      obtain ⟨piece, after⟩ := parts
      have hafter : count separator after = n := by
        have hone := count_of_cut? hseparator hcut
        omega
      have hrest (rest : List Text) : Template.Shortest (List.replicate n separator ++ [[]]) rest after ↔
          Pieces separator after rest := shortest_replicate hseparator hafter
      obtain ⟨next, more, hnext⟩ := List.exists_cons_of_ne_nil (List.append_ne_nil_of_right_ne_nil
        (List.replicate n separator) (List.cons_ne_nil ([] : Text) []))
      show Template.Shortest (separator :: (List.replicate n separator ++ [[]])) fields s ↔ _
      rw [hnext] at hrest ⊢
      rw [Template.shortest_cons]
      constructor
      · rintro ⟨-, field, rest, _, rfl, hcut', hshortest⟩
        obtain ⟨rfl, rfl⟩ := Prod.mk.inj (Option.some.inj (hcut.symm.trans hcut'))
        exact .cut hcut ((hrest rest).1 hshortest)
      · intro h
        cases h with
        | last hnone => cases hcut.symm.trans hnone
        | @cut _ piece' after' rest hcut' hpieces =>
          obtain ⟨rfl, rfl⟩ := Prod.mk.inj (Option.some.inj (hcut.symm.trans hcut'))
          exact ⟨hseparator, _, rest, _, rfl, hcut, (hrest rest).2 hpieces⟩

end Text

namespace Separator

variable {separator s : Text}

theorem split_every_eq_ok_iff (hseparator : separator ≠ []) {fields : List Text} :
    (every separator).split s = .ok fields ↔ Text.Pieces separator s fields := by
  rw [← Text.shortest_replicate hseparator rfl, ← Template.splitFrom_eq_ok
    (template (every separator) (fieldCount (every separator) s)) _ (by simp) 0]
  have hlead := (template (every separator) (fieldCount (every separator) s)).split_lead s
  rw [if_neg (by simp)] at hlead
  exact Eq.congr_left hlead

theorem weave_replicate : ∀ {fields : List Text}, fields ≠ [] →
    Template.weave fields (List.replicate (fields.length - 1) separator ++ [[]]) = Text.joinWith separator fields
  | [field], _ => (List.append_nil _).trans (List.append_nil field)
  | field :: next :: fields, _ => congrArg (field ++ separator ++ ·) (weave_replicate (List.cons_ne_nil next fields))

theorem join_every {fields : List Text} (hne : fields ≠ []) :
    (every separator).join fields = .ok (Text.joinWith separator fields) := by
  have hpos := List.length_pos_of_ne_nil hne
  refine Template.join_eq_ok.2 ⟨?_, weave_replicate hne⟩
  rw [fields_template_every]
  omega

end Separator

/-! ## Strings as rows -/

namespace Tensor

/-- A code point as a scalar. -/
def letter (c : Nat) : Tensor := ⟨[], .characters [Int32.ofNat c]⟩

theorem rows_string (t : Text) : (string t).rows = t.map letter := by
  show ((Tacit.blocks t.length 1 (t.map fun c => Int32.ofNat c)).map Elements.characters).map (Tensor.mk []) = _
  have hblocks := blocks_one (t.map fun c => Int32.ofNat c)
  rw [List.length_map] at hblocks
  rw [hblocks, List.map_map, List.map_map, List.map_map]
  rfl

/-- Letters stacked are a string. -/
theorem ofRows_letters {t : Text} (hne : t ≠ []) : ofRows (t.map letter) = string t := by
  rw [← rows_string]
  refine ofRows_rows_of_ne (wellFormed_string t).full (List.cons_ne_nil _ _) ?_
  rw [rows_string]
  exact mt List.map_eq_nil_iff.1 hne

/-- Unicode texts are told by their code points as integers. -/
theorem map_ofNat_inj {t u : Text} (ht : t.IsUnicode) (hu : u.IsUnicode) :
    (t.map fun c => Int32.ofNat c) = (u.map fun c => Int32.ofNat c) ↔ t = u := by
  constructor
  · intro h
    have hread := mapM_codePoint ht
    rw [h, mapM_codePoint hu] at hread
    exact (Except.ok.inj hread).symm
  · rintro rfl
    rfl

theorem strings_inj {ts us : List Text} (ht : ∀ t ∈ ts, t.IsUnicode) (hu : ∀ u ∈ us, u.IsUnicode) :
    strings ts = strings us ↔ ts = us := by
  constructor
  · intro h
    have hread := fieldTexts_strings ht
    rw [h, fieldTexts_strings hu] at hread
    exact (Except.ok.inj hread).symm
  · rintro rfl
    rfl

/-- Letters match a window just where their text reads that of the window. -/
theorem windowAt_letters {pat s : Text} (hpat : pat.IsUnicode) (hs : s.IsUnicode) (i : Nat) :
    WindowAt (pat.map letter) (s.map letter) i ↔ Text.OccursAt pat s i := by
  have hsame (c d : Nat) : (letter c).same (letter d) = true ↔ Int32.ofNat c = Int32.ofNat d :=
    same_characters_iff.trans (by simp)
  have hread : Text.IsUnicode ((s.drop i).take pat.length) := fun c hc =>
    hs c (List.mem_of_mem_drop (List.mem_of_mem_take hc))
  have hcodes := map_ofNat_inj hread hpat
  rw [← List.forall₂_eq_eq_eq, List.forall₂_map_left_iff, List.forall₂_map_right_iff] at hcodes
  unfold WindowAt Text.OccursAt
  rw [List.length_map, ← List.map_drop, ← List.map_take, List.forall₂_map_left_iff, List.forall₂_map_right_iff]
  simp only [hsame]
  rw [hcodes, List.prefix_iff_eq_take, eq_comm]

theorem keepRun_letters (t : Text) (ts : List Text) :
    keepRun (t.map letter) ((ts.filter (!·.isEmpty)).map (List.map letter)) =
      ((t :: ts).filter (!·.isEmpty)).map (List.map letter) := by
  cases t <;> rfl

/-- The rows of a string between the windows of a separator are those of its pieces that are not empty. -/
theorem unmarkedRuns_pieces {separator : Text} (hseparator : separator.IsUnicode) (hne : separator ≠ []) {s : Text}
    {pieces : List Text} (h : Text.Pieces separator s pieces) (hs : s.IsUnicode) :
    unmarkedRuns [] ((s.map letter).zip (markWindows (separator.map letter) 0 (s.map letter))) =
      (pieces.filter (!·.isEmpty)).map (List.map letter) := by
  induction h with
  | @last s hnone =>
    have hnowhere : ∀ i < (s.map letter).length, ¬WindowAt (separator.map letter) (s.map letter) i := fun i _ hi =>
      Text.not_occursAt_of_cut? hnone i ((windowAt_letters hseparator hs i).1 hi)
    rw [unmarkedRuns_of_no_window hnowhere]
    exact keepRun_letters s []
  | @cut s piece after pieces hcut _ ih =>
    obtain ⟨rfl, hfirst⟩ := Text.cut?_eq_some.1 hcut
    have hafter : after.IsUnicode := fun c hc => hs c (List.mem_append_right _ hc)
    have hrest : Text.IsUnicode (separator ++ after) := fun c hc =>
      (List.mem_append.1 hc).elim (hseparator c) (hafter c)
    have hwindow := (windowAt_letters hseparator hrest 0).2 (List.prefix_append separator after)
    have hbefore : ∀ i < (piece.map letter).length,
        ¬WindowAt (separator.map letter) ((piece ++ separator ++ after).map letter) i := fun i hi hat =>
      hfirst i (by simpa using hi) ((windowAt_letters hseparator hs i).1 hat)
    rw [List.append_assoc, List.map_append, List.map_append] at hbefore ⊢
    rw [List.map_append] at hwindow
    rw [unmarkedRuns_of_window (mt List.map_eq_nil_iff.1 hne) rfl hwindow hbefore, ih hafter, keepRun_letters]

/-! ## Strings split and joined -/

variable {separator s : Text}

theorem splitFields_string (hseparator : separator.IsUnicode) (hne : separator ≠ []) (hs : s.IsUnicode) :
    (string s).splitFields (string separator) = (Separator.every separator).split s := by
  unfold splitFields
  rw [text_string hs, Separator.ofTensor_of_text (text_string hseparator) hne]
  rfl

theorem exists_pieces (hseparator : separator.IsUnicode) (hne : separator ≠ []) (hs : s.IsUnicode) :
    ∃ fields, Text.Pieces separator s fields ∧
      Binary.splitFields.onTensors (string separator) (string s) = .ok (strings fields) := by
  obtain ⟨fields, hfields⟩ := Separator.split_every hne s
  refine ⟨fields, (Separator.split_every_eq_ok_iff hne).1 hfields, ?_⟩
  exact Except.bind_of_ok ((splitFields_string hseparator hne hs).trans hfields) rfl

theorem splitOn_string (hseparator : separator.IsUnicode) (hne : separator ≠ []) (hs : s.IsUnicode)
    {pieces : List Text} (h : Text.Pieces separator s pieces) :
    splitOn (string separator) (string s) = .ok (strings (pieces.filter (!·.isEmpty))) := by
  have haxis : (string s).shape ≠ [] := List.cons_ne_nil _ _
  have hrank : (string separator).rank = (string s).rank := rfl
  have hrows : (string separator).rows ≠ [] := by
    rw [rows_string]
    exact mt List.map_eq_nil_iff.1 hne
  have hlength : ¬(string s).rows.length ≠ (markWindows (string separator).rows 0 (string s).rows).length :=
    not_not.2 (length_markWindows _ 0).symm
  have hletters : ∀ t ∈ pieces.filter (!·.isEmpty), (ofRows ∘ List.map letter) t = string t := fun t ht =>
    ofRows_letters (by simpa using (List.mem_filter.1 ht).2)
  rw [splitOn_eq_splitRuns haxis hrank hrows]
  unfold splitRuns
  rw [if_neg hlength, rows_string, rows_string, unmarkedRuns_pieces hseparator hne h hs]
  unfold ofRuns
  rw [List.map_map, List.map_congr_left hletters]
  rfl

/-- Both ways of splitting a string agree: rows between separators are the fields between separators that are not
empty, in their order, and those are the pieces of the text; without a text to separate by, both fail alike. -/
theorem splitOn_splitFields (hseparator : separator.IsUnicode) (hs : s.IsUnicode) :
    (separator ≠ [] → ∃ fields, Text.Pieces separator s fields ∧
      Binary.splitFields.onTensors (string separator) (string s) = .ok (strings fields) ∧
      Binary.splitOn.onTensors (string separator) (string s) = .ok (strings (fields.filter (!·.isEmpty)))) ∧
    (separator = [] →
      Binary.splitFields.onTensors (string separator) (string s) = .error (.domain .emptySeparator) ∧
      Binary.splitOn.onTensors (string separator) (string s) = .error (.domain .emptySeparator)) := by
  refine ⟨fun hne => ?_, ?_⟩
  · obtain ⟨fields, hpieces, hfields⟩ := exists_pieces hseparator hne hs
    exact ⟨fields, hpieces, hfields, splitOn_string hseparator hne hs hpieces⟩
  · rintro rfl
    refine ⟨?_, rfl⟩
    show (do return strings (← (string s).splitFields (string []))) = _
    unfold splitFields
    rw [text_string hs]
    rfl

/-- A separator that overlaps itself, at both ends of the text. -/
theorem splitOn_splitFields_overlapping :
    let separator : Text := [97, 97]
    let s : Text := [97, 97, 97, 98, 97, 97]
    separator.IsUnicode ∧ s.IsUnicode ∧ separator ≠ [] ∧ (∃ fields, Text.Pieces separator s fields ∧
      strings fields = strings [[], [97, 98], []] ∧
      Binary.splitOn.onTensors (string separator) (string s) = .ok (strings (fields.filter (!·.isEmpty)))) ∧
      Binary.splitFields.onTensors (string []) (string s) = .error (.domain .emptySeparator) ∧
      Binary.splitOn.onTensors (string []) (string s) = .error (.domain .emptySeparator) := by
  intro separator s
  have hseparator : separator.IsUnicode := by decide
  have hs : s.IsUnicode := by decide
  have hne : separator ≠ [] := by decide
  obtain ⟨fields, hpieces, hfields, hrows⟩ := (splitOn_splitFields hseparator hs).1 hne
  have hresult : Binary.splitFields.onTensors (string separator) (string s) = .ok (strings [[], [97, 98], []]) := rfl
  have hnone : Text.IsUnicode [] := nofun
  refine ⟨hseparator, hs, hne, ⟨fields, hpieces, ?_, hrows⟩, (splitOn_splitFields hnone hs).2 rfl⟩
  exact Except.ok.inj (hfields.symm.trans hresult)

theorem isUnicode_joinWith (hseparator : separator.IsUnicode) : ∀ {fields : List Text},
    (∀ f ∈ fields, f.IsUnicode) → (Text.joinWith separator fields).IsUnicode
  | [], _ => nofun
  | [field], h => h field List.mem_cons_self
  | field :: next :: fields, h => by
    obtain ⟨hfield, hrest⟩ := List.forall_mem_cons.1 h
    have ih := isUnicode_joinWith hseparator hrest
    intro c hc
    rcases List.mem_append.1 hc with hc | hc
    · exact (List.mem_append.1 hc).elim (hfield c) (hseparator c)
    · exact ih c hc

/-- Fields that are joined are found again just if the separator does not stand in the last one and, where it follows
one of the others, is not read before the end of that field. -/
theorem splitFields_joinFields (hseparator : separator.IsUnicode) (hne : separator ≠ []) {fields : List Text}
    (hfields : ∀ f ∈ fields, f.IsUnicode) (hsome : fields ≠ []) : ∃ found,
      Binary.joinFields.onTensors (string separator) (strings fields) =
        .ok (string (Text.joinWith separator fields)) ∧
      Binary.splitFields.onTensors (string separator) (string (Text.joinWith separator fields)) =
        .ok (strings found) ∧
      (strings found = strings fields ↔
        ¬separator <:+: fields.getLast hsome ∧ ∀ field ∈ fields.dropLast, Text.EndsAt field separator) := by
  have hs := isUnicode_joinWith hseparator hfields
  obtain ⟨found, hfound⟩ := Separator.split_every hne (Text.joinWith separator fields)
  have hunicode := Template.isUnicode_of_join (Separator.join_of_split hfound) hs
  refine ⟨found, ?_, ?_, ?_⟩
  · refine Except.bind_of_ok (Except.bind_of_ok (fieldTexts_strings hfields) ?_) rfl
    rw [if_neg (by simpa using hsome), Separator.ofTensor_of_text (text_string hseparator) hne]
    exact Separator.join_every hsome
  · exact Except.bind_of_ok ((splitFields_string hseparator hne hs).trans hfound) rfl
  · rw [strings_inj hunicode hfields, ← Text.pieces_joinWith hsome, ← Separator.split_every_eq_ok_iff hne, hfound]
    exact Except.ok.injEq .. ▸ Iff.rfl

/-- A dash at the end of the last field is harmless, and at the end of another it is not. -/
theorem splitFields_joinFields_dashes :
    let separator : Text := [45, 45]
    let clear : List Text := [[97], [98, 45]]
    let early : List Text := [[97, 45], [98]]
    separator.IsUnicode ∧ separator ≠ [] ∧ (∀ f ∈ clear, f.IsUnicode) ∧ (∀ f ∈ early, f.IsUnicode) ∧
      clear ≠ [] ∧ early ≠ [] ∧
      Binary.splitFields.onTensors (string separator) (string (Text.joinWith separator clear)) = .ok (strings clear) ∧
      Binary.splitFields.onTensors (string separator) (string (Text.joinWith separator early)) ≠ .ok (strings early) := by
  intro separator clear early
  have hseparator : separator.IsUnicode := by decide
  have hne : separator ≠ [] := by decide
  have hclear : ∀ f ∈ clear, f.IsUnicode := by decide
  have hearly : ∀ f ∈ early, f.IsUnicode := by decide
  obtain ⟨found, -, hfound, hback⟩ := splitFields_joinFields hseparator hne hclear (List.cons_ne_nil _ _)
  obtain ⟨other, -, hother, hlost⟩ := splitFields_joinFields hseparator hne hearly (List.cons_ne_nil _ _)
  refine ⟨hseparator, hne, hclear, hearly, List.cons_ne_nil _ _, List.cons_ne_nil _ _, ?_, fun h => ?_⟩
  · rw [hfound, hback.2 (by decide)]
  · rw [hother] at h
    exact absurd (hlost.1 (Except.ok.inj h)) (by decide)

end Tensor

end Tacit
