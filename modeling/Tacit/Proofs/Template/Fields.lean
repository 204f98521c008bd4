/-
Texts in arrays and back. A string of code points is read as the text it was made of, as a field or as
a row among boxed fields, so what splitting by a separator or a template leaves in an array joins to the
subject again.
-/
import Tacit.Word.Meaning
import Tacit.Proofs.Array.Moved
import Tacit.Proofs.Template.Split

namespace Tacit

/-! ## Code points -/

/-- Every element is a code point of Unicode. -/
def Text.IsUnicode (t : Text) : Prop := ∀ c ∈ t, c < 0x110000

instance (t : Text) : Decidable t.IsUnicode := inferInstanceAs (Decidable (∀ c ∈ t, c < 0x110000))

namespace Tensor

theorem codePoint_ofNat {c : Nat} (hc : c < 0x110000) : codePoint (Int32.ofNat c) = .ok c := by
  have hint : (Int32.ofNat c).toInt = c := Int32.toInt_ofNat_of_lt (by omega)
  unfold codePoint
  rw [hint, if_pos (by omega), Int.toNat_natCast]
  rfl

theorem mapM_codePoint : ∀ {t : Text}, t.IsUnicode →
    (t.map fun c => Int32.ofNat c).mapM codePoint = .ok t
  | [], _ => rfl
  | c :: t, h => by
    rw [List.map_cons, List.mapM_cons]
    have ht := mapM_codePoint (t := t) fun d hd => h d (List.mem_cons_of_mem c hd)
    exact Except.bind_of_ok (codePoint_ofNat (h c List.mem_cons_self)) (Except.bind_of_ok ht rfl)

theorem text_string {t : Text} (h : t.IsUnicode) : (string t).text = .ok t := mapM_codePoint h

theorem fieldText_string {t : Text} (h : t.IsUnicode) : (string t).fieldText = .ok t := by
  unfold string fieldText
  refine Except.bind_of_ok (mapM_codePoint h) ?_
  show Except.ok (t.map fun c => [c]).flatten = _
  rw [← List.flatMap_def, List.flatMap_singleton']

/-- A box scalar reads like its content. -/
theorem fieldText_box {x : Tensor} {t : Text} (h : x.fieldText = .ok t) : (box x).fieldText = .ok t := by
  unfold box fieldText
  refine Except.bind_of_ok (a := [t]) ?_ (congrArg Except.ok (List.append_nil t))
  exact Except.bind_of_ok h rfl

theorem rows_boxes (items : List Tensor) : (boxes items).rows = items.map box := by
  show ((Elements.boxes items).blocks items.length 1).map (Tensor.mk []) = _
  rw [Elements.blocks_boxes, blocks_one, List.map_map, List.map_map]
  rfl

theorem fieldTexts_strings {ts : List Text} (h : ∀ t ∈ ts, t.IsUnicode) :
    (strings ts).fieldTexts = .ok ts := by
  unfold fieldTexts strings
  rw [rows_boxes, List.map_map]
  induction ts with
  | nil => rfl
  | cons t ts ih =>
    rw [List.map_cons, List.mapM_cons]
    have hrest := ih fun u hu => h u (List.mem_cons_of_mem t hu)
    exact Except.bind_of_ok (fieldText_box (fieldText_string (h t List.mem_cons_self)))
      (Except.bind_of_ok hrest rfl)

end Tensor

/-! ## Fields of a subject -/

namespace Template

/-- What is in a field is in the text. -/
theorem mem_weave : ∀ {fields literals : List Text}, fields.length = literals.length →
    ∀ {field : Text} {c : Nat}, field ∈ fields → c ∈ field → c ∈ weave fields literals
  | first :: fields, literal :: literals, hlength, field, c, hfield, hc => by
    unfold weave
    rcases List.mem_cons.1 hfield with rfl | hfield
    · simp [hc]
    · have hrest : c ∈ weave fields literals := mem_weave (by simpa using hlength) hfield hc
      simp [hrest]

theorem isUnicode_of_join {t : Template} {fields : List Text} {s : Text} (h : t.join fields = .ok s)
    (hs : s.IsUnicode) : ∀ field ∈ fields, field.IsUnicode := by
  obtain ⟨hlength, rfl⟩ := join_eq_ok.1 h
  intro field hfield c hc
  exact hs c (List.mem_append_right _ (mem_weave hlength hfield hc))

theorem length_of_split {t : Template} {s : Text} {fields : List Text} (h : t.split s = .ok fields) :
    fields.length = t.fields := (join_eq_ok.1 (join_of_split h)).1

end Template

namespace Separator

@[simp] theorem fields_template_every (separator : Text) (n : Nat) :
    (template (every separator) n).fields = n - 1 + 1 := by
  simp [template, Template.ofSeparators, Template.fields]

/-- As many fields as were found give the template they were found by. -/
theorem template_of_split {separator : Separator} {s : Text} {fields : List Text}
    (h : separator.split s = .ok fields) :
    separator.template fields.length = separator.template (separator.fieldCount s) := by
  cases separator with
  | each separators => rfl
  | every separator =>
    have hlength := Template.length_of_split h
    rw [hlength, fields_template_every]
    rfl

theorem join_of_split {separator : Separator} {s : Text} {fields : List Text}
    (h : separator.split s = .ok fields) : separator.join fields = .ok s := by
  unfold join
  rw [template_of_split h]
  exact Template.join_of_split h

theorem ne_nil_of_split {separator : Separator} {s : Text} {fields : List Text}
    (h : separator.split s = .ok fields) : fields ≠ [] := by
  have hlength := Template.length_of_split h
  have hpos : 1 ≤ (separator.template (separator.fieldCount s)).fields := by
    cases separator <;> simp [template, Template.ofSeparators, Template.fields]
  rintro rfl
  rw [← hlength] at hpos
  cases hpos

/-- From one occurrence of the separator to the next, as many times as it is counted. -/
theorem splitFrom_count (t : Template) {separator : Text} (hseparator : separator ≠ []) :
    ∀ (n position : Nat) (s : Text), Text.count separator s = n →
      ∃ fields, t.splitFrom position s (List.replicate n separator ++ [[]]) = .ok fields
  | 0, position, s, _ => by
    refine ⟨[s], (t.splitFrom_eq_ok _ (by simp) _ _ _).2 ?_⟩
    exact Template.shortest_singleton.2 ⟨s, rfl, (List.append_nil s).symm⟩
  | n + 1, position, s, hcount => by
    cases hcut : Text.cut? separator s with
    | none =>
      -- what is counted once more is found once more
      rw [Text.count_of_cut?_eq_none hcut] at hcount
      cases hcount
    | some parts =>
      obtain ⟨field, after⟩ := parts
      have hafter : Text.count separator after = n := by
        have hone := Text.count_of_cut? hseparator hcut
        omega
      obtain ⟨fields, hfields⟩ :=
        splitFrom_count t hseparator n (position + field.length + separator.length) after hafter
      refine ⟨field :: fields, ?_⟩
      have hshortest := (t.splitFrom_eq_ok _ (by simp) _ _ _).1 hfields
      cases n <;>
        exact (t.splitFrom_eq_ok _ (by simp) _ _ _).2
          (Template.shortest_cons.2 ⟨hseparator, field, fields, after, rfl, hcut, hshortest⟩)

theorem split_every {separator : Text} (hseparator : separator ≠ []) (s : Text) :
    ∃ fields, (every separator).split s = .ok fields := by
  let t := template (every separator) (fieldCount (every separator) s)
  obtain ⟨fields, hfields⟩ := splitFrom_count t hseparator (Text.count separator s) 0 s rfl
  refine ⟨fields, ?_⟩
  have hlead := t.split_lead s
  rw [if_neg (by simp [t])] at hlead
  exact hlead.trans hfields

/-- A string that is not empty separates every field from the next. -/
theorem ofTensor_of_text {t : Tensor} {u : Text} (ht : t.text = .ok u) (hu : u ≠ []) :
    ofTensor t = .ok (every u) := by
  obtain ⟨shape, elements⟩ := t
  cases elements with
  | numbers xs => cases ht
  | boxes xs => cases ht
  | characters cs =>
    have hbind : (Tensor.text ⟨shape, .characters cs⟩ >>= fun text =>
        if text.isEmpty then throw (Fault.domain .emptySeparator) else return every text) = .ok (every u) := by
      refine Except.bind_of_ok ht ?_
      rw [if_neg (by simpa using hu)]
      rfl
    match shape with
    | [] => exact hbind
    | [_] => exact hbind
    | _ :: _ :: _ => cases ht

end Separator

namespace Tensor

variable {u : Text}

/-- What splitting leaves in an array, joining by the same separator restores. -/
theorem joinFields_of_splitFields {separator : Tensor} {fields : List Text} (hu : u.IsUnicode)
    (h : (string u).splitFields separator = .ok fields) :
    (strings fields).joinFields separator = .ok u := by
  obtain ⟨subject, hsubject, h⟩ := Except.bind_ok h
  rw [text_string hu] at hsubject
  cases hsubject
  obtain ⟨between, hbetween, hsplit⟩ := Except.bind_ok h
  have hjoin := Separator.join_of_split hsplit
  have hfields := fieldTexts_strings (Template.isUnicode_of_join hjoin hu)
  refine Except.bind_of_ok hfields ?_
  rw [if_neg (by simpa using Separator.ne_nil_of_split hsplit)]
  exact Except.bind_of_ok hbetween hjoin

theorem splitFields_of_text {separator : Tensor} {text : Text} (hu : u.IsUnicode)
    (htext : separator.text = .ok text) (hne : text ≠ []) :
    ∃ fields, (string u).splitFields separator = .ok fields := by
  obtain ⟨fields, hfields⟩ := Separator.split_every hne u
  refine ⟨fields, Except.bind_of_ok (text_string hu) ?_⟩
  exact Except.bind_of_ok (Separator.ofTensor_of_text htext hne) hfields

end Tensor

end Tacit
