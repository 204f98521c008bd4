/-
Rows cut off and put back. Of arrays of one kind and row shape, the rows joined are the rows of both as the result
stores them: in the joint type of those that have any. So what a cut set aside and what comes in place of the slice
are rows of one array again, each at its place.
-/
import Tacit.Proofs.Array.Replace

namespace Tacit

/-! ## Numbers in their joint type -/

namespace Numbers

theorem length_convert (type : NumberType) (xs : Numbers) : (convert type xs).length = xs.length := by
  cases type with
  | bool => exact length_asBools xs
  | int => exact length_asInts xs
  | float => exact Tensor.length_asFloats xs

theorem exists_convert_ofType (type t : NumberType) : ∃ f : t.Value → type.Value,
    ∀ xs, convert type (ofType t xs) = ofType type (xs.map f) := by
  by_cases hself : type = t
  · subst hself
    refine ⟨id, fun xs => ?_⟩
    rw [List.map_id]
    cases type <;> rfl
  · cases type <;> cases t <;> first | exact absurd rfl hself | exact ⟨_, fun _ => rfl⟩

end Numbers

/-! ## Stored rows -/

namespace Elements

theorem kind_storedIn {α : Type} (e e' : Elements α) : (e.storedIn e').kind = e.kind := by
  cases e with
  | numbers xs => cases e' <;> rfl
  | characters | boxes => rfl

theorem length_storedIn {α : Type} (e e' : Elements α) : (e.storedIn e').length = e.length := by
  cases e with
  | numbers xs =>
    cases e' with
    | numbers ys => exact Numbers.length_convert ys.type xs
    | characters | boxes => rfl
  | characters | boxes => rfl

/-- Blocks of stored elements are stored blocks. -/
theorem blocks_storedIn (e e' : Elements Tensor) (n k : Nat) :
    (e.storedIn e').blocks n k = (e.blocks n k).map (·.storedIn e') := by
  have hself (es : List (Elements Tensor)) (h : ∀ e ∈ es, e.storedIn e' = e) : es = es.map (·.storedIn e') :=
    (List.map_id es).symm.trans (List.map_congr_left fun e he => (h e he).symm)
  cases e with
  | characters cs => exact hself _ (by simp [blocks, storedIn])
  | boxes ts => exact hself _ (by simp [blocks, storedIn])
  | numbers xs =>
    have hblocks {t : NumberType} (vs : List t.Value) : (numbers (.ofType t vs) : Elements Tensor).blocks n k =
        (Tacit.blocks n k vs).map fun b => numbers (.ofType t b) := by
      cases t <;> rfl
    obtain ⟨t, vs, rfl⟩ := xs.exists_ofType
    cases e' with
    | characters | boxes =>
      change (numbers (Numbers.ofType t vs)).blocks n k = _
      rw [hblocks]
      exact hself _ (by simp [storedIn])
    | numbers ys =>
      obtain ⟨f, hf⟩ := Numbers.exists_convert_ofType ys.type t
      change (numbers (Numbers.convert ys.type (.ofType t vs))).blocks n k = _
      rw [hf, hblocks, hblocks, blocks_map, List.map_map, List.map_map]
      exact List.map_congr_left fun b _ => congrArg numbers (hf b).symm

end Elements

namespace Tensor

theorem rows_storedIn {n : Nat} {s : Shape} {e : Elements Tensor} (t : Tensor) :
    (storedIn ⟨n :: s, e⟩ t).rows = (rows ⟨n :: s, e⟩).map (·.storedIn t) := by
  change ((e.storedIn t.elements).blocks n s.size).map _ = ((e.blocks n s.size).map _).map _
  rw [Elements.blocks_storedIn, List.map_map, List.map_map]
  rfl

theorem Full.storedIn {t : Tensor} (h : t.Full) (t' : Tensor) : (t.storedIn t').Full :=
  (Elements.length_storedIn _ _).trans h

/-! ## Rows stacked -/

theorem rows_concat_numbers {s : Shape} {xss : List Numbers} (h : ∀ xs ∈ xss, xs.length = s.size) :
    rows ⟨xss.length :: s, .numbers (Numbers.concat xss)⟩ =
      xss.map fun xs => ⟨s, .numbers (xs.convert (Numbers.jointType xss))⟩ := by
  unfold Numbers.concat
  cases Numbers.jointType xss with
  | bool =>
    exact rows_flatMap (fun bs => .numbers (.bools bs)) (fun _ _ _ => rfl)
      fun xs hxs => (Numbers.length_asBools xs).trans (h xs hxs)
  | int =>
    exact rows_flatMap (fun ns => .numbers (.ints ns)) (fun _ _ _ => rfl)
      fun xs hxs => (Numbers.length_asInts xs).trans (h xs hxs)
  | float =>
    exact rows_flatMap (fun fs => .numbers (.floats fs)) (fun _ _ _ => rfl)
      fun xs hxs => (length_asFloats xs).trans (h xs hxs)

/-- An array of the rows given: it has each of them, as it stores it, and loses nothing of any. -/
structure MadeOf (t : Tensor) (rs : List Tensor) (kind : Kind) (s : Shape) : Prop where
  full : t.Full
  kind : t.kind = kind
  shape : t.shape = rs.length :: s
  rows : t.rows = rs.map (·.storedIn t)
  holds : ∀ r ∈ rs, t.elements.Holds r.elements

theorem MadeOf.stacked_numbers {s : Shape} {xss : List Numbers} (h : ∀ xs ∈ xss, xs.length = s.size) :
    MadeOf ⟨xss.length :: s, .numbers (Numbers.concat xss)⟩ (xss.map fun xs => ⟨s, .numbers xs⟩) .number s := by
  have hlength : (Numbers.concat xss).length = xss.length * s.size := by
    unfold Numbers.concat
    cases Numbers.jointType xss with
    | bool => exact length_flatMap_of_forall fun xs hxs => (Numbers.length_asBools xs).trans (h xs hxs)
    | int => exact length_flatMap_of_forall fun xs hxs => (Numbers.length_asInts xs).trans (h xs hxs)
    | float => exact length_flatMap_of_forall fun xs hxs => (length_asFloats xs).trans (h xs hxs)
  refine ⟨hlength, rfl, by rw [List.length_map], ?_, ?_⟩
  · rw [rows_concat_numbers h, List.map_map]
    refine List.map_congr_left fun xs _ => ?_
    change _ = Tensor.mk s (.numbers (xs.convert (Numbers.concat xss).type))
    rw [Numbers.type_concat]
  · intro r hr
    obtain ⟨xs, hxs, rfl⟩ := List.mem_map.1 hr
    change (Numbers.concat xss).type.join xs.type = (Numbers.concat xss).type
    rw [Numbers.type_concat, Numbers.join_jointType hxs]

theorem MadeOf.stacked_characters {s : Shape} {css : List (List Int32)} (h : ∀ cs ∈ css, cs.length = s.size) :
    MadeOf ⟨css.length :: s, .characters (css.flatMap fun cs => cs)⟩ (css.map fun cs => ⟨s, .characters cs⟩)
      .character s := by
  refine ⟨length_flatMap_of_forall h, rfl, by rw [List.length_map], ?_, ?_⟩
  · rw [rows_flatMap .characters (fun _ _ _ => rfl) h, List.map_map]
    rfl
  · intro r hr
    obtain ⟨cs, -, rfl⟩ := List.mem_map.1 hr
    trivial

/-- Rows of one kind and shape, stacked. -/
theorem madeOf_ofRows {rs : List Tensor} {kind : Kind} {s : Shape} (hbox : kind ≠ .box) (hne : rs ≠ [])
    (hfull : ∀ r ∈ rs, r.Full) (h : ∀ r ∈ rs, r.kind = kind ∧ r.shape = s) : (ofRows rs).MadeOf rs kind s := by
  rw [ofRows_eq hne h]
  cases kind with
  | box => exact absurd rfl hbox
  | number =>
    obtain ⟨xss, rfl⟩ := exists_map_numbers h
    rw [concat_numbers, List.length_map]
    exact .stacked_numbers fun xs hxs => hfull _ (List.mem_map_of_mem hxs)
  | character =>
    obtain ⟨css, rfl⟩ := exists_map_characters h
    rw [concat_characters, List.length_map]
    exact .stacked_characters fun cs hcs => hfull _ (List.mem_map_of_mem hcs)

/-- Arrays of one kind and row shape join to an array of the rows of both. Without any rows it is the left one. -/
theorem madeOf_join {p q : Nat} {s : Shape} {e e' : Elements Tensor} (hbox : e.kind ≠ .box) (hkind : e'.kind = e.kind)
    (h : Full ⟨p :: s, e⟩) (h' : Full ⟨q :: s, e'⟩) : ∃ r, join ⟨p :: s, e⟩ ⟨q :: s, e'⟩ = .ok r ∧
      r.MadeOf (rows ⟨p :: s, e⟩ ++ rows ⟨q :: s, e'⟩) e.kind s := by
  have hrows : ∀ r ∈ rows ⟨p :: s, e⟩ ++ rows ⟨q :: s, e'⟩, r.Full ∧ r.kind = e.kind ∧ r.shape = s := by
    intro r hr
    rcases List.mem_append.1 hr with hr | hr
    · exact ⟨h.of_mem_rows hr, of_mem_rows hr⟩
    · exact ⟨h'.of_mem_rows hr, hkind ▸ of_mem_rows hr⟩
  by_cases hne : rows ⟨p :: s, e⟩ ++ rows ⟨q :: s, e'⟩ = []
  · -- nothing is stacked then
    obtain ⟨hnone, -⟩ := List.append_eq_nil_iff.1 hne
    have hlength : (rows ⟨p :: s, e⟩).length = p := length_rows _
    rw [hnone] at hlength
    subst hlength
    rw [hne]
    exact ⟨_, join_no_rows rfl rfl hne, h, rfl, rfl, hnone, by simp⟩
  · exact ⟨_, join_rows rfl rfl (fun r hr => (hrows r hr).2) hne,
      madeOf_ofRows hbox hne (fun r hr => (hrows r hr).1) fun r hr => (hrows r hr).2⟩

/-! ## Slices of what is made of rows -/

theorem exists_slice {n : Nat} {s : Shape} {e : Elements Tensor} (start stop : Nat) : ∃ e',
    Tensor.slice ⟨n :: s, e⟩ start stop = ⟨(stop - start) :: s, e'⟩ ∧ e'.kind = e.kind := by
  unfold Tensor.slice Tensor.chooseRows
  rw [List.length_map, List.length_range]
  exact ⟨_, rfl, by cases e <;> rfl⟩

theorem shape_slice {t : Tensor} (haxis : t.shape ≠ []) (start stop : Nat) :
    (t.slice start stop).shape = (stop - start) :: t.shape.row := by
  obtain ⟨k, s, e, rfl⟩ := eq_cons_of_shape_ne haxis
  obtain ⟨e', hslice, -⟩ := exists_slice (n := k) (s := s) (e := e) start stop
  rw [hslice]
  rfl

theorem size_slice_le {t : Tensor} {start stop : Nat} (haxis : t.shape ≠ []) (hstop : stop ≤ t.rowCount) :
    (t.slice start stop).size ≤ t.size := by
  rw [size, shape_slice haxis]
  obtain ⟨k, s, e, rfl⟩ := eq_cons_of_shape_ne haxis
  exact Nat.mul_le_mul_right _ ((Nat.sub_le _ _).trans hstop)

/-- Of no elements none are stored, whatever the type. -/
theorem storedIn_of_length_eq_zero {e e' : Elements Tensor} (h : e.length = 0) (hkind : e.kind = e'.kind) :
    e.storedIn e' = e'.pick [] := by
  cases e with
  | numbers xs =>
    cases e' with
    | numbers ys =>
      obtain ⟨t, vs, rfl⟩ := xs.exists_ofType
      obtain ⟨u, us, rfl⟩ := ys.exists_ofType
      obtain ⟨f, hf⟩ := Numbers.exists_convert_ofType (Numbers.ofType u us).type t
      have hnone : vs = [] := by
        rw [← List.length_eq_zero_iff, ← Numbers.length_ofType t vs]
        exact h
      change Elements.numbers (Numbers.convert (Numbers.ofType u us).type (.ofType t vs)) = _
      rw [hf, hnone]
      cases u <;> rfl
    | characters | boxes => cases hkind
  | characters cs =>
    cases e' with
    | characters => rw [List.length_eq_zero_iff.1 h]; rfl
    | numbers | boxes => cases hkind
  | boxes ts =>
    cases e' with
    | boxes => rw [List.length_eq_zero_iff.1 h]; rfl
    | numbers | characters => cases hkind

theorem same_of_length_eq_zero {s : Shape} {e e' : Elements Tensor} {kind : Kind} (hbox : kind ≠ .box)
    (hkind : e.kind = kind) (hkind' : e'.kind = kind) (h : e.length = 0) (h' : e'.length = 0) :
    same ⟨s, e⟩ ⟨s, e'⟩ = true := by
  cases e with
  | numbers xs =>
    cases e' with
    | numbers ys =>
      obtain ⟨t, vs, rfl⟩ := xs.exists_ofType
      obtain ⟨u, us, rfl⟩ := ys.exists_ofType
      obtain rfl : vs = [] := List.length_eq_zero_iff.1 ((Numbers.length_ofType t vs).symm.trans h)
      obtain rfl : us = [] := List.length_eq_zero_iff.1 ((Numbers.length_ofType u us).symm.trans h')
      have hnumbers : (Numbers.ofType t []).same (.ofType u []) = true := by cases t <;> cases u <;> rfl
      exact Bool.and_eq_true_iff.2 ⟨beq_self_eq_true s, hnumbers⟩
    | characters | boxes => cases hkind.trans hkind'.symm
  | characters cs =>
    cases e' with
    | characters ds =>
      rw [List.length_eq_zero_iff.1 h, List.length_eq_zero_iff.1 h']
      exact Bool.and_eq_true_iff.2 ⟨beq_self_eq_true s, rfl⟩
    | numbers | boxes => cases hkind.trans hkind'.symm
  | boxes => exact absurd hkind.symm hbox

/-- A row has the type of its array. -/
theorem holds_of_mem_rows {k : Nat} {s : Shape} {e e' : Elements Tensor} {r : Tensor}
    (hr : r ∈ rows ⟨k :: s, e⟩) (h : e'.Holds r.elements) : e'.Holds e := by
  rw [rows_eq_map] at hr
  obtain ⟨i, -, rfl⟩ := List.mem_map.1 hr
  cases e' with
  | numbers xs =>
    cases e with
    | numbers ys => cases ys <;> exact h
    | characters | boxes => exact h
  | characters cs => cases e <;> exact h
  | boxes => exact h

section

variable {r : Tensor} {before after : List Tensor} {k : Nat} {kind : Kind} {s : Shape} {e : Elements Tensor}

/-- Rows that lie together are a slice of what is made of them. -/
theorem MadeOf.slice_eq (h : r.MadeOf (before ++ Tensor.rows ⟨k :: s, e⟩ ++ after) kind s) (he : Full ⟨k :: s, e⟩)
    (hkind : e.kind = kind) :
    r.slice before.length (before.length + k) = Tensor.storedIn ⟨k :: s, e⟩ r := by
  have hlength : (Tensor.rows ⟨k :: s, e⟩).length = k := length_rows _
  obtain ⟨hfull, hkindr, hshape, hrows, -⟩ := h
  obtain ⟨s', er⟩ := r
  change s' = _ at hshape
  have hstop : before.length + k ≤ (before ++ Tensor.rows ⟨k :: s, e⟩ ++ after).length := by
    simp only [List.length_append, hlength]
    omega
  generalize (before ++ Tensor.rows ⟨k :: s, e⟩ ++ after).length = n at hshape hstop
  subst hshape
  have hcount : before.length + k - before.length = k := Nat.add_sub_cancel_left ..
  obtain ⟨e', hslice, -⟩ : ∃ e', Tensor.slice ⟨n :: s, er⟩ before.length (before.length + k) = ⟨k :: s, e'⟩ ∧ _ :=
    hcount ▸ exists_slice before.length (before.length + k)
  cases k with
  | zero =>
    -- there are no rows to tell the elements from, but both sides have the type of the array
    have hnone : e.length = 0 := he.trans (Nat.zero_mul _)
    unfold Tensor.slice
    rw [Nat.add_zero, Nat.sub_self, List.range_zero, List.map_nil, chooseRows_eq (by simp)]
    exact congrArg (Tensor.mk (0 :: s)) (storedIn_of_length_eq_zero hnone (hkind.trans hkindr.symm)).symm
  | succ k =>
    have hrowsSlice : Tensor.rows ⟨(k + 1) :: s, e'⟩ = (Tensor.storedIn ⟨(k + 1) :: s, e⟩ ⟨n :: s, er⟩).rows := by
      rw [← hslice, rows_slice hfull hstop, hrows, hcount, rows_storedIn, ← List.map_drop, ← List.map_take,
        List.append_assoc, List.drop_left, List.take_left' hlength]
    have hfullSlice : Full ⟨(k + 1) :: s, e'⟩ := hslice ▸ hfull.slice hstop
    rw [hslice, ← ofRows_rows hfullSlice, hrowsSlice]
    exact ofRows_rows (he.storedIn _)

/-- What is stored of rows that equal themselves equals them. -/
theorem MadeOf.same_storedIn (h : r.MadeOf (before ++ Tensor.rows ⟨k :: s, e⟩ ++ after) kind s)
    (he : Full ⟨k :: s, e⟩) (hkind : e.kind = kind) (hbox : kind ≠ .box)
    (hsame : same ⟨k :: s, e⟩ ⟨k :: s, e⟩ = true) : (Tensor.storedIn ⟨k :: s, e⟩ r).same ⟨k :: s, e⟩ = true := by
  cases k with
  | zero =>
    have hnone : e.length = 0 := he.trans (Nat.zero_mul _)
    exact same_of_length_eq_zero hbox ((Elements.kind_storedIn e r.elements).trans hkind) hkind
      ((Elements.length_storedIn e r.elements).trans hnone) hnone
  | succ k =>
    have hfirst : 0 < (Tensor.rows ⟨(k + 1) :: s, e⟩).length := by
      rw [length_rows]
      exact Nat.succ_pos k
    have hmem := List.getElem_mem hfirst
    exact Tensor.same_storedIn (holds_of_mem_rows hmem (h.holds _ (by simp [hmem]))) hsame

theorem MadeOf.getElem?_rows {rs : List Tensor} (h : r.MadeOf rs kind s) (i : Nat) :
    r.rows[i]? = rs[i]?.map (·.storedIn r) := by
  rw [h.rows, List.getElem?_map]

end

/-- Outside of a part that is replaced with one of the same length every entry stays. -/
theorem getElem?_splice {α : Type} {xs part : List α} {start stop i : Nat} (hpart : start + part.length = stop)
    (hstop : stop ≤ xs.length) (hi : i < start ∨ stop ≤ i) :
    (xs.take start ++ part ++ xs.drop stop)[i]? = xs[i]? := by
  have hlength : (xs.take start).length = start := by
    rw [List.length_take]
    omega
  rcases hi with hi | hi
  · rw [List.append_assoc, List.getElem?_append_left (by omega), List.getElem?_take_of_lt hi]
  · rw [List.getElem?_append_right (by rw [List.length_append]; omega), List.getElem?_drop, List.length_append]
    congr 1
    omega

end Tensor

/-! ## Cuts -/

namespace Cut

variable {c : Cut} {count t w : Tensor} {n : Int} {start stop : Nat}

theorem onTensors_eq_ok_iff (haxis : t.shape ≠ []) {slice : Tensor} : c.binary.onTensors count t = .ok slice ↔
    ∃ n start stop, count.asInt c.name = .ok n ∧ c.range n t.rowCount = .ok (start, stop) ∧
      t.slice start stop = slice := by
  obtain ⟨k, s, e, rfl⟩ := Tensor.eq_cons_of_shape_ne haxis
  cases c with
  | take =>
    constructor
    · intro h
      obtain ⟨n, hn, h⟩ := Except.bind_ok h
      obtain ⟨⟨start, stop⟩, hrange, h⟩ := Except.bind_ok h
      exact ⟨n, start, stop, hn, hrange, Except.ok.inj h⟩
    · rintro ⟨n, start, stop, hn, hrange, rfl⟩
      exact Except.bind_of_ok hn (Except.bind_of_ok hrange rfl)
  | drop =>
    constructor
    · intro h
      obtain ⟨n, hn, h⟩ := Except.bind_ok h
      exact ⟨n, _, _, hn, rfl, Except.ok.inj h⟩
    · rintro ⟨n, start, stop, hn, hrange, rfl⟩
      have hdrop : Tensor.dropRange n k = (start, stop) := Except.ok.inj hrange
      refine Except.bind_of_ok hn ?_
      change Except.ok (Tensor.slice ⟨k :: s, e⟩ (Tensor.dropRange n k).1 (Tensor.dropRange n k).2) = _
      rw [hdrop]

/-- What a cut sets aside of an array goes back around other rows of the kind and shape of the slice. -/
theorem exists_madeOf {a : Tensor} (ha : a.Full) (haxis : a.shape ≠ []) (hbox : a.kind ≠ .box)
    (hn : count.asInt c.name = .ok n) (hrange : c.range n a.rowCount = .ok (start, stop)) (hw : w.Full)
    (hkind : w.kind = a.kind) (hshape : w.shape = (stop - start) :: a.shape.row) : ∃ saved r,
      c.keeper.stash (.tensor count) (.tensor a) = .ok (saved, a.slice start stop) ∧
      Keeper.restore (.binary c.keeper) saved (.tensor w) = .ok (.tensor r) ∧
      r.MadeOf (a.rows.take start ++ w.rows ++ a.rows.drop stop) a.kind a.shape.row := by
  obtain ⟨saved, front, hzero, hlast, hstash, hrestore⟩ := exists_stash haxis hn hrange
  obtain ⟨-, hstop, -⟩ := range_bounds hrange
  obtain ⟨k, s, e, rfl⟩ := Tensor.eq_cons_of_shape_ne haxis
  obtain ⟨s', ew⟩ := w
  change s' = (stop - start) :: s at hshape
  subst hshape
  change stop ≤ k at hstop
  change ew.kind = e.kind at hkind
  have hbox' : ew.kind ≠ .box := hkind ▸ hbox
  have hrows : (Tensor.rows ⟨k :: s, e⟩).length = k := Tensor.length_rows _
  cases front with
  | true =>
    -- the slice is in front, and what was set aside lies behind it
    obtain rfl := hzero rfl
    obtain ⟨e', hslice, hkind'⟩ := Tensor.exists_slice (e := e) (s := s) (n := k) stop k
    have hfull : Tensor.Full ⟨(k - stop) :: s, e'⟩ := hslice ▸ ha.slice le_rfl
    obtain ⟨r, hjoin, hmade⟩ := Tensor.madeOf_join hbox' (hkind'.trans hkind.symm) hw hfull
    refine ⟨saved, r, hstash, hrestore _ _ ?_, ?_⟩
    · change Tensor.join _ (Tensor.slice ⟨k :: s, e⟩ stop k) = _
      rw [hslice]
      exact hjoin
    · have hrest : Tensor.rows ⟨(k - stop) :: s, e'⟩ = (Tensor.rows ⟨k :: s, e⟩).drop stop := by
        rw [← hslice, Tensor.rows_slice ha le_rfl, List.take_of_length_le (by rw [List.length_drop, hrows])]
      rw [hrest] at hmade
      rw [hkind] at hmade
      exact hmade
  | false =>
    obtain rfl : stop = k := hlast rfl
    obtain ⟨e', hslice, hkind'⟩ := Tensor.exists_slice (e := e) (s := s) (n := stop) 0 start
    have hstart : start ≤ stop := (range_bounds hrange).1
    have hfull : Tensor.Full ⟨(start - 0) :: s, e'⟩ := hslice ▸ ha.slice hstart
    obtain ⟨r, hjoin, hmade⟩ := Tensor.madeOf_join (hkind' ▸ hbox) (hkind.trans hkind'.symm) hfull hw
    refine ⟨saved, r, hstash, hrestore _ _ ?_, ?_⟩
    · change (Tensor.slice ⟨stop :: s, e⟩ 0 start).join _ = _
      rw [hslice]
      exact hjoin
    · have hrest : Tensor.rows ⟨(start - 0) :: s, e'⟩ = (Tensor.rows ⟨stop :: s, e⟩).take start := by
        rw [← hslice, Tensor.rows_slice ha hstart, List.drop_zero, Nat.sub_zero]
      rw [hrest, hkind'] at hmade
      rw [List.drop_of_length_le hrows.le, List.append_nil]
      exact hmade

section

variable {a r : Tensor} (hmade : r.MadeOf (a.rows.take start ++ w.rows ++ a.rows.drop stop) a.kind a.shape.row)
  (hrange : c.range n a.rowCount = .ok (start, stop)) (hshape : w.shape = (stop - start) :: a.shape.row)

include hmade hrange hshape

theorem shape_of_madeOf (haxis : a.shape ≠ []) : r.shape = a.shape := by
  obtain ⟨hle, hstop, -⟩ := range_bounds hrange
  obtain ⟨k, s, e, rfl⟩ := Tensor.eq_cons_of_shape_ne haxis
  change stop ≤ k at hstop
  have hcount : w.rowCount = stop - start := congrArg Shape.rowCount hshape
  have hrows : (Tensor.rows ⟨k :: s, e⟩).length = k := Tensor.length_rows _
  rw [hmade.shape]
  simp only [List.length_append, List.length_take, List.length_drop, Tensor.length_rows, hcount, hrows]
  have hall : min start k + (stop - start) + (k - stop) = k := by omega
  rw [hall]
  rfl

/-- The same cut keeps of the result what was put in place of the slice. -/
theorem onTensors_of_madeOf (haxis : a.shape ≠ []) (hn : count.asInt c.name = .ok n) (hbox : a.kind ≠ .box)
    (hw : w.Full) (hkind : w.kind = a.kind) : c.binary.onTensors count r = .ok (w.storedIn r) ∧
      (w.same w = true → (w.storedIn r).same w = true) := by
  have hshaper := shape_of_madeOf hmade hrange hshape haxis
  have hcount : r.rowCount = a.rowCount := congrArg Shape.rowCount hshaper
  obtain ⟨hle, hstop, -⟩ := range_bounds hrange
  obtain ⟨s, e⟩ := w
  change s = _ at hshape
  subst hshape
  have hstart : (a.rows.take start).length = start := by
    rw [List.length_take, Tensor.length_rows]
    omega
  refine ⟨(onTensors_eq_ok_iff (hshaper ▸ haxis)).2 ⟨n, start, stop, hn, hcount ▸ hrange, ?_⟩, fun hsame => ?_⟩
  · have hslice := hmade.slice_eq hw hkind
    rwa [hstart, Nat.add_sub_of_le hle] at hslice
  · exact hmade.same_storedIn hw hkind hbox hsame

/-- Rows that the cut does not keep are those of the array, at their places. -/
theorem row_of_madeOf {i : Nat} (hi : i < a.rowCount) (hout : i < start ∨ stop ≤ i) : ∃ row, a.row i = .ok row ∧
    r.row i = .ok (row.storedIn r) ∧ (row.same row = true → (row.storedIn r).same row = true) := by
  obtain ⟨hle, hstop, -⟩ := range_bounds hrange
  have hlength : start + w.rows.length = stop := by
    have hcount : w.rowCount = stop - start := congrArg Shape.rowCount hshape
    rw [Tensor.length_rows, hcount]
    omega
  rw [← Tensor.length_rows] at hi hstop
  have hrow := List.getElem?_eq_getElem hi
  have hsplice := Tensor.getElem?_splice hlength hstop hout
  rw [hrow] at hsplice
  have hr := hmade.getElem?_rows i
  rw [hsplice] at hr
  exact ⟨a.rows[i], Tensor.row_natCast hrow, Tensor.row_natCast hr,
    Tensor.same_storedIn (hmade.holds _ (List.mem_of_getElem? hsplice))⟩

end

end Cut

end Tacit
