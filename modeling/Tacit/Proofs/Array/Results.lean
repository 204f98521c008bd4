/-
What words make of well-formed arrays is well formed: element by element and through boxes, by taking,
keeping, joining and replacing rows, and by what the halves of under pairs save and put back.
-/
import Tacit.Proofs.Array.Undo
import Tacit.Proofs.Array.WellFormed
import Tacit.Machine.Run

namespace Tacit

namespace Tensor

/-! ## Element by element -/

theorem length_monadic {op : Monadic} {xs ys : Numbers} (h : op.kernel xs = .ok ys) : ys.length = xs.length := by
  cases xs with
  | bools xs =>
    cases op <;> cases h <;> simp [Numbers.length]
  | ints xs =>
    cases h
    cases op <;> simp [Monadic.onInts, Numbers.length]
  | floats xs =>
    cases h
    cases op <;> simp [Monadic.onFloats, Numbers.length]

theorem WellFormed.map {op : Monadic} {t : Tensor} (ht : t.WellFormed) :
    ∀ {u : Tensor}, Tensor.map op t = .ok u → u.WellFormed := by
  induction ht with
  | @intro t hfull _ hcontents ih =>
    intro u hu
    obtain ⟨s, e⟩ := t
    cases e with
    | characters cs => cases hu
    | numbers xs =>
      obtain ⟨ys, hys, hu⟩ := Except.bind_ok hu
      cases hu
      exact .of_plain ((length_monadic hys).trans hfull) Kind.noConfusion
    | boxes ts =>
      rw [map_boxes] at hu
      obtain ⟨us, hus, hu⟩ := Except.bind_ok hu
      cases hu
      refine .of_full ((Except.forall₂_of_mapM hus).length_eq.symm.trans hfull) fun u hu => ?_
      obtain ⟨t, ht, htu⟩ := Except.exists_of_mem_mapM hus hu
      exact ih t ht htu

section

variable {name : String} {plain : Tensor → Tensor → Shape → Except Fault Tensor}

theorem wellFormed_array {l : Leaf} {s : Shape} {xs : List l.Value} (h : xs.length = s.size) :
    (l.array s xs).WellFormed :=
  .of_plain ((l.length_elements xs).trans h) (by rw [l.kind_array]; cases l <;> simp [Leaf.kind])

theorem WellFormed.boxedElements {t : Tensor} (h : t.WellFormed) : ∀ u ∈ t.boxedElements, u.WellFormed := by
  by_cases hk : t.kind = .box
  · obtain ⟨s, e⟩ := t
    cases e with
    | boxes ts => exact h.contents
    | numbers | characters => cases hk
  · obtain ⟨l, s, xs, rfl⟩ := Leaf.exists_array hk
    rw [l.boxedElements_array]
    intro u hu
    obtain ⟨x, -, rfl⟩ := List.mem_map.1 hu
    exact wellFormed_array rfl

/-- An operation on each pair of elements of plain arrays makes an element for each place. -/
theorem wellFormed_plain (helementwise : ∀ l r, Elementwise plain l r) {t u r : Tensor} (ht : t.Full) (hu : u.Full)
    (htk : t.kind ≠ .box) (huk : u.kind ≠ .box) (hr : pervade name plain t u = .ok r) : r.WellFormed := by
  obtain ⟨s, hagree⟩ := exists_agree_of_pervade name plain hr
  obtain ⟨l, s₁, xs, rfl⟩ := Leaf.exists_array htk
  obtain ⟨q, s₂, ys, rfl⟩ := Leaf.exists_array huk
  have hagree : s₁.agree s₂ name = .ok s := hagree
  rw [pervade_array, hagree] at hr
  obtain ⟨hx, hy⟩ := spread_lengths name hagree ht hu
  change plain _ _ s = .ok r at hr
  cases helementwise l q with
  | fails fault h =>
    rw [h] at hr
    cases hr
  | pairs h =>
    rw [h s₁ s₂ s xs ys hx hy] at hr
    split at hr
    · cases hr
      exact wellFormed_array (by rw [List.length_zipWith, hx, hy, Nat.min_self])
    · cases hr

/-- Through boxes the operation is called for elements that stand side by side. -/
theorem wellFormed_pairs {t u r : Tensor} (ht : t.WellFormed) (hu : u.WellFormed)
    (hbox : t.kind = .box ∨ u.kind = .box) (hr : pervade name plain t u = .ok r)
    (h : ∀ p ∈ t.boxedElements, ∀ q ∈ u.boxedElements, ∀ {c}, pervade name plain p q = .ok c → c.WellFormed) :
    r.WellFormed := by
  obtain ⟨s, hagree⟩ := exists_agree_of_pervade name plain hr
  obtain ⟨hleft, hright⟩ := Shape.prefix_of_agree hagree
  rw [pervade_boxes name plain ht.full hu.full hbox hagree] at hr
  obtain ⟨cs, hcs, hr⟩ := Except.bind_ok hr
  cases hr
  refine .of_full ?_ fun c hc => ?_
  · show cs.length = s.size
    rw [← (Except.forall₂_of_mapM hcs).length_eq, List.length_zip,
      length_spreadTo hleft (length_boxedElements ht.full), length_spreadTo hright (length_boxedElements hu.full),
      Nat.min_self]
  · obtain ⟨p, hp, hpc⟩ := Except.exists_of_mem_mapM hcs hc
    obtain ⟨h₁, h₂⟩ := List.of_mem_zip hp
    exact h _ (mem_of_mem_spreadTo h₁) _ (mem_of_mem_spreadTo h₂) hpc

/-- What holds of plain arrays, and of any two of which one has boxes if it holds of their elements, holds of
all. The induction is on the left, and where that has no boxes on the right. -/
theorem WellFormed.pairs {P : Tensor → Tensor → Prop}
    (hplain : ∀ {t u}, t.WellFormed → u.WellFormed → t.kind ≠ .box → u.kind ≠ .box → P t u)
    (hboxes : ∀ {t u}, t.WellFormed → u.WellFormed → t.kind = .box ∨ u.kind = .box →
      (∀ p ∈ t.boxedElements, ∀ q ∈ u.boxedElements, P p q) → P t u)
    {t u : Tensor} (ht : t.WellFormed) (hu : u.WellFormed) : P t u := by
  have hright {u : Tensor} (hu : u.WellFormed) : ∀ {t : Tensor}, t.WellFormed → t.kind ≠ .box → P t u := by
    induction hu with
    | @intro u hfull hrange hcontents ih =>
      intro t ht htk
      have hu : u.WellFormed := .intro hfull hrange hcontents
      by_cases huk : u.kind = .box
      · refine hboxes ht hu (.inr huk) fun p hp q hq => ?_
        obtain ⟨s, e⟩ := u
        cases e with
        | boxes us => exact ih q hq (ht.boxedElements p hp) (kind_of_mem_boxedElements htk hp)
        | numbers | characters => cases huk
      · exact hplain ht hu htk huk
  induction ht generalizing u with
  | @intro t hfull hrange hcontents ih =>
    have ht : t.WellFormed := .intro hfull hrange hcontents
    by_cases htk : t.kind = .box
    · refine hboxes ht hu (.inl htk) fun p hp q hq => ?_
      obtain ⟨s, e⟩ := t
      cases e with
      | boxes ts => exact ih p hp (hu.boxedElements q hq)
      | numbers | characters => cases htk
    · exact hright hu ht htk

theorem WellFormed.pervade (helementwise : ∀ l r, Elementwise plain l r) {t : Tensor} (ht : t.WellFormed)
    {u r : Tensor} (hu : u.WellFormed) (hr : Tensor.pervade name plain t u = .ok r) : r.WellFormed := by
  refine ht.pairs (P := fun t u => ∀ r, Tensor.pervade name plain t u = .ok r → r.WellFormed) ?_ ?_ hu r hr
  · intro t u ht hu htk huk r hr
    exact wellFormed_plain helementwise ht.full hu.full htk huk hr
  · intro t u ht hu hbox ih r hr
    exact wellFormed_pairs ht hu hbox hr fun p hp q hq c hc => ih p hp q hq c hc

end

theorem WellFormed.apply {op : Dyadic} {t u r : Tensor} (ht : t.WellFormed) (hu : u.WellFormed)
    (hr : Tensor.apply op t u = .ok r) : r.WellFormed :=
  ht.pervade (elementwise_applyPlain op) hu hr

theorem wellFormed_primeVector {x : Number} {t : Tensor} (h : primeVector x = .ok t) : t.WellFormed := by
  unfold primeVector at h
  split at h
  · cases h
  · split at h
    · cases h
    · exact wellFormed_vector h

theorem WellFormed.primes {t u : Tensor} (ht : t.WellFormed) (hu : t.primes = .ok u) : u.WellFormed := by
  unfold Tensor.primes at hu
  split at hu
  · split at hu
    · exact wellFormed_primeVector hu
    · cases hu
      exact wellFormed_empty
  · rename_i s xs _
    obtain ⟨ts, hts, hu⟩ := Except.bind_ok hu
    cases hu
    have hfull : xs.length = s.size := ht.full
    refine .of_full ?_ fun t ht => ?_
    · show ts.length = s.size
      rw [← (Except.forall₂_of_mapM hts).length_eq, ← hfull]
      cases xs <;> exact List.length_map _
    · obtain ⟨x, -, hx⟩ := Except.exists_of_mem_mapM hts ht
      exact wellFormed_primeVector hx
  · cases hu

/-! ## Rows taken, joined and replaced -/

theorem WellFormed.take {count t u : Tensor} (ht : t.WellFormed) (hu : Tensor.take count t = .ok u) :
    u.WellFormed := by
  obtain ⟨n, -, hu⟩ := Except.bind_ok hu
  obtain ⟨⟨start, stop⟩, hrange, hu⟩ := Except.bind_ok hu
  cases hu
  exact ht.asList.slice (takeRange_ok hrange).2.1

theorem WellFormed.drop {count t u : Tensor} (ht : t.WellFormed) (hu : Tensor.drop count t = .ok u) :
    u.WellFormed := by
  obtain ⟨n, -, hu⟩ := Except.bind_ok hu
  have hslice : u = t.asList.slice (dropRange n t.asList.rowCount).1 (dropRange n t.asList.rowCount).2 :=
    (Except.ok.inj hu).symm
  rw [hslice]
  exact ht.asList.slice (dropRange_bounds n _).2.1

theorem WellFormed.join {t u r : Tensor} (ht : t.WellFormed) (hu : u.WellFormed) (hr : t.join u = .ok r) :
    r.WellFormed := by
  have hrows {v : Tensor} (hv : v.WellFormed) (rank : Nat) : ∀ w ∈ v.rowsOfRank rank, w.WellFormed := by
    unfold rowsOfRank
    split
    · exact hv.rows
    · exact fun w hw => by rw [List.mem_singleton.1 hw]; exact hv
  have hall (rank : Nat) : ∀ w ∈ t.rowsOfRank rank ++ u.rowsOfRank rank, w.WellFormed := by
    intro w hw
    rcases List.mem_append.1 hw with hw | hw
    · exact hrows ht rank w hw
    · exact hrows hu rank w hw
  have hall := hall (max (max t.rank u.rank) 1)
  unfold Tensor.join at hr
  dsimp only at hr
  generalize t.rowsOfRank _ ++ u.rowsOfRank _ = rows at hall hr
  cases rows with
  | nil =>
    cases hr
    split
    · exact hu
    · exact ht
  | cons first rest =>
    dsimp only at hr
    split at hr
    · cases hr
    · cases hr
      exact wellFormed_ofRows hall

theorem length_replaceBlock {α : Type} {xs new : List α} {i n k : Nat} (hi : i < n) (hx : xs.length = n * k)
    (hnew : new.length = k) : (replaceBlock xs i k new).length = n * k := by
  have hle : (i + 1) * k ≤ n * k := Nat.mul_le_mul_right k hi
  rw [Nat.succ_mul] at hle
  unfold replaceBlock
  rw [List.length_append, List.length_append, List.length_take, List.length_drop, hx, hnew, Nat.succ_mul]
  omega

theorem length_replaceNumbers {xs new : Numbers} {i n k : Nat} (hi : i < n) (hx : xs.length = n * k)
    (hnew : new.length = k) : (replaceNumbers xs i k new).length = n * k := by
  cases xs with
  | bools xs => exact length_replaceBlock hi hx ((Numbers.length_asBools new).trans hnew)
  | ints xs => exact length_replaceBlock hi hx ((Numbers.length_asInts new).trans hnew)
  | floats xs => exact length_replaceBlock hi hx ((length_asFloats new).trans hnew)

theorem mem_replaceBlock {α : Type} {xs new : List α} {i k : Nat} {x : α} (h : x ∈ replaceBlock xs i k new) :
    x ∈ xs ∨ x ∈ new := by
  unfold replaceBlock at h
  rcases List.mem_append.1 h with h | h
  · rcases List.mem_append.1 h with h | h
    · exact .inl (List.mem_of_mem_take h)
    · exact .inr h
  · exact .inl (List.mem_of_mem_drop h)

/-- A row that can be taken has a place in the array and the shape of a row. -/
theorem place_of_row {n : Nat} {s : Shape} {e : Elements Tensor} {i : Int} {row : Tensor}
    (h : (⟨n :: s, e⟩ : Tensor).row (if i < 0 then i + (n : Int) else i) = .ok row) :
    (if i < 0 then i + (n : Int) else i).toNat < n ∧ row.shape = s := by
  obtain ⟨j, hj, hget⟩ := row_eq h
  have hlength : (Tensor.rows ⟨n :: s, e⟩).length = n := length_rows _
  obtain ⟨hlt, -⟩ := List.getElem?_eq_some_iff.1 hget
  have hcount : ((⟨n :: s, e⟩ : Tensor).rowCount : Int) = n := rfl
  constructor
  · rw [hcount] at hj
    generalize (if i < 0 then i + (n : Int) else i) = k at hj ⊢
    split at hj <;> omega
  · exact (of_mem_rows (List.mem_of_getElem? hget)).2

theorem wellFormed_replaceBlock {n p : Nat} {s : Shape} {ts us : List Tensor} (hp : p < n)
    (hts : WellFormed ⟨n :: s, .boxes ts⟩) (hus : ∀ u ∈ us, u.WellFormed) (hlength : us.length = Shape.size s) :
    WellFormed ⟨n :: s, .boxes (replaceBlock ts p (Shape.size s) us)⟩ := by
  refine .of_full (length_replaceBlock hp hts.full hlength) fun x hx => ?_
  rcases mem_replaceBlock hx with hx | hx
  · exact hts.contents x hx
  · exact hus x hx

/-- The elements with an array in place of row `p`: element for element, or as the content of a single box. -/
inductive RowPut (s : Shape) (p : Nat) (new : Tensor) : Elements Tensor → Elements Tensor → Prop
  | numbers {xs ys : Numbers} : new.shape = s → new.elements = .numbers ys →
    RowPut s p new (.numbers xs) (.numbers (replaceNumbers xs p s.size ys))
  | characters {cs ds : List Int32} : new.shape = s → new.elements = .characters ds →
    RowPut s p new (.characters cs) (.characters (replaceBlock cs p s.size ds))
  | boxes {ts us : List Tensor} : new.shape = s → new.elements = .boxes us →
    RowPut s p new (.boxes ts) (.boxes (replaceBlock ts p s.size us))
  | content {ts : List Tensor} : s = [] → RowPut s p new (.boxes ts) (.boxes (replaceBlock ts p s.size [new]))

theorem rowPut_of_replaceRow {n : Nat} {s : Shape} {e : Elements Tensor} {new r : Tensor} {i : Int}
    (hr : replaceRow ⟨n :: s, e⟩ i new = .ok r) : ∃ p e', p < n ∧ r = ⟨n :: s, e'⟩ ∧ RowPut s p new e e' := by
  obtain ⟨old, hold, hr⟩ := Except.bind_ok hr
  obtain ⟨hplace, hshape⟩ := place_of_row hold
  have hscalar (h : old.isScalar = true) : s = [] := hshape.symm.trans (List.isEmpty_iff.1 h)
  dsimp only at hr
  generalize (if i < 0 then i + (n : Int) else i).toNat = p at hplace hr
  obtain ⟨s', e'⟩ := new
  rw [hshape] at hr
  -- a single box takes any array as its content, and all other rows one of their own kind and shape
  cases e with
  | boxes ts =>
    cases e' with
    | boxes us =>
      dsimp only at hr
      split at hr
      · rename_i h
        cases hr
        exact ⟨p, _, hplace, rfl, .boxes h rfl⟩
      · split at hr
        · rename_i h
          cases hr
          exact ⟨p, _, hplace, rfl, .content (hscalar h)⟩
        · cases hr
    | numbers | characters =>
      dsimp only at hr
      split at hr
      · rename_i h
        cases hr
        exact ⟨p, _, hplace, rfl, .content (hscalar h)⟩
      · cases hr
  | numbers xs =>
    cases e' with
    | numbers ys =>
      dsimp only at hr
      split at hr
      · rename_i h
        cases hr
        exact ⟨p, _, hplace, rfl, .numbers h rfl⟩
      · cases hr
    | characters | boxes => cases hr
  | characters cs =>
    cases e' with
    | characters ds =>
      dsimp only at hr
      split at hr
      · rename_i h
        cases hr
        exact ⟨p, _, hplace, rfl, .characters h rfl⟩
      · cases hr
    | numbers | boxes => cases hr

theorem WellFormed.replaceRow {t new r : Tensor} (ht : t.WellFormed) (hnew : new.WellFormed) {i : Int}
    (hr : t.replaceRow i new = .ok r) : r.WellFormed := by
  obtain ⟨s, e⟩ := t
  cases s with
  | nil =>
    cases hr
    exact hnew
  | cons n s =>
    obtain ⟨p, e', hp, rfl, hput⟩ := rowPut_of_replaceRow hr
    have hfits (h : new.shape = s) : new.elements.length = Shape.size s := hnew.full.trans (congrArg Shape.size h)
    cases hput with
    | numbers h he =>
      rw [he] at hfits
      exact .of_plain (length_replaceNumbers hp ht.full (hfits h)) Kind.noConfusion
    | characters h he =>
      rw [he] at hfits
      exact .of_plain (length_replaceBlock hp ht.full (hfits h)) Kind.noConfusion
    | boxes h he =>
      have hcontents := hnew.contents
      rw [he] at hfits hcontents
      exact wellFormed_replaceBlock hp ht hcontents (hfits h)
    | content h =>
      subst h
      exact wellFormed_replaceBlock hp ht (List.forall_mem_singleton.2 hnew) rfl

/-! ## Rows kept and axes scaled -/

section

open Float.Model

theorem unpack_zero : (Float.ofNat 0).toModel.unpack = .zero .positive := by rfl

theorem floorWithSlack_positive : floorWithSlack ⟨.pack (.zero .positive)⟩ = 0 := by decide +kernel

theorem floorWithSlack_negative : floorWithSlack ⟨.pack (.zero .negative)⟩ = 0 := by decide +kernel

/-- No rows resample to none: a finite multiple of zero is zero. -/
theorem floorWithSlack_zero {x : Float} (h : x.isFinite) : floorWithSlack (Float.ofNat 0 * x) = 0 := by
  have hmul : Float.ofNat 0 * x =
      ⟨.pack (UnpackedFloat.mul .binary64 (Float.ofNat 0).toModel.unpack x.toModel.unpack)⟩ := rfl
  have hfinite : x.toModel.unpack.isFinite = true := h
  rw [hmul, unpack_zero]
  generalize x.toModel.unpack = y at hfinite
  have hsign (s : UnpackedFloat.Sign) : floorWithSlack ⟨.pack (.zero (.positive * s))⟩ = 0 := by
    cases s with
    | positive => exact floorWithSlack_positive
    | negative => exact floorWithSlack_negative
  cases y with
  | notANumber => cases hfinite
  | infinity => cases hfinite
  | zero s => exact hsign s
  | finite s => exact hsign s

end

theorem isFinite_of_keepFactor {xs : Numbers} {x : Float} (h : keepFactor xs = .ok x) : x.isFinite := by
  unfold keepFactor at h
  dsimp only at h
  split at h
  · cases h
  · rename_i hfinite
    split at h
    · cases h
    · cases h
      simpa using hfinite

theorem length_keepCounts {length : Nat} {counts : Tensor} {xs : Numbers} (hx : xs.length = counts.size)
    {ns : List Nat} (h : keepCounts length counts xs = .ok ns) : ns.length = length := by
  obtain ⟨s, e⟩ := counts
  unfold keepCounts at h
  dsimp only at h
  split at h
  · rename_i n
    split at h
    · cases h
    · rename_i hn
      have hdimensions : (dimensions xs).length = xs.length := by
        cases xs <;> exact List.length_map _
      have hsize : xs.length = n * 1 := hx
      rw [← (Except.forall₂_of_mapM h).length_eq, hdimensions, hsize, Nat.mul_one]
      exact not_not.1 hn
  · cases h

/-- What is kept of no rows is none of them. -/
theorem keepLength_zero {counts : Tensor} {xs : Numbers} (he : counts.elements = .numbers xs)
    (hs : counts.isScalar = true) {n : Nat} (h : keepLength 0 counts = .ok n) : n = 0 := by
  unfold keepLength at h
  rw [he] at h
  dsimp only at h
  rw [if_pos hs] at h
  obtain ⟨factor, hfactor, h⟩ := Except.bind_ok h
  cases h
  show (floorWithSlack (Float.ofNat 0 * factor)).toNat = 0
  rw [floorWithSlack_zero (isFinite_of_keepFactor hfactor)]
  rfl

/-- Kept rows are rows. -/
theorem lt_of_mem_keepIndices {length : Nat} {counts : Tensor} (hc : counts.Full) {is : List Nat}
    (h : keepIndices length counts = .ok is) : ∀ i ∈ is, i < length := by
  unfold keepIndices at h
  split at h
  · rename_i xs he
    have hx : xs.length = counts.size := by
      rw [← hc, he]
      rfl
    split at h
    · rename_i hscalar
      obtain ⟨factor, -, h⟩ := Except.bind_ok h
      obtain ⟨n, hn, h⟩ := Except.bind_ok h
      cases h
      intro i hi
      obtain ⟨k, hk, rfl⟩ := List.mem_map.1 hi
      cases length with
      | succ length => omega
      | zero =>
        rw [keepLength_zero he hscalar hn] at hk
        cases hk
    · obtain ⟨ns, hns, h⟩ := Except.bind_ok h
      cases h
      intro i hi
      obtain ⟨⟨n, row⟩, hmem, hi⟩ := List.mem_flatMap.1 hi
      rw [(List.mem_replicate.1 hi).2, ← length_keepCounts hx hns]
      exact (List.mem_zipIdx' hmem).1
  · cases h

theorem WellFormed.keep {counts t u : Tensor} (hc : counts.WellFormed) (ht : t.WellFormed)
    (hu : Tensor.keep counts t = .ok u) : u.WellFormed := by
  obtain ⟨is, his, hu⟩ := Except.bind_ok hu
  have hrows : t.asList.rowCount = t.asList.shape.getD 0 1 := by
    show Shape.rowCount t.asList.shape = _
    cases t.asList.shape <;> rfl
  rw [hrows] at his
  exact ht.asList.gather (List.length_pos_iff.2 t.asList_shape_ne) (lt_of_mem_keepIndices hc.full his) hu

/-- Each count is for an axis that the array has, and a selection along one axis leaves as many. -/
theorem wellFormed_scaleFrom : ∀ {fs : List Tensor} {axis : Nat} {t u : Tensor}, axis + fs.length ≤ t.rank →
    (∀ f ∈ fs, f.Full) → t.WellFormed → scaleFrom axis t fs = .ok u → u.WellFormed
  | [], _, _, _, _, _, ht, hu => by
    cases hu
    exact ht
  | f :: fs, axis, t, u, haxes, hf, ht, hu => by
    rw [List.length_cons] at haxes
    obtain ⟨is, his, hu⟩ := Except.bind_ok hu
    obtain ⟨v, hv, hu⟩ := Except.bind_ok hu
    have haxis : axis < t.rank := by omega
    have hin := lt_of_mem_keepIndices (hf f (by simp)) his
    obtain ⟨v', hv', -, hshape, -⟩ := gather_spec ht.full haxis hin
    cases hv'.symm.trans hv
    have hrank : v.rank = t.rank := by rw [rank, hshape, List.length_set]; rfl
    exact wellFormed_scaleFrom (by omega) (fun g hg => hf g (by simp [hg])) (ht.gather haxis hin hv) hu

/-- A count for each of the leading axes. -/
theorem scaleFactors_ok {factors t : Tensor} {fs : List Tensor} (h : scaleFactors factors t = .ok fs) :
    fs.length ≤ t.rank ∧ ∀ f ∈ fs, f = factors ∨ f ∈ factors.rows := by
  unfold scaleFactors at h
  split at h
  · cases h
  · split at h
    · cases h
      exact ⟨by simp, fun f hf => .inl (List.eq_of_mem_replicate hf)⟩
    · split at h
      · cases h
      · rename_i hcount
        cases h
        rw [length_rows]
        exact ⟨Nat.le_of_not_lt hcount, fun f hf => .inr hf⟩

theorem Full.of_scaleFactors {factors t f : Tensor} {fs : List Tensor} (hf : factors.Full)
    (h : scaleFactors factors t = .ok fs) (hmem : f ∈ fs) : f.Full := by
  rcases (scaleFactors_ok h).2 f hmem with rfl | hrow
  · exact hf
  · exact hf.rows f hrow

theorem WellFormed.scale {factors t u : Tensor} (hf : factors.WellFormed) (ht : t.WellFormed)
    (hu : Tensor.scale factors t = .ok u) : u.WellFormed := by
  obtain ⟨fs, hfs, hu⟩ := Except.bind_ok hu
  have haxes : 0 + fs.length ≤ t.rank := by
    rw [Nat.zero_add]
    exact (scaleFactors_ok hfs).1
  exact wellFormed_scaleFrom haxes (fun f hmem => hf.full.of_scaleFactors hfs hmem) ht hu

/-! ## Words -/

theorem wellFormed_onTensor {u : Unary} {t r : Tensor} (ht : t.WellFormed) (hr : u.onTensor t = .ok r) :
    r.WellFormed := by
  cases u with
  | identity => cases hr; exact ht
  | map op => exact ht.map hr
  | shape => exact wellFormed_vector hr
  | length => exact wellFormed_ofInt hr
  | range =>
    obtain ⟨s, -, hr⟩ := Except.bind_ok hr
    cases hr
    exact wellFormed_range s
  | reverse => cases hr; exact ht.reverse
  | transpose => cases hr; exact ht.transpose
  | untranspose => cases hr; exact ht.untranspose
  | deshape | fix => exact ht.reshape hr
  | unfix =>
    obtain ⟨s, -, hr⟩ := Except.bind_ok hr
    exact ht.reshape hr
  | box => cases hr; exact ht.box
  | unbox => cases hr; exact ht.unbox
  | first =>
    have hr : t.row 0 = .ok r := hr
    exact ht.row hr
  | equalRows => cases hr; exact wellFormed_truth _
  | groupByChange => cases hr; exact ht.groupByChange
  | primes => exact ht.primes hr

theorem WellFormed.rotate {count t r : Tensor} (ht : t.WellFormed) (hr : Tensor.rotate count t = .ok r) :
    r.WellFormed := by
  obtain ⟨n, -, hr⟩ := Except.bind_ok hr
  cases hr
  exact ht.rotateBy n

theorem wellFormed_onTensors {b : Binary} {top below r : Tensor} (ht : top.WellFormed) (hb : below.WellFormed)
    (hr : b.onTensors top below = .ok r) : r.WellFormed := by
  cases b with
  | apply op => exact hb.apply ht hr
  | reshape =>
    obtain ⟨s, -, hr⟩ := Except.bind_ok hr
    exact hb.reshape hr
  | cycleReshape =>
    obtain ⟨s, -, hr⟩ := Except.bind_ok hr
    exact hb.cycle hr
  | join => exact hb.join ht hr
  | couple =>
    cases hr
    exact wellFormed_ofRows (by simpa using ⟨hb, ht⟩)
  | indexAt =>
    obtain ⟨i, -, hr⟩ := Except.bind_ok hr
    exact hb.row hr
  | take => exact hb.take hr
  | drop => exact hb.drop hr
  | rotate => exact hb.rotate hr
  | unrotate =>
    obtain ⟨n, -, hr⟩ := Except.bind_ok hr
    obtain ⟨count, -, hr⟩ := Except.bind_ok hr
    exact hb.rotate hr
  | keep => exact ht.keep hb hr
  | scale => exact ht.scale hb hr
  | same => cases hr; exact wellFormed_truth _
  | splitOn =>
    obtain ⟨mask, -, hr⟩ := Except.bind_ok hr
    exact hb.splitRuns hr
  | joinFields =>
    obtain ⟨text, -, hr⟩ := Except.bind_ok hr
    cases hr
    exact wellFormed_string text
  | splitFields =>
    obtain ⟨texts, -, hr⟩ := Except.bind_ok hr
    cases hr
    exact wellFormed_strings texts
  | formatWith =>
    obtain ⟨template, -, hr⟩ := Except.bind_ok hr
    obtain ⟨texts, -, hr⟩ := Except.bind_ok hr
    obtain ⟨text, -, hr⟩ := Except.bind_ok hr
    cases hr
    exact wellFormed_string text
  | parseWith =>
    obtain ⟨template, -, hr⟩ := Except.bind_ok hr
    obtain ⟨text, -, hr⟩ := Except.bind_ok hr
    obtain ⟨texts, -, hr⟩ := Except.bind_ok hr
    cases hr
    exact wellFormed_strings texts
  | unscale op =>
    unfold Binary.onTensors at hr
    dsimp only at hr
    split at hr
    · cases hr
    · exact hb.apply ht hr

/-! ## What is left out -/

theorem WellFormed.leftOut {t : Tensor} (ht : t.WellFormed) (after : Bool) {start stop : Nat}
    (hstart : start ≤ t.rowCount) : (t.leftOut after start stop).WellFormed := by
  cases after with
  | true => exact ht.slice (Nat.le_refl _)
  | false => exact ht.slice hstart

end Tensor

end Tacit
