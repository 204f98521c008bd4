/-
Operations along the leading axis. What an operation that reaches every element gives for two arrays has
as rows what it gives for their rows, one beside the other; a scalar stands beside every row. Each operand
is spread over the shape of the result at once, and no row is looked at on its own: but a block of spread
elements is a block of elements, spread over the shape of a row.
-/
import Tacit.Proofs.Array.Boxed

namespace Tacit

/-! ## Blocks of elements side by side -/

section

variable {α β γ : Type}

theorem take_spread (k m : Nat) (xs : List α) : (spread m xs).take (k * m) = spread m (xs.take k) := by
  induction xs generalizing k with
  | nil => simp [spread]
  | cons x xs ih =>
    cases k with
    | zero => simp [spread]
    | succ k =>
      have hlength : (List.replicate m x).length = m := List.length_replicate
      rw [spread_cons, List.take_succ_cons, spread_cons, ← ih k, List.take_append, hlength,
        List.take_of_length_le (by rw [hlength, Nat.succ_mul]; omega)]
      congr 2
      rw [Nat.succ_mul, Nat.add_sub_cancel]

theorem drop_spread (k m : Nat) (xs : List α) : (spread m xs).drop (k * m) = spread m (xs.drop k) := by
  induction xs generalizing k with
  | nil => simp [spread]
  | cons x xs ih =>
    cases k with
    | zero => simp
    | succ k =>
      have hlength : (List.replicate m x).length = m := List.length_replicate
      rw [spread_cons, List.drop_succ_cons, ← ih k, List.drop_append, hlength,
        List.drop_of_length_le (by rw [hlength, Nat.succ_mul]; omega), List.nil_append]
      congr 1
      rw [Nat.succ_mul, Nat.add_sub_cancel]

theorem blocks_spread (n k m : Nat) (xs : List α) :
    blocks n (k * m) (spread m xs) = (blocks n k xs).map (spread m) := by
  induction n generalizing xs with
  | zero => rfl
  | succ n ih => rw [blocks, blocks, List.map_cons, take_spread, drop_spread, ih]

theorem blocks_replicate (n k : Nat) (x : α) :
    blocks n k (List.replicate (n * k) x) = List.replicate n (List.replicate k x) := by
  induction n with
  | zero => rfl
  | succ n ih =>
    have hle : k ≤ (n + 1) * k := by rw [Nat.succ_mul]; omega
    have hrest : (n + 1) * k - k = n * k := by rw [Nat.succ_mul, Nat.add_sub_cancel]
    rw [blocks, List.replicate_succ, List.take_replicate, List.drop_replicate, Nat.min_eq_left hle, hrest, ih]

theorem blocks_zipWith (f : α → β → γ) (n k : Nat) (xs : List α) (ys : List β) :
    blocks n k (List.zipWith f xs ys) = List.zipWith (List.zipWith f) (blocks n k xs) (blocks n k ys) := by
  induction n generalizing xs ys with
  | zero => rfl
  | succ n ih => rw [blocks, blocks, blocks, List.take_zipWith, List.drop_zipWith, ih, List.zipWith_cons_cons]

theorem blocks_map (f : α → β) (n k : Nat) (xs : List α) :
    blocks n k (xs.map f) = (blocks n k xs).map (List.map f) := by
  induction n generalizing xs with
  | zero => rfl
  | succ n ih => rw [blocks, blocks, ← List.map_take, ← List.map_drop, ih, List.map_cons]

theorem forall₂_blocks {R : α → β → Prop} {xs : List α} {ys : List β} (h : List.Forall₂ R xs ys) (n k : Nat) :
    List.Forall₂ (List.Forall₂ R) (blocks n k xs) (blocks n k ys) := by
  induction n generalizing xs ys with
  | zero => exact .nil
  | succ n ih => exact .cons (List.forall₂_take k h) (ih (List.forall₂_drop k h))

theorem mem_of_mem_blocks {n k : Nat} {xs b : List α} (hb : b ∈ blocks n k xs) {x : α} (hx : x ∈ b) : x ∈ xs := by
  induction n generalizing xs with
  | zero => cases hb
  | succ n ih =>
    rcases List.mem_cons.1 hb with rfl | hb
    · exact List.mem_of_mem_take hx
    · exact List.mem_of_mem_drop (ih hb)

end

/-! ## Elements beside rows -/

/-- The elements that an array of the shape given has beside each of `n` rows: those of its own row, or the
element of a scalar. -/
def partsFor {α : Type} (n : Nat) (s : Shape) (xs : List α) : List (List α) :=
  match s with
  | [] => List.replicate n xs
  | _ :: s => blocks n (Shape.size s) xs

section

variable {α β : Type} {n : Nat} {short s : Shape} {xs : List α}

theorem partsFor_map (f : α → β) : partsFor n short (xs.map f) = (partsFor n short xs).map (List.map f) := by
  cases short with
  | nil => exact List.map_replicate.symm
  | cons m short => exact blocks_map f n _ xs

theorem mem_of_mem_partsFor {part : List α} (h : part ∈ partsFor n short xs) {x : α} (hx : x ∈ part) : x ∈ xs := by
  cases short with
  | nil => rwa [List.eq_of_mem_replicate h] at hx
  | cons m short => exact mem_of_mem_blocks h hx

theorem length_of_mem_partsFor (hshort : short <+: n :: s) (hxs : xs.length = short.size) {part : List α}
    (h : part ∈ partsFor n short xs) : part.length = Shape.size short.tail := by
  cases short with
  | nil => rwa [List.eq_of_mem_replicate h]
  | cons m short =>
    obtain ⟨rfl, -⟩ := List.cons_prefix_cons.1 hshort
    exact length_of_mem_blocks (n := m) hxs h

/-- A block of the spread elements is what stands beside the row, spread over the shape of the row. -/
theorem blocks_spreadTo (hshort : short <+: n :: s) (hxs : xs.length = short.size) :
    blocks n s.size (spreadTo short (n :: s) xs) = (partsFor n short xs).map (spreadTo short.tail s) := by
  cases short with
  | nil =>
    obtain ⟨x, rfl⟩ := List.length_eq_one_iff.1 hxs
    have hspread : ∀ k, spread k [x] = List.replicate k x := fun k => List.flatMap_singleton ..
    show blocks n s.size (spread (n * s.size) [x]) = (List.replicate n [x]).map (spread s.size)
    rw [hspread, blocks_replicate, List.map_replicate, hspread]
  | cons m short =>
    obtain ⟨rfl, hrow⟩ := List.cons_prefix_cons.1 hshort
    show blocks m s.size (spread (Shape.size (s.drop short.length)) xs) = _
    rw [← Shape.size_mul_size_drop hrow, blocks_spread]
    rfl

end

namespace Shape

/-- Rows of arrays whose shapes agree have shapes that agree. -/
theorem agree_tail {left right s : Shape} {n : Nat} {name : String}
    (h : left.agree right name = .ok (n :: s)) : agree left.tail right.tail name = .ok s := by
  have htail : ∀ {short : Shape}, short <+: n :: s → short.tail <+: s := by
    intro short h
    cases short with
    | nil => exact List.nil_prefix
    | cons m short => exact (List.cons_prefix_cons.1 h).2
  rcases agree_eq_ok_iff.1 h with ⟨hleft, rfl⟩ | ⟨hright, rfl⟩
  · exact agree_eq_ok_iff.2 (.inl ⟨htail hleft, rfl⟩)
  · exact agree_eq_ok_iff.2 (.inr ⟨htail hright, rfl⟩)

end Shape

namespace Tensor

/-! ## Boxes met one by one -/

section

variable (name : String) (plain : Tensor → Tensor → Shape → Except Fault Tensor)

theorem length_boxedElements {t : Tensor} (h : t.Full) : t.boxedElements.length = t.shape.size := by
  obtain ⟨s, e⟩ := t
  cases e with
  | boxes ts => exact h
  | numbers xs | characters xs =>
    show (scalars ⟨s, _⟩).length = _
    unfold scalars
    rw [List.length_map, Elements.length_blocks]
    exact h

theorem pervadeRight_eq {l : Tensor} (h : l.kind ≠ .box) (r : Tensor) :
    pervadeRight name plain l r = pervade name plain l r := by
  obtain ⟨s, e⟩ := l
  cases e with
  | boxes ts => exact absurd rfl h
  | numbers xs | characters xs => unfold pervade; rfl

/-- The elements of an array without boxes have none either. -/
theorem kind_of_mem_boxedElements {t u : Tensor} (h : t.kind ≠ .box) (hu : u ∈ t.boxedElements) :
    u.kind ≠ .box := by
  obtain ⟨l, s, xs, rfl⟩ := Leaf.exists_array h
  rw [l.boxedElements_array] at hu
  obtain ⟨x, -, rfl⟩ := List.mem_map.1 hu
  rw [Leaf.scalar, l.kind_array]
  cases l <;> simp [Leaf.kind]

/-- Where one operand has boxes, the operation is called for the elements that stand side by side. -/
theorem pervade_boxes {l r : Tensor} (hl : l.Full) (hr : r.Full) (hbox : l.kind = .box ∨ r.kind = .box) {s : Shape}
    (hagree : l.shape.agree r.shape name = .ok s) : pervade name plain l r = (do
      let ts ← ((spreadTo l.shape s l.boxedElements).zip (spreadTo r.shape s r.boxedElements)).mapM
        fun p => pervade name plain p.1 p.2
      return ⟨s, .boxes ts⟩) := by
  obtain ⟨hleft, hright⟩ := Shape.prefix_of_agree hagree
  have hlength : (spreadTo l.shape s l.boxedElements).length = (spreadTo r.shape s r.boxedElements).length :=
    (length_spreadTo hleft (length_boxedElements hl)).trans
      (length_spreadTo hright (length_boxedElements hr)).symm
  by_cases hkind : l.kind = .box
  · obtain ⟨s₁, e⟩ := l
    cases e with
    | boxes ts =>
      have hlefts : (spreadTo r.shape s r.boxedElements).length = ts.length * Shape.size (s.drop s₁.length) := by
        rw [← hlength, spreadTo, length_spread]
        rfl
      rw [pervade, hagree]
      show (pervadeLefts name plain ts _ (spreadTo r.shape s r.boxedElements) >>= _) = _
      rw [pervadeLefts_eq name plain _ _ _ hlefts]
      rfl
    | numbers xs | characters xs => cases hkind
  · have hrbox := hbox.resolve_left hkind
    rw [← pervadeRight_eq name plain hkind]
    obtain ⟨s₂, e⟩ := r
    cases e with
    | boxes ts =>
      have hscalars : l.boxedElements = l.scalars := by
        obtain ⟨a, s₁, xs, rfl⟩ := Leaf.exists_array hkind
        rw [a.boxedElements_array, a.scalars_array]
      have hrights : (spreadTo l.shape s l.scalars).length = ts.length * Shape.size (s.drop s₂.length) := by
        rw [← hscalars, hlength, spreadTo, length_spread]
        rfl
      rw [pervadeRight, hagree]
      show (pervadeRights name plain (spreadTo l.shape s l.scalars) _ ts >>= _) = _
      rw [pervadeRights_eq name plain _ _ _ hrights, ← hscalars]
      refine congrArg (· >>= _) (Except.mapM_congr fun p hp => ?_)
      have hmem := mem_of_mem_spreadTo (List.of_mem_zip hp).1
      exact pervadeRight_eq name plain (kind_of_mem_boxedElements hkind hmem) p.2
    | numbers xs | characters xs => cases hrbox

theorem pervade_plain {l r : Tensor} (hl : l.kind ≠ .box) (hr : r.kind ≠ .box) :
    pervade name plain l r = (do plain l r (← l.shape.agree r.shape name)) := by
  obtain ⟨a, s₁, xs, rfl⟩ := Leaf.exists_array hl
  obtain ⟨b, s₂, ys, rfl⟩ := Leaf.exists_array hr
  exact pervade_array name plain

theorem exists_agree_of_pervade {l r c : Tensor} (h : pervade name plain l r = .ok c) :
    ∃ s, l.shape.agree r.shape name = .ok s := by
  have hright : pervadeRight name plain l r = .ok c → ∃ s, l.shape.agree r.shape name = .ok s := by
    intro h
    obtain ⟨s, e⟩ := r
    cases e with
    | boxes ts | numbers xs | characters xs =>
      unfold pervadeRight at h
      obtain ⟨s', hs', -⟩ := Except.bind_ok h
      exact ⟨s', hs'⟩
  obtain ⟨s, e⟩ := l
  cases e with
  | boxes ts =>
    unfold pervade at h
    obtain ⟨s', hs', -⟩ := Except.bind_ok h
    exact ⟨s', hs'⟩
  | numbers xs | characters xs =>
    unfold pervade at h
    exact hright h

theorem pervade_boxes_eq_ok_iff {l r c : Tensor} (hl : l.Full) (hr : r.Full)
    (hbox : l.kind = .box ∨ r.kind = .box) : pervade name plain l r = .ok c ↔
      ∃ s, l.shape.agree r.shape name = .ok s ∧ ∃ ts,
        ((spreadTo l.shape s l.boxedElements).zip (spreadTo r.shape s r.boxedElements)).mapM
          (fun p => pervade name plain p.1 p.2) = .ok ts ∧ c = ⟨s, .boxes ts⟩ := by
  constructor
  · intro h
    obtain ⟨s, hs⟩ := exists_agree_of_pervade name plain h
    rw [pervade_boxes name plain hl hr hbox hs] at h
    obtain ⟨ts, hts, h⟩ := Except.bind_ok h
    cases h
    exact ⟨s, hs, ts, hts, rfl⟩
  · rintro ⟨s, hs, ts, hts, rfl⟩
    rw [pervade_boxes name plain hl hr hbox hs]
    exact Except.bind_of_ok hts rfl

end

/-! ## Rows side by side -/

/-- What stands beside each of `n` rows: the rows of an array, or a scalar each time. -/
def beside (n : Nat) (t : Tensor) : List Tensor := if t.isScalar then List.replicate n t else t.rows

section

variable {n : Nat} {s : Shape} {t q : Tensor}

theorem beside_array (l : Leaf) {short : Shape} (xs : List l.Value) (h : short <+: n :: s) :
    (l.array short xs).beside n = (partsFor n short xs).map (l.array short.tail) := by
  cases short with
  | nil => exact List.map_replicate.symm
  | cons m short =>
    obtain ⟨rfl, -⟩ := List.cons_prefix_cons.1 h
    exact l.rows_array short xs m

theorem beside_boxes {short : Shape} (ts : List Tensor) (h : short <+: n :: s) :
    beside n ⟨short, .boxes ts⟩ = (partsFor n short ts).map fun part => ⟨short.tail, .boxes part⟩ := by
  cases short with
  | nil =>
    rw [partsFor, List.map_replicate]
    rfl
  | cons m short =>
    obtain ⟨rfl, -⟩ := List.cons_prefix_cons.1 h
    exact rows_ofBoxes m short ts

/-- The elements beside the rows are those of what stands there. -/
theorem map_boxedElements_beside (h : t.shape <+: n :: s) :
    (t.beside n).map boxedElements = partsFor n t.shape t.boxedElements := by
  by_cases hkind : t.kind = .box
  · obtain ⟨short, e⟩ := t
    cases e with
    | boxes ts =>
      rw [beside_boxes ts h, List.map_map]
      exact List.map_id _
    | numbers xs | characters xs => cases hkind
  · obtain ⟨l, short, xs, rfl⟩ := Leaf.exists_array hkind
    have hparts : (l.array short xs).beside n = _ := beside_array l xs h
    rw [hparts, List.map_map, l.boxedElements_array]
    exact (List.map_congr_left fun part _ => l.boxedElements_array short.tail part).trans (partsFor_map l.scalar).symm

theorem of_mem_beside (ht : t.Full) (h : t.shape <+: n :: s) (hq : q ∈ t.beside n) :
    q.kind = t.kind ∧ q.shape = t.shape.tail ∧ q.Full := by
  obtain ⟨short, e⟩ := t
  cases short with
  | nil =>
    obtain rfl := List.eq_of_mem_replicate hq
    exact ⟨rfl, rfl, ht⟩
  | cons m short =>
    have hrow : q ∈ rows ⟨m :: short, e⟩ := hq
    obtain ⟨hkind, hshape⟩ := of_mem_rows hrow
    exact ⟨hkind, hshape, ht.of_mem_rows hrow⟩

theorem row_of_beside {i : Nat} (ht : t.isScalar = false) (hq : (t.beside n)[i]? = some q) : t.row i = .ok q := by
  rw [beside, if_neg (by simp [ht])] at hq
  exact row_natCast hq

theorem eq_of_beside {i : Nat} (ht : t.isScalar = true) (hq : (t.beside n)[i]? = some q) : q = t := by
  rw [beside, if_pos ht] at hq
  exact List.eq_of_mem_replicate (List.mem_of_getElem? hq)

end

section

variable {name : String} {plain : Tensor → Tensor → Shape → Except Fault Tensor} {n : Nat} {s : Shape} {c : Tensor}

/-- One pass over spread elements gives row by row what one pass for each pair of rows gives. -/
theorem Elementwise.rows {l r : Leaf} (h : Elementwise plain l r) {s₁ s₂ : Shape} {xs : List l.Value}
    {ys : List r.Value} (hx : (l.array s₁ xs).Full) (hy : (r.array s₂ ys).Full)
    (hagree : s₁.agree s₂ name = .ok (n :: s)) (hc : plain (l.array s₁ xs) (r.array s₂ ys) (n :: s) = .ok c) :
    List.Forall₂ (fun p k => pervade name plain p.1 p.2 = .ok k)
      (((l.array s₁ xs).beside n).zip ((r.array s₂ ys).beside n)) c.rows := by
  have hxs : xs.length = s₁.size := (l.length_elements xs).symm.trans hx
  have hys : ys.length = s₂.size := (r.length_elements ys).symm.trans hy
  obtain ⟨hleft, hright⟩ := Shape.prefix_of_agree hagree
  cases h with
  | fails fault h =>
    rw [h] at hc
    cases hc
  | @pairs out f p q fault h =>
    rw [h _ _ _ _ _ (length_spreadTo hleft hxs) (length_spreadTo hright hys)] at hc
    by_cases hall : (∀ x ∈ xs, p x) ∧ ∀ y ∈ ys, q y
    · rw [if_pos hall] at hc
      cases hc
      have hrows : rows (out.array (n :: s) (List.zipWith f (spreadTo s₁ (n :: s) xs) (spreadTo s₂ (n :: s) ys))) =
          ((partsFor n s₁ xs).zip (partsFor n s₂ ys)).map fun part =>
            out.array s (List.zipWith f (spreadTo s₁.tail s part.1) (spreadTo s₂.tail s part.2)) := by
        rw [out.rows_array, blocks_zipWith, blocks_spreadTo hleft hxs, blocks_spreadTo hright hys, List.zipWith_map,
          ← List.map_uncurry_zip_eq_zipWith, List.map_map]
        rfl
      rw [hrows, beside_array l xs hleft, beside_array r ys hright, List.zip_map, List.forall₂_map_left_iff,
        List.forall₂_map_right_iff, List.forall₂_same]
      rintro ⟨xpart, ypart⟩ hpart
      obtain ⟨hxpart, hypart⟩ := List.of_mem_zip hpart
      have htail := Shape.agree_tail hagree
      obtain ⟨hleft', hright'⟩ := Shape.prefix_of_agree htail
      show pervade name plain (l.array s₁.tail xpart) (r.array s₂.tail ypart) = _
      rw [pervade_array, htail, Except.ok_bind,
        h _ _ _ _ _ (length_spreadTo hleft' (length_of_mem_partsFor hleft hxs hxpart))
          (length_spreadTo hright' (length_of_mem_partsFor hright hys hypart)), if_pos]
      exact ⟨fun x hx => hall.1 x (mem_of_mem_partsFor hxpart hx), fun y hy => hall.2 y (mem_of_mem_partsFor hypart hy)⟩
    · rw [if_neg hall] at hc
      cases hc

/-- Calls for the elements side by side, row by row. -/
theorem boxes_rows {l r : Tensor} (hl : l.Full) (hr : r.Full) (hbox : l.kind = .box ∨ r.kind = .box)
    (hagree : l.shape.agree r.shape name = .ok (n :: s)) (hc : pervade name plain l r = .ok c) :
    List.Forall₂ (fun p k => pervade name plain p.1 p.2 = .ok k) ((l.beside n).zip (r.beside n)) c.rows := by
  obtain ⟨hleft, hright⟩ := Shape.prefix_of_agree hagree
  rw [pervade_boxes name plain hl hr hbox hagree] at hc
  obtain ⟨ts, hts, hc⟩ := Except.bind_ok hc
  cases hc
  have hblocks : blocks n s.size ((spreadTo l.shape (n :: s) l.boxedElements).zip
      (spreadTo r.shape (n :: s) r.boxedElements)) = ((l.beside n).zip (r.beside n)).map fun p =>
        (spreadTo l.shape.tail s p.1.boxedElements).zip (spreadTo r.shape.tail s p.2.boxedElements) := by
    rw [List.zip_eq_zipWith, blocks_zipWith, blocks_spreadTo hleft (length_boxedElements hl),
      blocks_spreadTo hright (length_boxedElements hr), ← map_boxedElements_beside hleft,
      ← map_boxedElements_beside hright, List.map_map, List.map_map, List.zipWith_map,
      ← List.map_uncurry_zip_eq_zipWith]
    rfl
  have hpairs := forall₂_blocks (Except.forall₂_of_mapM hts) n s.size
  rw [hblocks, List.forall₂_map_left_iff] at hpairs
  rw [rows_ofBoxes, List.forall₂_map_right_iff]
  have hmembers := (List.forall₂_and_left _ _).2 ⟨fun p (hp : p ∈ (l.beside n).zip (r.beside n)) => hp, hpairs⟩
  refine hmembers.imp fun p part hp => ?_
  obtain ⟨hmem, hpart⟩ := hp
  obtain ⟨hlmem, hrmem⟩ := List.of_mem_zip hmem
  obtain ⟨hlkind, hlshape, hlfull⟩ := of_mem_beside hl hleft hlmem
  obtain ⟨hrkind, hrshape, hrfull⟩ := of_mem_beside hr hright hrmem
  have htail := Shape.agree_tail hagree
  rw [← hlshape, ← hrshape] at htail hpart
  rw [← hlkind, ← hrkind] at hbox
  rw [pervade_boxes name plain hlfull hrfull hbox htail, Except.mapM_of_forall₂ hpart]
  rfl

/-- The result has the shape that the operands agree on, and is made row by row. -/
theorem pervade_rows (helementwise : ∀ l r, Elementwise plain l r) {l r : Tensor} (hl : l.Full) (hr : r.Full)
    (hc : pervade name plain l r = .ok c) : l.shape.agree r.shape name = .ok c.shape ∧
      ∀ n s, c.shape = n :: s → List.Forall₂ (fun p k => pervade name plain p.1 p.2 = .ok k)
        ((l.beside n).zip (r.beside n)) c.rows := by
  obtain ⟨s, hagree⟩ := exists_agree_of_pervade name plain hc
  by_cases hbox : l.kind = .box ∨ r.kind = .box
  · have hshape : c.shape = s := by
      rw [pervade_boxes name plain hl hr hbox hagree] at hc
      obtain ⟨ts, -, hc⟩ := Except.bind_ok hc
      cases hc
      rfl
    refine ⟨hshape ▸ hagree, fun n s' hcons => ?_⟩
    rw [← hshape, hcons] at hagree
    exact boxes_rows hl hr hbox hagree hc
  · obtain ⟨hlkind, hrkind⟩ := not_or.1 hbox
    obtain ⟨a, s₁, xs, rfl⟩ := Leaf.exists_array hlkind
    obtain ⟨b, s₂, ys, rfl⟩ := Leaf.exists_array hrkind
    have hplain : plain (a.array s₁ xs) (b.array s₂ ys) s = .ok c := by
      have hagree : s₁.agree s₂ name = .ok s := hagree
      rwa [pervade_array, hagree] at hc
    obtain ⟨hleft, hright⟩ := spread_lengths name hagree hl hr
    have hshape : c.shape = s := ((helementwise a b).pairUp_ok hleft hright hplain).1
    refine ⟨hshape ▸ hagree, fun n s' hcons => ?_⟩
    rw [← hshape, hcons] at hagree hplain
    exact (helementwise a b).rows hl hr hagree hplain

/-- Entry by entry what is related pair by pair. -/
theorem exists_getElem?_of_forall₂_zip {α β γ : Type} {R : α → β → γ → Prop} {xs : List α} {ys : List β} {zs : List γ}
    (h : List.Forall₂ (fun p z => R p.1 p.2 z) (xs.zip ys) zs) {i : Nat} (hi : i < zs.length) :
    ∃ x y z, xs[i]? = some x ∧ ys[i]? = some y ∧ zs[i]? = some z ∧ R x y z := by
  have hzip : i < (xs.zip ys).length := by rwa [h.length_eq]
  have hpair := h.get hzip hi
  refine ⟨(xs.zip ys)[i].1, (xs.zip ys)[i].2, zs[i], ?_, ?_, List.getElem?_eq_getElem hi, hpair⟩
  · rw [List.getElem_zip]
    exact List.getElem?_eq_getElem _
  · rw [List.getElem_zip]
    exact List.getElem?_eq_getElem _

/-- A row of the result, and what stands beside it. -/
theorem exists_beside_of_pervade (helementwise : ∀ l r, Elementwise plain l r) {l r : Tensor} (hl : l.Full)
    (hr : r.Full) (hc : pervade name plain l r = .ok c) (hscalars : l.isScalar = false ∨ r.isScalar = false)
    {i : Nat} (hi : i < c.rowCount) : ∃ a b k, (l.beside c.rowCount)[i]? = some a ∧
      (r.beside c.rowCount)[i]? = some b ∧ c.row i = .ok k ∧ pervade name plain a b = .ok k := by
  obtain ⟨hagree, hrows⟩ := pervade_rows helementwise hl hr hc
  obtain ⟨hleft, hright⟩ := Shape.prefix_of_agree hagree
  have hi' : i < c.rows.length := by rwa [length_rows]
  obtain ⟨s, e⟩ := c
  cases s with
  | nil =>
    have hlscalar : l.isScalar = true := List.isEmpty_iff.2 (List.prefix_nil.1 hleft)
    have hrscalar : r.isScalar = true := List.isEmpty_iff.2 (List.prefix_nil.1 hright)
    rw [hlscalar, hrscalar] at hscalars
    simp at hscalars
  | cons n s =>
    obtain ⟨a, b, k, ha, hb, hk, h⟩ := exists_getElem?_of_forall₂_zip
      (R := fun a b k => pervade name plain a b = .ok k) (hrows n s rfl) hi'
    exact ⟨a, b, k, ha, hb, row_natCast hk, h⟩

end

/-! ## Named operations -/

/-- What an operation gives has the longer of the two shapes, which the other leads, so no axis of an operand
is of another length in the result; its rows are what the operation gives for the rows of both operands, or
for a scalar and the rows of the other. -/
theorem applyNamed_rows (name : String) {l r c : Tensor} (hl : l.Full) (hr : r.Full)
    (hc : applyNamed name l r = .ok c) :
    (c.shape = if l.rank ≤ r.rank then r.shape else l.shape) ∧ l.shape <+: c.shape ∧ r.shape <+: c.shape ∧
    (l.isScalar = false → r.isScalar = false → ∀ i : Nat, i < c.rowCount → ∃ a b k,
      l.row i = .ok a ∧ r.row i = .ok b ∧ c.row i = .ok k ∧ applyNamed name a b = .ok k) ∧
    (l.isScalar = true → r.isScalar = false → ∀ i : Nat, i < c.rowCount → ∃ b k,
      r.row i = .ok b ∧ c.row i = .ok k ∧ applyNamed name l b = .ok k) ∧
    (l.isScalar = false → r.isScalar = true → ∀ i : Nat, i < c.rowCount → ∃ a k,
      l.row i = .ok a ∧ c.row i = .ok k ∧ applyNamed name a r = .ok k) := by
  obtain ⟨plain, happly, helementwise⟩ := exists_elementwise name
  rw [happly] at hc ⊢
  obtain ⟨hagree, hrows⟩ := pervade_rows helementwise hl hr hc
  obtain ⟨hleft, hright⟩ := Shape.prefix_of_agree hagree
  have hlonger : c.shape = if l.rank ≤ r.rank then r.shape else l.shape := by
    rcases Shape.agree_eq_ok_iff.1 hagree with ⟨h, heq⟩ | ⟨h, heq⟩
    · rw [if_pos (by rw [rank, rank, heq]; exact h.length_le), heq]
    · by_cases hrank : l.rank ≤ r.rank
      · rw [if_pos hrank]
        rw [rank, heq] at hrank
        exact (h.eq_of_length_le hrank).symm
      · rw [if_neg hrank, heq]
  refine ⟨hlonger, hleft, hright, fun hls hrs i hi => ?_, fun hls hrs i hi => ?_, fun hls hrs i hi => ?_⟩
  · obtain ⟨a, b, k, ha, hb, hk, h⟩ := exists_beside_of_pervade helementwise hl hr hc (.inl hls) hi
    exact ⟨a, b, k, row_of_beside hls ha, row_of_beside hrs hb, hk, h⟩
  · obtain ⟨a, b, k, ha, hb, hk, h⟩ := exists_beside_of_pervade helementwise hl hr hc (.inr hrs) hi
    obtain rfl := eq_of_beside hls ha
    exact ⟨b, k, row_of_beside hrs hb, hk, h⟩
  · obtain ⟨a, b, k, ha, hb, hk, h⟩ := exists_beside_of_pervade helementwise hl hr hc (.inl hls) hi
    obtain rfl := eq_of_beside hrs hb
    exact ⟨a, k, row_of_beside hls ha, hk, h⟩

/-- A number and a box of letters for each row of two numbers; then a scalar less each row. -/
theorem applyNamed_rows_mixed :
    let l : Tensor := .boxes [.int 10, ⟨[2], .characters [97, 98]⟩]
    let r := ofInts [2, 2] [1, 2, 3, 4]
    (∃ c, applyNamed "add" l r = .ok c ∧ c.shape = [2, 2] ∧ ∀ i : Nat, i < 2 → ∃ a b k,
      l.row i = .ok a ∧ r.row i = .ok b ∧ c.row i = .ok k ∧ applyNamed "add" a b = .ok k) ∧
    ∃ c, applyNamed "subtract" (.int 10) r = .ok c ∧ ∀ i : Nat, i < 2 → ∃ b k,
      r.row i = .ok b ∧ c.row i = .ok k ∧ applyNamed "subtract" (.int 10) b = .ok k := by
  intro l r
  have hl : l.Full := rfl
  have hr : r.Full := rfl
  have hscalar : (int 10).Full := rfl
  constructor
  · obtain ⟨c, hc, hshape⟩ : ∃ c, applyNamed "add" l r = .ok c ∧ c.shape = [2, 2] := ⟨_, rfl, rfl⟩
    have hrows := (applyNamed_rows "add" hl hr hc).2.2.2.1 rfl rfl
    refine ⟨c, hc, hshape, fun i hi => hrows i ?_⟩
    rwa [rowCount, hshape]
  · obtain ⟨c, hc, hshape⟩ : ∃ c, applyNamed "subtract" (int 10) r = .ok c ∧ c.shape = [2, 2] := ⟨_, rfl, rfl⟩
    have hrows := (applyNamed_rows "subtract" hscalar hr hc).2.2.2.2.1 rfl rfl
    refine ⟨c, hc, fun i hi => hrows i ?_⟩
    rwa [rowCount, hshape]

end Tensor

end Tacit
