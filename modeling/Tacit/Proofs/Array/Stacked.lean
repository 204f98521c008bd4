/-
Rows stacked and split again. An array with rows is stacked of its rows. A list of arrays of one kind and shape has
its arrays for the rows of what is stacked of it, as the result stores them: numbers in the joint type of the list,
characters and boxes as they are. Stored in a type that holds it, an array equals itself unless it holds a float
that is not a number.
-/
import Tacit.Proofs.Array.Cut
import Tacit.Proofs.Array.Each
import Tacit.Proofs.Array.Equality

namespace Tacit

/-! ## Stored arrays -/

namespace Numbers

/-- Moved to a type that holds theirs, numbers equal what they were just where they equal themselves. -/
theorem same_convert_iff {type : NumberType} {xs : Numbers} (htype : type.join xs.type = type) :
    (convert type xs).same xs = true ↔ xs.same xs = true := by
  refine ⟨fun h => ?_, same_convert htype⟩
  cases xs with
  | bools bs => exact beq_self_eq_true bs
  | ints ns => exact beq_self_eq_true ns
  | floats fs =>
    obtain rfl : type = .float := by cases type <;> first | rfl | cases htype
    exact h

end Numbers

namespace Tensor

theorem same_storedIn_iff {t v : Tensor} (h : v.kind ≠ .box → t.elements.Holds v.elements) :
    (v.storedIn t).same v = true ↔ v.EveryNumber (¬·.IsNaN) := by
  rw [← same_self_iff]
  obtain ⟨s, e⟩ := v
  obtain ⟨s', e'⟩ := t
  cases e with
  | boxes ts => exact Iff.rfl
  | characters cs => exact Iff.rfl
  | numbers ys =>
    cases e' with
    | characters | boxes => exact (h Kind.noConfusion).elim
    | numbers xs =>
      have htype : xs.type.join ys.type = xs.type := h Kind.noConfusion
      change Tensor.same ⟨s, .numbers (ys.convert xs.type)⟩ ⟨s, .numbers ys⟩ = true ↔ _
      rw [same_numbers_iff, same_numbers_iff, Numbers.same_convert_iff htype]

/-! ## Rows of stacked rows -/

section

variable {rs : List Tensor} {kind : Kind} {s : Shape} (hne : rs ≠ [])
  (h : ∀ r ∈ rs, r.Full ∧ r.kind = kind ∧ r.shape = s)

include hne h

theorem rows_stacked_boxes (hbox : kind = .box) : (ofRows rs).rows = rs := by
  subst hbox
  have hbox : ∀ r ∈ rs, r.kind = .box ∧ r.shape = s := fun r hr => (h r hr).2
  rw [ofRows_eq hne hbox]
  obtain ⟨xss, rfl⟩ := exists_map_boxes hbox
  rw [concat_boxes, List.length_map]
  exact rows_flatMap .boxes Elements.blocks_boxes fun xs hxs => (h _ (List.mem_map_of_mem hxs)).1

/-- Each row is the array that it is stacked of, as it is stored, and equals it unless that holds a float that is
not a number. -/
theorem forall₂_rows_stacked : List.Forall₂ (fun row r => row = r.storedIn (ofRows rs) ∧
    (row.same r = true ↔ r.EveryNumber (¬·.IsNaN))) (ofRows rs).rows rs := by
  by_cases hbox : kind = .box
  · rw [rows_stacked_boxes hne h hbox, List.forall₂_same]
    intro r hr
    obtain ⟨-, hkind, -⟩ := h r hr
    obtain ⟨s', e⟩ := r
    cases e with
    | boxes xs => exact ⟨rfl, same_self_iff⟩
    | numbers | characters => cases hkind.trans hbox
  · have hmade := madeOf_ofRows hbox hne (fun r hr => (h r hr).1) fun r hr => (h r hr).2
    rw [hmade.rows, List.forall₂_map_left_iff, List.forall₂_same]
    exact fun r hr => ⟨rfl, same_storedIn_iff fun _ => hmade.holds r hr⟩

end

/-- Stacking undoes splitting: an array with rows is what is stacked of them. Splitting undoes stacking of arrays of
one kind and shape, as far as equality goes: each row is the array at its place, its numbers in the type of the stack,
and equals it if and only if the array holds no float that is not a number, which equals nothing. -/
theorem rows_stacked :
    (∀ a : Tensor, a.Full → a.shape ≠ [] → a.rowCount ≠ 0 → ofRows a.rows = a) ∧
    ∀ (rs : List Tensor) (kind : Kind) (s : Shape), rs ≠ [] → (∀ r ∈ rs, r.Full ∧ r.kind = kind ∧ r.shape = s) →
      (ofRows rs).kind = kind ∧ (ofRows rs).shape = rs.length :: s ∧
      List.Forall₂ (fun row r => row = r.storedIn (ofRows rs) ∧ (row.same r = true ↔ r.EveryNumber (¬·.IsNaN)))
        (ofRows rs).rows rs := by
  constructor
  · intro a ha haxis hrows
    refine ofRows_rows_of_ne ha haxis fun hnone => hrows ?_
    rw [← length_rows, hnone]
    rfl
  · intro rs kind s hne h
    refine ⟨?_, ?_, forall₂_rows_stacked hne h⟩
    · rw [ofRows_eq hne fun r hr => (h r hr).2]
      exact kind_concat kind rs
    · rw [ofRows_eq hne fun r hr => (h r hr).2]

/-- Boxes in rows of one box, and a list that has all three types of numbers. -/
theorem rows_stacked_mixed :
    let a : Tensor := ⟨[2, 1], .boxes [int 5, string [97]]⟩
    let rs := [ofNumbers [2] (.bools [true, false]), ofInts [2] [3, -4], ofNumbers [2] (.floats [0.5, 1.0])]
    a.Full ∧ ofRows a.rows = a ∧ (∀ r ∈ rs, r.Full ∧ r.kind = .number ∧ r.shape = [2]) ∧
      (ofRows rs).shape = [3, 2] ∧ List.Forall₂ (fun row r => row.same r = true) (ofRows rs).rows rs := by
  intro a rs
  obtain ⟨hsplit, hstack⟩ := rows_stacked
  have ha : a.Full := rfl
  have hrs : ∀ r ∈ rs, r.Full ∧ r.kind = .number ∧ r.shape = [2] := by
    simp only [rs, List.forall_mem_cons]
    exact ⟨⟨rfl, rfl, rfl⟩, ⟨rfl, rfl, rfl⟩, ⟨rfl, rfl, rfl⟩, nofun⟩
  obtain ⟨-, hshape, hrows⟩ := hstack rs .number [2] (List.cons_ne_nil _ _) hrs
  have hself : ∀ r ∈ rs, r.same r = true := by decide +kernel
  refine ⟨ha, hsplit a ha (List.cons_ne_nil _ _) (by decide), hrs, hshape, ?_⟩
  have hboth := (List.forall₂_and_left _ _).2 ⟨hself, hrows.flip⟩
  exact (hboth.imp fun r row hrow => hrow.2.2.2 (same_self_iff.1 hrow.1)).flip

/-- A float that is not a number comes out of the stack as it went in, and does not equal what it was. -/
theorem rows_stacked_nan :
    let nan : Tensor := ⟨[], .numbers (.floats [0.0 / 0.0])⟩
    (∀ r ∈ [nan, nan], r.Full ∧ r.kind = .number ∧ r.shape = []) ∧
      (ofRows [nan, nan]).rows = [nan, nan] ∧ nan.same nan = false := by
  intro nan
  have hnan : nan.Full ∧ nan.kind = .number ∧ nan.shape = [] := ⟨rfl, rfl, rfl⟩
  exact ⟨List.forall_mem_cons.2 ⟨hnan, List.forall_mem_singleton.2 hnan⟩, rfl, by decide +kernel⟩

end Tensor

end Tacit
