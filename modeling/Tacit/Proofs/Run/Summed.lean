/-
Sums of rows. Addition of integers associates, also where it wraps, and so does addition place by place: the rows
of two arrays joined come to what the sums of the two come to. Without rows the sum is the scalar zero, which adds
nothing to a row of any shape.
-/
import Tacit.Proofs.Array.Equality
import Tacit.Proofs.Array.Swapped
import Tacit.Proofs.Run.Factored

namespace Tacit

/-- The function that `sum` folds with. -/
abbrev Fn.add : Fn := .word (.binary (.apply .add))

/-! ## Rows of integers -/

/-- Two rows added place by place. -/
def addRows (xs ys : List Int32) : List Int32 := List.zipWith (· + ·) xs ys

theorem addRows_assoc (xs : List Int32) : ∀ ys zs, addRows (addRows xs ys) zs = addRows xs (addRows ys zs) := by
  induction xs with
  | nil => exact fun _ _ => rfl
  | cons x xs ih =>
    rintro (_ | ⟨y, ys⟩) (_ | ⟨z, zs⟩)
    · rfl
    · rfl
    · rfl
    · exact List.cons_eq_cons.2 ⟨Int32.add_assoc x y z, ih ys zs⟩

instance : Std.Associative addRows := ⟨addRows_assoc⟩

theorem addRows_zeros (xs : List Int32) : addRows xs (List.replicate xs.length 0) = xs := by
  induction xs with
  | nil => rfl
  | cons x xs ih => exact List.cons_eq_cons.2 ⟨Int32.add_zero x, ih⟩

theorem length_foldl_addRows {k : Nat} {rows : List (List Int32)} (h : ∀ row ∈ rows, row.length = k) :
    ∀ {row : List Int32}, row.length = k → (rows.foldl addRows row).length = k := by
  induction rows with
  | nil => exact id
  | cons next rows ih =>
    intro row hrow
    obtain ⟨hnext, hrows⟩ := List.forall_mem_cons.1 h
    refine ih hrows ?_
    unfold addRows
    rw [List.length_zipWith, hrow, hnext, Nat.min_self]

/-- What rows in the shape `s` come to, added from the first to the last. -/
def sumOfRows (s : Shape) : List (List Int32) → Tensor
  | [] => .int 0
  | row :: rows => .ofInts s (rows.foldl addRows row)

namespace Tensor

/-! ## Sums of arrays -/

theorem everyNumber_sumOfRows {p : Number → Prop} (h : ∀ n, p (.int n)) (s : Shape) (rows : List (List Int32)) :
    (sumOfRows s rows).EveryNumber p := by
  cases rows with
  | nil => exact .ofInts h [] [0]
  | cons row rows => exact .ofInts h s (rows.foldl addRows row)

section

variable {s : Shape}

theorem apply_add_rows (xs ys : List Int32) :
    apply .add (ofInts s xs) (ofInts s ys) = .ok (ofInts s (addRows xs ys)) := by
  have hspread : spreadTo s s ys = ys := by
    unfold spreadTo
    rw [List.drop_length]
    exact spread_one ys
  have happly : apply .add (ofInts s xs) (ofInts s ys) = .ok (ofInts s (addRows xs (spreadTo s s ys))) :=
    apply_numbers Shift.add nofun (List.prefix_refl s)
  rwa [hspread] at happly

theorem apply_add_zero {xs : List Int32} (hx : xs.length = s.size) :
    apply .add (ofInts s xs) (int 0) = .ok (ofInts s xs) := by
  have happly : apply .add (ofInts s xs) (ofInts [] [0]) = .ok (ofInts s (addRows xs (spreadTo [] s [0]))) :=
    apply_numbers Shift.add nofun List.nil_prefix
  -- the scalar is spread over all places of the row
  have hspread : spreadTo [] s [(0 : Int32)] = List.replicate xs.length 0 := by
    rw [hx]
    exact List.flatMap_singleton ..
  rwa [hspread, addRows_zeros] at happly

theorem apply_zero_add {xs : List Int32} (hx : xs.length = s.size) :
    apply .add (int 0) (ofInts s xs) = .ok (ofInts s xs) := by
  have hints (s : Shape) (ns : List Int32) : (ofInts s ns).EveryNumber (¬·.IsFloat) := .ofInts (fun _ => not_false) s ns
  exact (apply_swap .add (wellFormed_int 0) (wellFormed_ofInts hx) (hints [] [0]) (hints s xs) _).2 (apply_add_zero hx)

/-- The sum of all rows is the sum of the first ones with that of the others. -/
theorem apply_add_sums {rows rows' : List (List Int32)} (h : ∀ row ∈ rows, row.length = s.size)
    (h' : ∀ row ∈ rows', row.length = s.size) :
    apply .add (sumOfRows s rows) (sumOfRows s rows') = .ok (sumOfRows s (rows ++ rows')) := by
  cases rows with
  | nil =>
    cases rows' with
    | nil => rfl
    | cons row rows =>
      obtain ⟨hrow, hrows⟩ := List.forall_mem_cons.1 h'
      exact apply_zero_add (length_foldl_addRows hrows hrow)
  | cons row rows =>
    obtain ⟨hrow, hrows⟩ := List.forall_mem_cons.1 h
    cases rows' with
    | nil =>
      rw [List.append_nil]
      exact apply_add_zero (length_foldl_addRows hrows hrow)
    | cons row' rows' =>
      have hassoc : (row' :: rows').foldl addRows (rows.foldl addRows row) =
          addRows (rows.foldl addRows row) (rows'.foldl addRows row') := List.foldl_assoc
      show _ = Except.ok (ofInts s ((rows ++ row' :: rows').foldl addRows row))
      rw [List.foldl_append, hassoc]
      exact apply_add_rows _ _

end

end Tensor

/-! ## Sums on a machine -/

namespace Exec

variable {setting : Setting} {s : Shape}

/-- An array with rows is no smaller than one of them. -/
theorem fits_sum (hone : 1 ≤ setting.limits.maxElements) {n : Nat} (hn : n * s.size ≤ setting.limits.maxElements)
    (xs : List Int32) : Fits setting.limits (.tensor (sumOfRows s (blocks n s.size xs))) := by
  cases n with
  | zero => exact hone
  | succ n => exact (Nat.le_mul_of_pos_left _ n.succ_pos).trans hn

theorem applyWith_add (hs : s.size ≤ setting.limits.maxElements) (room : Nat) (xs ys : List Int32) :
    applyWith setting (call setting (room + 1)) .add [.tensor (.ofInts s xs), .tensor (.ofInts s ys)] =
      .ok [.tensor (.ofInts s (addRows ys xs))] := by
  have hfits (ns : List Int32) : Fits setting.limits (.tensor (.ofInts s ns)) := hs
  have happly : (Binary.apply .add).onTensors (.ofInts s xs) (.ofInts s ys) = .ok (.ofInts s (addRows ys xs)) :=
    Tensor.apply_add_rows ys xs
  exact applyWith_binary rfl happly (hfits xs) (hfits ys) (hfits _) room

section

variable {n : Nat} {xs : List Int32} (hfits : Fits setting.limits (.tensor (sumOfRows s (blocks n s.size xs))))
  (room : Nat)

include hfits

theorem foldRows_add : foldRows (applyWith setting (call setting (room + 1))) .add (.ofInts (n :: s) xs) =
    .ok (.tensor (sumOfRows s (blocks n s.size xs))) := by
  have hrows := Tensor.rows_ofInts n s xs
  generalize blocks n s.size xs = bs at hrows hfits
  cases bs with
  | nil => exact foldRows_nil (List.cons_ne_nil n s) hrows
  | cons row rows =>
    rw [foldRows_cons (List.cons_ne_nil n s) hrows]
    exact foldFrom_map (applyWith_add hfits room) rows row

/-- A call of `sum` leaves what the rows come to. -/
theorem call_sum (rest : List Value) (context : List Saved) :
    call setting (room + 3) .sum ⟨.tensor (.ofInts (n :: s) xs) :: rest, context⟩ =
      .ok () ⟨.tensor (sumOfRows s (blocks n s.size xs)) :: rest, context⟩ := by
  rw [call_succ]
  exact fold_ok (foldRows_add hfits room) hfits "reduce(add)" rest context

end

end Exec

namespace Machine

section

variable {m : Machine} {room : Nat} (hroom : m.room = room + 3)

include hroom

/-- A word of two arguments by its name, where its result is not too large. -/
theorem instrStep_binary {name : String} {b : Binary} (hget : m.setting.table.get name = .ok (.word (.binary b)))
    {t u r : Tensor} (hsize : b.size? (.tensor t) (.tensor u) = .ok none) (hr : b.onTensors t u = .ok r)
    (hfits : Exec.Fits m.setting.limits (.tensor r)) (rest : List Value) (context : List Saved) :
    m.instrStep (.word name) ⟨.tensor t :: .tensor u :: rest, context⟩ = .ok () ⟨.tensor r :: rest, context⟩ := by
  rw [m.instrStep_word hget, callStep, hroom]
  exact Exec.call_word (Exec.word_binary_run hsize hr hfits rest context) (room + 2)

theorem instrStep_sum (ht : m.setting.table = .standard) {n : Nat} {s : Shape} {xs : List Int32}
    (hfits : Exec.Fits m.setting.limits (.tensor (sumOfRows s (blocks n s.size xs)))) (rest : List Value)
    (context : List Saved) : m.instrStep (.word "sum") ⟨.tensor (.ofInts (n :: s) xs) :: rest, context⟩ =
      .ok () ⟨.tensor (sumOfRows s (blocks n s.size xs)) :: rest, context⟩ := by
  have hget : m.setting.table.get "sum" = .ok .sum := by rw [ht]; rfl
  rw [m.instrStep_word hget, callStep, hroom]
  exact Exec.call_sum hfits room rest context

end

/-- The rows of two arrays joined have the sum that the sums of both come to, also where additions wrap and where an
array has no rows, whose sum is the scalar zero. -/
theorem run_sum_join (m : Machine) (ht : m.setting.table = .standard) (hroom : 3 ≤ m.room) {p q : Nat} {s : Shape}
    {xs ys : List Int32} (hx : (Tensor.ofInts (p :: s) xs).Full) (hy : (Tensor.ofInts (q :: s) ys).Full)
    (hfits : (p + q) * s.size ≤ m.setting.limits.maxElements) (hone : 1 ≤ m.setting.limits.maxElements) :
    let a : Value := .tensor (.ofInts (p :: s) xs)
    let b : Value := .tensor (.ofInts (q :: s) ys)
    let r : Tensor := sumOfRows s (blocks p s.size xs ++ blocks q s.size ys)
    let done := (.ok (), { m with memory := ⟨.tensor r :: m.memory.stack, m.memory.context⟩ })
    m.run [.push a, .push b, .word "join", .word "sum"] = done ∧
      m.run [.push a, .word "sum", .push b, .word "sum", .word "add"] = done ∧ r.same r = true := by
  intro a b r done
  obtain ⟨room, hroom⟩ : ∃ room, m.room = room + 3 := ⟨m.room - 3, by omega⟩
  have hlength : xs.length = p * s.size := hx
  have hlength' : ys.length = q * s.size := hy
  have hjoin : m.setting.table.get "join" = .ok (.word (.binary .join)) := by rw [ht]; rfl
  have hadd : m.setting.table.get "add" = .ok (.word (.binary (.apply .add))) := by rw [ht]; rfl
  have hle : p * s.size + q * s.size ≤ m.setting.limits.maxElements := by rwa [← Nat.add_mul]
  have ha : Exec.Fits m.setting.limits a := (Nat.le_add_right _ _).trans hle
  have hb : Exec.Fits m.setting.limits b := (Nat.le_add_left _ _).trans hle
  have hblocks : blocks (p + q) s.size (xs ++ ys) = blocks p s.size xs ++ blocks q s.size ys :=
    blocks_append hlength hlength'
  have hr := Exec.fits_sum hone hfits (xs ++ ys)
  have hsums : Tensor.apply .add (sumOfRows s (blocks p s.size xs)) (sumOfRows s (blocks q s.size ys)) = .ok r :=
    Tensor.apply_add_sums (fun _ hrow => length_of_mem_blocks hlength hrow)
      fun _ hrow => length_of_mem_blocks hlength' hrow
  -- the steps of both programs, whatever lies below
  have hpush {v : Value} (hv : Exec.Fits m.setting.limits v) (below : List Value) :
      m.instrStep (.push v) ⟨below, m.memory.context⟩ = _ := Exec.push_fits hv below m.memory.context
  have hjoined (below : List Value) : m.instrStep (.word "join") ⟨b :: a :: below, m.memory.context⟩ = _ :=
    instrStep_binary hroom hjoin rfl (Tensor.join_ofInts hx hy) hfits below m.memory.context
  have hall (below : List Value) := instrStep_sum hroom ht hr below m.memory.context
  rw [hblocks] at hr hall
  have hleft (below : List Value) : m.instrStep (.word "sum") ⟨a :: below, m.memory.context⟩ = _ :=
    instrStep_sum hroom ht (Exec.fits_sum hone ha xs) below m.memory.context
  have hright (below : List Value) : m.instrStep (.word "sum") ⟨b :: below, m.memory.context⟩ = _ :=
    instrStep_sum hroom ht (Exec.fits_sum hone hb ys) below m.memory.context
  have hadded (below : List Value) := instrStep_binary hroom hadd rfl hsums hr below m.memory.context
  refine ⟨run_of_forM ?_, run_of_forM ?_, ?_⟩
  · exact (Exec.bind_ok _ (hpush ha _)).trans <| (Exec.bind_ok _ (hpush hb _)).trans <|
      (Exec.bind_ok _ (hjoined _)).trans <| Exec.bind_ok _ (hall _)
  · exact (Exec.bind_ok _ (hpush ha _)).trans <| (Exec.bind_ok _ (hleft _)).trans <|
      (Exec.bind_ok _ (hpush hb _)).trans <| (Exec.bind_ok _ (hright _)).trans <| Exec.bind_ok _ (hadded _)
  · exact Tensor.same_self (Tensor.everyNumber_sumOfRows (fun _ => not_false) s _)

/-- Joined rows whose sum wraps, and a vector that is joined to one without elements. -/
theorem run_sum_join_wrapped :
    let a : Value := .tensor (.ofInts [1, 2] [2147483647, 5])
    let b : Value := .tensor (.ofInts [2, 2] [1, -1, 3, 4])
    let m : Machine := { memory := ⟨[.fn .sum], [.shape [2]]⟩ }
    let done := (.ok (), { m with memory := ⟨[.tensor (.ofInts [2] [-2147483645, 8]), .fn .sum], [.shape [2]]⟩ })
    let none : Value := .tensor (.ofInts [0] [])
    let two : Value := .tensor (.ofInts [2] [3, 4])
    let done' := (.ok (), { m with memory := ⟨[.tensor (.int 7), .fn .sum], [.shape [2]]⟩ })
    (m.run [.push a, .push b, .word "join", .word "sum"] = done ∧
      m.run [.push a, .word "sum", .push b, .word "sum", .word "add"] = done) ∧
    m.run [.push none, .push two, .word "join", .word "sum"] = done' ∧
      m.run [.push none, .word "sum", .push two, .word "sum", .word "add"] = done' := by
  intro a b m done none two done'
  have ha : (Tensor.ofInts [1, 2] [2147483647, 5]).Full := rfl
  have hb : (Tensor.ofInts [2, 2] [1, -1, 3, 4]).Full := rfl
  have hnone : (Tensor.ofInts [0] []).Full := rfl
  have htwo : (Tensor.ofInts [2] [3, 4]).Full := rfl
  obtain ⟨hjoined, hadded, -⟩ := run_sum_join m rfl (by decide) ha hb (by decide) (by decide)
  obtain ⟨hjoined', hadded', -⟩ := run_sum_join m rfl (by decide) hnone htwo (by decide) (by decide)
  exact ⟨⟨hjoined, hadded⟩, hjoined', hadded'⟩

end Machine

end Tacit
