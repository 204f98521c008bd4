/-
Slices written under a cut. Around any action that makes of the slice another of its kind and shape, the halves of
a cut leave the array with the new slice in its place: the same cut finds it there, and every row outside of it is
as it was.
-/
import Tacit.Proofs.Array.Cut
import Tacit.Proofs.Run.Frame
import Tacit.Proofs.Run.Written

namespace Tacit

/-! ## Halves of a cut -/

/-- The code of a cut by a literal. -/
def Cut.code (c : Cut) (count : Tensor) : List Instr := [.push (.tensor count), .word c.name]

/-- An under of a cut calls the action between the halves of the cut. -/
theorem Cut.derive_under (c : Cut) (count : Tensor) {o : Operand} {g : Fn}
    (ho : Table.standard.function o = .ok g) : ∃ s s' s'', Table.standard.derive "under" [.code (c.code count), o] =
      .ok (.under (.body "lambda" s false (c.code count)) g
        (.body "lambda (before)" s' false (halfCode [count] (.stash (.binary c.keeper))))
        (.body "lambda (after)" s'' false (halfCode [] (.restore (.binary c.keeper))))) := by
  obtain ⟨f, hf, s, s', s'', hpair⟩ : ∃ f, Table.standard.function (.code (c.code count)) = .ok f ∧ ∃ s s' s'',
      f = .body "lambda" s false (c.code count) ∧ Table.standard.underPair f = .ok
        ⟨.body "lambda (before)" s' false (halfCode [count] (.stash (.binary c.keeper))),
          .body "lambda (after)" s'' false (halfCode [] (.restore (.binary c.keeper)))⟩ := by
    cases c <;> exact ⟨_, rfl, _, _, _, rfl, rfl⟩
  obtain ⟨rfl, hpair⟩ := hpair
  exact ⟨s, s', s'', Table.derive_ok rfl rfl (.cons hf (.cons ho .nil)) (Except.bind_of_ok hpair rfl)⟩

namespace Machine

/-- The machine one call deeper, with the values given and nothing set aside. -/
def within (m : Machine) (stack : List Value) : Machine := { m with depth := m.depth + 1, memory := ⟨stack, []⟩ }

theorem memory_of_exec {α : Type} {m m' : Machine} {x : Exec α} {a : α} (h : m.exec x = (.ok a, m')) :
    x m.memory = .ok a m'.memory := by
  unfold exec EStateM.run at h
  cases hx : x m.memory with
  | ok b memory =>
    rw [hx] at h
    cases h
    rfl
  | error fault memory =>
    rw [hx] at h
    cases h

/-- What the action does with nothing set aside it does with whatever is. -/
theorem call_over {m : Machine} {room : Nat} (hroom : m.room = room + 1) {g : Fn} {stack stack' : List Value}
    (h : (m.within stack).call g = (.ok (), m.within stack')) (context : List Saved) :
    Exec.call m.setting room g ⟨stack, context⟩ = .ok () ⟨stack', context⟩ := by
  have hroom' : (m.within stack).room = room := by
    change m.setting.limits.maxDepth - (m.depth + 1) = room
    unfold Machine.room at hroom
    omega
  have hcall : Exec.call m.setting (m.within stack).room g ⟨stack, []⟩ = .ok () ⟨stack', []⟩ := memory_of_exec h
  rw [hroom'] at hcall
  exact (Exec.Sheltered.call m.setting room g : Exec.Sheltered context _ _).eq_ok hcall

end Machine

/-! ## Under a cut -/

/-- The slice goes out, the action is called over what the cut set aside, and its result goes back. -/
theorem Exec.call_under_cut {setting : Setting} {room : Nat} {c : Cut} {count a slice w r : Tensor} {saved : Saved}
    {rest rest' : List Value} {context : List Saved} {g : Fn} (hcount : Fits setting.limits (.tensor count))
    (hstash : c.keeper.stash (.tensor count) (.tensor a) = .ok (saved, slice))
    (hslice : Fits setting.limits (.tensor slice))
    (haction : call setting (room + 2) g ⟨.tensor slice :: rest, saved :: context⟩ =
      .ok () ⟨.tensor w :: rest', saved :: context⟩)
    (hrestore : Keeper.restore (.binary c.keeper) saved (.tensor w) = .ok (.tensor r))
    (hr : Fits setting.limits (.tensor r)) (transform : Fn) (s s' : Signature) :
    call setting (room + 3) (.under transform g
      (.body "lambda (before)" s false (halfCode [count] (.stash (.binary c.keeper))))
      (.body "lambda (after)" s' false (halfCode [] (.restore (.binary c.keeper))))) ⟨.tensor a :: rest, context⟩ =
      .ok () ⟨.tensor r :: rest', context⟩ := by
  refine call_under ?_ haction ?_
  · exact call_half (by simpa using hcount) (call_stash (stash_binary_run hstash hslice rest context)) _ s
  · exact call_half (by simp) (call_restore (putBack_run hrestore hr rest' context)) _ s'

namespace Machine

/-- Under a cut of an array of numbers or characters, an action that makes of the slice another of its kind and
shape leaves an array of the kind and shape of the first. The cut finds there what the action made, and outside of
it the rows are those of the first array; both as the result stores them, which equals them where they equal
themselves. Room for three calls beside the action, one in another, is enough. -/
theorem under_cut (m : Machine) (ht : m.setting.table = .standard) (hroom : 3 ≤ m.room) (c : Cut)
    {count a slice w : Tensor} {rest rest' : List Value} (hstack : m.memory.stack = .tensor a :: rest) (ha : a.Full)
    (haxis : a.shape ≠ []) (hbox : a.kind ≠ .box) (hfits : a.size ≤ m.setting.limits.maxElements)
    (hcount : count.size ≤ m.setting.limits.maxElements) (hcut : c.binary.onTensors count a = .ok slice)
    {o : Operand} {g : Fn} (ho : m.setting.table.function o = .ok g)
    (hg : (m.within (.tensor slice :: rest)).call g = (.ok (), m.within (.tensor w :: rest')))
    (hw : w.Full) (hkind : w.kind = a.kind) (hshape : w.shape = slice.shape) : ∃ r,
      m.step (.modify "under" [.code [.push (.tensor count), .word c.name], o]) =
        (.ok (), { m with memory := ⟨.tensor r :: rest', m.memory.context⟩ }) ∧
      r.kind = a.kind ∧ r.shape = a.shape ∧ c.binary.onTensors count r = .ok (w.storedIn r) ∧
      (w.same w = true → (w.storedIn r).same w = true) ∧
      ∃ n start stop, count.asInt c.name = .ok n ∧ c.range n a.rowCount = .ok (start, stop) ∧
        a.slice start stop = slice ∧ ∀ i < a.rowCount, i < start ∨ stop ≤ i → ∃ row, a.row i = .ok row ∧
          r.row i = .ok (row.storedIn r) ∧ (row.same row = true → (row.storedIn r).same row = true) := by
  obtain ⟨n, start, stop, hn, hrange, rfl⟩ := (Cut.onTensors_eq_ok_iff haxis).1 hcut
  rw [Tensor.shape_slice haxis] at hshape
  obtain ⟨saved, r, hstash, hrestore, hmade⟩ := Cut.exists_madeOf ha haxis hbox hn hrange hw hkind hshape
  have hshaper := Cut.shape_of_madeOf hmade hrange hshape haxis
  obtain ⟨hfound, hsame⟩ := Cut.onTensors_of_madeOf hmade hrange hshape haxis hn hbox hw hkind
  refine ⟨r, ?_, hmade.kind, hshaper, hfound, hsame, n, start, stop, hn, hrange, rfl,
    fun i hi hout => Cut.row_of_madeOf hmade hrange hshape hi hout⟩
  have hfitsSlice : (a.slice start stop).size ≤ m.setting.limits.maxElements :=
    (Tensor.size_slice_le haxis (Cut.range_bounds hrange).2.1).trans hfits
  have hfitsResult : r.size ≤ m.setting.limits.maxElements := by
    rw [Tensor.size, hshaper]
    exact hfits
  obtain ⟨room, hroom⟩ : ∃ room, m.room = room + 3 := ⟨m.room - 3, by omega⟩
  -- what the cut set aside lies on the context stack while the action runs
  have haction := call_over hroom hg (saved :: m.memory.context)
  obtain ⟨setting, depth, stack, context⟩ := m
  change stack = _ at hstack
  change setting.table = _ at ht
  subst hstack
  obtain ⟨s, s', s'', hderive⟩ := c.derive_under count (ht ▸ ho)
  have hrun := Exec.call_under_cut hcount hstash hfitsSlice haction hrestore hfitsResult
    (.body "lambda" s false (c.code count)) s' s''
  rw [← hroom] at hrun
  exact step_modify_ok (by rw [ht]; exact hderive) hrun

/-- The last two of three lines exchanged. -/
theorem under_cut_reversed :
    let a : Tensor := ⟨[3, 2], .characters [97, 98, 99, 100, 101, 102]⟩
    let slice : Tensor := ⟨[2, 2], .characters [99, 100, 101, 102]⟩
    let w : Tensor := ⟨[2, 2], .characters [101, 102, 99, 100]⟩
    let m : Machine := { memory := ⟨[.tensor a, .fn .sum], [.shape [2]]⟩ }
    Binary.drop.onTensors (.int 1) a = .ok slice ∧
      (m.within [.tensor slice, .fn .sum]).call (.word (.unary .reverse)) = (.ok (), m.within [.tensor w, .fn .sum]) ∧
      ∃ r, m.step (.modify "under" [.code [.push (.tensor (.int 1)), .word "drop"], .name "reverse"]) =
          (.ok (), { m with memory := ⟨[.tensor r, .fn .sum], [.shape [2]]⟩ }) ∧
        r.kind = .character ∧ r.shape = [3, 2] ∧ Binary.drop.onTensors (.int 1) r = .ok w ∧
        r.row 0 = .ok ⟨[2], .characters [97, 98]⟩ := by
  intro a slice w m
  have hcut : Binary.drop.onTensors (.int 1) a = .ok slice := rfl
  have ho : m.setting.table.function (.name "reverse") = .ok (.word (.unary .reverse)) := rfl
  have hg : (m.within [.tensor slice, .fn .sum]).call (.word (.unary .reverse)) =
      (.ok (), m.within [.tensor w, .fn .sum]) := rfl
  have hw : w.Full := rfl
  obtain ⟨r, hstep, hkind, hshape, hfound, -, n, start, stop, hn, hrange, -, hrows⟩ :=
    under_cut m rfl (by decide) .drop rfl rfl (by decide) (by decide) (by decide) (by decide) hcut ho hg hw rfl rfl
  obtain rfl : n = 1 := (Except.ok.inj hn).symm
  obtain rfl : start = 1 := (congrArg Prod.fst (Except.ok.inj hrange)).symm
  obtain ⟨row, ha, hrow, -⟩ := hrows 0 (by decide) (.inl one_pos)
  cases ha
  exact ⟨hcut, hg, r, hstep, hkind, hshape, hfound, hrow⟩

/-- Nothing done to a slice that holds what does not equal itself, and nothing changes; but it does not equal what
the action made, nor does the row before it that of the first array. -/
theorem under_cut_nan :
    let nan : Tensor := ⟨[], .numbers (.floats [0.0 / 0.0])⟩
    let a : Tensor := ⟨[2], .numbers (.floats [0.0 / 0.0, 0.0 / 0.0])⟩
    let w : Tensor := ⟨[1], .numbers (.floats [0.0 / 0.0])⟩
    let m : Machine := { memory := ⟨[.tensor a], []⟩ }
    m.step (.modify "under" [.code [.push (.tensor (.int (-1))), .word "take"], .name "identity"]) = (.ok (), m) ∧
      Binary.take.onTensors (.int (-1)) a = .ok w ∧ w.same w = false ∧
      a.row 0 = .ok nan ∧ nan.same nan = false := by
  intro nan a w m
  exact ⟨rfl, rfl, by decide +kernel, rfl, by decide +kernel⟩

end Machine

end Tacit
