/-
A row written under the word that takes it. Around an action that throws the row away for another, the halves
of the word leave the array with the new row in its place, and everything else on the machine as it was.
-/
import Tacit.Proofs.Array.Replace
import Tacit.Proofs.Run.Restored

namespace Tacit

/-! ## Taking and overwriting -/

/-- The operand takes a row of an array: the first, or the row with the number that an index within the limit
on elements says. -/
inductive TakesRow (limits : Limits) : Operand → Int → Prop
  | first : TakesRow limits (.name "first") 0
  | indexAt {index : Tensor} {i : Int} (hindex : index.asInt "index_at" = .ok i)
      (hfits : Exec.Fits limits (.tensor index)) :
    TakesRow limits (.code [.push (.tensor index), .word "index_at"]) i

/-- What is on top thrown away for an array. -/
def overwriteCode (v : Tensor) : List Instr := [.word "pop", .push (.tensor v)]

/-- The function that this code is. -/
def overwrite (v : Tensor) : Fn := .body "lambda" ⟨1, 1⟩ false (overwriteCode v)

namespace Exec

variable {setting : Setting} {room : Nat} {m m₁ m₂ m₃ : Memory}

/-- An under needs room for its halves and for what they call. -/
theorem call_under {transform action before after : Fn} (hbefore : call setting room before m = .ok () m₁)
    (haction : call setting room action m₁ = .ok () m₂) (hafter : call setting room after m₂ = .ok () m₃) :
    call setting (room + 1) (.under transform action before after) m = .ok () m₃ := by
  rw [call_succ]
  exact (bind_ok _ hbefore).trans ((bind_ok _ haction).trans hafter)

theorem call_half {ts : List Tensor} {f : Fn} {stack : List Value} {context : List Saved}
    (hts : ∀ t ∈ ts, Fits setting.limits (.tensor t))
    (hf : call setting room f ⟨literals ts ++ stack, context⟩ = .ok () m) (name : String) (s : Signature) :
    call setting (room + 1) (.body name s false (halfCode ts f)) ⟨stack, context⟩ = .ok () m := by
  have hinvoke : [Instr.invoke f].forM (instr setting (call setting room)) ⟨literals ts ++ stack, context⟩ =
      .ok () m := bind_ok _ hf
  rw [call_succ]
  change List.forM (halfCode ts f) (instr setting (call setting room)) _ = _
  rw [halfCode, List.forM_eq_forM, List.forM_append]
  exact (bind_ok _ (literals_run context ts stack hts)).trans hinvoke

theorem call_overwrite (ht : setting.table = .standard) {v : Tensor} (hv : Fits setting.limits (.tensor v))
    (w : Value) (rest : List Value) (context : List Saved) :
    call setting (room + 2) (overwrite v) ⟨w :: rest, context⟩ = .ok () ⟨.tensor v :: rest, context⟩ := by
  have hpop : instr setting (call setting (room + 1)) (.word "pop") ⟨w :: rest, context⟩ =
      .ok () ⟨rest, context⟩ := by
    change (do call setting (room + 1) (← lift (setting.table.get "pop")) : Exec Unit) _ = _
    have hget : Table.standard.get "pop" = .ok (.word .pop) := rfl
    rw [ht, hget]
    change call setting (room + 1) (.word .pop) _ = _
    rw [call_succ]
    rfl
  rw [call_succ]
  exact (bind_ok _ hpop).trans (bind_ok _ (push_fits hv rest context))

theorem call_stash {k : Keeper} (h : stash setting k m = .ok () m₁) :
    call setting (room + 1) (.stash k) m = .ok () m₁ := by
  rw [call_succ]
  exact h

theorem call_restore {k : Keeper} (h : putBack setting k m = .ok () m₁) :
    call setting (room + 1) (.restore k) m = .ok () m₁ := by
  rw [call_succ]
  exact h

/-- Under what takes a row, overwriting puts the new array in place of the row. -/
theorem call_under_overwrite (ht : setting.table = .standard) {o : Operand} {i : Int}
    (ho : TakesRow setting.limits o i) (v : Tensor) :
    ∃ f, setting.table.derive "under" [o, .code (overwriteCode v)] = .ok f ∧ ∀ {a row r : Tensor},
      a.row i = .ok row → a.replaceRow i v = .ok r → Fits setting.limits (.tensor row) →
      Fits setting.limits (.tensor v) → Fits setting.limits (.tensor r) → ∀ room rest context,
        call setting (room + 3) f ⟨.tensor a :: rest, context⟩ = .ok () ⟨.tensor r :: rest, context⟩ := by
  rw [ht]
  cases ho with
  | first =>
    have hderive : Table.standard.derive "under" [.name "first", .code (overwriteCode v)] =
        .ok (.under (.word (.unary .first)) (overwrite v) (.stash (.unary .first))
          (.restore (.unary .first))) := rfl
    refine ⟨_, hderive, fun {a row r} hrow hr hfitsRow hfitsNew hfits room rest context => ?_⟩
    have hstash : UnaryKeeper.first.stash (.tensor a) = .ok (.whole a, row) :=
      Except.bind_of_ok rfl (Except.bind_of_ok hrow rfl)
    have hback : (Keeper.unary .first).restore (.whole a) (.tensor v) = .ok (.tensor r) :=
      Except.bind_of_ok hr rfl
    exact call_under (call_stash (stash_unary_run hstash hfitsRow rest context))
      (call_overwrite ht hfitsNew _ rest _) (call_restore (putBack_run hback hfits rest context))
  | @indexAt index _ hindex hfitsIndex =>
    obtain ⟨s, s', hderive⟩ : ∃ s s', Table.standard.derive "under"
        [.code [.push (.tensor index), .word "index_at"], .code (overwriteCode v)] =
          .ok (.under (.body "lambda" ⟨1, 1⟩ false [.push (.tensor index), .word "index_at"]) (overwrite v)
            (.body "lambda (before)" s false (halfCode [index] (.stash (.binary .indexAt))))
            (.body "lambda (after)" s' false (halfCode [] (.restore (.binary .indexAt))))) := ⟨_, _, rfl⟩
    refine ⟨_, hderive, fun {a row r} hrow hr hfitsRow hfitsNew hfits room rest context => ?_⟩
    have hstash : BinaryKeeper.indexAt.stash (.tensor index) (.tensor a) = .ok (.entry i a, row) :=
      Except.bind_of_ok rfl (Except.bind_of_ok hindex (Except.bind_of_ok rfl (Except.bind_of_ok hrow rfl)))
    have hback : (Keeper.binary .indexAt).restore (.entry i a) (.tensor v) = .ok (.tensor r) :=
      Except.bind_of_ok hr rfl
    refine call_under ?_ (call_overwrite ht hfitsNew (.tensor row) rest (.entry i a :: context)) ?_
    · exact call_half (by simpa using hfitsIndex) (call_stash (stash_binary_run hstash hfitsRow rest context)) _ s
    · exact call_half (by simp) (call_restore (putBack_run hback hfits rest context)) _ s'

end Exec

namespace Machine

/-- Under what takes a row, the row of an array of numbers or characters overwritten with another array of the
kind and shape is there as the array stores it, which equals the new one where the array holds its type; every
other row, the rest of the stack and the context stay. Room for three calls, one in another, is enough. -/
theorem under_overwrite (m : Machine) (ht : m.setting.table = .standard) (hroom : 3 ≤ m.room) {a v : Tensor}
    {rest : List Value} (hstack : m.memory.stack = .tensor a :: rest) (ha : a.Full) (hv : v.Full)
    (haxis : a.shape ≠ []) (hbox : a.kind ≠ .box) (hkind : v.kind = a.kind) (hshape : v.shape = a.shape.row)
    (hfits : a.size ≤ m.setting.limits.maxElements) {o : Operand} {i : Int}
    (ho : TakesRow m.setting.limits o i) (hmin : -a.rowCount ≤ i) (hmax : i < a.rowCount) :
    ∃ r, m.step (.modify "under" [o, .code (overwriteCode v)]) =
        (.ok (), { m with memory := ⟨.tensor r :: rest, m.memory.context⟩ }) ∧
      r.kind = a.kind ∧ r.shape = a.shape ∧ r.row i = .ok (v.storedIn a) ∧
      (a.elements.Holds v.elements → v.same v = true → (v.storedIn a).same v = true) ∧
      ∀ j, a.place j ≠ a.place i → r.row j = a.row j := by
  obtain ⟨r, hr, hkind', hshape', hrow, hother⟩ :=
    Tensor.row_replaceRow ha hv haxis hbox hkind hshape hmin hmax
  refine ⟨r, ?_, hkind', hshape', hrow, Tensor.same_storedIn, hother⟩
  obtain ⟨old, hold, hshapeOld⟩ := Tensor.exists_row haxis hmin hmax
  -- whatever is pushed on the way is no larger than the array, so no limit on elements is exceeded
  have hfitsRow : a.shape.row.size ≤ m.setting.limits.maxElements :=
    (Tensor.size_row_le (by omega : 0 < a.rowCount)).trans hfits
  have hfitsOld : old.size ≤ m.setting.limits.maxElements := by
    rw [Tensor.size, hshapeOld]
    exact hfitsRow
  have hfitsNew : v.size ≤ m.setting.limits.maxElements := by
    rw [Tensor.size, hshape]
    exact hfitsRow
  have hfitsResult : r.size ≤ m.setting.limits.maxElements := by
    rw [Tensor.size, hshape']
    exact hfits
  obtain ⟨f, hderive, hcall⟩ := Exec.call_under_overwrite ht ho v
  obtain ⟨room, hroom⟩ : ∃ room, m.room = room + 3 := ⟨m.room - 3, by omega⟩
  obtain ⟨setting, depth, stack, context⟩ := m
  change stack = _ at hstack
  subst hstack
  have hrun : Exec.call setting (room + 3) f ⟨.tensor a :: rest, context⟩ =
      .ok () ⟨.tensor r :: rest, context⟩ :=
    hcall hold hr hfitsOld hfitsNew hfitsResult room rest context
  rw [← hroom] at hrun
  rw [step_modify _ hderive]
  exact exec_ok hrun

/-- Truth values written over the last of two rows of integers. -/
theorem under_overwrite_lastRow :
    let a : Tensor := .ofInts [2, 2] [5, 6, 7, 8]
    let v : Tensor := ⟨[2], .numbers (.bools [true, false])⟩
    let m : Machine := { memory := ⟨[.tensor a], [.shape [2]]⟩ }
    let o : Operand := .code [.push (.tensor (.int (-1))), .word "index_at"]
    TakesRow m.setting.limits o (-1) ∧ a.elements.Holds v.elements ∧ v.same v = true ∧
      ∃ r, m.step (.modify "under" [o, .code (overwriteCode v)]) =
          (.ok (), { m with memory := ⟨[.tensor r], [.shape [2]]⟩ }) ∧
        r.kind = .number ∧ r.shape = [2, 2] ∧ r.row (-1) = .ok (.ofInts [2] [1, 0]) ∧
        (Tensor.ofInts [2] [1, 0]).same v = true ∧ ∀ j, a.place j ≠ a.place (-1) → r.row j = a.row j := by
  intro a v m o
  have ho : TakesRow m.setting.limits o (-1) := .indexAt rfl (by decide : 1 ≤ 10000000)
  have hholds : a.elements.Holds v.elements := rfl
  have hself : v.same v = true := by decide
  obtain ⟨r, hstep, hkind, hshape, hrow, hsame, hother⟩ :=
    under_overwrite m rfl (by decide) (v := v) rfl rfl rfl (by decide) (by decide) rfl rfl (by decide) ho
      (by decide) (by decide)
  exact ⟨ho, hholds, hself, r, hstep, hkind, hshape, hrow, hsame hholds hself, hother⟩

/-- A float over one of four integers loses its fraction, so it is another number that is there then. -/
theorem under_overwrite_truncated :
    let v : Tensor := ⟨[], .numbers (.floats [10.5])⟩
    let r : Tensor := .ofInts [4] [1, 2, 10, 4]
    let m : Machine := { memory := ⟨[.tensor (.ofInts [4] [1, 2, 3, 4])], []⟩ }
    m.step (.modify "under" [.code [.push (.tensor (.int 2)), .word "index_at"], .code (overwriteCode v)]) =
        (.ok (), { m with memory := ⟨[.tensor r], []⟩ }) ∧
      r.row 2 = .ok (.int 10) ∧ (Tensor.int 10).same v = false := by
  intro v r m
  exact ⟨rfl, rfl, by decide +kernel⟩

end Machine

end Tacit
