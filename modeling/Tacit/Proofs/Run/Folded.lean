/-
Folding in place. A reduction calls its function for each row on a memory of its own, which holds the row and
the result so far. Code that pushes the rows one after another and calls the function after each but the first does
the same on the stack at hand: a static function takes its two arguments and leaves one value, whatever lies below
them and whatever was saved before.
-/
import Tacit.Proofs.Array.Each
import Tacit.Proofs.Run.Frame
import Tacit.Proofs.Run.Limits
import Tacit.Proofs.Run.Nested
import Tacit.Proofs.Run.StackEffect

namespace Tacit

/-- The rows pushed one by one, with a call of the function after each but the first. -/
def foldCode (f : Fn) : List Tensor → List Instr
  | [] => []
  | row :: rows => .push (.tensor row) :: rows.flatMap fun row => [.push (.tensor row), .invoke f]

namespace Exec

variable {setting : Setting} {f : Fn}

/-! ## Folds -/

theorem foldRows_cons {apply : Apply} {v row : Tensor} {rows : List Tensor} (haxis : v.shape ≠ [])
    (hrows : v.rows = row :: rows) : foldRows apply f v = foldFrom apply f (.tensor row) rows := by
  unfold foldRows
  rw [if_neg (mt Tensor.isScalar_iff.1 haxis), hrows]

theorem foldRows_nil {apply : Apply} {v : Tensor} (haxis : v.shape ≠ []) (hrows : v.rows = []) :
    foldRows apply f v = match f.identity? with
      | some t => .ok (.tensor t)
      | none => .error (.domain (.noIdentity f.name)) := by
  unfold foldRows
  rw [if_neg (mt Tensor.isScalar_iff.1 haxis), hrows]
  cases f.identity? <;> rfl

/-- Rows that the function combines as `op` does are folded as `op` folds. -/
theorem foldFrom_map {α : Type} {apply : Apply} {f : Fn} {g : α → Tensor} {op : α → α → α}
    (h : ∀ x y, apply f [.tensor (g x), .tensor (g y)] = .ok [.tensor (g (op y x))]) (xs : List α) :
    ∀ x, foldFrom apply f (.tensor (g x)) (xs.map g) = .ok (.tensor (g (xs.foldl op x))) := by
  induction xs with
  | nil => exact fun _ => rfl
  | cons x xs ih =>
    intro acc
    have hone : applyOne apply f [.tensor (g x), .tensor (g acc)] = .ok (.tensor (g (op acc x))) := by
      unfold applyOne
      rw [h]
      rfl
    exact Except.bind_of_ok hone (ih (op acc x))

theorem fold_ok {apply : Apply} {v : Tensor} {w : Value} (h : foldRows apply f v = .ok w)
    (hfits : Fits setting.limits w) (name : String) (rest : List Value) (context : List Saved) :
    fold setting apply f name ⟨.tensor v :: rest, context⟩ = .ok () ⟨w :: rest, context⟩ := by
  show (do push setting.limits (← lift (foldRows apply f v)) : Exec Unit) ⟨rest, context⟩ = _
  rw [h]
  exact push_fits hfits rest context

/-! ## Calls of static functions -/

/-- A fault for want of something that may lie below, on either stack. -/
def Wanting (fault : Fault) : Prop := fault.IsUnderflow ∨ fault.IsNothingSaved

/-- On enough values a static function leaves as many as it says, and the rest of the stack and the context as they
were. -/
theorem call_static (ht : setting.table = .standard) (hf : f.Formed False) (room : Nat) {stack : List Value}
    (hargs : f.args ≤ stack.length) (context : List Saved) :
    Ends (¬Wanting ·) (fun _ m => ∃ out, out.length = f.outputs ∧ m = ⟨out ++ stack.drop f.args, context⟩)
      (call setting room f) ⟨stack, context⟩ := by
  have htable : setting.table.Formed False := by
    rw [ht]
    exact .ofStandard
  have hagree := (call_agrees htable room).1 f hf stack context context fun _ _ hfree => hfree.elim
  have heffect := (own_sound ht room).1 f hf stack context
  generalize hrun : call setting room f ⟨stack, context⟩ = r at hagree
  generalize (own setting room).call f _ = r' at hagree heffect
  cases hagree with
  | ok h =>
    obtain ⟨-, -, out, hout, hstack⟩ := heffect
    obtain ⟨-, -, rfl⟩ := h
    exact .of_ok hrun ⟨out, hout, congrArg (fun stack => (⟨stack, _⟩ : Memory)) hstack⟩
  | error hsaved =>
    refine .of_error hrun ?_
    -- the arguments are there, and what was never saved is not asked for
    rintro (⟨cause, rfl⟩ | ⟨name, rfl⟩)
    · cases heffect hargs
    · exact hsaved name rfl

/-- Alone with its arguments and among other values a step ends alike. -/
theorem call_among (setting : Setting) (room : Nat) (f : Fn) (args below : List Value) (context : List Saved) :
    Mirrored Wanting (Memory.over context ∘ Memory.above below) (call setting room f ⟨args, []⟩)
      (call setting room f ⟨args ++ below, context⟩) := by
  have hframed : Mirrored _ _ _ (call setting room f ⟨args ++ below, []⟩) := Framed.call setting room f ⟨args, []⟩
  exact hframed.trans (Sheltered.call setting room f _)

/-- A static function of one result, alone with its arguments and, with at least as much room, above other values:
it leaves the same value, or fails with the same fault unless it calls too deep. -/
theorem call_inPlace (ht : setting.table = .standard) (hf : f.Formed False) (houtputs : f.outputs = 1)
    {args : List Value} (hargs : args.length = f.args) (hfit : ∀ v ∈ args, Fits setting.limits v) {room room' : Nat}
    (hroom : room ≤ room') (below : List Value) (context : List Saved) :
    (∃ v, Fits setting.limits v ∧ call setting room f ⟨args, []⟩ = .ok () ⟨[v], []⟩ ∧
      call setting room' f ⟨args ++ below, context⟩ = .ok () ⟨v :: below, context⟩) ∨
    ∃ fault m, call setting room f ⟨args, []⟩ = .error fault m ∧
      (TooDeep fault ∨ ∃ m', call setting room' f ⟨args ++ below, context⟩ = .error fault m') := by
  have hends := call_static ht hf room hargs.ge []
  have hamong := call_among setting room f args below context
  have hkeeps : KeepsFit setting.limits (call setting room f) := .call room f
  have hkept := hkeeps ⟨args, []⟩ hfit
  -- with more room only a call that was too deep can end otherwise
  have hshallower : Shallower (call setting room f) (call setting room' f) := shallower_call hroom f
  have hdeeper := hshallower ⟨args ++ below, context⟩
  change Mirrored _ _ _ (call setting room' f ⟨args ++ below, context⟩) at hdeeper
  unfold Ends at hends
  generalize call setting room f ⟨args, []⟩ = r at hends hamong hkept
  generalize call setting room f ⟨args ++ below, context⟩ = r' at hamong hdeeper
  generalize call setting room' f ⟨args ++ below, context⟩ = r'' at hdeeper
  cases hamong with
  | ok a m =>
    obtain ⟨out, hout, rfl⟩ := hends
    rw [houtputs] at hout
    obtain ⟨v, rfl⟩ := List.length_eq_one_iff.1 hout
    rw [List.drop_eq_nil_of_le hargs.le] at hkept hdeeper ⊢
    cases hdeeper
    exact .inl ⟨v, hkept v List.mem_cons_self, rfl, rfl⟩
  | error fault m =>
    refine .inr ⟨fault, m, rfl, ?_⟩
    cases hdeeper with
    | error => exact .inr ⟨_, rfl⟩
    | excused hdeep => exact .inl hdeep
  | excused hwanting => exact absurd hwanting hends

/-! ## Steps of a fold -/

/-- What a computation gives, and how the code ends that does the same in place: with the value above the rest, or
with the same fault. Where the computation calls too deep, the code may do anything. -/
inductive Inlined (limits : Limits) (rest : List Value) (context : List Saved) :
    Except Fault Value → EStateM.Result Fault Memory Unit → Prop
  | ok {v : Value} (h : Fits limits v) : Inlined limits rest context (.ok v) (.ok () ⟨v :: rest, context⟩)
  | error (fault : Fault) (m : Memory) : Inlined limits rest context (.error fault) (.error fault m)
  | tooDeep {fault : Fault} (h : TooDeep fault) (r : EStateM.Result Fault Memory Unit) :
    Inlined limits rest context (.error fault) r

section

variable {rest : List Value} {context : List Saved}

theorem Inlined.bind {limits : Limits} {x : Except Fault Value} {f : Value → Except Fault Value} {y z : Exec Unit}
    {m : Memory} (h : Inlined limits rest context x (y m))
    (hf : ∀ v, Fits limits v → Inlined limits rest context (f v) (z ⟨v :: rest, context⟩)) :
    Inlined limits rest context (x >>= f) ((do y; z : Exec Unit) m) := by
  generalize hy : y m = r at h
  cases h with
  | ok hv =>
    rw [bind_ok _ hy]
    exact hf _ hv
  | error fault m' =>
    rw [bind_error _ hy]
    exact .error fault m'
  | tooDeep hdeep => exact .tooDeep hdeep _

variable (ht : setting.table = .standard) (hf : f.Formed False) (hs : f.signature = ⟨2, 1⟩) {room room' : Nat}
  (hroom : room ≤ room')

include ht hf hs hroom

/-- One step of a fold, on a memory of its own and on the stack at hand, which has at least as much room. -/
theorem applyOne_inlined (row : Tensor) {acc : Value} (hacc : Fits setting.limits acc) :
    Inlined setting.limits rest context
      (applyOne (applyWith setting (call setting room)) f [.tensor row, acc])
      ((do push setting.limits (.tensor row); call setting room' f : Exec Unit) ⟨acc :: rest, context⟩) := by
  have houtputs : f.outputs = 1 := congrArg Signature.outputs hs
  have hargs : [Value.tensor row, acc].length = f.args := (congrArg Signature.args hs).symm
  have hpushed : push setting.limits acc {} = .ok () ⟨[acc], []⟩ := push_fits hacc [] []
  unfold applyOne
  rw [applyWith_eq]
  by_cases hrow : Fits setting.limits (.tensor row)
  · have hpushAll : pushAll setting.limits [.tensor row, acc] {} = .ok () ⟨[.tensor row, acc], []⟩ :=
      (bind_ok _ hpushed).trans (bind_ok _ (push_fits hrow [acc] []))
    have hfit : ∀ v ∈ [Value.tensor row, acc], Fits setting.limits v :=
      List.forall_mem_cons.2 ⟨hrow, List.forall_mem_singleton.2 hacc⟩
    rw [bind_ok _ hpushAll, bind_ok _ (push_fits hrow (acc :: rest) context)]
    rcases call_inPlace ht hf houtputs hargs hfit hroom rest context with
      ⟨v, hv, halone, hinPlace⟩ | ⟨fault, m, halone, hinPlace⟩
    · rw [bind_ok _ halone, houtputs]
      change Inlined _ _ _ _ (call setting room' f ⟨[.tensor row, acc] ++ rest, context⟩)
      rw [hinPlace]
      exact .ok hv
    · rw [bind_error _ halone]
      rcases hinPlace with hdeep | ⟨m', hinPlace⟩
      · exact .tooDeep hdeep _
      · change Inlined _ _ _ _ (call setting room' f ⟨[.tensor row, acc] ++ rest, context⟩)
        rw [hinPlace]
        exact .error fault m'
  · -- both stop where they push the row
    have hrow : setting.limits.maxElements < row.size := Nat.lt_of_not_le hrow
    have hpushAll : pushAll setting.limits [.tensor row, acc] {} = _ :=
      (bind_ok _ hpushed).trans (bind_error _ (push_too_large hrow ⟨[acc], []⟩))
    rw [bind_error _ hpushAll, bind_error _ (push_too_large hrow _)]
    exact .error _ _

/-- The induction is on the rows; the result so far is on top of the stack. -/
theorem foldFrom_inlined : ∀ (rows : List Tensor) {acc : Value}, Fits setting.limits acc →
    Inlined setting.limits rest context (foldFrom (applyWith setting (call setting room)) f acc rows)
      ((rows.flatMap fun row => [.push (.tensor row), .invoke f]).forM (instr setting (call setting room'))
        ⟨acc :: rest, context⟩)
  | [], _, hacc => .ok hacc
  | row :: rows, _, hacc => by
    have hcode : ((row :: rows).flatMap fun row => [.push (.tensor row), .invoke f]).forM
        (instr setting (call setting room')) = (do
          (do push setting.limits (.tensor row); call setting room' f)
          (rows.flatMap fun row => [.push (.tensor row), .invoke f]).forM (instr setting (call setting room'))) := by
      rw [bind_assoc]
      rfl
    rw [hcode]
    exact (applyOne_inlined ht hf hs hroom row hacc).bind fun v hv => foldFrom_inlined rows hv

omit ht hf hs hroom in
/-- An array that is too large is not even pushed for the first step. -/
theorem foldFrom_too_large {t row : Tensor} (h : setting.limits.maxElements < t.size) (rows : List Tensor)
    (call : Fn → Exec Unit) : foldFrom (applyWith setting call) f (.tensor t) (row :: rows) =
      .error (.limit (.elements "push" t.size setting.limits.maxElements)) := by
  have hpushAll : pushAll setting.limits [.tensor row, .tensor t] {} = _ := bind_error _ (push_too_large h {})
  have happly : applyOne (applyWith setting call) f [.tensor row, .tensor t] =
      .error (.limit (.elements "push" t.size setting.limits.maxElements)) := by
    unfold applyOne
    rw [applyWith_eq, bind_error _ hpushAll]
    rfl
  unfold foldFrom
  rw [happly]
  rfl

/-- The fold and its code leave the same value on top, or fail with the same fault. -/
theorem fold_inlined (row : Tensor) (rows : List Tensor) {r r' : EStateM.Result Fault Memory Unit}
    (hr : (do push setting.limits (← lift (foldFrom (applyWith setting (call setting room)) f (.tensor row) rows)) :
      Exec Unit) ⟨rest, context⟩ = r)
    (hr' : (foldCode f (row :: rows)).forM (instr setting (call setting room')) ⟨rest, context⟩ = r') :
    (∃ v, r = .ok () ⟨v :: rest, context⟩ ∧ r' = .ok () ⟨v :: rest, context⟩) ∨
    ∃ fault m, r = .error fault m ∧ (TooDeep fault ∨ ∃ m', r' = .error fault m') := by
  by_cases hrow : Fits setting.limits (.tensor row)
  · have hfirst : (rows.flatMap fun row => [.push (.tensor row), .invoke f]).forM
        (instr setting (call setting room')) ⟨.tensor row :: rest, context⟩ = r' :=
      (bind_ok _ (push_fits hrow rest context)).symm.trans hr'
    have hfold : Inlined setting.limits rest context _ _ := foldFrom_inlined ht hf hs hroom rows hrow
    rw [hfirst] at hfold
    generalize foldFrom (applyWith setting (call setting room)) f (.tensor row) rows = x at hr hfold
    cases hfold with
    | @ok v hv =>
      have hpush : push setting.limits v ⟨rest, context⟩ = r := hr
      exact .inl ⟨v, hpush.symm.trans (push_fits hv rest context), rfl⟩
    | error fault m => exact .inr ⟨fault, _, hr.symm, .inr ⟨m, rfl⟩⟩
    | tooDeep hdeep => exact .inr ⟨_, _, hr.symm, .inl hdeep⟩
  · -- the code pushes the first row at once, the fold with the second row or as its result
    have hrow : setting.limits.maxElements < row.size := Nat.lt_of_not_le hrow
    have hfirst := (bind_error _ (push_too_large hrow _)).symm.trans hr'
    refine .inr ⟨_, ⟨rest, context⟩, ?_, .inr ⟨_, hfirst.symm⟩⟩
    cases rows with
    | nil => exact hr.symm.trans (push_too_large hrow _)
    | cons row' rows =>
      rw [foldFrom_too_large hrow] at hr
      exact hr.symm

end

/-! ## Reductions -/

theorem call_reduce (room : Nat) (v : Tensor) (rest : List Value) (context : List Saved) :
    call setting (room + 1) (.reduce f) ⟨.tensor v :: rest, context⟩ =
      (do push setting.limits (← lift (foldRows (applyWith setting (call setting (room - 1))) f v)) : Exec Unit)
        ⟨rest, context⟩ := by
  rw [call_succ]
  rfl

end Exec

/-! ## Machines -/

theorem Table.derive_reduce (table : Table) {f : Fn} (hs : f.signature = ⟨2, 1⟩) :
    table.derive "reduce" [.fn f] = .ok (.reduce f) := by
  show (do Modifier.reduce.checkSignature .function ⟨2, 1⟩ f; return Fn.reduce f) = _
  unfold Modifier.checkSignature
  rw [if_pos hs]
  rfl

namespace Machine

/-- A program of one instruction. -/
theorem run_one (m : Machine) (i : Instr) : m.run [i] = match m.instrStep i m.memory with
    | .ok _ memory => (.ok (), { m with memory := memory })
    | .error fault memory => (.error fault.classify, { m with memory := memory }) := by
  cases h : m.instrStep i m.memory with
  | ok a memory => exact run_cons_ok [] h
  | error fault memory => exact run_cons_error [] h

section

variable {m : Machine} {f : Fn} (hs : f.signature = ⟨2, 1⟩)

include hs

theorem instrStep_reduce (m : Machine) :
    m.instrStep (.modify "reduce" [.fn f]) = Exec.call m.setting m.room (.reduce f) := by
  show (do m.callStep (← Exec.lift (m.setting.table.derive "reduce" [.fn f]))) = _
  rw [Table.derive_reduce _ hs]
  rfl

variable {v : Tensor} {rest : List Value} (hstack : m.memory.stack = .tensor v :: rest) {room : Nat}
  (hroom : m.room = room + 1)

include hstack hroom

theorem instrStep_reduce_array : m.instrStep (.modify "reduce" [.fn f]) m.memory = (do
    Exec.push m.setting.limits
      (← Exec.lift (Exec.foldRows (Exec.applyWith m.setting (Exec.call m.setting (room - 1))) f v)) : Exec Unit)
      ⟨rest, m.memory.context⟩ := by
  have hmemory : m.memory = ⟨.tensor v :: rest, m.memory.context⟩ := by rw [← hstack]
  rw [instrStep_reduce hs, hroom, hmemory]
  exact Exec.call_reduce room v rest m.memory.context

variable (haxis : v.shape ≠ [])

include haxis

theorem run_reduce_empty (hrows : v.rows = []) :
    let below : Machine := { m with memory := ⟨rest, m.memory.context⟩ }
    match f.identity? with
    | some t => m.run [.modify "reduce" [.fn f]] = below.run [.push (.tensor t)]
    | none => m.run [.modify "reduce" [.fn f]] = (.error (.domain (.noIdentity f.name)), below) := by
  intro below
  have hreduce := instrStep_reduce_array hs hstack hroom
  rw [Exec.foldRows_nil haxis hrows] at hreduce
  cases hidentity : f.identity? with
  | none =>
    rw [hidentity] at hreduce
    exact run_cons_error [] hreduce
  | some t =>
    rw [hidentity] at hreduce
    show m.run _ = below.run _
    rw [run_one, run_one, hreduce]
    rfl

theorem run_reduce_rows (ht : m.setting.table = .standard) (hf : f.Formed False) {row : Tensor} {rows : List Tensor}
    (hrows : v.rows = row :: rows) :
    let reduced := m.run [.modify "reduce" [.fn f]]
    let inline := run { m with memory := ⟨rest, m.memory.context⟩ } (foldCode f v.rows)
    (∃ w, reduced = (.ok (), { m with memory := ⟨w :: rest, m.memory.context⟩ }) ∧ inline = reduced) ∨
    ∃ fault, reduced.1 = .error fault.classify ∧ (Exec.TooDeep fault ∨ inline.1 = .error fault.classify) := by
  intro reduced inline
  have hreduce := instrStep_reduce_array hs hstack hroom
  rw [Exec.foldRows_cons haxis hrows] at hreduce
  let below : Machine := { m with memory := ⟨rest, m.memory.context⟩ }
  have hinstr : below.instrStep = Exec.instr m.setting (Exec.call m.setting (room + 1)) := by
    rw [← hroom]
    rfl
  have hinline : inline = below.run (foldCode f (row :: rows)) := by rw [← hrows]
  have hle : room - 1 ≤ room + 1 := Nat.le_succ_of_le (Nat.sub_le room 1)
  rcases Exec.fold_inlined ht hf hs hle row rows hreduce.symm rfl with
    ⟨w, hreduced, hcode⟩ | ⟨fault, memory, hreduced, hcode⟩
  · rw [← hinstr] at hcode
    have hr : reduced = _ := run_cons_ok [] hreduced
    exact .inl ⟨w, hr, (hinline.trans (run_of_forM (m := below) hcode)).trans hr.symm⟩
  · rw [← hinstr] at hcode
    refine .inr ⟨fault, congrArg Prod.fst (run_cons_error [] hreduced), hcode.imp_right ?_⟩
    rintro ⟨memory', hcode⟩
    exact congrArg Prod.fst (hinline.trans (run_of_forM_error (m := below) hcode))

end

/-- Reducing by a static function, where no call is too deep, has the outcome of the code that pushes the first row
and then each other row with a call of the function, in place on the same machine: the same value above the same rest
of the stack, or the same fault. With no rows the function's identity is pushed, and it is a fault to have none. -/
theorem run_reduce (m : Machine) (ht : m.setting.table = .standard) {f : Fn} (hf : Fn.Built False f)
    (hs : f.signature = ⟨2, 1⟩) {v : Tensor} (haxis : v.shape ≠ []) {rest : List Value}
    (hstack : m.memory.stack = .tensor v :: rest)
    (hdeep : ∀ limit name, (m.run [.modify "reduce" [.fn f]]).1 ≠ .error (.limit (.depth limit name))) :
    let reduced := m.run [.modify "reduce" [.fn f]]
    let below : Machine := { m with memory := ⟨rest, m.memory.context⟩ }
    (v.rows ≠ [] → reduced.1 = (below.run (foldCode f v.rows)).1 ∧
      (reduced.1 = .ok () → below.run (foldCode f v.rows) = reduced ∧
        ∃ w, reduced.2.memory = ⟨w :: rest, m.memory.context⟩)) ∧
    (v.rows = [] → match f.identity? with
      | some t => reduced = below.run [.push (.tensor t)]
      | none => reduced = (.error (.domain (.noIdentity f.name)), below)) := by
  intro reduced below
  obtain ⟨room, hroom⟩ : ∃ room, m.room = room + 1 := by
    cases hroom : m.room with
    | succ room => exact ⟨room, rfl⟩
    | zero =>
      have hstep := congrFun (instrStep_reduce hs m) m.memory
      rw [hroom] at hstep
      exact absurd (congrArg Prod.fst (run_cons_error [] hstep)) (hdeep _ _)
  refine ⟨fun hne => ?_, run_reduce_empty hs hstack hroom haxis⟩
  obtain ⟨row, rows, hrows⟩ := List.exists_cons_of_ne_nil hne
  rcases run_reduce_rows hs hstack hroom haxis ht hf.formed hrows with
    ⟨w, hreduced, hinline⟩ | ⟨fault, hreduced, ⟨limit, name, rfl⟩ | hinline⟩
  · have hinline : below.run (foldCode f v.rows) = reduced := hinline
    exact ⟨by rw [hinline], fun _ => ⟨hinline, w, congrArg (·.2.memory) hreduced⟩⟩
  · exact absurd hreduced (hdeep limit name)
  · refine ⟨hreduced.trans hinline.symm, fun hok => ?_⟩
    cases hok.symm.trans hreduced

/-- Takes from the row what the rows before it have come to. -/
def alternate : List Instr := [.word "swap", .word "subtract"]

theorem run_reduce_alternate :
    let f : Fn := .body "lambda" ⟨2, 1⟩ false alternate
    let v : Tensor := .ofInts [3] [2, 7, 4]
    let m : Machine := { memory := ⟨[.tensor v, .fn .sum], [.shape [2]]⟩ }
    let below : Machine := { memory := ⟨[.fn .sum], [.shape [2]]⟩ }
    (∀ limit name, (m.run [.modify "reduce" [.fn f]]).1 ≠ .error (.limit (.depth limit name))) ∧
    below.run (foldCode f [.int 2, .int 7, .int 4]) = m.run [.modify "reduce" [.fn f]] ∧
    (m.run [.modify "reduce" [.fn f]]).2.memory = ⟨[.tensor (.int (-1)), .fn .sum], [.shape [2]]⟩ := by
  intro f v m below
  have hcode : ∀ i ∈ alternate, Instr.Built False i := by
    simp only [alternate, List.mem_cons, List.not_mem_nil, or_false]
    rintro _ (rfl | rfl) <;> exact .word _
  have hf : Fn.Built False f := .code .standard hcode rfl
  have hstack : m.memory.stack = .tensor v :: [.fn .sum] := rfl
  have hok : (m.run [.modify "reduce" [.fn f]]).1 = .ok () := rfl
  have hdeep : ∀ limit name, (m.run [.modify "reduce" [.fn f]]).1 ≠ .error (.limit (.depth limit name)) := by
    intro limit name h
    cases hok.symm.trans h
  obtain ⟨hrows, -⟩ := run_reduce m rfl hf rfl (List.cons_ne_nil _ _) hstack hdeep
  exact ⟨hdeep, ((hrows (List.cons_ne_nil _ _)).2 hok).1, rfl⟩

end Machine

end Tacit
