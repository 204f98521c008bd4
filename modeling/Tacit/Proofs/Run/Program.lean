/-
The work of functions as programs. A program says which operations on the memory, calls and applications
follow one another, and nothing about how they run. What a machine does is one interpretation of the
programs; a relation between two interpretations holds of every program as soon as it holds of the single
operations.
-/
import Tacit.Proofs.Run.Step

namespace Tacit

/-- An operation on the memory. -/
inductive Op where
  | check (count : Nat) (name : String)
  | push (v : Value)
  | pop (name : String)
  | popOne (name : String)
  | popTwo (name : String)
  | popMany (count : Nat) (name : String)
  | peek (offset : Nat) (name : String)
  | save (s : Saved)
  | restore (name : String)

namespace Op

/-- What an operation gives. -/
def Answer : Op → Type
  | check .. | push .. | save .. => Unit
  | pop .. | popOne .. | peek .. => Value
  | popTwo .. => Value × Value
  | popMany .. => List Value
  | restore .. => Saved

def run (limits : Limits) : (o : Op) → Exec o.Answer
  | check count name => Exec.checkElements limits count name
  | push v => Exec.push limits v
  | pop name => Exec.pop name
  | popOne name => Exec.popOne name
  | popTwo name => Exec.popTwo name
  | popMany count name => Exec.popMany count name
  | peek offset name => Exec.peek offset name
  | save s => Exec.save s
  | restore name => Exec.restore name

end Op

/-- The work of a function: what comes next, by the answers so far. -/
inductive Program (α : Type) where
  | done (a : α)
  | fail (fault : Fault)
  | op (o : Op) (next : o.Answer → Program α)
  | call (f : Fn) (next : Unit → Program α)
  | apply (f : Fn) (args : List Value) (next : List Value → Program α)

namespace Program

protected def bind {α β : Type} (p : Program α) (f : α → Program β) : Program β :=
  match p with
  | done a => f a
  | fail fault => fail fault
  | op o next => op o fun a => (next a).bind f
  | call g next => call g fun a => (next a).bind f
  | apply g args next => apply g args fun a => (next a).bind f

instance : Monad Program where
  pure := done
  bind := Program.bind

instance : LawfulMonad Program := by
  refine LawfulMonad.mk' Program (fun p => ?_) (fun a f => rfl) fun p f g => ?_
  · induction p with
    | done | fail => rfl
    | op o next ih => exact congrArg (op o) (funext ih)
    | call f next ih => exact congrArg (call f) (funext ih)
    | apply f args next ih => exact congrArg (apply f args) (funext ih)
  · induction p with
    | done | fail => rfl
    | op o next ih => exact congrArg (op o) (funext ih)
    | call f next ih => exact congrArg (call f) (funext ih)
    | apply f args next ih => exact congrArg (apply f args) (funext ih)

/-! ## Interpretations -/

section

variable {M N : Type → Type} [Monad M] [MonadExceptOf Fault M] [Monad N] [MonadExceptOf Fault N]
  {α β : Type}

/-- What a program does where operations, calls and applications do what is given. -/
def interp (ops : (o : Op) → M o.Answer) (call : Fn → M Unit)
    (apply : Fn → List Value → M (List Value)) : Program α → M α
  | .done a => pure a
  | .fail fault => throw fault
  | .op o next => do (next (← ops o)).interp ops call apply
  | .call f next => do (next (← call f)).interp ops call apply
  | .apply f args next => do (next (← apply f args)).interp ops call apply

/-- A relation between what two monads do that respects results, faults and sequences. -/
structure Link (M N : Type → Type) [Monad M] [MonadExceptOf Fault M] [Monad N]
    [MonadExceptOf Fault N] (R : ⦃α : Type⦄ → M α → N α → Prop) : Prop where
  pure {α : Type} (a : α) : R (pure a) (pure a)
  throw {α : Type} (fault : Fault) : R (throw fault : M α) (throw fault : N α)
  bind {α β : Type} {x : M α} {y : N α} {f : α → M β} {g : α → N β} :
    R x y → (∀ a, R (f a) (g a)) → R (x >>= f) (y >>= g)

theorem Link.interp {R : ⦃α : Type⦄ → M α → N α → Prop} (hR : Link M N R)
    {ops : (o : Op) → M o.Answer} {ops' : (o : Op) → N o.Answer} {call : Fn → M Unit}
    {call' : Fn → N Unit} {apply : Fn → List Value → M (List Value)}
    {apply' : Fn → List Value → N (List Value)} (hops : ∀ o, R (ops o) (ops' o))
    (hcall : ∀ f, R (call f) (call' f)) (happly : ∀ f args, R (apply f args) (apply' f args))
    (p : Program α) : R (p.interp ops call apply) (p.interp ops' call' apply') := by
  induction p with
  | done a => exact hR.pure a
  | fail fault => exact hR.throw fault
  | op o next ih => exact hR.bind (hops o) ih
  | call f next ih => exact hR.bind (hcall f) ih
  | apply f args next ih => exact hR.bind (happly f args) ih

end

/-! ## Single operations -/

def lift {α : Type} : Except Fault α → Program α
  | .ok a => done a
  | .error fault => fail fault

def check (count : Nat) (name : String) : Program Unit := op (.check count name) done

def push (v : Value) : Program Unit := op (.push v) done

/-- The first value ends on top. -/
def pushAll (vs : List Value) : Program Unit := vs.reverse.forM push

def pop (name : String) : Program Value := op (.pop name) done

def popOne (name : String) : Program Value := op (.popOne name) done

def popTwo (name : String) : Program (Value × Value) := op (.popTwo name) done

def popMany (count : Nat) (name : String) : Program (List Value) := op (.popMany count name) done

def peek (offset : Nat) (name : String) : Program Value := op (.peek offset name) done

def peekMany (count : Nat) (name : String) : Program (List Value) :=
  (List.range count).mapM fun i => peek i name

def save (s : Saved) : Program Unit := op (.save s) done

def restore (name : String) : Program Saved := op (.restore name) done

/-- A function from the stack. -/
def popFunction (name : String) : Program Fn := do
  match ← pop name with
  | .fn f => return f
  | .tensor _ => fail (.domain (.functionWanted name))

def checkSize (size : Except Fault (Option Nat)) (name : String) : Program Unit := do
  match ← lift size with
  | some n => check n name
  | none => pure ()

/-! ## Words and halves of under pairs -/

def word (w : Word) : Program Unit := do
  match w with
  | .dup => do
    let v ← popOne "dup"
    push v
    push v
  | .pop => discard (popOne "pop")
  | .swap | .flip => do
    let (top, below) ← popTwo "swap"
    push top
    push below
  | .dupBelow => do
    let (top, below) ← popTwo "over"
    push below
    push top
    push below
  | .unary u => do
    let v ← popOne u.name
    checkSize (u.size? v) u.name
    push (← lift (u.eval v))
  | .binary b => do
    let (top, below) ← popTwo b.name
    checkSize (b.size? top below) b.name
    push (← lift (b.eval top below))

def stash (k : Keeper) : Program Unit := do
  let (saved, result) ← match k with
    | .unary u => do
      let v ← popOne k.name
      lift (u.stash v)
    | .binary b => do
      let (top, below) ← popTwo k.name
      lift (b.stash top below)
  save saved
  push (.tensor result)

def putBack (k : Keeper) : Program Unit := do
  let new ← pop k.name
  let saved ← restore k.name
  push (← lift (k.restore saved new))

/-! ## Rows -/

/-- The one result of a function that leaves one. -/
def applyOne (f : Fn) (args : List Value) : Program Value := do
  match ← apply f args done with
  | [v] => pure v
  | vs => fail (.underflow (.short f.name 1 vs.length))

def foldFrom (f : Fn) (acc : Value) : List Tensor → Program Value
  | [] => pure acc
  | row :: rows => do foldFrom f (← applyOne f [.tensor row, acc]) rows

def foldRows (f : Fn) (t : Tensor) : Program Value :=
  if t.isScalar then pure (.tensor t)
  else
    match t.rows with
    | row :: rows => foldFrom f (.tensor row) rows
    | [] =>
      match f.identity? with
      | some t => pure (.tensor t)
      | none => fail (.domain (.noIdentity f.name))

def fold (f : Fn) (name : String) : Program Unit := do
  let t ← lift (← pop name).tensor?
  push (← foldRows f t)

def product : Program Unit := do
  let multiply := Fn.word (.binary (.apply .multiply))
  let t ← lift (← pop "product").tensor?
  match t.elements with
  | .boxes xs =>
    if t.isScalar then push (← foldRows multiply t.unbox)
    else
      let parts ← xs.mapM fun x => do lift (← foldRows multiply x).tensor?
      push (.tensor (← lift ((Tensor.ofRows parts).reshape t.shape)))
  | _ => push (← foldRows multiply t)

def each (f : Fn) (name : String) : Program Unit := do
  let t ← lift (← pop name).tensor?
  if t.isScalar then push (← applyOne f [.tensor t])
  else
    let results ← t.rows.mapM fun row => applyOne f [.tensor row]
    if results.isEmpty then push (.tensor t)
    else
      let rows ← lift (results.mapM Value.tensor?)
      push (.tensor (Tensor.ofRows rows))

def groupBy (f : Fn) (name : String) : Program Unit := do
  let t ← lift (← pop name).tensor?
  let grouped ← t.groupRuns fun previous current => do
    lift (Exec.truth (← applyOne f [.tensor current, .tensor previous]) name)
  push (.tensor grouped)

def splitBy (f : Fn) (name : String) : Program Unit := do
  let t ← lift (← pop name).tensor?
  let mask ← t.rows.mapM fun row => do lift (Exec.truth (← applyOne f [.tensor row]) name)
  push (.tensor (← lift (t.splitRuns mask)))

/-! ## Instructions and functions -/

def instr (table : Table) (i : Instr) : Program Unit := do
  match i with
  | .push v => push v
  | .word name => call (← lift (table.get name)) done
  | .invoke f => call f done
  | .quote code => push (.fn (← lift (table.lambda code)))
  | .call => call (← popFunction "call") done
  | .modify name [] => do
    let m ← lift (Modifier.ofName name)
    let operands ← (List.range m.arity).mapM fun _ => popFunction name
    let f ← lift (m.build table.invert table.underPair operands.reverse)
    push (.fn f)
  | .modify name operands => call (← lift (table.derive name operands)) done
  | .unknown text => fail (.domain (.unknownInstruction text.quoted))

/-- The work of a function. -/
def body (table : Table) (f : Fn) : Program Unit := do
  match f with
  | .word w => word w
  | .sum => fold (.word (.binary (.apply .add))) "reduce(add)"
  | .product => product
  | .stash k => stash k
  | .restore k => putBack k
  | .body _ _ _ code => code.forM (instr table)
  | .compose f g => do
    call f done
    call g done
  | .under _ action before after => do
    call before done
    call action done
    call after done
  | .saving f => do
    save (.parameters (← peekMany f.parametric f.name))
    call f done
  | .resuming f inverse => do
    match ← restore f.name with
    | .parameters vs => pushAll vs
    | _ => fail (.substrate .savedForm)
    call inverse done
  | .copyTop g => do
    let kept ← peek 0 f.name
    call g done
    push kept
  | .copyDeepest g => do
    let kept ← peek (max 1 g.args - 1) f.name
    call g done
    let outputs ← popMany g.outputs f.name
    push kept
    pushAll outputs
  | .reduce g => fold g f.name
  | .each g => each g f.name
  | .groupBy g => groupBy g f.name
  | .splitBy g => splitBy g f.name
  | .format t => do
    let fields ← popMany t.fields f.name
    push (.tensor (← lift (t.fill fields)))
  | .parse t => do
    let subject ← popOne f.name
    pushAll ((← lift (t.unfill subject)).map .tensor)

/-! ## What a machine does -/

section

variable (setting : Setting) (call : Fn → Exec Unit) (apply : Exec.Apply) {α β : Type}

/-- The interpretation by the machine's own operations, with `call` and `apply` for functions. -/
def run (p : Program α) : Exec α :=
  p.interp (Op.run setting.limits) call fun f args => Exec.lift (apply f args)

/-- The program as a machine runs it. -/
def Runs (p : Program α) (x : Exec α) : Prop := p.run setting call apply = x

end

namespace Runs

variable {setting : Setting} {call : Fn → Exec Unit} {apply : Exec.Apply} {α β : Type}

theorem bind {p : Program α} {x : Exec α} {f : α → Program β} {g : α → Exec β}
    (h : Runs setting call apply p x) (hf : ∀ a, Runs setting call apply (f a) (g a)) :
    Runs setting call apply (p >>= f) (x >>= g) := by
  obtain rfl := funext hf
  subst h
  -- both sides begin with the first operation of `p`, and by the hypothesis go on alike
  induction p with
  | done a => exact (pure_bind ..).symm
  | fail fault => rfl
  | op o next ih => exact (bind_congr ih).trans (bind_assoc ..).symm
  | call f next ih => exact (bind_congr ih).trans (bind_assoc ..).symm
  | apply f args next ih => exact (bind_congr ih).trans (bind_assoc ..).symm

theorem op (o : Op) : Runs setting call apply (op o done) (o.run setting.limits) := bind_pure _

theorem called (f : Fn) : Runs setting call apply (.call f done) (call f) := bind_pure _

theorem lift (x : Except Fault α) : Runs setting call apply (lift x) (Exec.lift x) := by
  cases x <;> rfl

theorem forM {f : α → Program Unit} {g : α → Exec Unit} (h : ∀ a, Runs setting call apply (f a) (g a)) :
    ∀ xs : List α, Runs setting call apply (xs.forM f) (xs.forM g)
  | [] => rfl
  | x :: xs => (h x).bind fun _ => forM h xs

theorem mapM {f : α → Program β} {g : α → Exec β} (h : ∀ a, Runs setting call apply (f a) (g a))
    (xs : List α) : Runs setting call apply (xs.mapM f) (xs.mapM g) := by
  induction xs with
  | nil => rfl
  | cons x xs ih =>
    rw [List.mapM_cons, List.mapM_cons]
    exact (h x).bind fun _ => ih.bind fun _ => rfl

/-- A program that stands for a computation without a memory. -/
theorem lift_bind {p : Program α} {x : Except Fault α} {f : α → Program β} {g : α → Except Fault β}
    (h : Runs setting call apply p (Exec.lift x))
    (hf : ∀ a, Runs setting call apply (f a) (Exec.lift (g a))) :
    Runs setting call apply (p >>= f) (Exec.lift (x >>= g)) := by
  rw [Exec.lift_bind]
  exact h.bind hf

theorem lift_mapM {f : α → Program β} {g : α → Except Fault β}
    (h : ∀ a, Runs setting call apply (f a) (Exec.lift (g a))) (xs : List α) :
    Runs setting call apply (xs.mapM f) (Exec.lift (xs.mapM g)) := by
  induction xs with
  | nil => rfl
  | cons x xs ih =>
    rw [List.mapM_cons, List.mapM_cons]
    exact (h x).lift_bind fun _ => ih.lift_bind fun _ => rfl

/-! ## Words and halves of under pairs -/

theorem pushAll (vs : List Value) :
    Runs setting call apply (pushAll vs) (Exec.pushAll setting.limits vs) :=
  forM (fun v => op (.push v)) _

theorem peekMany (count : Nat) (name : String) :
    Runs setting call apply (peekMany count name) (Exec.peekMany count name) :=
  mapM (fun i => op (.peek i name)) _

theorem popFunction (name : String) :
    Runs setting call apply (popFunction name) (Exec.popFunction name) :=
  (op (.pop name)).bind fun v => by cases v <;> rfl

theorem checkSize (size : Except Fault (Option Nat)) (name : String) :
    Runs setting call apply (checkSize size name) (Exec.checkSize setting size name) := by
  refine (lift size).bind fun n => ?_
  cases n with
  | none => rfl
  | some n => exact op (.check n name)

theorem word (w : Word) : Runs setting call apply (word w) (Exec.word setting w) := by
  cases w with
  | dup => exact (op (.popOne _)).bind fun v => (op (.push v)).bind fun _ => op (.push v)
  | pop => exact (op (.popOne _)).bind fun _ => rfl
  | swap | flip =>
    exact (op (.popTwo _)).bind fun p => (op (.push p.1)).bind fun _ => op (.push p.2)
  | dupBelow =>
    exact (op (.popTwo _)).bind fun p => (op (.push p.2)).bind fun _ => (op (.push p.1)).bind fun _ =>
      op (.push p.2)
  | unary u =>
    exact (op (.popOne _)).bind fun v => (checkSize _ _).bind fun _ => (lift _).bind fun w =>
      op (.push w)
  | binary b =>
    exact (op (.popTwo _)).bind fun p => (checkSize _ _).bind fun _ => (lift _).bind fun w =>
      op (.push w)

theorem stash (k : Keeper) : Runs setting call apply (stash k) (Exec.stash setting k) := by
  have hkeep : ∀ p : Saved × Tensor, Runs setting call apply
      (do save p.1; push (.tensor p.2)) (do Exec.save p.1; Exec.push setting.limits (.tensor p.2)) :=
    fun p => (op (.save p.1)).bind fun _ => op (.push _)
  cases k with
  | unary u => exact (op (.popOne _)).bind fun v => (lift _).bind hkeep
  | binary b => exact (op (.popTwo _)).bind fun p => (lift _).bind hkeep

theorem putBack (k : Keeper) : Runs setting call apply (putBack k) (Exec.putBack setting k) :=
  (op (.pop _)).bind fun _ => (op (.restore _)).bind fun _ => (lift _).bind fun v => op (.push v)

/-! ## Rows -/

theorem popTensor (name : String) {f : Tensor → Program Unit} {g : Tensor → Exec Unit}
    (h : ∀ t, Runs setting call apply (f t) (g t)) : Runs setting call apply
      (do let t ← .lift (← pop name).tensor?; f t)
      (do let t ← Exec.lift (← Exec.pop name).tensor?; g t) :=
  (op (.pop name)).bind fun _ => (lift _).bind h

theorem applyOne (f : Fn) (args : List Value) :
    Runs setting call apply (applyOne f args) (Exec.lift (Exec.applyOne apply f args)) := by
  have happly : Runs setting call apply (.apply f args done) (Exec.lift (apply f args)) := bind_pure _
  refine happly.lift_bind fun vs => ?_
  match vs with
  | [] | [v] | _ :: _ :: _ => rfl

theorem foldFrom (f : Fn) : ∀ (rows : List Tensor) (acc : Value),
    Runs setting call apply (foldFrom f acc rows) (Exec.lift (Exec.foldFrom apply f acc rows))
  | [], _ => rfl
  | _ :: rows, _ => (applyOne f _).lift_bind fun acc => foldFrom f rows acc

theorem foldRows (f : Fn) (t : Tensor) :
    Runs setting call apply (foldRows f t) (Exec.lift (Exec.foldRows apply f t)) := by
  unfold Program.foldRows Exec.foldRows
  split
  · rfl
  · cases t.rows with
    | cons row rows => exact foldFrom f rows _
    | nil => cases f.identity? <;> rfl

theorem pushFold (f : Fn) (t : Tensor) : Runs setting call apply
    (do push (← .foldRows f t))
    (do Exec.push setting.limits (← Exec.lift (Exec.foldRows apply f t))) :=
  (foldRows f t).bind fun v => op (.push v)

theorem fold (f : Fn) (name : String) :
    Runs setting call apply (fold f name) (Exec.fold setting apply f name) :=
  popTensor name (pushFold f)

theorem product : Runs setting call apply product (Exec.product setting apply) := by
  refine popTensor _ fun t => ?_
  obtain ⟨s, xs⟩ := t
  cases xs with
  | boxes ts =>
    dsimp only
    split
    · exact pushFold _ _
    · refine (lift_mapM (fun t => (foldRows _ t).lift_bind fun v => lift _) ts).bind fun _ => ?_
      exact (lift _).bind fun _ => op (.push _)
  | numbers | characters => exact pushFold _ _

theorem each (f : Fn) (name : String) :
    Runs setting call apply (each f name) (Exec.each setting apply f name) := by
  refine popTensor name fun t => ?_
  split
  · exact (applyOne f _).bind fun v => op (.push v)
  · refine (lift_mapM (fun row => applyOne f _) t.rows).bind fun vs => ?_
    split
    · exact op (.push _)
    · exact (lift _).bind fun _ => op (.push _)

theorem runsAfter {same : Tensor → Tensor → Program Bool}
    {same' : Tensor → Tensor → Except Fault Bool}
    (h : ∀ t u, Runs setting call apply (same t u) (Exec.lift (same' t u))) :
    ∀ (rows : List Tensor) (last : Tensor) (current : List Tensor), Runs setting call apply
      (runsAfter same last current rows) (Exec.lift (runsAfter same' last current rows))
  | [], _, _ => rfl
  | r :: rows, last, current => by
    refine (h last r).lift_bind fun b => ?_
    cases b with
    | true => exact runsAfter h rows r _
    | false => exact (runsAfter h rows r []).lift_bind fun _ => rfl

theorem groupRuns {same : Tensor → Tensor → Program Bool}
    {same' : Tensor → Tensor → Except Fault Bool}
    (h : ∀ t u, Runs setting call apply (same t u) (Exec.lift (same' t u))) (t : Tensor) :
    Runs setting call apply (t.groupRuns same) (Exec.lift (t.groupRuns same')) := by
  have hruns : Runs setting call apply (runs same t.rows) (Exec.lift (runs same' t.rows)) := by
    cases t.rows with
    | nil => rfl
    | cons r rows => exact runsAfter h rows r []
  exact hruns.lift_bind fun _ => rfl

theorem groupBy (f : Fn) (name : String) :
    Runs setting call apply (groupBy f name) (Exec.groupBy setting apply f name) :=
  popTensor name fun t =>
    (groupRuns (fun _ _ => (applyOne f _).lift_bind fun _ => lift _) t).bind fun _ => op (.push _)

theorem splitBy (f : Fn) (name : String) :
    Runs setting call apply (splitBy f name) (Exec.splitBy setting apply f name) :=
  popTensor name fun t =>
    (lift_mapM (fun _ => (applyOne f _).lift_bind fun _ => lift _) t.rows).bind fun _ =>
      (lift _).bind fun _ => op (.push _)

/-! ## Instructions and functions -/

theorem instr (i : Instr) :
    Runs setting call apply (instr setting.table i) (Exec.instr setting call i) := by
  cases i with
  | push v => exact op (.push v)
  | word name => exact (lift _).bind called
  | invoke f => exact called f
  | quote code => exact (lift _).bind fun _ => op (.push _)
  | call => exact (popFunction _).bind called
  | unknown text => rfl
  | modify name operands =>
    cases operands with
    | cons o os => exact (lift _).bind called
    | nil =>
      refine (lift _).bind fun m => (mapM (fun _ => popFunction name) _).bind fun fs => ?_
      exact (lift _).bind fun _ => op (.push _)

theorem body (f : Fn) :
    Runs setting call apply (body setting.table f) (Exec.body setting call apply f) := by
  cases f with
  | word w => exact word w
  | sum => exact fold _ _
  | product => exact product
  | stash k => exact stash k
  | restore k => exact putBack k
  | body name s dynamic code => exact forM instr code
  | compose f g => exact (called f).bind fun _ => called g
  | under s action before after =>
    exact (called before).bind fun _ => (called action).bind fun _ => called after
  | saving f => exact (peekMany _ _).bind fun vs => (op (.save _)).bind fun _ => called f
  | resuming f inverse =>
    refine (op (.restore _)).bind fun saved => ?_
    cases saved with
    | parameters vs => exact (pushAll vs).bind fun _ => called inverse
    | _ => rfl
  | copyTop g => exact (op (.peek _ _)).bind fun v => (called g).bind fun _ => op (.push v)
  | copyDeepest g =>
    exact (op (.peek _ _)).bind fun v => (called g).bind fun _ => (op (.popMany _ _)).bind fun vs =>
      (op (.push v)).bind fun _ => pushAll vs
  | reduce g => exact fold g _
  | each g => exact each g _
  | groupBy g => exact groupBy g _
  | splitBy g => exact splitBy g _
  | format t => exact (op (.popMany _ _)).bind fun vs => (lift _).bind fun _ => op (.push _)
  | parse t => exact (op (.popOne _)).bind fun v => (lift _).bind fun _ => pushAll _

end Runs

/-! ## Two machines -/

namespace Link

variable {R : ⦃α : Type⦄ → Exec α → Exec α → Prop} {σ τ : Setting} {call call' : Fn → Exec Unit}
  {apply apply' : Exec.Apply} (hR : Link Exec Exec R) (hops : ∀ o : Op, R (o.run σ.limits) (o.run τ.limits))
  (hcall : ∀ f, R (call f) (call' f))

include hR hops hcall

theorem instr (htable : τ.table = σ.table) (i : Instr) :
    R (Exec.instr σ call i) (Exec.instr τ call' i) := by
  -- an instruction applies nothing itself, so that any way to apply does
  have hσ : Runs σ call (fun _ _ => .ok []) _ _ := Runs.instr i
  have hτ : Runs τ call' (fun _ _ => .ok []) _ _ := Runs.instr i
  rw [← hσ, ← hτ, htable]
  exact hR.interp hops hcall (fun _ _ => hR.pure _) _

theorem body (htable : τ.table = σ.table)
    (happly : ∀ f args, R (Exec.lift (apply f args)) (Exec.lift (apply' f args))) (f : Fn) :
    R (Exec.body σ call apply f) (Exec.body τ call' apply' f) := by
  rw [← Runs.body f, ← Runs.body f, htable]
  exact hR.interp hops hcall happly _

end Link

end Program

end Tacit
