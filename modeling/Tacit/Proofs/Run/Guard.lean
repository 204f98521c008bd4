/-
What a program stays within. Classes of values, functions, contexts and faults hold a program if it asks
for nothing outside them as long as its operations, calls and applications give nothing outside them. The
work of every function of a class is held by classes that the words and the derivations over the table
lead only into.
-/
import Tacit.Proofs.Derive.Built
import Tacit.Proofs.Fault.Derivation
import Tacit.Proofs.Run.Program

namespace Tacit

/-- The values that a run meets, the functions that it calls, what it saves and the faults that end it. -/
structure Classes where
  value : Value → Prop
  fn : Fn → Prop
  saved : Saved → Prop
  fault : Fault → Prop

namespace Op

variable (K : Classes)

/-- What may be asked of an operation. Nothing is asked back where nothing may be saved. -/
def Given : Op → Prop
  | push v => K.value v
  | save s => K.saved s
  | restore _ => ∃ s, K.saved s
  | _ => True

/-- What the operation then gives. -/
def Gives : (o : Op) → o.Answer → Prop
  | check .., _ | push .., _ | save .., _ => True
  | pop .., v | popOne .., v | peek .., v => K.value v
  | popTwo .., p => K.value p.1 ∧ K.value p.2
  | popMany .., (vs : List Value) => ∀ v ∈ vs, K.value v
  | restore .., s => K.saved s

end Op

/-- The operands of a function that a modifier made to be called or applied. -/
def Fn.parts : Fn → List Fn
  | .copyTop f | .copyDeepest f | .reduce f | .each f | .groupBy f | .splitBy f => [f]
  | _ => []

/-- The functions that an under or a half with parameters calls. -/
def Fn.halves : Fn → List Fn
  | .under _ action before after => [before, action, after]
  | .saving f => [f]
  | .resuming _ inverse => [inverse]
  | _ => []

namespace Exec

/-- Values that the words and modifiers lead only to each other. -/
structure Closed (V : Value → Prop) : Prop where
  unary {u : Unary} {v w : Value} : V v → u.eval v = .ok w → V w
  binary {b : Binary} {v w r : Value} : V v → V w → b.eval v w = .ok r → V r
  int (n : Int32) : V (.tensor (.int n))
  string (t : Text) : V (.tensor (.string t))
  row {t r : Tensor} : V (.tensor t) → r ∈ t.rows → V (.tensor r)
  content {s : Shape} {ts : List Tensor} {t : Tensor} :
    V (.tensor ⟨s, .boxes ts⟩) → t ∈ ts → V (.tensor t)
  ofRows {ts : List Tensor} : (∀ t ∈ ts, V (.tensor t)) → V (.tensor (.ofRows ts))
  boxes {ts : List Tensor} : (∀ t ∈ ts, V (.tensor t)) → V (.tensor (.boxes ts))
  reshape {t u : Tensor} {s : Shape} : V (.tensor t) → t.reshape s = .ok u → V (.tensor u)
  splitRuns {t u : Tensor} {mask : List Bool} :
    V (.tensor t) → t.splitRuns mask = .ok u → V (.tensor u)

/-- Functions, values and instructions that lead only to each other over a table. -/
structure Realm (table : Table) (V : Value → Prop) (F : Fn → Prop) (I : Instr → Prop) : Prop where
  binary (b : Binary) : F (.word (.binary b))
  part {f g : Fn} : F f → g ∈ f.parts → F g
  code {f : Fn} {code : List Instr} : F f → f.isPlain → f.code? = some code → ∀ i ∈ code, I i
  push {v : Value} : I (.push v) → V v
  word {name : String} {f : Fn} : I (.word name) → table.get name = .ok f → F f
  invoke {f : Fn} : I (.invoke f) → F f
  quote {code : List Instr} {f : Fn} : I (.quote code) → table.lambda code = .ok f → V (.fn f)
  call {f : Fn} : I .call → V (.fn f) → F f
  make {name : String} {m : Modifier} {gs : List Fn} {f : Fn} : I (.modify name []) →
    (∀ g ∈ gs, V (.fn g)) → m.build table.invert table.underPair gs = .ok f → V (.fn f)
  modify {name : String} {o : Operand} {os : List Operand} {f : Fn} : I (.modify name (o :: os)) →
    table.derive name (o :: os) = .ok f → F f

end Exec

open Exec (Closed Realm)

namespace Program

/-- Within the classes, with a result of the kind given. -/
def Within (K : Classes) {α : Type} (P : α → Prop) : Program α → Prop
  | .done a => P a
  | .fail fault => K.fault fault
  | .op o next => o.Given K ∧ ∀ a, o.Gives K a → (next a).Within K P
  | .call f next => K.fn f ∧ (next ()).Within K P
  | .apply f args next =>
    K.fn f ∧ (∀ v ∈ args, K.value v) ∧ ∀ vs, (∀ v ∈ vs, K.value v) → (next vs).Within K P

namespace Within

variable {K : Classes} {α β : Type} {P : α → Prop} {P' : β → Prop}

theorem bind {p : Program α} {f : α → Program β} (h : p.Within K P) (hf : ∀ a, P a → (f a).Within K P') :
    (p >>= f).Within K P' := by
  induction p with
  | done a => exact hf a h
  | fail fault => exact h
  | op o next ih => exact ⟨h.1, fun a ha => ih a (h.2 a ha)⟩
  | call f next ih => exact ⟨h.1, ih () h.2⟩
  | apply f args next ih => exact ⟨h.1, h.2.1, fun vs hvs => ih vs (h.2.2 vs hvs)⟩

theorem map {p : Program α} {f : α → β} (h : p.Within K P) (hf : ∀ a, P a → P' (f a)) :
    (f <$> p).Within K P' := by
  rw [map_eq_pure_bind]
  exact h.bind hf

theorem mapM {f : α → Program β} {P : β → Prop} : ∀ xs : List α, (∀ a ∈ xs, (f a).Within K P) →
    (xs.mapM f).Within K fun bs => ∀ b ∈ bs, P b
  | [], _ => fun b hb => by cases hb
  | x :: xs, h => by
    rw [List.mapM_cons]
    refine (h x (by simp)).bind fun b hb => ?_
    refine (mapM xs fun a ha => h a (by simp [ha])).bind fun bs hbs => ?_
    exact List.forall_mem_cons.2 ⟨hb, hbs⟩

theorem forM {f : α → Program Unit} : ∀ xs : List α, (∀ a ∈ xs, (f a).Within K fun _ => True) →
    (xs.forM f).Within K fun _ => True
  | [], _ => trivial
  | x :: xs, h => (h x (by simp)).bind fun _ _ => forM xs fun a ha => h a (by simp [ha])

theorem op {o : Op} {P : o.Answer → Prop} (h : o.Given K) (hP : ∀ a, o.Gives K a → P a) :
    (Program.op o .done).Within K P := ⟨h, hP⟩

theorem push {v : Value} (h : K.value v) : (push v).Within K fun _ => True := op h fun _ _ => trivial

theorem save {s : Saved} (h : K.saved s) : (save s).Within K fun _ => True := op h fun _ _ => trivial

theorem restore (name : String) (h : ∃ s, K.saved s) : (restore name).Within K K.saved := op h fun _ h => h

theorem pop (name : String) : (pop name).Within K K.value := op trivial fun _ h => h

theorem popOne (name : String) : (popOne name).Within K K.value := op trivial fun _ h => h

theorem popTwo (name : String) : (popTwo name).Within K fun p => K.value p.1 ∧ K.value p.2 :=
  op trivial fun _ h => h

theorem popMany (count : Nat) (name : String) :
    (popMany count name).Within K fun vs => ∀ v ∈ vs, K.value v := op trivial fun _ h => h

theorem peek (offset : Nat) (name : String) : (peek offset name).Within K K.value := op trivial fun _ h => h

theorem pushAll {vs : List Value} (h : ∀ v ∈ vs, K.value v) : (pushAll vs).Within K fun _ => True :=
  forM _ fun v hv => push (h v (by simpa using hv))

theorem peekMany (count : Nat) (name : String) :
    (peekMany count name).Within K fun vs => ∀ v ∈ vs, K.value v := mapM _ fun i _ => peek i name

theorem call {f : Fn} (h : K.fn f) : (Program.call f .done).Within K fun _ => True := ⟨h, trivial⟩

end Within

end Program

/-! ## Classes that hold -/

/-- Nothing leads out of the classes: no word, no derivation over the table, and no fault but those of the
class `bad`, which is left to the machine. -/
structure Classes.Hold (K : Classes) (table : Table) (I : Instr → Prop) (bad : Fault → Bool) : Prop where
  closed : Closed K.value
  realm : Realm table K.value K.fn I
  spares : table.Spares bad
  fault {e : Fault} : bad e = false → K.fault e
  underflow (c : UnderflowCause) : K.fault (.underflow c)

namespace Classes.Hold

open Program

variable {K : Classes} {table : Table} {I : Instr → Prop} {bad : Fault → Bool} (h : K.Hold table I bad)
  {α : Type} {P : α → Prop}

include h

theorem derived {x : Except Fault α} (hx : Avoids bad x) (hP : ∀ a, x = .ok a → P a) :
    (lift x).Within K P := by
  cases x with
  | ok a => exact hP a rfl
  | error e => exact h.fault (hx e rfl)

theorem lift {x : Except Fault α} (hx : Tame x) (hP : ∀ a, x = .ok a → P a) : (lift x).Within K P :=
  h.derived (.of_tame h.spares.ofRun hx) hP

theorem fail {e : Fault} (he : e.ofRun = false) : (fail e : Program α).Within K P :=
  h.lift (x := .error e) (Avoids.throw_iff.2 he) fun _ he => nomatch he

/-! ### Words -/

theorem checkSize {size : Except Fault (Option Nat)} (hs : Tame size) (name : String) :
    (checkSize size name).Within K fun _ => True := by
  refine (h.lift (P := fun _ => True) hs fun _ _ => trivial).bind fun n _ => ?_
  cases n with
  | some n => exact .op trivial fun _ _ => trivial
  | none => trivial

theorem word (w : Word) : (word w).Within K fun _ => True := by
  cases w with
  | dup => exact (Within.popOne _).bind fun v hv => (Within.push hv).bind fun _ _ => .push hv
  | pop => exact (Within.popOne _).map fun _ _ => trivial
  | swap | flip =>
    exact (Within.popTwo _).bind fun p hp => (Within.push hp.1).bind fun _ _ => .push hp.2
  | dupBelow =>
    exact (Within.popTwo _).bind fun p hp => (Within.push hp.2).bind fun _ _ => (Within.push hp.1).bind
      fun _ _ => .push hp.2
  | unary u =>
    refine (Within.popOne _).bind fun v hv => (h.checkSize (u.tame_size? v) _).bind fun _ _ => ?_
    exact (h.lift (u.tame_eval v) fun w hw => h.closed.unary hv hw).bind fun w hw => .push hw
  | binary b =>
    refine (Within.popTwo _).bind fun p hp => (h.checkSize (b.tame_size? _ _) _).bind fun _ _ => ?_
    exact (h.lift (b.tame_eval _ _) fun w hw => h.closed.binary hp.1 hp.2 hw).bind fun w hw => .push hw

/-! ### Rows -/

theorem tensor {v : Value} (hv : K.value v) : (Program.lift v.tensor?).Within K fun t => K.value (.tensor t) := by
  refine h.lift v.tame_tensor? fun t ht => ?_
  cases v with
  | tensor t => cases ht; exact hv
  | fn f => cases ht

theorem popTensor (name : String) {next : Tensor → Program Unit}
    (hnext : ∀ t, K.value (.tensor t) → (next t).Within K fun _ => True) :
    (do let t ← Program.lift (← pop name).tensor?; next t).Within K fun _ => True :=
  (Within.pop name).bind fun _ hv => (h.tensor hv).bind hnext

theorem truth (v : Value) (name : String) : (Program.lift (Exec.truth v name)).Within K fun _ => True := by
  refine h.lift ?_ fun _ _ => trivial
  unfold Exec.truth
  repeat' split
  all_goals simp

omit h in
theorem runsAfter {same : Tensor → Tensor → Program Bool}
    (hs : ∀ t u, K.value (.tensor t) → K.value (.tensor u) → (same t u).Within K fun _ => True) :
    ∀ (rows : List Tensor) {last : Tensor} {current : List Tensor}, K.value (.tensor last) →
      (∀ r ∈ current, K.value (.tensor r)) → (∀ r ∈ rows, K.value (.tensor r)) →
      (Tacit.runsAfter same last current rows).Within K fun runs => ∀ run ∈ runs, ∀ r ∈ run, K.value (.tensor r)
  | [], last, current, hl, hc, _ => by
    intro run hrun r hr
    rw [List.mem_singleton.1 hrun, List.mem_reverse] at hr
    rcases List.mem_cons.1 hr with rfl | hr
    · exact hl
    · exact hc r hr
  | r :: rows, last, current, hl, hc, hr => by
    have hr0 : K.value (.tensor r) := hr r (by simp)
    have hr' : ∀ r ∈ rows, K.value (.tensor r) := fun r' h' => hr r' (by simp [h'])
    refine (hs last r hl hr0).bind fun b _ => ?_
    split
    · exact runsAfter hs rows hr0 (by simpa using ⟨hl, hc⟩) hr'
    · refine (runsAfter hs rows hr0 (by simp) hr').bind fun runs hruns => List.forall_mem_cons.2 ⟨?_, hruns⟩
      simpa [or_imp, forall_and] using And.intro hc hl

theorem groupRuns {same : Tensor → Tensor → Program Bool}
    (hs : ∀ t u, K.value (.tensor t) → K.value (.tensor u) → (same t u).Within K fun _ => True)
    {t : Tensor} (ht : K.value (.tensor t)) : (t.groupRuns same).Within K fun u => K.value (.tensor u) := by
  have hr : ∀ r ∈ t.rows, K.value (.tensor r) := fun r hr => h.closed.row ht hr
  have hruns : (runs same t.rows).Within K fun runs => ∀ run ∈ runs, ∀ r ∈ run, K.value (.tensor r) := by
    cases hrows : t.rows with
    | nil => exact fun run hrun => by cases hrun
    | cons r rows =>
      rw [hrows] at hr
      exact runsAfter hs rows (hr r (by simp)) (by simp) fun r' h' => hr r' (by simp [h'])
  refine hruns.bind fun runs hruns => h.closed.boxes fun u hu => ?_
  obtain ⟨run, hrun, rfl⟩ := List.mem_map.1 hu
  exact h.closed.ofRows (hruns run hrun)

section

variable {f : Fn} (hf : K.fn f)

include hf

theorem applyOne {args : List Value} (ha : ∀ v ∈ args, K.value v) : (applyOne f args).Within K K.value := by
  refine ⟨hf, ha, fun vs hvs => ?_⟩
  match vs with
  | [] => exact h.underflow _
  | [v] => exact hvs v (by simp)
  | _ :: _ :: _ => exact h.underflow _

theorem foldFrom : ∀ (rows : List Tensor) {acc : Value}, K.value acc → (∀ r ∈ rows, K.value (.tensor r)) →
    (foldFrom f acc rows).Within K K.value
  | [], _, ha, _ => ha
  | r :: rows, _, ha, hr => (h.applyOne hf (by simp [ha, hr r])).bind fun _ ha' =>
      foldFrom rows ha' fun r' h' => hr r' (by simp [h'])

theorem foldRows {t : Tensor} (ht : K.value (.tensor t)) : (foldRows f t).Within K K.value := by
  unfold Program.foldRows
  split
  · exact ht
  · cases hrows : t.rows with
    | cons row rows =>
      have hr : ∀ r ∈ row :: rows, K.value (.tensor r) := fun r hr => h.closed.row ht (hrows ▸ hr)
      exact h.foldFrom hf rows (hr row (by simp)) fun r h' => hr r (by simp [h'])
    | nil =>
      cases hi : f.identity? with
      | none => exact h.fail rfl
      | some u =>
        -- only words have one, and it is a number
        cases f with
        | word w =>
          obtain ⟨n, -, rfl⟩ := Option.map_eq_some_iff.1 hi
          exact h.closed.int n
        | _ => cases hi

theorem pushFold {t : Tensor} (ht : K.value (.tensor t)) :
    (do push (← Program.foldRows f t)).Within K fun _ => True :=
  (h.foldRows hf ht).bind fun _ hv => .push hv

theorem fold (name : String) : (fold f name).Within K fun _ => True :=
  h.popTensor name fun _ ht => h.pushFold hf ht

theorem each (name : String) : (each f name).Within K fun _ => True := by
  refine h.popTensor name fun t ht => ?_
  split
  · exact (h.applyOne hf (by simpa using ht)).bind fun v hv => .push hv
  · refine (Within.mapM t.rows fun r hr => h.applyOne hf ?_).bind fun vs hvs => ?_
    · simpa using h.closed.row ht hr
    · split
      · exact .push ht
      · refine (h.derived (P := fun ts => ∀ t ∈ ts, K.value (.tensor t)) ?_ fun ts hts u hu => ?_).bind fun ts hts =>
          .push (h.closed.ofRows hts)
        · exact .mapM _ fun v => .of_tame h.spares.ofRun v.tame_tensor?
        · obtain ⟨v, hv, hu⟩ := Except.exists_of_mem_mapM hts hu
          cases v with
          | tensor t => cases hu; exact hvs _ hv
          | fn f => cases hu

theorem groupBy (name : String) : (groupBy f name).Within K fun _ => True := by
  refine h.popTensor name fun t ht => (h.groupRuns (fun t u ht hu => ?_) ht).bind fun _ hu => .push hu
  exact (h.applyOne hf (by simpa using ⟨hu, ht⟩)).bind fun v _ => h.truth v name

theorem splitBy (name : String) : (splitBy f name).Within K fun _ => True := by
  refine h.popTensor name fun t ht => ?_
  refine (Within.mapM (P := fun _ => True) t.rows fun r hr => ?_).bind fun mask _ => ?_
  · exact (h.applyOne hf (by simpa using h.closed.row ht hr)).bind fun v _ => h.truth v name
  · refine (h.lift (P := fun u => K.value (.tensor u)) (by simp) fun u hu => ?_).bind fun u hu => .push hu
    exact h.closed.splitRuns ht hu

end

theorem product : product.Within K fun _ => True := by
  have hmultiply : K.fn (.word (.binary (.apply .multiply))) := h.realm.binary _
  refine h.popTensor _ fun t ht => ?_
  obtain ⟨s, xs⟩ := t
  cases xs with
  | numbers | characters => exact h.pushFold hmultiply ht
  | boxes ts =>
    dsimp only
    split
    · refine h.pushFold hmultiply ?_
      cases s with
      | cons => exact ht
      | nil =>
        cases ts with
        | nil => exact ht
        | cons t ts => exact h.closed.content ht (List.mem_cons_self ..)
    · refine (Within.mapM (P := fun u => K.value (.tensor u)) ts fun t hmem => ?_).bind fun us hus => ?_
      · exact (h.foldRows hmultiply (h.closed.content ht hmem)).bind fun v hv => h.tensor hv
      · exact (h.lift (P := fun u => K.value (.tensor u)) (by simp) fun u hu =>
          h.closed.reshape (h.closed.ofRows hus) hu).bind fun u hu => .push hu

/-! ### Instructions and functions -/

theorem popFunction (name : String) : (popFunction name).Within K fun f => K.value (.fn f) := by
  refine (Within.pop name).bind fun v hv => ?_
  cases v with
  | tensor t => exact h.fail rfl
  | fn f => exact hv

theorem instr {i : Instr} (hi : I i) : (instr table i).Within K fun _ => True := by
  cases i with
  | push v => exact .push (h.realm.push hi)
  | word name => exact (h.lift (table.tame_get name) fun f hf => h.realm.word hi hf).bind fun f hf => .call hf
  | invoke f => exact .call (h.realm.invoke hi)
  | quote code =>
    exact (h.derived (h.spares.lambda code) fun f hf => h.realm.quote hi hf).bind fun f hf => .push hf
  | call => exact (h.popFunction "call").bind fun f hf => .call (h.realm.call hi hf)
  | unknown text => exact h.fail rfl
  | modify name os =>
    cases os with
    | nil =>
      refine (h.lift (P := fun _ => True) (Modifier.tame_ofName name) fun _ _ => trivial).bind fun m _ => ?_
      refine (Within.mapM _ fun _ _ => h.popFunction name).bind fun gs hgs => ?_
      refine (h.derived (h.spares.build m _) fun f hf => ?_).bind fun f hf => .push hf
      exact h.realm.make hi (fun g hg => hgs g (by simpa using hg)) hf
    | cons o os =>
      exact (h.derived (h.spares.derive name _) fun f hf => h.realm.modify hi hf).bind fun f hf => .call hf

theorem plain {f : Fn} (hf : K.fn f) (hn : f.isPlain) : (body table f).Within K fun _ => True := by
  cases f with
  | word w => exact h.word w
  | sum => exact h.fold (h.realm.binary _) _
  | product => exact h.product
  | body name s dynamic code => exact .forM code fun i hi => h.instr (h.realm.code hf hn rfl i hi)
  | compose f g =>
    have hi := h.realm.code hf hn rfl
    exact (Within.call (h.realm.invoke (hi _ (by simp)))).bind fun _ _ => .call (h.realm.invoke (hi _ (by simp)))
  | copyTop g =>
    exact (Within.peek _ _).bind fun v hv => (Within.call (h.realm.part hf (by simp [Fn.parts]))).bind fun _ _ =>
      .push hv
  | copyDeepest g =>
    exact (Within.peek _ _).bind fun v hv => (Within.call (h.realm.part hf (by simp [Fn.parts]))).bind fun _ _ =>
      (Within.popMany _ _).bind fun vs hvs => (Within.push hv).bind fun _ _ => .pushAll hvs
  | reduce g => exact h.fold (h.realm.part hf (by simp [Fn.parts])) _
  | each g => exact h.each (h.realm.part hf (by simp [Fn.parts])) _
  | groupBy g => exact h.groupBy (h.realm.part hf (by simp [Fn.parts])) _
  | splitBy g => exact h.splitBy (h.realm.part hf (by simp [Fn.parts])) _
  | format t =>
    refine (Within.popMany _ _).bind fun vs hvs => ?_
    refine (h.lift (P := fun u => K.value (.tensor u)) (t.tame_fill vs) fun u hu => ?_).bind fun u hu => .push hu
    obtain ⟨texts, -, hu⟩ := Except.bind_ok hu
    obtain ⟨text, -, hu⟩ := Except.bind_ok hu
    cases hu; exact h.closed.string _
  | parse t =>
    refine (Within.popOne _).bind fun v hv => ?_
    refine (h.lift (P := fun us => ∀ u ∈ us, K.value (.tensor u)) (t.tame_unfill v) fun us hus u hu => ?_).bind
      fun us hus => .pushAll (by simpa using hus)
    obtain ⟨u, -, hus⟩ := Except.bind_ok hus
    obtain ⟨subject, -, hus⟩ := Except.bind_ok hus
    obtain ⟨texts, -, hus⟩ := Except.bind_ok hus
    cases hus
    obtain ⟨text, -, rfl⟩ := List.mem_map.1 hu
    exact h.closed.string text
  | stash | restore | under | saving | resuming => simp [Fn.isPlain] at hn

end Classes.Hold

/-! ## Halves of under pairs -/

/-- Nor do the halves of under pairs lead out of the classes. -/
structure Classes.HoldHalves (K : Classes) : Prop where
  unary {k : UnaryKeeper} {v : Value} {s : Saved} {t : Tensor} :
    K.value v → k.stash v = .ok (s, t) → K.saved s ∧ K.value (.tensor t)
  binary {k : BinaryKeeper} {v w : Value} {s : Saved} {t : Tensor} :
    K.value v → K.value w → k.stash v w = .ok (s, t) → K.saved s ∧ K.value (.tensor t)
  restore {k : Keeper} {s : Saved} {v w : Value} :
    K.saved s → K.value v → k.restore s v = .ok w → K.value w
  parameters {vs : List Value} : K.saved (.parameters vs) ↔ ∀ v ∈ vs, K.value v
  half {f g : Fn} : K.fn f → g ∈ f.halves → K.fn g

theorem Program.Within.restored {K : Classes} (hk : K.HoldHalves) (name : String)
    {next : Saved → Program Unit} (hnext : ∀ s, K.saved s → (next s).Within K fun _ => True) :
    (do let s ← Program.restore name; next s).Within K fun _ => True :=
  (Within.restore name ⟨_, hk.parameters.2 (List.forall_mem_nil _)⟩).bind hnext

namespace Classes.Hold

open Program

variable {K : Classes} {table : Table} {I : Instr → Prop} {bad : Fault → Bool} (h : K.Hold table I bad)
  (hk : K.HoldHalves)

include h hk

theorem stash (k : Keeper) : (stash k).Within K fun _ => True := by
  have hkeep : ∀ p : Saved × Tensor, K.saved p.1 ∧ K.value (.tensor p.2) →
      (do save p.1; push (.tensor p.2)).Within K fun _ => True := fun p hp =>
    (Within.save hp.1).bind fun _ _ => .push hp.2
  cases k with
  | unary u =>
    exact (Within.popOne _).bind fun v hv => (h.lift (u.tame_stash v) fun p hp => hk.unary hv hp).bind hkeep
  | binary b =>
    exact (Within.popTwo _).bind fun p hp =>
      (h.lift (b.tame_stash _ _) fun q hq => hk.binary hp.1 hp.2 hq).bind hkeep

theorem putBack (k : Keeper) : (putBack k).Within K fun _ => True := by
  refine (Within.pop _).bind fun new hnew => Within.restored hk _ fun saved hsaved => ?_
  exact (h.lift (k.tame_restore saved new) fun w hw => hk.restore hsaved hnew hw).bind fun w hw => .push hw

/-- The work of a function of the class stays within the classes. -/
theorem body {f : Fn} (hf : K.fn f) : (body table f).Within K fun _ => True := by
  have hcall : ∀ {g : Fn}, g ∈ f.halves → (Program.call g .done).Within K fun _ => True := fun hg =>
    .call (hk.half hf hg)
  cases f with
  | stash k => exact h.stash hk k
  | restore k => exact h.putBack hk k
  | under transform action before after =>
    exact (hcall (by simp [Fn.halves])).bind fun _ _ => (hcall (by simp [Fn.halves])).bind fun _ _ =>
      hcall (by simp [Fn.halves])
  | saving f =>
    refine (Within.peekMany _ _).bind fun vs hvs => ?_
    exact (Within.save (hk.parameters.2 hvs)).bind fun _ _ =>
      hcall (by simp [Fn.halves])
  | resuming f inverse =>
    refine Within.restored hk _ fun saved hsaved => ?_
    cases saved with
    | parameters vs =>
      exact (Within.pushAll (hk.parameters.1 hsaved)).bind fun _ _ => hcall (by simp [Fn.halves])
    | _ => exact h.fail rfl
  | _ => exact h.plain hf rfl

end Classes.Hold

end Tacit
