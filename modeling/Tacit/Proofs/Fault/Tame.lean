/-
Faults of the machine and faults of its parts. A stack that is too short, a limit that is passed and a
missing context are for the machine alone to report, and a definition without end is for derivations;
every word, template and pair of halves is tame, it fails only with faults of its own.
-/
import Tacit.Machine.Basic
import Mathlib.Tactic

namespace Tacit

/-! ## Lists side by side -/

theorem exists_of_forall₂ {α β : Type} {R : α → β → Prop} {xs : List α} {ys : List β}
    (h : List.Forall₂ R xs ys) {y : β} (hy : y ∈ ys) : ∃ x ∈ xs, R x y := by
  induction h with
  | nil => cases hy
  | @cons x z xs ys hxz _ ih =>
    rcases List.mem_cons.1 hy with rfl | hy
    · exact ⟨x, by simp, hxz⟩
    · obtain ⟨x', hx', hr⟩ := ih hy
      exact ⟨x', by simp [hx'], hr⟩

theorem forall₂_of_exists {α β : Type} {R : α → β → Prop} : ∀ {xs : List α}, (∀ x ∈ xs, ∃ y, R x y) →
    ∃ ys, List.Forall₂ R xs ys
  | [], _ => ⟨[], .nil⟩
  | x :: xs, h => by
    obtain ⟨hx, hxs⟩ := List.forall_mem_cons.1 h
    obtain ⟨y, hy⟩ := hx
    obtain ⟨ys, hys⟩ := forall₂_of_exists hxs
    exact ⟨y :: ys, .cons hy hys⟩

theorem forall₂_comp {α β γ : Type} {R : α → β → Prop} {S : β → γ → Prop} {T : α → γ → Prop}
    (hT : ∀ x y z, R x y → S y z → T x z) {xs : List α} {ys : List β} (h : List.Forall₂ R xs ys) :
    ∀ {zs : List γ}, List.Forall₂ S ys zs → List.Forall₂ T xs zs := by
  induction h with
  | nil =>
    rintro _ (_ | _)
    exact .nil
  | cons hxy _ ih =>
    rintro _ (_ | ⟨hyz, hyzs⟩)
    exact .cons (hT _ _ _ hxy hyz) (ih hyzs)

/-! ## Faults -/

/-- Faults that depend on the stacks or the limits. -/
@[simp] def Fault.ofMachine : Fault → Bool
  | .underflow _ | .limit _ | .domain (.nothingSaved _) => true
  | _ => false

/-- Faults of the machine, and definitions without end. -/
@[simp] def Fault.ofRun : Fault → Bool
  | .underflow _ | .limit _ | .domain (.nothingSaved _) | .endlessDefinition => true
  | _ => false

theorem Fault.ofRun_of_ofMachine (e : Fault) (h : e.ofMachine = true) : e.ofRun = true := by
  cases e with
  | underflow | limit => rfl
  | domain cause => cases cause <;> first | rfl | cases h
  | _ => cases h

/-- No fault of the class comes out of it. -/
def Avoids (bad : Fault → Bool) {α : Type} (x : Except Fault α) : Prop :=
  ∀ e, x = .error e → bad e = false

/-- Nothing but faults of its own comes out of it. -/
abbrev Tame {α : Type} (x : Except Fault α) : Prop := Avoids Fault.ofRun x

namespace Except

theorem bind_ok {α β : Type} {x : Except Fault α} {f : α → Except Fault β} {b : β}
    (h : x >>= f = .ok b) : ∃ a, x = .ok a ∧ f a = .ok b := by
  cases x with
  | error e => cases h
  | ok a => exact ⟨a, rfl, h⟩

theorem bind_of_ok {α β : Type} {x : Except Fault α} {f : α → Except Fault β} {a : α} {b : β}
    (hx : x = .ok a) (hf : f a = .ok b) : x >>= f = .ok b := by
  rw [hx]; exact hf

theorem bind_eq_ok_iff {α β : Type} {x : Except Fault α} {f : α → Except Fault β} {b : β} :
    x >>= f = .ok b ↔ ∃ a, x = .ok a ∧ f a = .ok b :=
  ⟨bind_ok, fun ⟨_, hx, hf⟩ => bind_of_ok hx hf⟩

/-- What is only passed on fails just as it did. -/
theorem bind_pure_eq_error_iff {α β : Type} {x : Except Fault α} {f : α → β} {fault : Fault} :
    (x >>= fun a => pure (f a)) = .error fault ↔ x = .error fault := by
  cases x with
  | ok a => exact ⟨nofun, nofun⟩
  | error e =>
    constructor <;>
    · rintro ⟨⟩
      rfl

theorem ok_bind {α β : Type} (a : α) (f : α → Except Fault β) : (.ok a : Except Fault α) >>= f = f a := rfl

/-- A list of outcomes that are all good gives them one by one. -/
theorem forall₂_of_mapM {α β : Type} {f : α → Except Fault β} : ∀ {xs : List α} {ys : List β},
    xs.mapM f = .ok ys → List.Forall₂ (fun x y => f x = .ok y) xs ys
  | [], ys, h => by cases h; exact .nil
  | x :: xs, ys, h => by
    rw [List.mapM_cons] at h
    obtain ⟨y, hy, h⟩ := bind_ok h
    obtain ⟨ys', hys, h⟩ := bind_ok h
    cases h
    exact .cons hy (forall₂_of_mapM hys)

theorem mapM_of_forall₂ {α β : Type} {f : α → Except Fault β} {xs : List α} {ys : List β}
    (h : List.Forall₂ (fun x y => f x = .ok y) xs ys) : xs.mapM f = .ok ys := by
  induction h with
  | nil => rfl
  | cons hx _ ih => rw [List.mapM_cons, hx, ih]; rfl

theorem exists_mapM_eq_ok {α β : Type} {f : α → Except Fault β} : ∀ {xs : List α},
    (∀ x ∈ xs, ∃ y, f x = .ok y) → ∃ ys, xs.mapM f = .ok ys
  | [], _ => ⟨[], rfl⟩
  | x :: xs, h => by
    obtain ⟨y, hy⟩ := h x (by simp)
    obtain ⟨ys, hys⟩ := exists_mapM_eq_ok fun z hz => h z (List.mem_cons_of_mem x hz)
    rw [List.mapM_cons]
    exact ⟨y :: ys, bind_of_ok hy (bind_of_ok hys rfl)⟩

theorem mapM_congr {α β : Type} {f g : α → Except Fault β} {xs : List α} (h : ∀ x ∈ xs, f x = g x) :
    xs.mapM f = xs.mapM g := by
  induction xs with
  | nil => rfl
  | cons x xs ih => rw [List.mapM_cons, List.mapM_cons, h x (by simp), ih fun y hy => h y (by simp [hy])]

theorem mapM_eq_ok_congr {α β : Type} {f g : α → Except Fault β} {xs : List α}
    (h : ∀ x ∈ xs, ∀ y, f x = .ok y ↔ g x = .ok y) (ys : List β) : xs.mapM f = .ok ys ↔ xs.mapM g = .ok ys := by
  induction xs generalizing ys with
  | nil => rfl
  | cons x xs ih =>
    obtain ⟨hx, hxs⟩ := List.forall_mem_cons.1 h
    rw [List.mapM_cons, List.mapM_cons, bind_eq_ok_iff, bind_eq_ok_iff]
    refine exists_congr fun y => and_congr (hx y) ?_
    rw [bind_eq_ok_iff, bind_eq_ok_iff]
    exact exists_congr fun zs => and_congr_left' (ih hxs zs)

theorem exists_of_mem_mapM {α β : Type} {f : α → Except Fault β} {xs : List α} {ys : List β}
    (h : xs.mapM f = .ok ys) {y : β} (hy : y ∈ ys) : ∃ x ∈ xs, f x = .ok y :=
  exists_of_forall₂ (forall₂_of_mapM h) hy

/-- Tested one by one, with the same fault for each that fails. -/
theorem mapM_ite {α β : Type} {p : α → Prop} [DecidablePred p] (f : α → β) (fault : Fault) (xs : List α) :
    (xs.mapM fun x => if p x then Except.ok (f x) else .error fault) =
      if ∀ x ∈ xs, p x then .ok (xs.map f) else .error fault := by
  induction xs with
  | nil => rfl
  | cons x xs ih =>
    rw [List.mapM_cons, ih]
    by_cases hx : p x
    · rw [if_pos hx]
      by_cases hxs : ∀ y ∈ xs, p y
      · rw [if_pos hxs, if_pos (List.forall_mem_cons.2 ⟨hx, hxs⟩)]
        rfl
      · rw [if_neg hxs, if_neg fun h => hxs (List.forall_mem_cons.1 h).2]
        rfl
    · rw [if_neg hx, if_neg fun h => hx (List.forall_mem_cons.1 h).1]
      rfl

theorem mapM_error {α β : Type} (fault : Fault) {xs : List α} (h : xs ≠ []) :
    xs.mapM (fun _ => (.error fault : Except Fault β)) = .error fault := by
  obtain ⟨x, xs, rfl⟩ := List.exists_cons_of_ne_nil h
  rw [List.mapM_cons]
  rfl

end Except

namespace Avoids

variable {bad : Fault → Bool} {α β : Type}

theorem of_tame {x : Except Fault α} (hbad : ∀ e, bad e = true → e.ofRun = true) (h : Tame x) :
    Avoids bad x := by
  intro e he
  cases hb : bad e with
  | false => rfl
  | true =>
    have hrun := h e he
    rw [hbad e hb] at hrun
    cases hrun

/-- What is tame leaves the faults of the machine to the machine. -/
theorem ofMachine {x : Except Fault α} (h : Tame x) : Avoids Fault.ofMachine x :=
  of_tame Fault.ofRun_of_ofMachine h

@[simp] theorem pure (a : α) : Avoids bad (Pure.pure a : Except Fault α) := by
  intro e h; cases h

@[simp] theorem ok (a : α) : Avoids bad (Except.ok a : Except Fault α) := by
  intro e h; cases h

@[simp] theorem throw_iff {e : Fault} : Avoids bad (throw e : Except Fault α) ↔ bad e = false := by
  constructor
  · intro h; exact h e rfl
  · intro h e' h'; cases h'; exact h

theorem bind_of_eq_ok {x : Except Fault α} {f : α → Except Fault β} (hx : Avoids bad x)
    (hf : ∀ a, x = .ok a → Avoids bad (f a)) : Avoids bad (x >>= f) := by
  intro e h
  cases x with
  | error e' => cases h; exact hx e rfl
  | ok a => exact hf a rfl e h

@[simp] theorem bind {x : Except Fault α} {f : α → Except Fault β} (hx : Avoids bad x)
    (hf : ∀ a, Avoids bad (f a)) : Avoids bad (x >>= f) := bind_of_eq_ok hx fun a _ => hf a

@[simp] theorem map {x : Except Fault α} {f : α → β} (hx : Avoids bad x) : Avoids bad (f <$> x) := by
  intro e h
  cases x with
  | error e' => cases h; exact hx e rfl
  | ok a => cases h

theorem mapM_mem {f : α → Except Fault β} (xs : List α) (hf : ∀ a ∈ xs, Avoids bad (f a)) :
    Avoids bad (xs.mapM f) := by
  induction xs with
  | nil => simp
  | cons x xs ih =>
    rw [List.mapM_cons]
    exact bind (hf x (by simp)) fun _ => bind (ih fun a ha => hf a (by simp [ha])) fun _ => pure _

@[simp] theorem mapM {f : α → Except Fault β} (xs : List α) (hf : ∀ a, Avoids bad (f a)) :
    Avoids bad (xs.mapM f) := mapM_mem xs fun a _ => hf a

@[simp] theorem ite {c : Prop} [Decidable c] {x y : Except Fault α} (hx : Avoids bad x) (hy : Avoids bad y) :
    Avoids bad (if c then x else y) := by
  split <;> assumption

end Avoids

namespace Tensor

@[simp] theorem tame_toInt32 (n : Int) : Tame (toInt32 n) := by simp [toInt32]

@[simp] theorem tame_row (t : Tensor) (i : Int) : Tame (t.row i) := by
  unfold row; simp only; repeat' split
  all_goals simp

@[simp] theorem tame_asInt (t : Tensor) (name : String) : Tame (t.asInt name) := by
  unfold asInt; repeat' split
  all_goals simp

@[simp] theorem tame_ofDimensions (ds : List Dimension) : Tame (Shape.ofDimensions ds) := by
  refine Avoids.mapM _ fun d => ?_
  unfold Dimension.check; repeat' split
  all_goals simp

@[simp] theorem tame_asShape (t : Tensor) (name : String) : Tame (t.asShape name) := by
  unfold asShape; repeat' split
  all_goals simp

@[simp] theorem tame_reshape (t : Tensor) (s : Shape) : Tame (t.reshape s) := by simp [reshape]

@[simp] theorem tame_cycle (t : Tensor) (s : Shape) : Tame (t.cycle s) := by simp [cycle]

@[simp] theorem tame_gather (t : Tensor) (is : List Nat) (axis : Nat) : Tame (t.gather is axis) := by
  simp [gather]

@[simp] theorem tame_takeRange (n : Int) (length : Nat) : Tame (takeRange n length) := by
  simp [takeRange]

@[simp] theorem tame_take (count t : Tensor) : Tame (take count t) := by simp [take]

@[simp] theorem tame_drop (count t : Tensor) : Tame (drop count t) := by simp [drop]

@[simp] theorem tame_rotate (count t : Tensor) : Tame (rotate count t) := by simp [rotate]

@[simp] theorem tame_unrotate (count t : Tensor) : Tame (unrotate count t) := by
  simp [unrotate, ofInt]

@[simp] theorem tame_join (left right : Tensor) : Tame (left.join right) := by
  unfold join; simp only; repeat' split
  all_goals simp

@[simp] theorem tame_replaceRow (t : Tensor) (i : Int) (new : Tensor) : Tame (t.replaceRow i new) := by
  obtain ⟨_ | ⟨n, s⟩, xs⟩ := t
  · simp [replaceRow]
  · unfold replaceRow
    refine Avoids.bind (by simp) fun old => ?_
    cases xs <;> obtain ⟨s', ys⟩ := new <;> cases ys <;> simp

/-! ## Every element -/

theorem tame_onBools (op : Dyadic) (xs ys : List Bool) : Tame (op.onBools xs ys) := by
  cases op <;> simp [Dyadic.onBools]

@[simp] theorem tame_kernel (op : Dyadic) (xs ys : Numbers) : Tame (op.kernel xs ys) := by
  unfold Dyadic.kernel; split
  all_goals simp [tame_onBools]

@[simp] theorem tame_monadic (op : Monadic) (xs : Numbers) : Tame (op.kernel xs) := by
  cases xs <;> cases op <;> simp [Monadic.kernel, Monadic.onBools]

@[simp] theorem tame_agree (s s' : Shape) (name : String) : Tame (s.agree s' name) := by
  unfold Shape.agree; simp only; split
  all_goals simp

@[simp] theorem tame_applyPlain (op : Dyadic) (t u : Tensor) (s : Shape) : Tame (applyPlain op t u s) := by
  unfold applyPlain; split
  · split <;> simp
  · simp

section Pervade

variable {name : String} {plain : Tensor → Tensor → Shape → Except Fault Tensor}

mutual

theorem tame_pervadeRight (h : ∀ t u s, Tame (plain t u s)) (t : Tensor) : ∀ u, Tame (pervadeRight name plain t u)
  | ⟨s, .boxes us⟩ => by
    unfold pervadeRight
    exact Avoids.bind (by simp) fun _ => Avoids.bind (tame_pervadeRights h _ _ us) fun _ => by simp
  | ⟨s, .numbers xs⟩ => by
    unfold pervadeRight
    exact Avoids.bind (by simp) fun _ => h _ _ _
  | ⟨s, .characters xs⟩ => by
    unfold pervadeRight
    exact Avoids.bind (by simp) fun _ => h _ _ _

theorem tame_pervadeRights (h : ∀ t u s, Tame (plain t u s)) (ts : List Tensor) (k : Nat) :
    ∀ us, Tame (pervadeRights name plain ts k us)
  | [] => by simp [pervadeRights]
  | u :: us => by
    unfold pervadeRights
    exact Avoids.bind (Avoids.mapM _ fun t => tame_pervadeRight h t u) fun _ =>
      Avoids.bind (tame_pervadeRights h _ k us) fun _ => by simp

end

mutual

theorem tame_pervade (h : ∀ t u s, Tame (plain t u s)) : ∀ t u, Tame (pervade name plain t u)
  | ⟨s, .boxes ts⟩, u => by
    unfold pervade
    exact Avoids.bind (by simp) fun _ => Avoids.bind (tame_pervadeLefts h ts _ _) fun _ => by simp
  | ⟨s, .numbers xs⟩, u => by unfold pervade; exact tame_pervadeRight h _ u
  | ⟨s, .characters xs⟩, u => by unfold pervade; exact tame_pervadeRight h _ u

theorem tame_pervadeLefts (h : ∀ t u s, Tame (plain t u s)) : ∀ ts k us, Tame (pervadeLefts name plain ts k us)
  | [], _, _ => by simp [pervadeLefts]
  | t :: ts, k, us => by
    unfold pervadeLefts
    exact Avoids.bind (Avoids.mapM _ fun u => tame_pervade h t u) fun _ =>
      Avoids.bind (tame_pervadeLefts h ts k _) fun _ => by simp

end

end Pervade

@[simp] theorem tame_apply (op : Dyadic) (t u : Tensor) : Tame (apply op t u) :=
  tame_pervade (fun _ _ _ => by simp) t u

mutual

theorem tame_pervadeEach (op : Monadic) : ∀ t, Tame (pervadeEach op.name op.kernel t)
  | ⟨s, .numbers xs⟩ => by simp [pervadeEach]
  | ⟨s, .characters xs⟩ => by simp [pervadeEach]
  | ⟨s, .boxes ts⟩ => by
    unfold pervadeEach
    exact Avoids.bind (tame_pervadeAll op ts) fun _ => by simp

theorem tame_pervadeAll (op : Monadic) : ∀ ts, Tame (pervadeAll op.name op.kernel ts)
  | [] => by simp [pervadeAll]
  | t :: ts => by
    unfold pervadeAll
    exact Avoids.bind (tame_pervadeEach op t) fun _ => Avoids.bind (tame_pervadeAll op ts) fun _ => by simp

end

@[simp] theorem tame_map (op : Monadic) (t : Tensor) : Tame (map op t) := tame_pervadeEach op t

/-! ## Counts and runs -/

@[simp] theorem tame_keepFactor (xs : Numbers) : Tame (keepFactor xs) := by
  unfold keepFactor; simp only; repeat' split
  all_goals simp

@[simp] theorem tame_keepCounts (n : Nat) (t : Tensor) (xs : Numbers) : Tame (keepCounts n t xs) := by
  unfold keepCounts; repeat' split
  · simp
  · refine Avoids.mapM _ fun d => ?_
    unfold keepCount; repeat' split
    all_goals simp
  · simp

@[simp] theorem tame_keepLength (n : Nat) (t : Tensor) : Tame (keepLength n t) := by
  unfold keepLength; repeat' split
  all_goals simp

@[simp] theorem tame_keepIndices (n : Nat) (t : Tensor) : Tame (keepIndices n t) := by
  unfold keepIndices; repeat' split
  all_goals simp

@[simp] theorem tame_keepSize (counts t : Tensor) : Tame (keepSize counts t) := by simp [keepSize]

@[simp] theorem tame_keep (counts t : Tensor) : Tame (keep counts t) := by simp [keep]

@[simp] theorem tame_scaleFactors (factors t : Tensor) : Tame (scaleFactors factors t) := by
  unfold scaleFactors; repeat' split
  all_goals simp

@[simp] theorem tame_scaleDims : ∀ (s : Shape) (fs : List Tensor), Tame (scaleDims s fs)
  | [], _ => by simp [scaleDims]
  | _ :: _, [] => by simp [scaleDims]
  | _ :: s, _ :: fs => by
    unfold scaleDims
    exact Avoids.bind (by simp) fun _ => Avoids.bind (tame_scaleDims s fs) fun _ => by simp

@[simp] theorem tame_scaleShape (factors t : Tensor) : Tame (scaleShape factors t) := by
  simp [scaleShape]

@[simp] theorem tame_scaleFrom : ∀ (fs : List Tensor) (axis : Nat) (t : Tensor),
    Tame (scaleFrom axis t fs)
  | [], _, _ => by simp [scaleFrom]
  | _ :: fs, axis, t => by
    unfold scaleFrom
    exact Avoids.bind (by simp) fun _ => Avoids.bind (by simp) fun _ => tame_scaleFrom fs _ _

@[simp] theorem tame_scale (factors t : Tensor) : Tame (scale factors t) := by simp [scale]

@[simp] theorem tame_splitRuns (t : Tensor) (mask : List Bool) : Tame (t.splitRuns mask) := by
  simp [splitRuns]

@[simp] theorem tame_splitOn (separator t : Tensor) : Tame (splitOn separator t) := by
  unfold splitOn separators
  refine Avoids.bind ?_ fun _ => by simp
  repeat' split
  all_goals simp

/-! ## Text -/

@[simp] theorem tame_codePoint (c : Int32) : Tame (codePoint c) := by simp [codePoint]

@[simp] theorem tame_text (t : Tensor) : Tame t.text := by
  unfold text; repeat' split
  all_goals simp

end Tensor

theorem Template.tame_splitFrom (t : Template) : ∀ (literals : List Text) (position : Nat) (s : Text),
    Tame (t.splitFrom position s literals)
  | [], _, _ => by simp [splitFrom]
  | [tail], _, _ => by
    unfold splitFrom; split <;> simp [mismatch]
  | literal :: next :: more, position, s => by
    unfold splitFrom
    split
    · simp [mismatch]
    · split
      · simp [mismatch]
      · exact Avoids.bind (t.tame_splitFrom (next :: more) _ _) fun _ => by simp

@[simp] theorem Template.tame_split (t : Template) (s : Text) : Tame (t.split s) := by
  unfold split; repeat' split
  all_goals simp [mismatch, tame_splitFrom]

@[simp] theorem Template.tame_join (t : Template) (fields : List Text) : Tame (t.join fields) := by
  simp [join, mismatch]

@[simp] theorem Separator.tame_ofTensor (t : Tensor) : Tame (ofTensor t) := by
  unfold ofTensor; repeat' split
  all_goals simp

namespace Tensor

mutual

theorem tame_fieldText : ∀ t : Tensor, Tame t.fieldText
  | ⟨s, .numbers xs⟩ => by simp [fieldText]
  | ⟨s, .characters cs⟩ => by simp [fieldText]
  | ⟨s, .boxes ts⟩ => by
    unfold fieldText
    exact Avoids.bind (tame_fieldTextAll ts) fun _ => by simp

theorem tame_fieldTextAll : ∀ ts, Tame (fieldTextAll ts)
  | [] => by simp [fieldTextAll]
  | t :: ts => by
    unfold fieldTextAll
    exact Avoids.bind (tame_fieldText t) fun _ => Avoids.bind (tame_fieldTextAll ts) fun _ => by simp

end

@[simp] theorem tame_fieldTexts (t : Tensor) : Tame t.fieldTexts := Avoids.mapM _ tame_fieldText

@[simp] theorem tame_joinFields (fields separator : Tensor) : Tame (fields.joinFields separator) := by
  unfold joinFields
  refine Avoids.bind (by simp) fun texts => ?_
  split <;> simp [Separator.join]

@[simp] theorem tame_splitFields (subject separator : Tensor) : Tame (subject.splitFields separator) := by
  simp [splitFields, Separator.split]

@[simp] theorem tame_primeVector (x : Number) : Tame (primeVector x) := by
  unfold primeVector; repeat' split
  all_goals simp [vector]

@[simp] theorem tame_primes (t : Tensor) : Tame t.primes := by
  unfold primes; repeat' split
  all_goals simp

end Tensor

/-! ## Words -/

@[simp] theorem Value.tame_tensor? (v : Value) : Tame v.tensor? := by cases v <;> simp [tensor?]

@[simp] theorem Shape.tame_unfix (s : Shape) : Tame s.unfix := by
  unfold unfix; split <;> simp

theorem Unary.tame_onTensor (u : Unary) (t : Tensor) : Tame (u.onTensor t) := by
  cases u <;> simp [onTensor, Tensor.vector, Tensor.ofInt]

theorem Unary.tame_onFunction (u : Unary) (f : Fn) : Tame (u.onFunction f) := by
  cases u <;> simp [onFunction]

theorem Unary.tame_eval (u : Unary) (v : Value) : Tame (u.eval v) := by
  cases v <;> simp [eval, tame_onTensor, tame_onFunction]

theorem Unary.tame_size? (u : Unary) (v : Value) : Tame (u.size? v) := by
  cases u <;> cases v <;> simp [size?]

theorem Binary.tame_onTensors (b : Binary) (t u : Tensor) : Tame (b.onTensors t u) := by
  cases b with
  | formatWith | parseWith => exact Avoids.bind (by simp) fun _ => Avoids.bind (by simp) fun _ => by simp
  | _ => simp [onTensors]

theorem Binary.tame_onFunctionAbove (b : Binary) (t : Tensor) : Tame (b.onFunctionAbove t) := by
  cases b <;> simp [onFunctionAbove]

theorem Binary.tame_onFunctionBelow (b : Binary) (t : Tensor) : Tame (b.onFunctionBelow t) := by
  cases b <;> simp [onFunctionBelow]

theorem Binary.tame_onFunctions (b : Binary) : Tame b.onFunctions := by
  cases b <;> simp [onFunctions]

theorem Binary.tame_eval (b : Binary) (v w : Value) : Tame (b.eval v w) := by
  cases v <;> cases w <;>
    simp [eval, tame_onTensors, tame_onFunctionAbove, tame_onFunctionBelow, tame_onFunctions]

theorem Binary.tame_size? (b : Binary) (v w : Value) : Tame (b.size? v w) := by
  cases b <;> cases v <;> cases w <;> simp [size?]

theorem Template.tame_fill (t : Template) (fields : List Value) : Tame (t.fill fields) :=
  Avoids.bind (Avoids.mapM _ fun _ => Avoids.bind (by simp) Tensor.tame_fieldText) fun _ => by simp

theorem Template.tame_unfill (t : Template) (subject : Value) : Tame (t.unfill subject) :=
  Avoids.bind (by simp) fun _ => Avoids.bind (by simp) fun _ => by simp

/-! ## Halves of under pairs -/

theorem UnaryKeeper.tame_stash (k : UnaryKeeper) (v : Value) : Tame (k.stash v) := by
  cases k <;> simp [stash]

theorem BinaryKeeper.tame_stash (k : BinaryKeeper) (v w : Value) : Tame (k.stash v w) := by
  cases k with
  | reshape =>
    refine Avoids.bind (by simp) fun t => ?_
    cases v with
    | tensor s => exact Avoids.bind (by simp) fun _ => by simp
    | fn f => simp
  | indexAt =>
    exact Avoids.bind (by simp) fun _ => Avoids.bind (by simp) fun _ => Avoids.bind (by simp) fun _ => by simp
  | take =>
    exact Avoids.bind (by simp) fun _ => Avoids.bind (by simp) fun _ => Avoids.bind (by simp) fun _ => by simp
  | drop => exact Avoids.bind (by simp) fun _ => Avoids.bind (by simp) fun _ => by simp

theorem Tensor.tame_replaceRowBy (t : Tensor) (i : Int) (v : Value) : Tame (t.replaceRowBy i v) := by
  cases v <;> simp [replaceRowBy]

theorem Keeper.tame_restore (k : Keeper) (s : Saved) (v : Value) : Tame (k.restore s v) := by
  unfold restore; split
  all_goals simp [Tensor.tame_replaceRowBy]
  all_goals split <;> simp

end Tacit
