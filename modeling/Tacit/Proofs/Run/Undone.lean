/-
Code undone. The inverse derived for code takes what the code leaves of exact arrays back to them, up to
integers in place of truth values: units are undone from the last to the first, each on the stack that it
left, and functions on rows row by row.
-/
import Tacit.Proofs.Array.Each
import Tacit.Proofs.Derive.Undone
import Tacit.Proofs.Run.Step

namespace Tacit

namespace Exec

open Tensor

/-! ## Steps undone -/

/-- Arrays as a stack. -/
def memoryOf (ts : List Tensor) (context : List Saved) : Memory := ⟨ts.map .tensor, context⟩

/-- The step leaves wider copies of the arrays, unless a limit is hit. -/
def Reaches (ts : List Tensor) (context : List Saved) (x : Exec Unit) (m : Memory) : Prop :=
  Ends Fault.IsLimit (fun _ m => ∃ ts', m = memoryOf ts' context ∧ List.Forall₂ Widens ts ts') x m

/-- What the step `x` makes of the exact arrays `ts` is undone by `y`. -/
structure UndoneOn (fixes : Bool) (x y : Exec Unit) (ts rs : List Tensor) : Prop where
  exact : ∀ r ∈ rs, r.Exact
  length : rs.length = ts.length
  scalars : fixes = false → (∀ t ∈ ts, t.shape = []) → ∀ r ∈ rs, r.shape = []
  alike : ∀ us qs c c', (∀ u ∈ us, u.Exact) → List.Forall₂ Tensor.Alike ts us →
    x (memoryOf us c) = .ok () (memoryOf qs c') → List.Forall₂ Tensor.Alike rs qs
  back : ∀ rs' c, List.Forall₂ Widens rs rs' → Reaches ts c y (memoryOf rs' c)

/-- Wherever `x` succeeds on exact arrays, it is undone by `y`; the context stack is left alone. -/
def Undoes (fixes : Bool) (x y : Exec Unit) : Prop :=
  ∀ ts c m, (∀ t ∈ ts, t.Exact) → x (memoryOf ts c) = .ok () m →
    ∃ rs, m = memoryOf rs c ∧ UndoneOn fixes x y ts rs

variable {fixes : Bool} {x x' y y' : Exec Unit}

theorem memoryOf_inj {ts us : List Tensor} {c c' : List Saved} (h : memoryOf ts c = memoryOf us c') :
    ts = us := by
  have hstack : ts.map Value.tensor = us.map Value.tensor := congrArg Memory.stack h
  exact List.map_injective_iff.2 (fun _ _ h => Value.tensor.inj h) hstack

namespace Undoes

theorem nil : Undoes fixes (pure ()) (pure ()) := by
  intro ts c m hts h
  cases h
  refine ⟨ts, rfl, hts, rfl, fun _ h => h, fun us qs c c' _ halike h => ?_, fun rs' c h => ?_⟩
  · rw [pure_run] at h
    rw [← memoryOf_inj (EStateM.Result.ok.inj h).2]
    exact halike
  · exact .of_ok rfl ⟨rs', rfl, h⟩

/-- The last step is undone first. -/
theorem seq (h : Undoes fixes x y) (h' : Undoes fixes x' y') :
    Undoes fixes (do x; x') (do y'; y) := by
  intro ts c m hts hrun
  obtain ⟨_, _, hx, hx'⟩ := bind_eq_ok hrun
  obtain ⟨rs, rfl, hrs⟩ := h ts c _ hts hx
  obtain ⟨qs, rfl, hqs⟩ := h' rs c m hrs.exact hx'
  refine ⟨qs, rfl, hqs.exact, hqs.length.trans hrs.length, fun hfixes hscalar => ?_,
    fun us vs c₁ c₂ hus halike hrun' => ?_, fun qs' c' hwidens => ?_⟩
  · exact hqs.scalars hfixes (hrs.scalars hfixes hscalar)
  · obtain ⟨_, _, hxu, hxu'⟩ := bind_eq_ok hrun'
    obtain ⟨ws, rfl, hws⟩ := h us c₁ _ hus hxu
    exact hqs.alike ws vs c₁ c₂ hws.exact (hrs.alike us ws c₁ c₁ hus halike hxu) hxu'
  · refine (hqs.back qs' c' hwidens).bind fun _ m hm => ?_
    obtain ⟨rs', rfl, hwidens'⟩ := hm
    exact hrs.back rs' c' hwidens'

/-- Undoing may hit a limit at once. -/
theorem of_limit (h : Undoes fixes x y) (hy : ∀ m, ∃ fault, fault.IsLimit ∧ y' m = .error fault m) :
    Undoes fixes x y' := by
  intro ts c m hts hrun
  obtain ⟨rs, hm, hrs⟩ := h ts c m hts hrun
  refine ⟨rs, hm, hrs.exact, hrs.length, hrs.scalars, hrs.alike, fun rs' c' _ => ?_⟩
  obtain ⟨fault, hlimit, hfault⟩ := hy (memoryOf rs' c')
  exact .of_error hfault hlimit

end Undoes

/-! ## Operations on the top -/

theorem lift_ends {α : Type} {P : α → Prop} {e : Except Fault α} (h : Limited P e) (m : Memory) :
    Ends Fault.IsLimit (fun a m' => P a ∧ m' = m) (lift e) m := by
  cases e with
  | ok a => exact .of_ok rfl ⟨h, rfl⟩
  | error fault => exact .of_error rfl h

theorem push_ends (limits : Limits) (t : Tensor) (stack : List Value) (c : List Saved) :
    Ends Fault.IsLimit (fun _ m => m = ⟨.tensor t :: stack, c⟩) (push limits (.tensor t)) ⟨stack, c⟩ := by
  by_cases ht : Fits limits (.tensor t)
  · exact .of_ok (push_fits ht stack c) rfl
  · exact .of_error (push_too_large (Nat.lt_of_not_le ht) _) ⟨_, rfl⟩

/-- Wherever the step succeeds on exact arrays, it has done the operation on the one on top. -/
structure OnTop (x : Exec Unit) (f : Tensor → Except Fault Tensor) : Prop where
  needs : ∀ c m, x ⟨[], c⟩ ≠ .ok () m
  made : ∀ {t : Tensor} {rest c m}, t.Exact → x ⟨.tensor t :: rest, c⟩ = .ok () m →
    ∃ r, f t = .ok r ∧ m = ⟨.tensor r :: rest, c⟩

/-- The step does the operation on the array on top, unless a limit is hit. -/
def CarriesOut (x : Exec Unit) (f : Tensor → Except Fault Tensor) : Prop :=
  ∀ {P : Tensor → Prop} {t rest c}, Limited P (f t) →
    Ends Fault.IsLimit (fun _ m => ∃ r, P r ∧ m = ⟨.tensor r :: rest, c⟩) x ⟨.tensor t :: rest, c⟩

theorem undoes_of_onTop {f g : Tensor → Except Fault Tensor} (h : Undo fixes f g) (hx : OnTop x f)
    (hy : CarriesOut y g) : Undoes fixes x y := by
  intro ts c m hts hrun
  cases ts with
  | nil => exact absurd hrun (hx.needs c m)
  | cons t ts =>
    obtain ⟨ht, hts⟩ := List.forall_mem_cons.1 hts
    obtain ⟨r, hr, rfl⟩ := hx.made ht hrun
    obtain ⟨hscalar, halike⟩ := h.regular t r ht hr
    refine ⟨r :: ts, rfl, List.forall_mem_cons.2 ⟨h.exact ht hr, hts⟩, rfl, fun hfixes hscalars => ?_,
      fun us qs c₁ c₂ hus hlike hrun' => ?_, fun rs' c' hwidens => ?_⟩
    · obtain ⟨hs, hrest⟩ := List.forall_mem_cons.1 hscalars
      exact List.forall_mem_cons.2 ⟨hscalar hfixes hs, hrest⟩
    · cases hlike with
      | @cons _ u _ us htu hlike =>
        obtain ⟨hu, -⟩ := List.forall_mem_cons.1 hus
        obtain ⟨q, hq, hm⟩ := hx.made hu hrun'
        have hqs : qs = q :: us := memoryOf_inj hm
        rw [hqs]
        exact .cons (halike u q hu htu hq) hlike
    · cases hwidens with
      | cons hwiden hwidens =>
        refine (hy (h.back ht hr hwiden)).mono fun _ m hm => ?_
        obtain ⟨t', ht', rfl⟩ := hm
        exact ⟨t' :: _, rfl, .cons ht' hwidens⟩

section

variable {setting : Setting}

theorem onTop_unary (u : Unary) : OnTop (word setting (.unary u)) u.onTensor where
  needs c m h := by cases h
  made _ h := by
    obtain ⟨r, hr, -, rfl⟩ := word_unary_eq_ok h
    exact ⟨r, hr, rfl⟩

/-- A result of no told size is pushed, unless a limit stands against it. -/
theorem finish_ends {P : Tensor → Prop} {name : String} {r : Except Fault Tensor} (h : Limited P r)
    (rest : List Value) (c : List Saved) :
    Ends Fault.IsLimit (fun _ m => ∃ q, P q ∧ m = ⟨.tensor q :: rest, c⟩)
      (finish setting (.ok none) name (do return .tensor (← r))) ⟨rest, c⟩ := by
  have hv : Limited (fun v => ∃ q, P q ∧ v = .tensor q) (do return .tensor (← r) : Except Fault Value) :=
    h.bind fun q hq => ⟨q, hq, rfl⟩
  rw [finish_unmeasured]
  refine (lift_ends hv _).bind fun v m hvm => ?_
  obtain ⟨⟨q, hq, rfl⟩, rfl⟩ := hvm
  exact (push_ends _ q rest c).mono fun _ _ hm => ⟨q, hq, hm⟩

theorem carriesOut_unary {u : Unary} (hu : u ≠ .range) :
    CarriesOut (word setting (.unary u)) u.onTensor := by
  intro P t rest c h
  change Ends _ _ (finish setting (u.size? (.tensor t)) u.name _) ⟨rest, c⟩
  rw [size_of_ne_range hu]
  exact finish_ends h rest c

/-- Where a literal is pushed and then a word of two arguments called, the word ran with the literal on top. -/
theorem literal_eq_ok {room : Nat} {b : Binary} {l : Tensor} {m m' : Memory} {a : Unit}
    (h : (do push setting.limits (.tensor l); call setting room (.word (.binary b)) : Exec Unit) m =
      .ok a m') : word setting (.binary b) ⟨.tensor l :: m.stack, m.context⟩ = .ok a m' := by
  obtain ⟨_, _, hpush, h⟩ := bind_eq_ok h
  obtain ⟨-, rfl⟩ := push_eq_ok hpush
  cases room with
  | zero => cases h
  | succ room =>
    rw [call_succ] at h
    exact h

/-- A word of two arguments called with a literal pushed right before it. -/
theorem onTop_literal (room : Nat) (b : Binary) (l : Tensor) :
    OnTop (do push setting.limits (.tensor l); call setting room (.word (.binary b)))
      (b.onTensors l) where
  needs c m h := by cases literal_eq_ok h
  made _ h := by
    obtain ⟨r, hr, -, rfl⟩ := word_binary_eq_ok (literal_eq_ok h)
    exact ⟨r, hr, rfl⟩

theorem carriesOut_literal (room : Nat) {b : Binary} {l : Tensor}
    (hsize : ∀ t, b.size? (.tensor l) (.tensor t) = .ok none) :
    CarriesOut (do push setting.limits (.tensor l); call setting room (.word (.binary b)))
      (b.onTensors l) := by
  intro P t rest c h
  refine (push_ends _ l _ c).bind fun _ m hm => ?_
  rw [hm]
  cases room with
  | zero => exact .of_error rfl ⟨_, rfl⟩
  | succ room =>
    rw [call_succ]
    change Ends _ _ (finish setting (b.size? (.tensor l) (.tensor t)) b.name _) ⟨rest, c⟩
    rw [hsize]
    exact finish_ends h rest c

theorem swap_eq_ok {c : List Saved} {ts : List Tensor} {m : Memory}
    (h : word setting .swap (memoryOf ts c) = .ok () m) :
    ∃ t u rest, ts = t :: u :: rest ∧ m = memoryOf (u :: t :: rest) c := by
  match ts with
  | [] => cases h
  | [_] => cases h
  | t :: u :: rest =>
    change (do push setting.limits (.tensor t); push setting.limits (.tensor u) : Exec Unit) _ = _ at h
    obtain ⟨_, _, ht, h⟩ := bind_eq_ok h
    obtain ⟨-, rfl⟩ := push_eq_ok ht
    obtain ⟨-, rfl⟩ := push_eq_ok h
    exact ⟨t, u, rest, rfl, rfl⟩

theorem swap_ends (t u : Tensor) (rest : List Tensor) (c : List Saved) :
    Ends Fault.IsLimit (fun _ m => m = memoryOf (u :: t :: rest) c) (word setting .swap)
      (memoryOf (t :: u :: rest) c) := by
  change Ends _ _ (do push setting.limits (.tensor t); push setting.limits (.tensor u)) (memoryOf rest c)
  refine (push_ends _ t _ c).bind fun _ m hm => ?_
  rw [hm]
  exact push_ends _ u _ c

theorem undoes_swap : Undoes fixes (word setting .swap) (word setting .swap) := by
  intro ts c m hts hrun
  obtain ⟨t, u, rest, rfl, rfl⟩ := swap_eq_ok hrun
  refine ⟨_, rfl, ?_, rfl, fun _ => ?_, fun us qs c₁ c₂ _ halike hrun' => ?_, fun rs' c' hwidens => ?_⟩
  · simpa [and_left_comm] using hts
  · simp [and_left_comm]
  · obtain ⟨t', u', rest', rfl, hm⟩ := swap_eq_ok hrun'
    rw [memoryOf_inj hm]
    cases halike with
    | cons ht halike =>
      cases halike with
      | cons hu halike => exact .cons hu (.cons ht halike)
  · cases hwidens with
    | @cons _ u' _ _ hu hwidens =>
      cases hwidens with
      | @cons _ t' _ rest' ht hwidens =>
        refine (swap_ends u' t' rest' c').mono fun _ m hm => ?_
        exact ⟨_, hm, .cons ht (.cons hu hwidens)⟩

/-! ## Operations on rows -/

/-- The array that a function leaves of one array. -/
def onArray (apply : Apply) (f : Fn) (t : Tensor) : Except Fault Tensor := do
  (← applyOne apply f [.tensor t]).tensor?

/-- Results read as arrays one by one or all at the end. -/
theorem mapM_tensors {apply : Apply} {f : Fn} : ∀ {rows : List Tensor} {vs : List Value}
    {rs : List Tensor}, rows.mapM (fun row => applyOne apply f [.tensor row]) = .ok vs →
      vs.mapM Value.tensor? = .ok rs → rows.mapM (onArray apply f) = .ok rs
  | [], vs, rs, hvs, hrs => by
    cases hvs
    cases hrs
    rfl
  | row :: rows, vs, rs, hvs, hrs => by
    rw [List.mapM_cons] at hvs
    obtain ⟨v, hv, hvs⟩ := Except.bind_ok hvs
    obtain ⟨vs, hvs', hvs⟩ := Except.bind_ok hvs
    cases hvs
    rw [List.mapM_cons] at hrs
    obtain ⟨r, hr, hrs⟩ := Except.bind_ok hrs
    obtain ⟨rs, hrs', hrs⟩ := Except.bind_ok hrs
    cases hrs
    rw [List.mapM_cons]
    exact Except.bind_of_ok (Except.bind_of_ok hv hr) (Except.bind_of_ok (mapM_tensors hvs' hrs') rfl)

/-- A value that is no array is not a matter of limits. -/
theorem tensor_of_limited {P : Tensor → Prop} {v : Value} (h : Limited P v.tensor?) :
    ∃ r, v = .tensor r ∧ P r := by
  cases v with
  | tensor r => exact ⟨r, rfl, h⟩
  | fn f =>
    obtain ⟨cause, hcause⟩ := h
    cases hcause

theorem limited_tensors {apply : Apply} {f : Fn} : ∀ {rows : List Tensor} {P : List Tensor → Prop},
    Limited P (rows.mapM (onArray apply f)) →
    Limited (fun vs => ∃ rs, vs = rs.map .tensor ∧ P rs)
      (rows.mapM fun row => applyOne apply f [.tensor row])
  | [], P, h => ⟨[], rfl, h⟩
  | row :: rows, P, h => by
    rw [List.mapM_cons] at h ⊢
    unfold onArray at h
    cases hv : applyOne apply f [.tensor row] with
    | error fault =>
      rw [hv] at h
      exact h
    | ok v =>
      rw [hv] at h
      cases v with
      | fn g =>
        obtain ⟨cause, hcause⟩ := h
        cases hcause
      | tensor r =>
        have hrest : Limited (fun rs => P (r :: rs)) (rows.mapM (onArray apply f)) := h.of_map
        refine (limited_tensors hrest).bind fun vs hvs => ?_
        obtain ⟨rs, rfl, hrs⟩ := hvs
        exact ⟨r :: rs, rfl, hrs⟩

theorem mapM_tensor (rs : List Tensor) : (rs.map Value.tensor).mapM Value.tensor? = .ok rs := by
  induction rs with
  | nil => rfl
  | cons r rs ih =>
    rw [List.map_cons, List.mapM_cons]
    exact Except.bind_of_ok rfl (Except.bind_of_ok ih rfl)

theorem each_run (apply : Apply) (f : Fn) (name : String) (t : Tensor) (rest : List Value)
    (c : List Saved) : each setting apply f name ⟨.tensor t :: rest, c⟩ =
      (if t.isScalar then do push setting.limits (← lift (applyOne apply f [.tensor t]))
      else do
        let results ← lift (t.rows.mapM fun row => applyOne apply f [.tensor row])
        if results.isEmpty then push setting.limits (.tensor t)
        else push setting.limits (.tensor (ofRows (← lift (results.mapM Value.tensor?)))) :
        Exec Unit) ⟨rest, c⟩ := rfl

/-- A function that leaves arrays of exact arrays. -/
theorem onTop_each {apply : Apply} {f : Fn} (name : String) (hf : ∀ t v, t.Exact →
    applyOne apply f [.tensor t] = .ok v → ∃ r, v = .tensor r) :
    OnTop (each setting apply f name) (onRows (onArray apply f)) where
  needs c m h := by cases h
  made {t rest c m} ht h := by
    rw [each_run] at h
    by_cases hshape : t.shape = []
    · rw [if_pos (isScalar_iff.2 hshape)] at h
      obtain ⟨v, _, hlift, h⟩ := bind_eq_ok h
      obtain ⟨hv, rfl⟩ := lift_eq_ok hlift
      obtain ⟨r, rfl⟩ := hf t v ht hv
      obtain ⟨-, rfl⟩ := push_eq_ok h
      refine ⟨r, ?_, rfl⟩
      rw [onRows_scalar hshape]
      exact Except.bind_of_ok hv rfl
    rw [if_neg (mt isScalar_iff.1 hshape)] at h
    obtain ⟨vs, _, hlift, h⟩ := bind_eq_ok h
    obtain ⟨hvs, rfl⟩ := lift_eq_ok hlift
    have hlength := (Except.forall₂_of_mapM hvs).length_eq
    by_cases hrows : t.rows = []
    · rw [hrows] at hlength
      rw [List.length_eq_zero_iff.1 hlength.symm, List.isEmpty_nil, if_pos rfl] at h
      obtain ⟨-, rfl⟩ := push_eq_ok h
      exact ⟨t, onRows_empty hshape hrows, rfl⟩
    · have hne : ¬vs.isEmpty = true := by
        rw [List.isEmpty_iff, ← List.length_eq_zero_iff, ← hlength, List.length_eq_zero_iff]
        exact hrows
      rw [if_neg hne] at h
      obtain ⟨rs, _, hlift, h⟩ := bind_eq_ok h
      obtain ⟨hrs, rfl⟩ := lift_eq_ok hlift
      obtain ⟨-, rfl⟩ := push_eq_ok h
      refine ⟨ofRows rs, ?_, rfl⟩
      rw [onRows_rows hshape hrows]
      exact Except.bind_of_ok (mapM_tensors hvs hrs) rfl

theorem carriesOut_each (apply : Apply) (f : Fn) (name : String) :
    CarriesOut (each setting apply f name) (onRows (onArray apply f)) := by
  intro P t rest c h
  refine Ends.of_eq (each_run apply f name t rest c) ?_
  by_cases hshape : t.shape = []
  · rw [if_pos (isScalar_iff.2 hshape)]
    rw [onRows_scalar hshape] at h
    have hone : Limited (fun v => ∃ r, v = .tensor r ∧ P r) (applyOne apply f [.tensor t]) := by
      unfold onArray at h
      cases hv : applyOne apply f [.tensor t] with
      | error fault => rw [hv] at h; exact h
      | ok v => rw [hv] at h; exact tensor_of_limited h
    refine (lift_ends hone _).bind fun v m hv => ?_
    obtain ⟨⟨r, rfl, hr⟩, rfl⟩ := hv
    exact (push_ends _ r rest c).mono fun _ _ hm => ⟨r, hr, hm⟩
  rw [if_neg (mt isScalar_iff.1 hshape)]
  by_cases hrows : t.rows = []
  · rw [onRows_empty hshape hrows] at h
    rw [hrows]
    exact (push_ends _ t rest c).mono fun _ _ hm => ⟨t, h, hm⟩
  · rw [onRows_rows hshape hrows] at h
    refine (lift_ends (limited_tensors h.of_map.with_eq) _).bind fun vs m hvs => ?_
    obtain ⟨⟨rs, rfl, hrs, hok⟩, rfl⟩ := hvs
    have hne : ¬(rs.map Value.tensor).isEmpty = true := by
      rw [List.isEmpty_iff, List.map_eq_nil_iff, ← List.length_eq_zero_iff, length_mapM hok,
        List.length_eq_zero_iff]
      exact hrows
    rw [if_neg hne, mapM_tensor]
    exact (push_ends _ (ofRows rs) rest c).mono fun _ _ hm => ⟨ofRows rs, hrs, hm⟩

/-! ## Functions on one array -/

section

variable {inner inner' : Fn → Exec Unit} {f g : Fn} {t r : Tensor}

theorem applyWith_eq_ok {args vs : List Value} (h : applyWith setting inner f args = .ok vs) :
    ∃ m, (do pushAll setting.limits args; inner f; popMany f.outputs f.name : Exec _) {} = .ok vs m := by
  rw [applyWith_eq] at h
  split at h
  · rename_i vs' m hrun
    cases h
    exact ⟨m, hrun⟩
  · cases h

theorem applyWith_limited {args : List Value} {P : List Value → Prop} (h : Ends Fault.IsLimit (fun vs _ => P vs)
    (do pushAll setting.limits args; inner f; popMany f.outputs f.name : Exec _) {}) :
    Limited P (applyWith setting inner f args) := by
  rw [applyWith_eq]
  unfold Ends at h
  split at h <;> rename_i hrun <;> rw [hrun] <;> exact h

/-- On a memory of its own a function of one result leaves the one array. -/
theorem Undoes.of_applyOne {y : Exec Unit} (h : Undoes fixes (inner f) y) (hf : f.outputs = 1)
    (ht : t.Exact) {v : Value} (hv : applyOne (applyWith setting inner) f [.tensor t] = .ok v) :
    ∃ r, v = .tensor r ∧ inner f (memoryOf [t] []) = .ok () (memoryOf [r] []) ∧
      UndoneOn fixes (inner f) y [t] [r] := by
  obtain ⟨vs, hvs, hv⟩ := Except.bind_ok hv
  obtain ⟨m, hrun⟩ := applyWith_eq_ok hvs
  obtain ⟨_, _, hpush, hrun⟩ := bind_eq_ok hrun
  obtain ⟨_, _, hpush, hnil⟩ := bind_eq_ok hpush
  cases hnil
  obtain ⟨-, rfl⟩ := push_eq_ok hpush
  obtain ⟨_, _, hcall, hpop⟩ := bind_eq_ok hrun
  obtain ⟨rs, rfl, hrs⟩ := h [t] [] _ (by simpa using ht) hcall
  obtain ⟨r, rfl⟩ := List.length_eq_one_iff.1 hrs.length
  rw [hf] at hpop
  cases hpop
  cases hv
  exact ⟨r, rfl, hcall, hrs⟩

theorem UndoneOn.back_applyOne {x : Exec Unit} (h : UndoneOn fixes x (inner' g) [t] [r])
    (hg : g.outputs = 1) {r' : Tensor} (hwidens : r.Widens r') :
    Limited (fun v => ∃ t', v = .tensor t' ∧ t.Widens t')
      (applyOne (applyWith setting inner') g [.tensor r']) := by
  have hcall := h.back [r'] [] (.cons hwidens .nil)
  have happly : Limited (fun vs => ∃ t', vs = [.tensor t'] ∧ t.Widens t')
      (applyWith setting inner' g [.tensor r']) := by
    have hpush : Ends Fault.IsLimit (fun _ m => m = memoryOf [r'] [])
        (pushAll setting.limits [.tensor r']) {} :=
      (push_ends _ r' [] []).bind fun _ m hm => .of_ok rfl hm
    refine applyWith_limited (hpush.bind fun _ m hm => ?_)
    rw [hm]
    refine hcall.bind fun _ m hm => ?_
    obtain ⟨ts', rfl, hts'⟩ := hm
    cases hts' with
    | @cons _ t' _ _ ht' hnil =>
      cases hnil
      rw [hg]
      exact .of_ok rfl ⟨t', rfl, ht'⟩
  refine happly.bind fun vs hvs => ?_
  obtain ⟨t', rfl, ht'⟩ := hvs
  exact ⟨t', rfl, ht'⟩

/-- What undoes a function on the stack undoes it on one array. -/
theorem Undoes.onArray (h : Undoes false (inner f) (inner' g)) (hf : f.outputs = 1) (hg : g.outputs = 1) :
    Undo false (onArray (applyWith setting inner) f) (onArray (applyWith setting inner') g) where
  exact ht hr := by
    obtain ⟨v, hv, hr⟩ := Except.bind_ok hr
    obtain ⟨r, rfl, -, hone⟩ := h.of_applyOne hf ht hv
    cases hr
    exact hone.exact _ (by simp)
  regular t r ht hr := by
    obtain ⟨v, hv, hr⟩ := Except.bind_ok hr
    obtain ⟨r, rfl, -, hone⟩ := h.of_applyOne hf ht hv
    cases hr
    refine ⟨fun hfixes hscalar => hone.scalars hfixes (by simpa using hscalar) r (by simp),
      fun u q hu htu hq => ?_⟩
    obtain ⟨w, hw, hq⟩ := Except.bind_ok hq
    obtain ⟨q, rfl, hcall, -⟩ := h.of_applyOne hf hu hw
    cases hq
    have halike := hone.alike [u] [q] [] [] (by simpa using hu) (.cons htu .nil) hcall
    exact (List.forall₂_cons.1 halike).1
  back ht hr hwidens := by
    obtain ⟨v, hv, hr⟩ := Except.bind_ok hr
    obtain ⟨r, rfl, -, hone⟩ := h.of_applyOne hf ht hv
    cases hr
    refine (hone.back_applyOne hg hwidens).bind fun v hv => ?_
    obtain ⟨t', rfl, ht'⟩ := hv
    exact ht'

end

theorem undoes_each {inner inner' : Fn → Exec Unit} {f g : Fn} (h : Undoes false (inner f) (inner' g))
    (hf : f.outputs = 1) (hg : g.outputs = 1) (name name' : String) :
    Undoes fixes (each setting (applyWith setting inner) f name)
      (each setting (applyWith setting inner') g name') := by
  have hrows : Undo fixes (onRows (onArray (applyWith setting inner) f))
      (onRows (onArray (applyWith setting inner') g)) := (h.onArray hf hg).onRows
  refine undoes_of_onTop hrows (onTop_each name fun t v ht hv => ?_) (carriesOut_each _ g name')
  obtain ⟨r, hr, -⟩ := h.of_applyOne hf ht hv
  exact ⟨r, hr⟩

end

end Exec

open Exec Tensor

variable {fixes : Bool} {setting : Setting}

theorem Word.UndoneBy.undoes {w v : Word} (h : w.UndoneBy fixes v) :
    Undoes fixes (word setting w) (word setting v) := by
  cases h with
  | @rearrange u v h hfix =>
    have hne : v ≠ .range := by cases h <;> decide
    have hundo := undo_of_undoneAt (regular_rearrange h hfix) fun t ht => h.undoneAt ht
    exact undoes_of_onTop hundo (onTop_unary u) (carriesOut_unary hne)
  | @map op hop =>
    have hundo : Undo fixes (Unary.map op).onTensor (Unary.map op).onTensor :=
      undo_of_undoneAt (regular_map op) fun t ht => undoneAt_map hop ht
    exact undoes_of_onTop hundo (onTop_unary _) (carriesOut_unary (by simp))
  | swap => exact undoes_swap
  | flip => exact undoes_swap

theorem Binary.UndoneBy.undo {n : Int32} {b c : Binary} (h : b.UndoneBy n c) :
    Undo fixes (b.onTensors (.int n)) (c.onTensors (.int n)) := by
  cases h with
  | rotate hn => exact undo_of_undoneAt (regular_rotate n) fun t ht => undoneAt_rotate hn ht
  | unrotate hn => exact undo_of_undoneAt (regular_unrotate hn) fun t ht => undoneAt_unrotate hn ht
  | add => exact undo_of_undoneAt (regular_apply .add n) fun t ht => undoneAt_apply .add ht (.int n) List.nil_prefix
  | subtract =>
    exact undo_of_undoneAt (regular_apply .subtract n) fun t ht =>
      undoneAt_apply .subtract ht (.int n) List.nil_prefix

theorem Binary.UndoneBy.undoes {n : Int32} {b c : Binary} (h : b.UndoneBy n c) (room room' : Nat) :
    Undoes fixes (do push setting.limits (.tensor (.int n)); call setting room (.word (.binary b)))
      (do push setting.limits (.tensor (.int n)); call setting room' (.word (.binary c))) := by
  refine undoes_of_onTop h.undo (onTop_literal room b _) (carriesOut_literal room' fun t => ?_)
  cases h <;> rfl

/-! ## Code undone -/

theorem Instr.Names.instr {i : Instr} {f : Fn} (h : i.Names f) (ht : setting.table = .standard)
    (call : Fn → Exec Unit) : instr setting call i = call f :=
  instr_of_resolve (ht ▸ Table.flat_standard) (ht ▸ h.resolve) call

theorem Exec.undoes_call {f g : Fn} (h : ∀ room room', Undoes fixes
    (body setting (call setting room) (applyWith setting (call setting (room - 1))) f)
    (body setting (call setting room') (applyWith setting (call setting (room' - 1))) g))
    (room room' : Nat) : Undoes fixes (call setting room f) (call setting room' g) := by
  cases room with
  | zero =>
    intro ts c m _ hrun
    cases hrun
  | succ room =>
    rw [call_succ]
    -- the inverse may be called in less room, and then the limit on depth is all that stops it
    cases room' with
    | zero => exact (h room 0).of_limit fun m => ⟨_, ⟨_, rfl⟩, rfl⟩
    | succ room' =>
      rw [call_succ]
      exact h room room'

mutual

theorem Fn.Inverts.undoes (ht : setting.table = .standard) {fixes : Bool} {k : Nat} {f g : Fn} :
    Fn.Inverts fixes k f g → ∀ room room', Undoes fixes (call setting room f) (call setting room' g)
  | .word h => undoes_call fun _ _ => h.undoes
  | .code hcode hderivation _ h => undoes_call fun room room' => by
    rw [body_code hcode hderivation]
    exact h.undoes ht room room'
  | .each h => undoes_call fun room room' =>
    undoes_each (h.undoes ht (room - 1) (room' - 1)) (congrArg Signature.outputs h.signature.1)
      (congrArg Signature.outputs h.signature.2) _ _

theorem Inverts.undoes (ht : setting.table = .standard) {fixes : Bool} {k : Nat}
    {code steps : List Instr} : Inverts fixes k code steps → ∀ room room',
      Undoes fixes (code.forM (instr setting (call setting room)))
        (steps.forM (instr setting (call setting room')))
  | .nil, _, _ => .nil
  | @Inverts.step _ _ _ i f g code steps hi hf hcode, room, room' => by
    rw [List.forM_eq_forM, List.forM_cons, List.forM_append, List.forM_cons, List.forM_nil,
      bind_pure_unit, hi.instr ht]
    exact .seq (hf.undoes ht room room') (hcode.undoes ht room room')
  | @Inverts.literal _ _ n i b c code steps hi hb hcode, room, room' => by
    rw [List.forM_eq_forM, List.forM_cons, List.forM_cons, List.forM_append, List.forM_cons,
      List.forM_cons, List.forM_nil, bind_pure_unit, hi.instr ht, ← bind_assoc]
    exact .seq (hb.undoes room room') (hcode.undoes ht room room')

end

/-- The inverse as a function of its own, called at any depth. -/
theorem Inverts.undoes_body (ht : setting.table = .standard) {fixes : Bool} {k : Nat}
    {code steps : List Instr} (h : Inverts fixes k code steps) (name : String) (s : Signature)
    (room room' : Nat) : Undoes fixes (code.forM (instr setting (call setting room)))
      (call setting room' (.body name s false steps)) := by
  cases room' with
  | zero => exact (h.undoes ht room 0).of_limit fun m => ⟨_, ⟨_, rfl⟩, rfl⟩
  | succ room' =>
    rw [call_succ]
    exact h.undoes ht room room'

namespace Machine

/-- Wherever code made of words that lose nothing, of integers added, subtracted or rotated by, and of
such code composed or on rows succeeds on arrays without floats, an inverse is derived for it; run after
the code, it leaves at every place of the stack an array that equals the one that was there, unless a
limit is hit. -/
theorem run_invert (m : Machine) (ht : m.setting.table = .standard) {code : List Instr}
    (hcode : Undoable true code) {ts : List Tensor} (hstack : m.memory.stack = ts.map .tensor)
    (hts : ∀ t ∈ ts, t.Exact) (hrun : (m.run code).1 = .ok ()) :
    (∃ g, m.setting.table.derive "invert" [.code code] = .ok g) ∧
    ((∃ ts', (m.run code).2.step (.modify "invert" [.code code]) =
        (.ok (), { m with memory := ⟨ts'.map .tensor, m.memory.context⟩ }) ∧
      List.Forall₂ (fun t t' => t'.same t = true) ts ts') ∨
    ∃ cause, ((m.run code).2.step (.modify "invert" [.code code])).1 = .error (.limit cause)) := by
  obtain ⟨setting, depth, stack, context⟩ := m
  change stack = _ at hstack
  change setting.table = _ at ht
  subst hstack
  obtain ⟨k, steps, hinverts⟩ := hcode.inverts
  obtain ⟨name, hderive⟩ := hinverts.derive
  rw [← ht] at hderive
  refine ⟨⟨_, hderive⟩, ?_⟩
  obtain ⟨memory, hforM⟩ := forM_of_run hrun
  have hstep : Machine.step ⟨setting, depth, memory⟩ (.modify "invert" [.code code]) =
      Machine.call ⟨setting, depth, memory⟩ (.body name ⟨k, k⟩ false steps) := step_modify _ hderive
  rw [run_of_forM hforM]
  change (∃ ts', Machine.step ⟨setting, depth, memory⟩ _ = _ ∧ _) ∨
    ∃ cause, (Machine.step ⟨setting, depth, memory⟩ _).1 = _
  rw [hstep]
  let room := setting.limits.maxDepth - depth
  obtain ⟨rs, rfl, hrs⟩ := hinverts.undoes_body ht name ⟨k, k⟩ room room ts context memory hts hforM
  -- what the code left is among its own wider copies
  have hsame : List.Forall₂ Widens rs rs := List.forall₂_same.2 fun r hr => .refl (hrs.exact r hr)
  have hback := hrs.back rs context hsame
  unfold Reaches Ends at hback
  split at hback
  · rename_i memory' hcall
    obtain ⟨ts', rfl, hwidens⟩ := hback
    refine .inl ⟨ts', exec_ok hcall, ?_⟩
    exact ((List.forall₂_and_left _ _).2 ⟨hts, hwidens⟩).imp fun t t' h => h.2.same h.1
  · rename_i fault memory' hcall
    obtain ⟨cause, rfl⟩ := hback
    exact .inr ⟨cause, congrArg Prod.fst (exec_error hcall)⟩

/-- The numbers on top moved up by three and turned round row by row, and the array below boxed as one
row. -/
def turnedRows : List Instr :=
  [.push (.tensor (.int 3)), .word "add", .modify "each" [.name "reverse"], .word "swap", .word "box",
    .invoke (.compose (.word (.unary .fix)) (.word .flip))]

theorem run_invert_turnedRows :
    let top := Tensor.ofInts [2, 2] [1, 2, 3, 4]
    let m : Machine := { memory := ⟨[.tensor top, .tensor (.string [104, 105])], [.shape [2]]⟩ }
    (m.run turnedRows).1 = .ok () ∧ (∃ g, m.setting.table.derive "invert" [.code turnedRows] = .ok g) ∧
      ∃ ts', (m.run turnedRows).2.step (.modify "invert" [.code turnedRows]) =
          (.ok (), { m with memory := ⟨ts'.map .tensor, [.shape [2]]⟩ }) ∧
        List.Forall₂ (fun t t' => t'.same t = true) [top, .string [104, 105]] ts' := by
  intro top m
  have hrun : (m.run turnedRows).1 = .ok () := by decide +kernel
  have hcode : Undoable true turnedRows := by
    refine .literal (.word rfl) (.inr (.inl rfl)) ?_
    refine .step (.each (f := .word (.unary .reverse)) rfl rfl) (.each (.word (.inl (by simp))) rfl) ?_
    refine .step (.word (f := .word .swap) rfl) (.word (.inl (by simp))) ?_
    refine .step (.word (f := .word (.unary .box)) rfl) (.word (.inl (by simp))) ?_
    exact .step (.invoke _) (.compose (.word (.inr ⟨rfl, rfl⟩)) (.word (.inl (by simp)))) .nil
  have hexact : ∀ t ∈ [top, .string [104, 105]], t.Exact := by
    simp only [List.mem_cons, List.not_mem_nil, or_false]
    rintro t (rfl | rfl)
    · exact .numbers (by decide) rfl
    · exact .characters rfl
  obtain ⟨hderive, hstep | ⟨cause, hcause⟩⟩ := run_invert m rfl hcode rfl hexact hrun
  · exact ⟨hrun, hderive, hstep⟩
  · have hok : ((m.run turnedRows).2.step (.modify "invert" [.code turnedRows])).1 = .ok () := by
      decide +kernel
    rw [hcause] at hok
    cases hok

end Machine

end Tacit
