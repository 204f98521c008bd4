/-
Operations on every row. What is undone on rows is undone on whole arrays: the results for the rows of
one array are of one kind and shape, so that stacked they have again rows that can be taken back.
-/
import Tacit.Proofs.Array.Alike

namespace Tacit

/-- A fault at a limit on resources. -/
def Fault.IsLimit (fault : Fault) : Prop := ∃ cause, fault = .limit cause

/-- A result of the class `P`, unless a limit is hit. -/
def Limited {α : Type} (P : α → Prop) : Except Fault α → Prop
  | .ok a => P a
  | .error fault => fault.IsLimit

namespace Limited

variable {α β γ : Type}

theorem of_ok {P : α → Prop} {x : Except Fault α} {a : α} (h : x = .ok a) (ha : P a) : Limited P x := by
  rw [h]
  exact ha

theorem bind {P : α → Prop} {Q : β → Prop} {x : Except Fault α} {f : α → Except Fault β}
    (h : Limited P x) (hf : ∀ a, P a → Limited Q (f a)) : Limited Q (x >>= f) := by
  cases x with
  | ok a => exact hf a h
  | error fault => exact h

theorem with_eq {P : α → Prop} {x : Except Fault α} (h : Limited P x) :
    Limited (fun a => P a ∧ x = .ok a) x := by
  cases x with
  | ok a => exact ⟨h, rfl⟩
  | error fault => exact h

theorem of_map {P : β → Prop} {x : Except Fault α} {g : α → β} (h : Limited P (do return g (← x))) :
    Limited (fun a => P (g a)) x := by
  cases x <;> exact h

theorem mapM {R : α → γ → Prop} {g : β → Except Fault γ} {xs : List α} {ys : List β}
    (h : List.Forall₂ (fun x y => Limited (R x) (g y)) xs ys) :
    Limited (List.Forall₂ R xs) (ys.mapM g) := by
  induction h with
  | nil => exact .of_ok rfl .nil
  | cons hxy _ ih =>
    rw [List.mapM_cons]
    exact hxy.bind fun z hz => ih.bind fun zs hzs => .cons hz hzs

end Limited

namespace Tensor

/-- On exact arrays the operation `g` undoes `f`, up to wider copies and unless a limit is hit. -/
structure Undo (fixes : Bool) (f g : Tensor → Except Fault Tensor) : Prop where
  exact {t r : Tensor} : t.Exact → f t = .ok r → r.Exact
  regular : Regular fixes f
  back {t r r' : Tensor} : t.Exact → f t = .ok r → r.Widens r' → Limited t.Widens (g r')

theorem undo_of_undoneAt {fixes : Bool} {f g : Tensor → Except Fault Tensor} (hregular : Regular fixes f)
    (h : ∀ t, t.Exact → UndoneAt f g t) : Undo fixes f g where
  exact ht hr := (h _ ht _ hr).1
  regular := hregular
  back ht hr hwidens := by
    obtain ⟨t', ht', hwidens'⟩ := (h _ ht _ hr).2 _ hwidens
    exact .of_ok ht' hwidens'

/-! ## Rows -/

/-- The operation on every row, its results stacked again; a scalar is its own row. -/
def onRows (f : Tensor → Except Fault Tensor) (t : Tensor) : Except Fault Tensor :=
  if t.isScalar then f t
  else if t.rows.isEmpty then pure t
  else return ofRows (← t.rows.mapM f)

section

variable {f : Tensor → Except Fault Tensor} {t u r : Tensor}

theorem isScalar_iff : t.isScalar = true ↔ t.shape = [] := List.isEmpty_iff

theorem onRows_scalar (h : t.shape = []) : onRows f t = f t := by
  unfold onRows
  rw [if_pos (isScalar_iff.2 h)]

theorem onRows_rows (h : t.shape ≠ []) (hrows : t.rows ≠ []) :
    onRows f t = do return ofRows (← t.rows.mapM f) := by
  unfold onRows
  rw [if_neg (mt isScalar_iff.1 h), if_neg (mt List.isEmpty_iff.1 hrows)]

theorem onRows_empty (h : t.shape ≠ []) (hrows : t.rows = []) : onRows f t = .ok t := by
  unfold onRows
  rw [if_neg (mt isScalar_iff.1 h), hrows]
  rfl

theorem length_mapM {rs : List Tensor} (h : t.rows.mapM f = .ok rs) : rs.length = t.rows.length :=
  (Except.forall₂_of_mapM h).length_eq.symm

theorem onRows_eq_ok (h : t.shape ≠ []) (hr : onRows f t = .ok r) : t.rows = [] ∧ r = t ∨
    t.rows ≠ [] ∧ ∃ rs, rs ≠ [] ∧ t.rows.mapM f = .ok rs ∧ r = ofRows rs := by
  by_cases hrows : t.rows = []
  · rw [onRows_empty h hrows] at hr
    cases hr
    exact .inl ⟨hrows, rfl⟩
  · rw [onRows_rows h hrows] at hr
    obtain ⟨rs, hrs, hr⟩ := Except.bind_ok hr
    cases hr
    have hpos := List.length_pos_of_ne_nil hrows
    rw [← length_mapM hrs] at hpos
    exact .inr ⟨hrows, rs, List.ne_nil_of_length_pos hpos, hrs, rfl⟩

theorem Alike.length_rows (h : t.Alike u) : t.rows.length = u.rows.length := by
  rw [Tensor.length_rows, Tensor.length_rows, rowCount, rowCount, h.2]

/-- The rows of an array that has any, stacked again. -/
theorem ofRows_rows_of_ne (ht : t.Full) (h : t.shape ≠ []) (hrows : t.rows ≠ []) : ofRows t.rows = t := by
  obtain ⟨s, e⟩ := t
  match s with
  | [] => exact absurd rfl h
  | 0 :: s =>
    have hlength := Tensor.length_rows ⟨0 :: s, e⟩
    exact absurd (List.length_eq_zero_iff.1 hlength) hrows
  | (n + 1) :: s => exact ofRows_rows ht

theorem ofRows_shape_ne (rs : List Tensor) : (ofRows rs).shape ≠ [] := by
  cases rs with
  | nil => exact List.cons_ne_nil _ _
  | cons r rs =>
    unfold ofRows
    dsimp only
    split <;> exact List.cons_ne_nil _ _

end

/-- Stacked rows of one kind and shape are alike if the rows are. -/
theorem ofRows_alike {rs qs : List Tensor} (hne : rs ≠ []) (hlength : rs.length = qs.length)
    (h : ∀ r ∈ rs, ∀ q ∈ qs, r.Alike q) : (ofRows rs).Alike (ofRows qs) := by
  have hne' : qs ≠ [] := fun hnil => hne (List.length_eq_zero_iff.1 (by rw [hlength, hnil]; rfl))
  obtain ⟨r, hr⟩ := List.exists_mem_of_ne_nil rs hne
  obtain ⟨q, hq⟩ := List.exists_mem_of_ne_nil qs hne'
  have hrs : ∀ x ∈ rs, x.kind = q.kind ∧ x.shape = q.shape := fun x hx => h x hx q hq
  have hqs : ∀ x ∈ qs, x.kind = q.kind ∧ x.shape = q.shape := by
    intro x hx
    have hrx := h r hr x hx
    have hrq := h r hr q hq
    exact hrx.symm.trans hrq
  rw [ofRows_eq hne hrs, ofRows_eq hne' hqs, hlength]
  exact ⟨(kind_concat _ _).trans (kind_concat _ _).symm, rfl⟩

namespace Undo

variable {f g : Tensor → Except Fault Tensor} {fixes : Bool}

/-- The results for the rows of two arrays of one kind and shape are all of one kind and shape. -/
theorem alike_of_rows (h : Undo fixes f g) {t u r q : Tensor} (ht : t.Exact) (hu : u.Exact)
    (htu : t.Alike u) (hshape : t.shape ≠ []) {rs qs : List Tensor} (hrs : t.rows.mapM f = .ok rs)
    (hqs : u.rows.mapM f = .ok qs) (hr : r ∈ rs) (hq : q ∈ qs) : r.Alike q := by
  obtain ⟨t', ht', hr'⟩ := Except.exists_of_mem_mapM hrs hr
  obtain ⟨u', hu', hq'⟩ := Except.exists_of_mem_mapM hqs hq
  exact (h.regular t' r (ht.rows t' ht') hr').2 u' q (hu.rows u' hu') (htu.of_mem_rows hshape ht' hu') hq'

theorem exact_of_rows (h : Undo fixes f g) {t r : Tensor} (ht : t.Exact) {rs : List Tensor}
    (hrs : t.rows.mapM f = .ok rs) (hr : r ∈ rs) : r.Exact := by
  obtain ⟨t', ht', hr'⟩ := Except.exists_of_mem_mapM hrs hr
  exact h.exact (ht.rows t' ht') hr'

/-- Stacked, the results for rows are exact and have again rows, which are wider copies of them. -/
theorem ofRows (h : Undo fixes f g) {t : Tensor} (ht : t.Exact) (hshape : t.shape ≠ [])
    {rs : List Tensor} (hne : rs ≠ []) (hrs : t.rows.mapM f = .ok rs) :
    (Tensor.ofRows rs).Exact ∧ List.Forall₂ Widens rs (Tensor.ofRows rs).rows := by
  obtain ⟨q, hq⟩ := List.exists_mem_of_ne_nil rs hne
  have htt : t.Alike t := ⟨rfl, rfl⟩
  exact Exact.ofRows hne (fun r hr => h.exact_of_rows ht hrs hr)
    fun r hr => h.alike_of_rows ht ht htt hshape hrs hrs hr hq

/-- A wider copy of the stacked results has rows that are wider copies of the results. -/
theorem widens_rows (h : Undo fixes f g) {t r' : Tensor} (ht : t.Exact) (hshape : t.shape ≠ [])
    {rs : List Tensor} (hne : rs ≠ []) (hrs : t.rows.mapM f = .ok rs)
    (hwidens : (Tensor.ofRows rs).Widens r') : List.Forall₂ Widens rs r'.rows := by
  obtain ⟨-, hstacked⟩ := h.ofRows ht hshape hne hrs
  obtain ⟨hlength, hzip⟩ := List.forall₂_iff_zip.1 hstacked
  exact forall₂_of_zip hlength (fun p hp z hz => (hzip hp).trans hz) hwidens.rows

theorem back_rows (h : Undo fixes f g) {t : Tensor} (ht : t.Exact) {rs rs' : List Tensor}
    (hrs : t.rows.mapM f = .ok rs) (hwidens : List.Forall₂ Widens rs rs') :
    Limited (List.Forall₂ Widens t.rows) (rs'.mapM g) := by
  obtain ⟨hlength, hzip⟩ := List.forall₂_iff_zip.1 (Except.forall₂_of_mapM hrs)
  refine .mapM (forall₂_of_zip hlength (fun p hp r' hr' => ?_) hwidens)
  exact h.back (ht.rows p.1 (List.of_mem_zip hp).1) (hzip hp) hr'

/-- The results for arrays of one kind and shape are of one kind and shape on rows, too: both have rows or neither. -/
theorem regular_onRows (h : Undo false f g) : Regular fixes (onRows f) := by
  intro t r ht hr
  by_cases hshape : t.shape = []
  · rw [onRows_scalar hshape] at hr
    obtain ⟨hscalar, halike⟩ := h.regular t r ht hr
    refine ⟨fun _ => hscalar rfl, fun u q hu htu hq => halike u q hu htu ?_⟩
    rw [onRows_scalar (htu.2.symm.trans hshape)] at hq
    exact hq
  refine ⟨fun _ hscalar => absurd hscalar hshape, fun u q hu htu hq => ?_⟩
  have hshape' : u.shape ≠ [] := fun hnil => hshape (htu.2.trans hnil)
  have hlength := htu.length_rows
  rcases onRows_eq_ok hshape hr with ⟨hrows, rfl⟩ | ⟨-, rs, hne, hrs, rfl⟩
  · -- an array without rows is its own result, and so is one like it
    rw [hrows] at hlength
    rw [onRows_empty hshape' (List.length_eq_zero_iff.1 hlength.symm)] at hq
    cases hq
    exact htu
  rcases onRows_eq_ok hshape' hq with ⟨hrows, rfl⟩ | ⟨-, qs, -, hqs, rfl⟩
  · rw [hrows, ← length_mapM hrs] at hlength
    exact absurd (List.length_eq_zero_iff.1 hlength) hne
  · rw [← length_mapM hrs, ← length_mapM hqs] at hlength
    exact ofRows_alike hne hlength fun x hx y hy => h.alike_of_rows ht hu htu hshape hrs hqs hx hy

/-- From a wider copy of the stacked results the rows come back, as wider copies. -/
theorem back_ofRows (h : Undo false f g) {t r' : Tensor} (ht : t.Exact) (hshape : t.shape ≠ [])
    (hrows : t.rows ≠ []) {rs : List Tensor} (hne : rs ≠ []) (hrs : t.rows.mapM f = .ok rs)
    (hwidens : (Tensor.ofRows rs).Widens r') : Limited (Widens t) (onRows g r') := by
  have hwidens' := h.widens_rows ht hshape hne hrs hwidens
  have hrows' : r'.rows ≠ [] := by
    intro hnil
    rw [hnil] at hwidens'
    exact hne (List.forall₂_nil_right_iff.1 hwidens')
  have hshape' : r'.shape ≠ [] := by
    rw [hwidens.shape]
    exact ofRows_shape_ne rs
  rw [onRows_rows hshape' hrows']
  refine (h.back_rows ht hrs hwidens').bind fun ts hts => ?_
  obtain ⟨q, hq⟩ := List.exists_mem_of_ne_nil t.rows hrows
  have halike : ∀ x ∈ t.rows, x.Alike q := fun x hx => Alike.of_mem_rows ⟨rfl, rfl⟩ hshape hx hq
  have hsame := Widens.ofRows hrows ht.rows halike hts
  rw [ofRows_rows_of_ne ht.full hshape hrows] at hsame
  exact hsame

/-- On rows, too: without `fix` the result for a scalar, its own row, is again its own row. -/
theorem onRows (h : Undo false f g) : Undo fixes (onRows f) (onRows g) where
  exact {t r} ht hr := by
    by_cases hshape : t.shape = []
    · rw [onRows_scalar hshape] at hr
      exact h.exact ht hr
    rcases onRows_eq_ok hshape hr with ⟨-, rfl⟩ | ⟨-, rs, hne, hrs, rfl⟩
    · exact ht
    · exact (h.ofRows ht hshape hne hrs).1
  regular := h.regular_onRows
  back {t r r'} ht hr hwidens := by
    by_cases hshape : t.shape = []
    · rw [onRows_scalar hshape] at hr
      have hscalar := (h.regular t r ht hr).1 rfl hshape
      rw [onRows_scalar (hwidens.shape.trans hscalar)]
      exact h.back ht hr hwidens
    rcases onRows_eq_ok hshape hr with ⟨hrows, rfl⟩ | ⟨hrows, rs, hne, hrs, rfl⟩
    · have hshape' : r'.shape ≠ [] := by rwa [hwidens.shape]
      have hrows' := hwidens.rows
      rw [hrows] at hrows'
      exact .of_ok (onRows_empty hshape' (List.forall₂_nil_left_iff.1 hrows')) hwidens
    · exact h.back_ofRows ht hshape hrows hne hrs hwidens

end Undo

end Tensor

end Tacit
