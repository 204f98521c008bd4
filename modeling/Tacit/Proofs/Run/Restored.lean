/-
Code put back. Around an action that does nothing, the two halves of code give back the array that the
code was run on: each unit's second half takes the unit's result back to what the unit was given, and
finds on top of the context stack what its first half left there.
-/
import Tacit.Proofs.Derive.Recovery
import Tacit.Proofs.Run.Handover

namespace Tacit

namespace Exec

/-- However many calls may be nested, the function leads from one memory to the other if it gets there
at all. -/
def Leads (setting : Setting) (f : Fn) (m m' : Memory) : Prop :=
  ∀ room, Ends TooDeep (fun _ m'' => m'' = m') (call setting room f) m

/-- The same of code, as the body of a function. -/
def CodeLeads (setting : Setting) (code : List Instr) (m m' : Memory) : Prop :=
  ∀ room, Ends TooDeep (fun _ m'' => m'' = m') (code.forM (instr setting (call setting room))) m

section

variable {setting : Setting} {m m' m'' : Memory}

theorem leads_of_body {f : Fn} (h : ∀ room, Ends TooDeep (fun _ m'' => m'' = m')
    (body setting (call setting room) (applyWith setting (call setting (room - 1))) f) m) :
    Leads setting f m m' := by
  intro room
  cases room with
  | zero => exact .of_error rfl ⟨_, _, rfl⟩
  | succ room =>
    rw [call_succ]
    exact h room

theorem leads_word {w : Word} (h : word setting w m = .ok () m') : Leads setting (.word w) m m' :=
  leads_of_body fun _ => .of_ok h rfl

theorem CodeLeads.leads {code : List Instr} (h : CodeLeads setting code m m') (name : String)
    (s : Signature) : Leads setting (.body name s false code) m m' := leads_of_body h

theorem CodeLeads.nil (m : Memory) : CodeLeads setting [] m m := fun _ => .of_ok rfl rfl

theorem CodeLeads.append {code code' : List Instr} (h : CodeLeads setting code m m')
    (h' : CodeLeads setting code' m' m'') : CodeLeads setting (code ++ code') m m'' := by
  intro room
  rw [List.forM_eq_forM, List.forM_append]
  refine (h room).bind fun _ m hm => ?_
  rw [hm]
  exact h' room

theorem Leads.code {f : Fn} (h : Leads setting f m m') : CodeLeads setting [.invoke f] m m' := by
  intro room
  rw [List.forM_eq_forM, List.forM_cons]
  refine (h room).bind fun _ m hm => ?_
  exact .of_ok rfl hm

/-- Literals on the stack, the last on top. -/
def literals (ts : List Tensor) : List Value := (ts.map Value.tensor).reverse

theorem literals_run {call : Fn → Exec Unit} (context : List Saved) : ∀ (ts : List Tensor) (stack : List Value),
    (∀ t ∈ ts, Fits setting.limits (.tensor t)) →
    (ts.map fun t => Instr.push (.tensor t)).forM (instr setting call) ⟨stack, context⟩ =
      .ok () ⟨literals ts ++ stack, context⟩
  | [], _, _ => rfl
  | t :: ts, stack, h => by
    have hstack : literals (t :: ts) ++ stack = literals ts ++ .tensor t :: stack := by
      simp [literals]
    rw [List.forM_eq_forM, List.map_cons, List.forM_cons, hstack]
    refine (bind_ok _ (push_fits (h t (by simp)) stack context)).trans ?_
    exact literals_run context ts (.tensor t :: stack) fun u hu => h u (by simp [hu])

theorem codeLeads_literals (context : List Saved) (ts : List Tensor) (stack : List Value)
    (h : ∀ t ∈ ts, Fits setting.limits (.tensor t)) :
    CodeLeads setting (ts.map fun t => .push (.tensor t)) ⟨stack, context⟩
      ⟨literals ts ++ stack, context⟩ := fun _ => .of_ok (literals_run context ts stack h) rfl

/-! ## Halves of words -/

theorem stash_unary_run {k : UnaryKeeper} {t r : Tensor} {saved : Saved}
    (h : k.stash (.tensor t) = .ok (saved, r)) (hfits : Fits setting.limits (.tensor r))
    (rest : List Value) (context : List Saved) : stash setting (.unary k) ⟨.tensor t :: rest, context⟩ =
      .ok () ⟨.tensor r :: rest, saved :: context⟩ := by
  have hstash : (popOne (Keeper.unary k).name >>= fun v => lift (k.stash v)) ⟨.tensor t :: rest, context⟩ =
      .ok (saved, r) ⟨rest, context⟩ := by
    refine (bind_ok _ rfl).trans ?_
    rw [h]
    rfl
  exact (bind_ok _ hstash).trans (push_fits hfits rest (saved :: context))

theorem stash_binary_run {k : BinaryKeeper} {top t r : Tensor} {saved : Saved}
    (h : k.stash (.tensor top) (.tensor t) = .ok (saved, r)) (hfits : Fits setting.limits (.tensor r))
    (rest : List Value) (context : List Saved) :
    stash setting (.binary k) ⟨.tensor top :: .tensor t :: rest, context⟩ =
      .ok () ⟨.tensor r :: rest, saved :: context⟩ := by
  have hstash : (popTwo (Keeper.binary k).name >>= fun p => lift (k.stash p.1 p.2))
      ⟨.tensor top :: .tensor t :: rest, context⟩ = .ok (saved, r) ⟨rest, context⟩ := by
    refine (bind_ok _ rfl).trans ?_
    rw [h]
    rfl
  exact (bind_ok _ hstash).trans (push_fits hfits rest (saved :: context))

theorem putBack_run {k : Keeper} {saved : Saved} {v w : Value} (h : k.restore saved v = .ok w)
    (hfits : Fits setting.limits w) (rest : List Value) (context : List Saved) :
    putBack setting k ⟨v :: rest, saved :: context⟩ = .ok () ⟨w :: rest, context⟩ := by
  change (do push setting.limits (← lift (k.restore saved v)) : Exec Unit) ⟨rest, context⟩ = _
  rw [h]
  exact push_fits hfits rest context

/-- The parameter stays on the stack for the function itself. -/
theorem leads_saving {f : Fn} (hf : f.parametric = 1) {v : Value} {stack : List Value}
    {context : List Saved} (h : Leads setting f ⟨v :: stack, .parameters [v] :: context⟩ m') :
    Leads setting (.saving f) ⟨v :: stack, context⟩ m' := by
  refine leads_of_body fun room => ?_
  change Ends _ _ (do
    save (.parameters (← peekMany f.parametric f.name))
    call setting room f : Exec Unit) _
  rw [hf]
  exact h room

theorem leads_resuming {f g : Fn} {v : Value} {stack : List Value} {context : List Saved}
    (hfits : Fits setting.limits v) (h : Leads setting g ⟨v :: stack, context⟩ m') :
    Leads setting (.resuming f g) ⟨stack, .parameters [v] :: context⟩ m' := by
  refine leads_of_body fun room => ?_
  have hpush : pushAll setting.limits [v] ⟨stack, context⟩ = .ok () ⟨v :: stack, context⟩ :=
    bind_ok _ (push_fits hfits stack context)
  change Ends _ _ (do
    pushAll setting.limits [v]
    call setting room g : Exec Unit) ⟨stack, context⟩
  unfold Ends
  rw [bind_ok _ hpush]
  exact h room

/-! ## Units put back -/

/-- The first code leads from one array on the stack to the other and leaves items on the context stack,
over which the second code leads back. -/
def Restores (setting : Setting) (before after : List Instr) (t r : Tensor) : Prop :=
  ∃ items : List Saved, ∀ rest context,
    CodeLeads setting before ⟨.tensor t :: rest, context⟩ ⟨.tensor r :: rest, items ++ context⟩ ∧
    CodeLeads setting after ⟨.tensor r :: rest, items ++ context⟩ ⟨.tensor t :: rest, context⟩

theorem Restores.nil (t : Tensor) : Restores setting [] [] t t :=
  ⟨[], fun _ _ => ⟨.nil _, .nil _⟩⟩

theorem Restores.append {before before' after after' : List Instr} {t r s : Tensor}
    (h : Restores setting before after t r) (h' : Restores setting before' after' r s) :
    Restores setting (before ++ before') (after' ++ after) t s := by
  obtain ⟨items, h⟩ := h
  obtain ⟨items', h'⟩ := h'
  refine ⟨items' ++ items, fun rest context => ?_⟩
  -- the items of the second code lie above those of the first
  rw [List.append_assoc]
  obtain ⟨hbefore, hafter⟩ := h rest context
  obtain ⟨hbefore', hafter'⟩ := h' rest (items ++ context)
  exact ⟨hbefore.append hbefore', hafter'.append hafter⟩

theorem restores_half {ts : List Tensor} {f g : Fn} {t r : Tensor} (items : List Saved)
    (hts : ∀ t ∈ ts, Fits setting.limits (.tensor t))
    (hf : ∀ rest context, Leads setting f ⟨literals ts ++ .tensor t :: rest, context⟩
      ⟨.tensor r :: rest, items ++ context⟩)
    (hg : ∀ rest context, Leads setting g ⟨.tensor r :: rest, items ++ context⟩
      ⟨.tensor t :: rest, context⟩) : Restores setting (halfCode ts f) [.invoke g] t r :=
  ⟨items, fun rest context =>
    ⟨(codeLeads_literals context ts _ hts).append (hf rest context).code, (hg rest context).code⟩⟩

/-- What a keeper saves is on top of the context when its result goes back into it. -/
theorem restores_kept {k : Keeper} {ts : List Tensor} {t r : Tensor} {saved : Saved}
    (hts : ∀ t ∈ ts, Fits setting.limits (.tensor t)) (hfits : Fits setting.limits (.tensor t))
    (hstash : ∀ rest context, stash setting k ⟨literals ts ++ .tensor t :: rest, context⟩ =
      .ok () ⟨.tensor r :: rest, saved :: context⟩)
    (hback : k.restore saved (.tensor r) = .ok (.tensor t)) :
    Restores setting (halfCode ts (.stash k)) [.invoke (.restore k)] t r := by
  refine restores_half [saved] hts (fun rest context => ?_) fun rest context => ?_
  · exact leads_of_body fun _ => .of_ok (hstash rest context) rfl
  · exact leads_of_body fun _ => .of_ok (putBack_run hback hfits rest context) rfl

/-- A literal saved by one word is there for the word that undoes it. -/
theorem restores_parameter {b c : Binary} {l t r : Tensor} (hb : (Fn.word (.binary b)).parametric = 1)
    (hl : Fits setting.limits (.tensor l)) (hfits : Fits setting.limits (.tensor t))
    (hfits' : Fits setting.limits (.tensor r)) (hsize : b.size? (.tensor l) (.tensor t) = .ok none)
    (hsize' : c.size? (.tensor l) (.tensor r) = .ok none) (hr : b.onTensors l t = .ok r)
    (hback : c.onTensors l r = .ok t) :
    Restores setting (halfCode [l] (.saving (.word (.binary b))))
      [.invoke (.resuming (.word (.binary b)) (.word (.binary c)))] t r := by
  refine restores_half [.parameters [.tensor l]] (by simpa using hl) (fun rest context => ?_)
    fun rest context => ?_
  · exact leads_saving hb (leads_word (word_binary_run hsize hr hfits' rest _))
  · exact leads_resuming hl (leads_word (word_binary_run hsize' hback hfits rest context))

/-- What a unit made of an array leads back to that array. -/
theorem restores_unit {u : Recovery} (h : u.Sound) {t : Tensor} (ht : t.Full)
    (hfits : Fits setting.limits (.tensor t)) (hts : ∀ l ∈ u.literals, Fits setting.limits (.tensor l))
    (hscalar : u.word = .binary .take ∨ u.word = .binary .drop → t.shape ≠ []) {rest : List Value}
    {context : List Saved} (hw : word setting u.word
      ⟨literals u.literals ++ .tensor t :: rest, context⟩ = .ok () m') :
    ∃ r, r.Full ∧ Fits setting.limits (.tensor r) ∧ m' = ⟨.tensor r :: rest, context⟩ ∧
      Restores setting u.before [.invoke u.pair.after] t r := by
  cases h with
  | @unary u v huv =>
    obtain ⟨r, hr, hfits', rfl⟩ := word_unary_eq_ok hw
    obtain ⟨hback, hfull⟩ := huv.onTensor ht hr
    have hu : u ≠ .range ∧ v ≠ .range := by cases huv <;> decide
    refine ⟨r, hfull, hfits', rfl, restores_half [] hts (fun rest context => ?_) fun rest context => ?_⟩
    · exact leads_word (word_unary_run hu.1 hr hfits' rest context)
    · exact leads_word (word_unary_run hu.2 hback hfits rest context)
  | keepUnary k =>
    obtain ⟨u, hu⟩ : ∃ u, (Keeper.unary k).word = .unary u := by cases k <;> exact ⟨_, rfl⟩
    dsimp only at hw
    rw [hu] at hw
    obtain ⟨r, hr, hfits', rfl⟩ := word_unary_eq_ok hw
    obtain ⟨saved, hs⟩ := UnaryKeeper.stash_ok hu hr
    obtain ⟨hback, hfull⟩ := UnaryKeeper.restore_stash ht hs
    exact ⟨r, hfull, hfits', rfl, restores_kept hts hfits (stash_unary_run hs hfits') hback⟩
  | keepBinary k top =>
    obtain ⟨b, hb⟩ : ∃ b, (Keeper.binary k).word = .binary b := by cases k <;> exact ⟨_, rfl⟩
    dsimp only at hw
    rw [hb] at hw
    obtain ⟨r, hr, hfits', rfl⟩ := word_binary_eq_ok hw
    obtain ⟨saved, hs⟩ := BinaryKeeper.stash_ok hb hr
    have hcut : k = .take ∨ k = .drop → t.shape ≠ [] := by
      rintro (rfl | rfl)
      · exact hscalar (.inl rfl)
      · exact hscalar (.inr rfl)
    obtain ⟨hback, hfull⟩ := BinaryKeeper.restore_stash ht hcut hs
    exact ⟨r, hfull, hfits', rfl, restores_kept hts hfits (stash_binary_run hs hfits') hback⟩
  | @rotate n hn =>
    obtain ⟨r, hr, hfits', rfl⟩ := word_binary_eq_ok hw
    obtain ⟨hback, hfull⟩ := Tensor.unrotate_rotate hn ht hr
    have hint : Fits setting.limits (.tensor (.int n)) := hts _ (by simp)
    exact ⟨r, hfull, hfits', rfl, restores_parameter (c := .unrotate) rfl hint hfits hfits' rfl rfl hr hback⟩
  | @unrotate n hn =>
    obtain ⟨r, hr, hfits', rfl⟩ := word_binary_eq_ok hw
    obtain ⟨hback, hfull⟩ := Tensor.rotate_unrotate hn ht hr
    have hint : Fits setting.limits (.tensor (.int n)) := hts _ (by simp)
    exact ⟨r, hfull, hfits', rfl, restores_parameter (c := .rotate) rfl hint hfits hfits' rfl rfl hr hback⟩

/-! ## Code put back -/

theorem literals_eq_ok {call : Fn → Exec Unit} {context : List Saved} {a : Unit} :
    ∀ {ts : List Tensor} {stack : List Value},
      (ts.map fun t => Instr.push (.tensor t)).forM (instr setting call) ⟨stack, context⟩ = .ok a m' →
      (∀ t ∈ ts, Fits setting.limits (.tensor t)) ∧ m' = ⟨literals ts ++ stack, context⟩
  | [], _, h => by cases h; exact ⟨by simp, rfl⟩
  | t :: ts, stack, h => by
    obtain ⟨_, _, hpush, h⟩ := bind_eq_ok h
    change push setting.limits (.tensor t) ⟨stack, context⟩ = _ at hpush
    obtain ⟨ht, rfl⟩ := push_eq_ok hpush
    obtain ⟨hts, rfl⟩ := literals_eq_ok h
    exact ⟨by simpa using ⟨ht, hts⟩, by simp [literals]⟩

/-- A word called in code runs on the memory that the code before it left. -/
theorem word_of_code {room : Nat} {w : Word} (ht : setting.table.get w.name = .ok (.word w)) {a : Unit}
    (h : [Instr.word w.name].forM (instr setting (call setting room)) m = .ok a m') :
    word setting w m = .ok () m' := by
  obtain ⟨_, m'', h, hpure⟩ := bind_eq_ok h
  cases hpure
  rw [instr_word ht] at h
  cases room with
  | zero => cases h
  | succ room =>
    change call setting (room + 1) (.word w) m = _ at h
    rw [call_succ] at h
    exact h

/-- Where code of sound units succeeds, its halves lead to its result and back. The invariant is that the
array on top is full and within the limit on elements. -/
theorem restores_code (ht : setting.table = .standard) {room : Nat} {rest : List Value}
    {context : List Saved} : ∀ {rs : List Recovery} {t : Tensor}, (∀ r ∈ rs, r.Sound) → t.Full →
      Fits setting.limits (.tensor t) →
      (rs.flatMap Recovery.code).forM (instr setting (call setting room))
        ⟨.tensor t :: rest, context⟩ = .ok () m' →
      (∀ code name code', rs.flatMap Recovery.code = code ++ .word name :: code' →
        name = "take" ∨ name = "drop" → ∀ v u stack context',
          code.forM (instr setting (call setting room)) ⟨.tensor t :: rest, context⟩ =
            .ok () ⟨v :: .tensor u :: stack, context'⟩ → u.shape ≠ []) →
      ∃ r, Fits setting.limits (.tensor r) ∧
        Restores setting (rs.flatMap Recovery.before) (Recovery.afters rs) t r
  | [], t, _, _, hfits, _, _ => ⟨t, hfits, .nil t⟩
  | u :: rs, t, hrs, hfull, hfits, hrun, hcut => by
    rw [List.flatMap_cons] at hrun
    obtain ⟨m₁, hunit, hrun⟩ := forM_append_eq_ok hrun
    obtain ⟨m₂, hliterals, hword⟩ := forM_append_eq_ok hunit
    obtain ⟨hts, rfl⟩ := literals_eq_ok hliterals
    have hget : setting.table.get u.word.name = .ok (.word u.word) := by
      rw [ht]
      exact (hrs u (by simp)).get
    have hscalar : u.word = .binary .take ∨ u.word = .binary .drop → t.shape ≠ [] := by
      intro hw
      obtain ⟨l, hl⟩ := (hrs u (by simp)).literals_cut hw
      rw [hl] at hliterals
      refine hcut _ u.word.name (rs.flatMap Recovery.code) ?_ ?_ (.tensor l) t rest context hliterals
      · rw [List.flatMap_cons, Recovery.code, hl, List.append_assoc]
        rfl
      · rcases hw with hw | hw
        · exact .inl (congrArg Word.name hw)
        · exact .inr (congrArg Word.name hw)
    obtain ⟨r, hr, hfits', rfl, hunits⟩ := restores_unit (hrs u (by simp)) hfull hfits hts hscalar
      (word_of_code hget hword)
    have hcut' : ∀ code name code', rs.flatMap Recovery.code = code ++ .word name :: code' →
        name = "take" ∨ name = "drop" → ∀ v w stack context',
          code.forM (instr setting (call setting room)) ⟨.tensor r :: rest, context⟩ =
            .ok () ⟨v :: .tensor w :: stack, context'⟩ → w.shape ≠ [] := by
      intro code name code' hcode hname v w stack context' hm
      refine hcut (u.code ++ code) name code' ?_ hname v w stack context' ?_
      · rw [List.flatMap_cons, hcode, List.append_assoc]
      · rw [List.forM_eq_forM, List.forM_append]
        exact (bind_ok _ hunit).trans hm
    obtain ⟨s, hs, hcode⟩ :=
      restores_code ht (fun r hr => hrs r (by simp [hr])) hr hfits' hrun hcut'
    refine ⟨s, hs, ?_⟩
    rw [List.flatMap_cons, Recovery.afters, List.reverse_cons, List.map_append]
    exact hunits.append hcode

/-- Around a word that changes nothing, halves that lead to an array and back change nothing. -/
theorem leads_under {transform : Fn} {before after : List Instr} {name name' : String}
    {s s' : Signature} {t r : Tensor} (h : Restores setting before after t r)
    (hfits : Fits setting.limits (.tensor r)) (rest : List Value) (context : List Saved) :
    Leads setting (.under transform (.word (.unary .identity)) (.body name s false before)
      (.body name' s' false after)) ⟨.tensor t :: rest, context⟩ ⟨.tensor t :: rest, context⟩ := by
  obtain ⟨items, h⟩ := h
  obtain ⟨hbefore, hafter⟩ := h rest context
  have haction : Leads setting (.word (.unary .identity)) ⟨.tensor r :: rest, items ++ context⟩
      ⟨.tensor r :: rest, items ++ context⟩ :=
    leads_word (word_unary_run (by decide) rfl hfits rest _)
  refine leads_of_body fun room => ?_
  refine (hbefore.leads _ _ room).bind fun _ m hm => ?_
  rw [hm]
  refine (haction room).bind fun _ m hm => ?_
  rw [hm]
  exact hafter.leads _ _ room

end

end Exec

namespace Machine

theorem call_of_leads {m : Machine} {f : Fn} {memory : Memory}
    (h : Exec.Leads m.setting f m.memory memory) : m.call f = (.ok (), { m with memory := memory }) ∨
      ∃ limit name, (m.call f).1 = .error (.limit (.depth limit name)) := by
  have hends := h m.room
  unfold Exec.Ends at hends
  split at hends
  · rename_i memory' hcall
    subst hends
    exact .inl (exec_ok hcall)
  · rename_i fault memory' hcall
    obtain ⟨limit, name, rfl⟩ := hends
    exact .inr ⟨limit, name, congrArg Prod.fst (exec_error hcall)⟩

/-- Wherever the run of the code comes to a `take` or a `drop`, what it cuts has an axis. -/
def CutsRows (m : Machine) (code : List Instr) : Prop :=
  ∀ before name after, code = before ++ .word name :: after → name = "take" ∨ name = "drop" →
    ∀ v t rest, (m.run before).2.memory.stack = v :: .tensor t :: rest → t.shape ≠ []

/-- Under code made of words that lose nothing, rotations and words that set aside what they lose, an
action that does nothing leaves the machine as it was, with the same array on top and the same context
stack, wherever the code itself would succeed; only a call too deep can prevent it. -/
theorem under_identity (m : Machine) (ht : m.setting.table = .standard) {code : List Instr}
    (hcode : Recoverable code) {a : Tensor} {rest : List Value}
    (hstack : m.memory.stack = .tensor a :: rest) (ha : a.Full)
    (hfits : a.size ≤ m.setting.limits.maxElements) (hrun : (m.run code).1 = .ok ())
    (hcut : m.CutsRows code) :
    m.step (.modify "under" [.code code, .name "identity"]) = (.ok (), m) ∨
    ∃ limit name, (m.step (.modify "under" [.code code, .name "identity"])).1 =
      .error (.limit (.depth limit name)) := by
  obtain ⟨rs, hrs, rfl⟩ := hcode.units
  obtain ⟨setting, depth, stack, context⟩ := m
  change stack = _ at hstack
  change setting.table = _ at ht
  subst hstack
  obtain ⟨memory, hforM⟩ := forM_of_run hrun
  obtain ⟨r, hr, hrestores⟩ := Exec.restores_code ht hrs ha hfits hforM
    fun before name after hcode hname v u stack context' hbefore =>
      hcut before name after hcode hname v u stack (by rw [run_of_forM hbefore])
  have haction : Table.standard.get "identity" = .ok (.word (.unary .identity)) := rfl
  obtain ⟨transform, s, s', hderive⟩ := Recovery.derive_under hrs haction
  rw [step_modify _ (by rw [ht]; exact hderive)]
  exact call_of_leads (Exec.leads_under hrestores hr rest context)

/-- The first two rows, the last of them first. -/
def frontReversed : List Instr := [.push (.tensor (.int 2)), .word "take", .word "reverse"]

theorem under_identity_frontReversed :
    let m : Machine := { memory := ⟨[.tensor (.ofInts [3] [7, 8, 9])], [.shape [2]]⟩ }
    m.step (.modify "under" [.code frontReversed, .name "identity"]) = (.ok (), m) := by
  intro m
  have hcode : Recoverable frontReversed := .cut _ (by simp) (.word (by simp) .nil)
  have hrun : (m.run frontReversed).1 = .ok () := by decide +kernel
  have hcut : m.CutsRows frontReversed := by
    intro before name after hcode hname v t rest hstack
    match before, hcode with
    | [_], hcode =>
      cases hcode
      cases hstack
      exact List.cons_ne_nil _ _
    | [_, _], hcode =>
      cases hcode
      exact absurd hname (by decide)
    | _ :: _ :: _ :: _, hcode => simp [frontReversed] at hcode
  rcases under_identity m rfl hcode rfl rfl (by decide) hrun hcut with h | ⟨limit, name, h⟩
  · exact h
  · have hok : (m.step (.modify "under" [.code frontReversed, .name "identity"])).1 = .ok () := by
      decide +kernel
    rw [h] at hok
    cases hok

end Machine

end Tacit
