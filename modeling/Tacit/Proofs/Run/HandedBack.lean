/-
Structural words around an action that does nothing. Each gives its array back as it was, but for what a word
makes of its array before it starts: a cut makes a list of a scalar, and an unbox leaves what is in no box, which
its other half then puts in one.
-/
import Tacit.Proofs.Run.Written

namespace Tacit

/-! ## What is handed back -/

/-- The words that pick, cut, reshape, wrap or rearrange an array. -/
def structuralWords : List Word :=
  [.unary .first, .binary .indexAt, .binary .take, .binary .drop, .unary .deshape, .binary .reshape, .unary .fix,
    .unary .unfix, .unary .box, .unary .unbox, .unary .reverse, .unary .transpose, .unary .untranspose]

/-- What an under of the word leaves of the word's array, if the action does nothing. -/
def Word.handedBack (w : Word) (a : Tensor) : Tensor :=
  match w with
  | .binary .take | .binary .drop => a.asList
  | .unary .unbox => if a.isBoxScalar then a else a.box
  | _ => a

/-- A structural word with the halves that it is given under an action: an inverse, or what it sets aside. -/
inductive Word.Halves : Word → Fn → Fn → Prop
  | undone {u v : Unary} : u.UndoneBy v → u ≠ .identity →
    Halves (.unary u) (.word (.unary u)) (.word (.unary v))
  | unbox : Halves (.unary .unbox) (.word (.unary .unbox)) (.word (.unary .box))
  | unaryKept (k : UnaryKeeper) : Halves (Keeper.unary k).word (.stash (.unary k)) (.restore (.unary k))
  | binaryKept (k : BinaryKeeper) : Halves (Keeper.binary k).word (.stash (.binary k)) (.restore (.binary k))

namespace Tensor

theorem asList_eq_iff {t : Tensor} : t.asList = t ↔ t.isScalar = false := by
  obtain ⟨s, e⟩ := t
  cases s with
  | nil => exact ⟨fun h => absurd (congrArg Tensor.shape h) (List.cons_ne_nil _ _), fun h => by cases h⟩
  | cons n s => exact ⟨fun _ => rfl, fun _ => rfl⟩

theorem box_ne (t : Tensor) : t.box ≠ t := by
  intro h
  have hsize := congrArg sizeOf h
  obtain ⟨s, e⟩ := t
  simp [box] at hsize
  omega

/-- Boxed again, what comes out of a box scalar is the box. -/
theorem box_unbox {t : Tensor} (h : t.Full) : t.unbox.box = if t.isBoxScalar then t else t.box := by
  obtain ⟨s, e⟩ := t
  cases e with
  | numbers xs | characters xs => cases s <;> rfl
  | boxes xs =>
    cases s with
    | cons n s => rfl
    | nil =>
      obtain ⟨x, rfl⟩ := List.length_eq_one_iff.1 h
      rfl

end Tensor

/-- The array is handed back as it was unless it is a scalar that is cut or no box that is unboxed. -/
theorem Word.handedBack_eq_iff (w : Word) (a : Tensor) : w.handedBack a = a ↔
    (w = .binary .take ∨ w = .binary .drop → a.isScalar = false) ∧ (w = .unary .unbox → a.isBoxScalar = true) := by
  by_cases hcut : w = .binary .take ∨ w = .binary .drop
  · have hback : w.handedBack a = a.asList := by rcases hcut with rfl | rfl <;> rfl
    have hunbox : w ≠ .unary .unbox := by rcases hcut with rfl | rfl <;> decide
    rw [hback, Tensor.asList_eq_iff]
    exact ⟨fun h => ⟨fun _ => h, fun hw => absurd hw hunbox⟩, fun h => h.1 hcut⟩
  · by_cases hunbox : w = .unary .unbox
    · subst hunbox
      change (if a.isBoxScalar then a else a.box) = a ↔ _
      cases hbox : a.isBoxScalar with
      | true => simp
      | false => simp [Tensor.box_ne]
    · have hback : w.handedBack a = a := by
        unfold handedBack
        split <;> simp_all
      exact ⟨fun _ => ⟨fun h => absurd h hcut, fun h => absurd h hunbox⟩, fun _ => hback⟩

/-- A cut sets aside of a scalar what it sets aside of the list of it. -/
theorem BinaryKeeper.stash_asList {k : BinaryKeeper} (hk : k = .take ∨ k = .drop) (top : Value) (t : Tensor) :
    k.stash top (.tensor t.asList) = k.stash top (.tensor t) := by
  obtain ⟨s, e⟩ := t
  rcases hk with rfl | rfl <;> cases s <;> rfl

theorem BinaryKeeper.restore_handedBack {k : BinaryKeeper} {top t r : Tensor} {saved : Saved} (ht : t.Full)
    (hs : k.stash (.tensor top) (.tensor t) = .ok (saved, r)) :
    Keeper.restore (.binary k) saved (.tensor r) = .ok (.tensor ((Keeper.binary k).word.handedBack t)) := by
  by_cases hk : k = .take ∨ k = .drop
  · have hback : (Keeper.binary k).word.handedBack t = t.asList := by rcases hk with rfl | rfl <;> rfl
    rw [hback]
    rw [← k.stash_asList hk] at hs
    exact (BinaryKeeper.restore_stash ht.asList (fun _ => t.asList_shape_ne) hs).1
  · have hback : (Keeper.binary k).word.handedBack t = t := by
      cases k with
      | take | drop => simp at hk
      | reshape | indexAt => rfl
    rw [hback]
    exact (BinaryKeeper.restore_stash ht (fun h => absurd h hk) hs).1

/-! ## Arguments of words that succeed -/

namespace Exec

variable {setting : Setting} {m : Memory} {rest : List Value} {context : List Saved} {a : Unit}

theorem exists_of_word_unary {u : Unary} (hu : u ≠ .identity) {args : List Value} (hargs : args.length = 1)
    (h : word setting (.unary u) ⟨args ++ rest, context⟩ = .ok a m) :
    ∃ t r, args = [.tensor t] ∧ u.onTensor t = .ok r ∧ Fits setting.limits (.tensor r) := by
  obtain ⟨v, rfl⟩ := List.length_eq_one_iff.1 hargs
  cases v with
  | tensor t =>
    obtain ⟨r, hr, hfits, -⟩ := word_unary_eq_ok h
    exact ⟨t, r, rfl, hr, hfits⟩
  | fn f =>
    change word setting (.unary u) ⟨.fn f :: rest, context⟩ = _ at h
    rw [word_unary] at h
    obtain ⟨w, heval, -⟩ := finish_eq_ok h
    cases u with
    | identity => exact absurd rfl hu
    | _ => cases heval

theorem exists_of_word_kept {k : BinaryKeeper} {b : Binary} (hb : (Keeper.binary k).word = .binary b)
    {args : List Value} (hargs : args.length = 2)
    (h : word setting (.binary b) ⟨args ++ rest, context⟩ = .ok a m) :
    ∃ top t r, args = [.tensor top, .tensor t] ∧ b.onTensors top t = .ok r ∧ Fits setting.limits (.tensor r) := by
  obtain ⟨v, w, rfl⟩ := List.length_eq_two.1 hargs
  change word setting (.binary b) ⟨v :: w :: rest, context⟩ = _ at h
  rw [word_binary] at h
  obtain ⟨x, heval, hfits, -⟩ := finish_eq_ok h
  rcases Binary.eval_eq_ok heval with ⟨top, t, r, rfl, rfl, hr, rfl⟩ | ⟨rfl, -⟩ | ⟨rfl, -⟩
  · exact ⟨top, t, r, rfl, hr, hfits⟩
  · cases k <;> cases hb
  · cases k <;> cases hb

/-! ## Halves around nothing -/

theorem call_word {w : Word} {m m' : Memory} (h : word setting w m = .ok () m') (room : Nat) :
    call setting (room + 1) (.word w) m = .ok () m' := by
  rw [call_succ]
  exact h

/-- Where the word succeeds its first half gives its result, and the second half takes that result back. -/
theorem call_halves {w : Word} {before after : Fn} (h : w.Halves before after) {args : List Value}
    (hargs : args.length = w.signature.args) (hfull : ∀ t, Value.tensor t ∈ args → t.Full)
    (hword : word setting w ⟨args ++ rest, context⟩ = .ok a m) : ∃ t r saved,
      args.getLast? = some (.tensor t) ∧ Fits setting.limits (.tensor r) ∧
      (∀ room, call setting (room + 1) before ⟨args ++ rest, context⟩ =
        .ok () ⟨.tensor r :: rest, saved ++ context⟩) ∧
      (Fits setting.limits (.tensor (w.handedBack t)) → ∀ room,
        call setting (room + 1) after ⟨.tensor r :: rest, saved ++ context⟩ =
          .ok () ⟨.tensor (w.handedBack t) :: rest, context⟩) := by
  cases h with
  | @undone u v huv hu =>
    obtain ⟨t, r, rfl, hr, hfits⟩ := exists_of_word_unary hu hargs hword
    have hback : Word.handedBack (.unary u) t = t := by cases huv <;> rfl
    have hrange : u ≠ .range ∧ v ≠ .range := by cases huv <;> decide
    refine ⟨t, r, [], rfl, hfits, call_word (word_unary_run hrange.1 hr hfits rest context), ?_⟩
    rw [hback]
    exact fun hfits => call_word (word_unary_run hrange.2 (huv.onTensor (hfull t (by simp)) hr).1 hfits rest context)
  | unbox =>
    obtain ⟨t, r, rfl, hr, hfits⟩ := exists_of_word_unary (by decide) hargs hword
    cases hr
    refine ⟨t, t.unbox, [], rfl, hfits, call_word (word_unary_run (by decide) rfl hfits rest context), ?_⟩
    have hback : Word.handedBack (.unary .unbox) t = t.unbox.box := (Tensor.box_unbox (hfull t (by simp))).symm
    rw [hback]
    exact fun hfits => call_word (word_unary_run (by decide) rfl hfits rest context)
  | unaryKept k =>
    obtain ⟨u, hu⟩ : ∃ u, (Keeper.unary k).word = .unary u := by cases k <;> exact ⟨_, rfl⟩
    rw [hu] at hword hargs
    have hidentity : u ≠ .identity := by cases k <;> cases hu <;> decide
    obtain ⟨t, r, rfl, hr, hfits⟩ := exists_of_word_unary hidentity hargs hword
    obtain ⟨saved, hs⟩ := UnaryKeeper.stash_ok hu hr
    have hback : (Keeper.unary k).word.handedBack t = t := by cases k <;> rfl
    refine ⟨t, r, [saved], rfl, hfits, fun room => call_stash (stash_unary_run hs hfits rest context), ?_⟩
    rw [hback]
    exact fun hfits room => call_restore
      (putBack_run (UnaryKeeper.restore_stash (hfull t (by simp)) hs).1 hfits rest context)
  | binaryKept k =>
    obtain ⟨b, hb⟩ : ∃ b, (Keeper.binary k).word = .binary b := by cases k <;> exact ⟨_, rfl⟩
    rw [hb] at hword hargs
    obtain ⟨top, t, r, rfl, hr, hfits⟩ := exists_of_word_kept hb hargs hword
    obtain ⟨saved, hs⟩ := BinaryKeeper.stash_ok hb hr
    refine ⟨t, r, [saved], rfl, hfits, fun room => call_stash (stash_binary_run hs hfits rest context), ?_⟩
    exact fun hfits room => call_restore
      (putBack_run (BinaryKeeper.restore_handedBack (hfull t (by simp)) hs) hfits rest context)

end Exec

/-- A structural word is in the table, and an under of it has its halves. -/
theorem exists_halves {w : Word} (hw : w ∈ structuralWords) : ∃ before after, w.Halves before after ∧
    Table.standard.get w.name = .ok (.word w) ∧
    Table.standard.derive "under" [.name w.name, .name "identity"] =
      .ok (.under (.word w) (.word (.unary .identity)) before after) := by
  simp only [structuralWords, List.mem_cons, List.not_mem_nil, or_false] at hw
  rcases hw with rfl | rfl | rfl | rfl | rfl | rfl | rfl | rfl | rfl | rfl | rfl | rfl | rfl
  · exact ⟨_, _, .unaryKept .first, rfl, rfl⟩
  · exact ⟨_, _, .binaryKept .indexAt, rfl, rfl⟩
  · exact ⟨_, _, .binaryKept .take, rfl, rfl⟩
  · exact ⟨_, _, .binaryKept .drop, rfl, rfl⟩
  · exact ⟨_, _, .unaryKept .deshape, rfl, rfl⟩
  · exact ⟨_, _, .binaryKept .reshape, rfl, rfl⟩
  · exact ⟨_, _, .undone .fix (by decide), rfl, rfl⟩
  · exact ⟨_, _, .undone .unfix (by decide), rfl, rfl⟩
  · exact ⟨_, _, .undone .box (by decide), rfl, rfl⟩
  · exact ⟨_, _, .unbox, rfl, rfl⟩
  · exact ⟨_, _, .undone .reverse (by decide), rfl, rfl⟩
  · exact ⟨_, _, .undone .transpose (by decide), rfl, rfl⟩
  · exact ⟨_, _, .undone .untranspose (by decide), rfl, rfl⟩

namespace Machine

theorem word_of_step {m : Machine} {w : Word} (hget : m.setting.table.get w.name = .ok (.word w))
    (h : (m.step (.word w.name)).1 = .ok ()) : ∃ memory, Exec.word m.setting w m.memory = .ok () memory := by
  have hrun : (m.run [.word w.name]).1 = .ok () := by
    rw [run]
    generalize m.step (.word w.name) = outcome at h
    obtain ⟨x, m'⟩ := outcome
    cases h
    rfl
  obtain ⟨memory, hcode⟩ := forM_of_run hrun
  exact ⟨memory, Exec.word_of_code hget hcode⟩

/-- Wherever a structural word succeeds, an under of it around nothing takes the word's arguments and leaves
what the word hands back of its array, with the rest of the stack and the context as they were. This is the array
unless the word cuts a scalar or unboxes what is no box. -/
theorem under_handedBack (m : Machine) (ht : m.setting.table = .standard) (hroom : 2 ≤ m.room) {w : Word}
    (hw : w ∈ structuralWords) {args rest : List Value} (hstack : m.memory.stack = args ++ rest)
    (hargs : args.length = w.signature.args) (hfull : ∀ t, Value.tensor t ∈ args → t.Full)
    (hfits : ∀ t, Value.tensor t ∈ args → (w.handedBack t).size ≤ m.setting.limits.maxElements)
    (hok : (m.step (.word w.name)).1 = .ok ()) : ∃ a, args.getLast? = some (.tensor a) ∧
      m.step (.modify "under" [.name w.name, .name "identity"]) =
        (.ok (), { m with memory := ⟨.tensor (w.handedBack a) :: rest, m.memory.context⟩ }) ∧
      (w.handedBack a = a ↔ (w = .binary .take ∨ w = .binary .drop → a.isScalar = false) ∧
        (w = .unary .unbox → a.isBoxScalar = true)) := by
  obtain ⟨before, after, hhalves, hget, hderive⟩ := exists_halves hw
  obtain ⟨room, hroom⟩ : ∃ room, m.room = room + 2 := ⟨m.room - 2, by omega⟩
  obtain ⟨setting, depth, stack, context⟩ := m
  change setting.table = _ at ht
  change stack = _ at hstack
  subst hstack
  obtain ⟨memory, hword⟩ := word_of_step (by rw [ht]; exact hget) hok
  obtain ⟨a, r, saved, hlast, hr, hbefore, hafter⟩ := Exec.call_halves hhalves hargs hfull hword
  have hback := hafter (hfits a (List.mem_of_getLast? hlast)) room
  have haction : Exec.call setting (room + 1) (.word (.unary .identity)) ⟨.tensor r :: rest, saved ++ context⟩ =
      .ok () ⟨.tensor r :: rest, saved ++ context⟩ :=
    Exec.call_word (Exec.word_unary_run (by decide) rfl hr rest _) room
  have hrun : Exec.call setting (room + 2) (.under (.word w) (.word (.unary .identity)) before after)
      ⟨args ++ rest, context⟩ = .ok () ⟨.tensor (w.handedBack a) :: rest, context⟩ :=
    Exec.call_under (hbefore room) haction hback
  rw [← hroom] at hrun
  exact ⟨a, hlast, step_modify_ok (by rw [ht]; exact hderive) hrun, w.handedBack_eq_iff a⟩

/-- Of a matrix, by the number of a row from the end. -/
theorem under_handedBack_lastRow :
    let a : Tensor := .ofInts [2, 2] [5, 6, 7, 8]
    let m : Machine := { memory := ⟨[.tensor (.int (-1)), .tensor a], [.shape [2]]⟩ }
    (m.step (.word "index_at")).1 = .ok () ∧
      m.step (.modify "under" [.name "index_at", .name "identity"]) =
        (.ok (), { m with memory := ⟨[.tensor a], [.shape [2]]⟩ }) := by
  intro a m
  have hok : (m.step (.word "index_at")).1 = .ok () := rfl
  have hfull : ∀ t, Value.tensor t ∈ [.tensor (.int (-1)), .tensor a] → t.Full := by
    simp only [List.mem_cons, List.not_mem_nil, or_false, Value.tensor.injEq]
    rintro t (rfl | rfl) <;> rfl
  have hfits : ∀ t, Value.tensor t ∈ [.tensor (.int (-1)), .tensor a] → t.size ≤ 10000000 := by
    simp only [List.mem_cons, List.not_mem_nil, or_false, Value.tensor.injEq]
    rintro t (rfl | rfl) <;> decide
  have hstack : m.memory.stack = [.tensor (.int (-1)), .tensor a] ++ [] := rfl
  have hword : Word.binary .indexAt ∈ structuralWords := by decide
  obtain ⟨t, hlast, hstep, -⟩ := under_handedBack m rfl (by decide) hword hstack rfl hfull hfits hok
  cases hlast
  exact ⟨hok, hstep⟩

/-- A scalar that is cut comes back as a list, and a list that is unboxed comes back in a box. -/
theorem under_handedBack_coerced :
    let m : Machine := { memory := ⟨[.tensor (.int 1), .tensor (.int 5)], []⟩ }
    let m' : Machine := { memory := ⟨[.tensor (.ofInts [2] [1, 2])], []⟩ }
    (m.step (.word "take")).1 = .ok () ∧ (m'.step (.word "unbox")).1 = .ok () ∧
    m.step (.modify "under" [.name "take", .name "identity"]) =
      (.ok (), { m with memory := ⟨[.tensor (.ofInts [1] [5])], []⟩ }) ∧
    m'.step (.modify "under" [.name "unbox", .name "identity"]) =
      (.ok (), { m' with memory := ⟨[.tensor (.box (.ofInts [2] [1, 2]))], []⟩ }) := ⟨rfl, rfl, rfl, rfl⟩

end Machine

end Tacit
