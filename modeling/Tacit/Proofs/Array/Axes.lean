/-
Selecting along several axes. A selection along one axis keeps the places along every other, so selections along
different axes commute: in either order they pick, for each chosen row of the one, the chosen entries of the
other. Scaling is such a selection along each axis in turn, and no order of the axes is better than another.
-/
import Tacit.Proofs.Array.Results

namespace Tacit

open Tensor

/-! ## Positions -/

/-- The positions of the entries `is` of an axis of length `n` at the leading place `o`. -/
def entryPositions (n inner : Nat) (is : List Nat) (o : Nat) : List Nat :=
  (blockPositions inner is).map (o * (n * inner) + ·)

theorem axisPositions_eq (outer n inner : Nat) (is : List Nat) :
    axisPositions outer n inner is = (List.range outer).flatMap (entryPositions n inner is) := by
  refine List.flatMap_congr fun o _ => ?_
  rw [entryPositions, blockPositions, List.map_flatMap]
  refine List.flatMap_congr fun i _ => ?_
  rw [List.map_map]
  refine List.map_congr_left fun k _ => ?_
  show (o * n + i) * inner + k = o * (n * inner) + (i * inner + k)
  ring

theorem length_entryPositions (n inner : Nat) (is : List Nat) (o : Nat) :
    (entryPositions n inner is o).length = is.length * inner := by
  rw [entryPositions, List.length_map, length_blockPositions]

/-- Below an axis whole blocks are selected. -/
theorem axisPositions_mul (outer n inner k : Nat) (is : List Nat) :
    axisPositions outer n (inner * k) is = blockPositions k (axisPositions outer n inner is) := by
  unfold axisPositions blockPositions
  rw [List.flatMap_assoc]
  refine List.flatMap_congr fun o _ => ?_
  rw [List.flatMap_assoc]
  refine List.flatMap_congr fun i _ => ?_
  rw [List.flatMap_map, ← blockPositions_range, blockPositions, List.map_flatMap]
  refine List.flatMap_congr fun x _ => ?_
  rw [List.map_map]
  refine List.map_congr_left fun j _ => ?_
  show (o * n + i) * (inner * k) + (x * k + j) = ((o * n + i) * inner + x) * k + j
  ring

/-- Entries along an axis picked from chosen rows. -/
theorem pick_axisPositions_blocks {m : Nat} (k : Nat) {js : List Nat} (hjs : ∀ j ∈ js, j < m) (rows : List Nat) :
    pick (axisPositions rows.length m k js) (blockPositions (m * k) rows) =
      rows.flatMap (entryPositions m k js) := by
  have hpick : ∀ bs : List Nat, pick (bs.flatMap (entryPositions m k js)) (blockPositions (m * k) rows) =
      (pick bs rows).flatMap (entryPositions m k js) := by
    intro bs
    induction bs with
    | nil => rfl
    | cons b bs ih =>
      have hentries := pick_within_block (fun p hp => lt_of_mem_blockPositions (k := k) hjs hp) rows b
      rw [List.flatMap_cons, pick_append, ih, pick_cons, List.flatMap_append]
      exact congrArg (· ++ _) hentries
  rw [axisPositions_eq, hpick, pick_range]

/-- Rows chosen from the entries along an axis. -/
theorem pick_blocks_axisPositions {n : Nat} (m k : Nat) (js : List Nat) {rows : List Nat} (hrows : ∀ r ∈ rows, r < n) :
    pick (blockPositions (js.length * k) rows) (axisPositions n m k js) =
      rows.flatMap (entryPositions m k js) := by
  have hblocks : blocks n (js.length * k) (axisPositions n m k js) =
      (List.range n).map (entryPositions m k js) := by
    have h : blocks ((List.range n).map (entryPositions m k js)).length (js.length * k)
        ((List.range n).map (entryPositions m k js)).flatten = (List.range n).map (entryPositions m k js) :=
      blocks_flatten (by simp [length_entryPositions])
    rwa [List.length_map, List.length_range, ← List.flatMap_def, ← axisPositions_eq] at h
  rw [pick_blockPositions hrows, hblocks, pick_map, ← List.flatMap_def, pick_numbers hrows]

/-- Selecting along an axis and along one below it, in either order. -/
theorem pick_axisPositions_comm (outer n between m inner : Nat) {is js : List Nat} (his : ∀ i ∈ is, i < n)
    (hjs : ∀ j ∈ js, j < m) :
    pick (axisPositions (outer * (is.length * between)) m inner js) (axisPositions outer n (between * (m * inner)) is) =
      pick (axisPositions outer n (between * (js.length * inner)) is)
        (axisPositions (outer * (n * between)) m inner js) := by
  -- seen from the lower axis both orders choose rows, and from each row the entries `js`
  rw [axisPositions_mul, axisPositions_mul, ← length_axisPositions outer n between is,
    pick_axisPositions_blocks inner hjs,
    pick_blocks_axisPositions m inner js fun r hr => lt_of_mem_axisPositions his hr]

namespace Tensor

variable {t u : Tensor} {is js : List Nat}

/-! ## Selecting along an axis -/

/-- A selection from elements already selected. -/
theorem gather_select (front back : Shape) (n : Nat) {ps : List Nat} (hps : ∀ p ∈ ps, p < t.elements.length)
    (his : ∀ i ∈ is, i < n) : (t.select (front ++ n :: back) ps).gather is front.length =
      .ok (t.select (front ++ is.length :: back)
        (pick (axisPositions (Shape.size front) n (Shape.size back) is) ps)) := by
  have hselected : (t.select (front ++ n :: back) ps).gather is front.length = _ := gather_at rfl his
  rw [hselected]
  exact congrArg (fun e => Except.ok (Tensor.mk (front ++ is.length :: back) e)) (Elements.pick_pick _ hps)

/-- Selections along an axis and along one below it commute. -/
theorem gather_comm_below {a b c : Shape} {n m : Nat} (ht : t.Full) (hs : t.shape = a ++ n :: (b ++ m :: c))
    (his : ∀ i ∈ is, i < n) (hjs : ∀ j ∈ js, j < m) :
    ∃ u v r, t.gather is a.length = .ok u ∧ u.gather js (a ++ n :: b).length = .ok r ∧
      t.gather js (a ++ n :: b).length = .ok v ∧ v.gather is a.length = .ok r := by
  have hs' : t.shape = (a ++ n :: b) ++ m :: c := by rw [hs, List.append_assoc, List.cons_append]
  have hcomm := pick_axisPositions_comm (Shape.size a) n (Shape.size b) m (Shape.size c) his hjs
  have hsize (front back : Shape) (n : Nat) :
      Shape.size (front ++ n :: back) = Shape.size front * (n * Shape.size back) := Shape.size_append front (n :: back)
  simp only [← hsize] at hcomm
  have hlength : (a ++ n :: b).length = (a ++ is.length :: b).length := by simp
  have hupper := gather_select (a ++ is.length :: b) c m (ht.lt_of_picks (hs ▸ picks_axis a _ his)) hjs
  have hlower := gather_select a (b ++ js.length :: c) n (ht.lt_of_picks (hs' ▸ picks_axis _ c hjs)) his
  have hlast := gather_at hs' hjs
  rw [hcomm, ← hlength, List.append_assoc, List.append_assoc, List.cons_append, List.cons_append] at hupper
  rw [List.append_assoc, List.cons_append] at hlast
  exact ⟨_, _, _, gather_at hs his, hupper, hlast, hlower⟩

theorem getD_set_ne {s : Shape} {p q : Nat} (hpq : p ≠ q) (n : Nat) : (s.set p n).getD q 1 = s.getD q 1 := by
  simp [List.getElem?_set_ne hpq]

theorem gather_comm_of_lt (ht : t.Full) {p q : Nat} (hpq : p < q) (hq : q < t.rank)
    (his : ∀ i ∈ is, i < t.shape.getD p 1) (hjs : ∀ j ∈ js, j < t.shape.getD q 1) :
    ∃ u v r, t.gather is p = .ok u ∧ u.gather js q = .ok r ∧ t.gather js q = .ok v ∧ v.gather is p = .ok r := by
  obtain ⟨front, c, hs, rfl⟩ := exists_at hq
  obtain ⟨a, b, hfront, rfl⟩ := exists_at hpq
  have hn : List.getD front a.length 1 = t.shape.getD a.length 1 := by
    rw [hs]
    simp [List.getElem?_append_left hpq]
  rw [hn] at hfront
  subst hfront
  rw [List.append_assoc, List.cons_append] at hs
  exact gather_comm_below ht hs his hjs

/-- Selections along different axes commute. -/
theorem gather_comm (ht : t.Full) {p q : Nat} (hpq : p ≠ q) (hp : p < t.rank) (hq : q < t.rank)
    (his : ∀ i ∈ is, i < t.shape.getD p 1) (hjs : ∀ j ∈ js, j < t.shape.getD q 1) :
    ∃ u v r, t.gather is p = .ok u ∧ u.gather js q = .ok r ∧ t.gather js q = .ok v ∧ v.gather is p = .ok r := by
  rcases Nat.lt_or_gt_of_ne hpq with hlt | hgt
  · exact gather_comm_of_lt ht hlt hq his hjs
  · obtain ⟨v, u, r, hv, hv', hu, hu'⟩ := gather_comm_of_lt ht hgt hp hjs his
    exact ⟨u, v, r, hu, hu', hv, hv'⟩

/-! ## Scaling axis by axis -/

/-- One axis resampled: a count with the number of the axis that it is for. -/
def resample (t : Tensor) (step : Tensor × Nat) : Except Fault Tensor := do
  t.gather (← keepIndices (t.shape.getD step.2 1) step.1) step.2

theorem scaleFrom_eq : ∀ (fs : List Tensor) (axis : Nat) (t : Tensor),
    scaleFrom axis t fs = (fs.zipIdx axis).foldlM resample t
  | [], _, _ => rfl
  | f :: fs, axis, t => by
    rw [List.zipIdx_cons, List.foldlM_cons, resample, bind_assoc]
    simp only [← scaleFrom_eq fs (axis + 1)]
    rfl

/-- A step on an axis of the array whose counts are all there. -/
structure Applies (t : Tensor) (step : Tensor × Nat) : Prop where
  full : step.1.Full
  axis : step.2 < t.rank

theorem resample_spec {step : Tensor × Nat} (ht : t.Full) (hstep : Applies t step) (hu : resample t step = .ok u) :
    ∃ is, keepIndices (t.shape.getD step.2 1) step.1 = .ok is ∧ (∀ i ∈ is, i < t.shape.getD step.2 1) ∧
      t.gather is step.2 = .ok u ∧ u.Full ∧ u.shape = t.shape.set step.2 is.length := by
  obtain ⟨is, his, hu⟩ := Except.bind_ok hu
  have hrows := lt_of_mem_keepIndices hstep.full his
  obtain ⟨u', hu', hfull, hshape, -⟩ := gather_spec ht hstep.axis hrows
  cases hu'.symm.trans hu
  exact ⟨is, his, hrows, hu, hfull, hshape⟩

theorem Applies.resample {step step' : Tensor × Nat} (ht : t.Full) (hstep : Applies t step)
    (hstep' : Applies t step') (hu : Tensor.resample t step = .ok u) : Applies u step' := by
  obtain ⟨is, -, -, -, -, hshape⟩ := resample_spec ht hstep hu
  refine ⟨hstep'.full, ?_⟩
  rw [rank, hshape, List.length_set]
  exact hstep'.axis

/-- Steps on different axes commute. -/
theorem resample_comm {step step' : Tensor × Nat} {r : Tensor} (ht : t.Full) (hstep : Applies t step)
    (hstep' : Applies t step') (hne : step.2 ≠ step'.2) (hu : resample t step = .ok u)
    (hr : resample u step' = .ok r) : ∃ v, resample t step' = .ok v ∧ resample v step = .ok r := by
  obtain ⟨is, his, hrows, hu, hfull, hshape⟩ := resample_spec ht hstep hu
  obtain ⟨js, hjs, hr⟩ := Except.bind_ok hr
  rw [hshape, getD_set_ne hne] at hjs
  have hrows' := lt_of_mem_keepIndices hstep'.full hjs
  obtain ⟨u', v, r', hu', hr', hv, hvr⟩ := gather_comm ht hne hstep.axis hstep'.axis hrows hrows'
  cases hu'.symm.trans hu
  cases hr'.symm.trans hr
  -- the other axis is as long as it was, so its count chooses the same entries
  obtain ⟨v', hv', -, hvshape, -⟩ := gather_spec ht hstep'.axis hrows'
  cases hv'.symm.trans hv
  refine ⟨v, Except.bind_of_ok hjs hv, Except.bind_of_ok ?_ hvr⟩
  rw [hvshape, getD_set_ne hne.symm]
  exact his

/-- Steps on axes that are all different give the same array in any order. -/
theorem foldlM_resample_perm {steps steps' : List (Tensor × Nat)} (hperm : steps.Perm steps') :
    ∀ {t r : Tensor}, t.Full → (∀ step ∈ steps, Applies t step) → (steps.map (·.2)).Nodup →
    steps.foldlM resample t = .ok r → steps'.foldlM resample t = .ok r := by
  induction hperm with
  | nil => exact fun _ _ _ h => h
  | @cons step steps steps' _ ih =>
    intro t r ht happlies hnodup h
    rw [List.foldlM_cons] at h ⊢
    obtain ⟨u, hu, h⟩ := Except.bind_ok h
    obtain ⟨hstep, happlies⟩ := List.forall_mem_cons.1 happlies
    obtain ⟨-, -, -, -, hfull, -⟩ := resample_spec ht hstep hu
    exact Except.bind_of_ok hu
      (ih hfull (fun s hs => hstep.resample ht (happlies s hs) hu) (List.nodup_cons.1 hnodup).2 h)
  | swap step step' steps =>
    intro t r ht happlies hnodup h
    rw [List.foldlM_cons] at h
    obtain ⟨u, hu, h⟩ := Except.bind_ok h
    rw [List.foldlM_cons] at h
    obtain ⟨w, hw, h⟩ := Except.bind_ok h
    obtain ⟨hstep', happlies⟩ := List.forall_mem_cons.1 happlies
    have hne : step'.2 ≠ step.2 := fun heq => (List.nodup_cons.1 hnodup).1 (by simp [heq])
    obtain ⟨v, hv, hvw⟩ := resample_comm ht hstep' (happlies step (by simp)) hne hu hw
    rw [List.foldlM_cons]
    refine Except.bind_of_ok hv ?_
    rw [List.foldlM_cons]
    exact Except.bind_of_ok hvw h
  | @trans _ _ _ hfirst _ ih ih' =>
    intro t r ht happlies hnodup h
    exact ih' ht (fun s hs => happlies s (hfirst.mem_iff.2 hs)) ((hfirst.map _).nodup_iff.1 hnodup)
      (ih ht happlies hnodup h)

/-- Selections of entries along two axes give the same array in either order; so does scaling, axis by axis, in
any order of the axes. -/
theorem axes_commute {t : Tensor} (ht : t.Full) :
    (∀ (p q : Nat) (is js : List Nat), p ≠ q → p < t.rank → q < t.rank →
      (∀ i ∈ is, i < t.shape.getD p 1) → (∀ j ∈ js, j < t.shape.getD q 1) →
      ∃ r, (do (← t.gather is p).gather js q) = .ok r ∧ (do (← t.gather js q).gather is p) = .ok r) ∧
    ∀ (factors : Tensor) (fs : List Tensor) (steps : List (Tensor × Nat)), factors.Full →
      scaleFactors factors t = .ok fs → steps.Perm fs.zipIdx →
      ∀ r, steps.foldlM resample t = .ok r ↔ scale factors t = .ok r := by
  refine ⟨fun p q is js hpq hp hq his hjs => ?_, fun factors fs steps hfactors hfs hperm r => ?_⟩
  · obtain ⟨u, v, r, hu, hur, hv, hvr⟩ := gather_comm ht hpq hp hq his hjs
    exact ⟨r, Except.bind_of_ok hu hur, Except.bind_of_ok hv hvr⟩
  · have hscale : scale factors t = fs.zipIdx.foldlM resample t := by
      unfold scale
      rw [hfs, Except.ok_bind, scaleFrom_eq]
    have happlies : ∀ step ∈ fs.zipIdx, Applies t step := by
      rintro ⟨f, axis⟩ hmem
      obtain ⟨haxis, hf⟩ := List.mem_zipIdx' hmem
      exact ⟨hfactors.of_scaleFactors hfs (hf ▸ List.getElem_mem haxis),
        Nat.lt_of_lt_of_le haxis (scaleFactors_ok hfs).1⟩
    have hnodup : (fs.zipIdx.map (·.2)).Nodup := by
      rw [List.zipIdx_map_snd]
      exact List.nodup_range'
    rw [hscale]
    exact ⟨foldlM_resample_perm hperm ht (fun step hmem => happlies step (hperm.mem_iff.1 hmem))
      ((hperm.map _).nodup_iff.2 hnodup), foldlM_resample_perm hperm.symm ht happlies hnodup⟩

/-- A matrix selected from along both axes, and scaled along the second before the first. -/
theorem axes_commute_matrix :
    let t := ofInts [2, 3] [1, 2, 3, 4, 5, 6]
    (∃ r, (do (← t.gather [1, 0, 1] 0).gather [2, 2] 1) = .ok r ∧
      (do (← t.gather [2, 2] 1).gather [1, 0, 1] 0) = .ok r) ∧
    [(int 1, 1), (int 2, 0)].foldlM resample t = .ok (ofInts [4, 3] [1, 2, 3, 1, 2, 3, 4, 5, 6, 4, 5, 6]) := by
  intro t
  obtain ⟨hgather, hscale⟩ := axes_commute (t := t) rfl
  refine ⟨hgather 0 1 [1, 0, 1] [2, 2] (by decide) (by decide) (by decide) (by decide) (by decide),
    (hscale (ofInts [2] [2, 1]) [int 2, int 1] _ rfl rfl (.swap ..) _).2 ?_⟩
  have hrows : keepIndices 2 (int 2) = .ok [0, 0, 1, 1] := rfl
  have hcolumns : keepIndices 3 (int 1) = .ok [0, 1, 2] := rfl
  have htaller : t.gather [0, 0, 1, 1] 0 = .ok (ofInts [4, 3] [1, 2, 3, 1, 2, 3, 4, 5, 6, 4, 5, 6]) := rfl
  exact Except.bind_of_ok rfl
    (Except.bind_of_ok hrows (Except.bind_of_ok htaller (Except.bind_of_ok hcolumns rfl)))

end Tensor

end Tacit
