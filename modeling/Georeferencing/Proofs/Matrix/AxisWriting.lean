import Georeferencing.Proofs.Double
import Georeferencing.Proofs.Matrix.AxisMatching
import Georeferencing.Proofs.Matrix.Writing

/-! # Matching axes while the matrix is written

The construction does not know which source axis a target axis is made of before it writes: it looks
at all of them, writes the coefficients of a colinear one at once, and finds out later that there is
a second one, or at the end that there was none. What it does for a target axis is therefore a plan
of writes that may end in a failure. The plans of all target axes, one after the other, write the
matrix of the matched axes, or stop at the first target axis that is not matched.
-/

namespace Georeferencing

namespace StoredMatrix

variable {α : Type} [Scalar α] {envelopes : Option (Envelope α × Envelope α)} {n : ℕ}
  {source target : List AxisDirection} {axis : AxisDirection × ℕ}

/-! ## One target axis -/

section Search

/-- The writes for a source axis that is colinear with the target axis. -/
def planOrdinate (envelopes : Option (Envelope α × Envelope α)) (n : ℕ)
    (axis found : AxisDirection × ℕ) : List (Except StepFault (CellWrite α)) :=
  let ordinate := ordinateAlong envelopes (found.1 == axis.1) found.2 axis.2
  [ordinate.map fun o => ⟨axis.2, found.2, o.scale⟩, ordinate.map fun o => ⟨axis.2, n, o.offset⟩]

/-- What is done for a target axis. -/
def planAxis (envelopes : Option (Envelope α × Envelope α)) (source : List AxisDirection)
    (axis : AxisDirection × ℕ) : List (Except StepFault (CellWrite α)) :=
  match colinearAxes source axis.1 with
  | [] => [.error (.refused (.axisNotFound axis.1))]
  | [found] => planOrdinate envelopes source.length axis found
  | found :: second :: _ => planOrdinate envelopes source.length axis found ++
      [.error (.refused (.colinearAxes second.1 axis.1))]

/-- Axes that are not colinear are passed over. -/
theorem foldlM_visit (source : List AxisDirection) (search : AxisSearch α) :
    source.zipIdx.foldlM (AxisSearch.visit envelopes n axis) search =
      (colinearAxes source axis.1).foldlM (AxisSearch.enter envelopes n axis) search := by
  rw [colinearAxes, List.foldlM_filter]
  refine foldlM_congr (fun found _ search => ?_) search
  rw [AxisSearch.visit]
  by_cases h : axis.1.absolute = found.1.absolute
  · rw [if_neg (not_not_intro h), if_pos (AxisDirection.isColinear_iff.mpr h)]
  · rw [if_pos h, if_neg (fun hcolinear => h (AxisDirection.isColinear_iff.mp hcolinear))]
    rfl

/-- The first colinear axis is written. -/
theorem enter_first (m : StoredMatrix α) (found : AxisDirection × ℕ) :
    AxisSearch.enter envelopes n axis ⟨m, false⟩ found =
      m.carryOut (planOrdinate envelopes n axis found) >>= fun y => .ok ⟨y, true⟩ := by
  rw [AxisSearch.enter, if_neg Bool.false_ne_true, planOrdinate]
  cases ordinateAlong envelopes (found.1 == axis.1) found.2 axis.2 with
  | error fault => rfl
  | ok o =>
    simp only [Except.map, carryOut, List.foldlM_cons, List.foldlM_nil, bind_pure, bind_assoc]
    rfl

/-- The search for the axis that a target axis is made of carries out what is planned for it. -/
theorem writeAxis_eq (m : StoredMatrix α) :
    writeAxis envelopes source m axis = m.carryOut (planAxis envelopes source axis) := by
  rw [writeAxis, foldlM_visit, planAxis]
  split
  · next h =>
    rw [h]
    rfl
  · next found h =>
    rw [h, List.foldlM_cons, enter_first]
    cases m.carryOut (planOrdinate envelopes source.length axis found) with
    | error fault => rfl
    | ok y => rfl
  · next found second rest h =>
    rw [h, List.foldlM_cons, enter_first, carryOut_append]
    cases m.carryOut (planOrdinate envelopes source.length axis found) with
    | error fault => rfl
    | ok y => rfl -- the second axis is refused, whatever else is listed

/-- Target axes are worked off one after the other. -/
theorem foldlM_writeAxis (axes : List (AxisDirection × ℕ)) (m : StoredMatrix α) :
    axes.foldlM (writeAxis envelopes source) m =
      m.carryOut (axes.flatMap (planAxis envelopes source)) := by
  induction axes generalizing m with
  | nil => rfl
  | cons axis axes ih =>
    rw [List.foldlM_cons, writeAxis_eq, List.flatMap_cons, carryOut_append]
    exact congrArg _ (funext ih)

theorem writeAxes_eq_carryOut (source target : List AxisDirection) :
    writeAxes envelopes source target =
      (zero (target.length + 1) (source.length + 1)).carryOut
        (target.zipIdx.flatMap (planAxis envelopes source) ++
          [.ok ⟨target.length, source.length, 1⟩]) := by
  rw [writeAxes, foldlM_writeAxis, carryOut_append]
  refine congrArg _ (funext fun m => ?_)
  exact (bind_pure (Checked.ofMatrix (m.set target.length source.length 1))).symm

end Search

/-! ## All target axes -/

section Rows

/-- A plan for the rows of the listed ordinates, completed by the last row, makes the matrix of
these ordinates. -/
theorem carryOut_ordinates {ordinates : List (OrdinateMap α)}
    {plan : List (Except StepFault (CellWrite α))}
    (hplan : PlanWrites (ordinates.length + 1) (n + 1) (ordinateEntry n ordinates) plan)
    (hrest : ∀ i < ordinates.length, ∀ j < n + 1,
      ordinateEntry n ordinates i j = 0 ∨ PlanCovers plan i j) :
    (zero (ordinates.length + 1) (n + 1)).carryOut (plan ++ [.ok ⟨ordinates.length, n, 1⟩]) =
      .ok (ofOrdinates n ordinates) := by
  rw [ofOrdinates_eq_ofFn]
  apply carryOut_zero
  · apply hplan.append
    apply planWrites_singleton (Nat.lt_succ_self _) (Nat.lt_succ_self _)
    rw [ordinateEntry_last, if_pos rfl]
  · intro i hi j hj
    rcases Nat.lt_succ_iff_lt_or_eq.mp hi with hi | rfl
    · exact (hrest i hi j hj).imp_right PlanCovers.append_left
    · by_cases hlast : j = n
      · subst hlast
        exact .inr (planCovers_singleton _ _ _).append_right
      · left
        rw [ordinateEntry_last, if_neg hlast]

variable {ordinate : Bool → ℕ → ℕ → OrdinateMap α}

/-- The contribution of any source axis to any target axis is known, and made of that axis. -/
structure Contributes (envelopes : Option (Envelope α × Envelope α)) (n r : ℕ)
    (ordinate : Bool → ℕ → ℕ → OrdinateMap α) : Prop where
  read : ∀ same, ∀ i < n, ∀ j < r, ordinateAlong envelopes same i j = .ok (ordinate same i j)
  source : ∀ same i j, (ordinate same i j).source = i

/-- The ordinate along a target axis, which stands at some place. -/
def contribution (ordinate : Bool → ℕ → ℕ → OrdinateMap α) (source : List AxisDirection)
    (axis : AxisDirection × ℕ) : Except MatrixError (OrdinateMap α) := do
  let (found, index) ← matchAxis source axis.1
  return ordinate (found == axis.1) index axis.2

omit [Scalar α] in
theorem contribution_eq_ok {o : OrdinateMap α} : contribution ordinate source axis = .ok o ↔
    ∃ a i, matchAxis source axis.1 = .ok (a, i) ∧ ordinate (a == axis.1) i axis.2 = o := by
  rw [contribution, bind_eq_ok, Prod.exists]
  simp [pure, Except.pure]

omit [Scalar α] in
theorem contribution_eq_error {e : MatrixError} : contribution ordinate source axis = .error e ↔
    matchAxis source axis.1 = .error e := by
  rw [contribution, bind_eq_error]
  simp [pure, Except.pure]

theorem place_lt_of_mem_zipIdx (h : axis ∈ target.zipIdx) : axis.2 < target.length :=
  (List.getElem?_eq_some_iff.mp (List.mem_zipIdx_iff_getElem?.mp h)).1

variable (h : Contributes envelopes source.length target.length ordinate)

include h

section OneAxis

variable (haxis : axis.2 < target.length)

include haxis

theorem planOrdinate_eq {found : AxisDirection × ℕ} (hfound : found.2 < source.length) :
    planOrdinate envelopes source.length axis found =
      [.ok ⟨axis.2, found.2, (ordinate (found.1 == axis.1) found.2 axis.2).scale⟩,
        .ok ⟨axis.2, source.length, (ordinate (found.1 == axis.1) found.2 axis.2).offset⟩] := by
  rw [planOrdinate, h.read _ _ hfound _ haxis]
  rfl

theorem planInside_planOrdinate {found : AxisDirection × ℕ} (hfound : found.2 < source.length) :
    PlanInside (target.length + 1) (source.length + 1)
      (planOrdinate envelopes source.length axis found) := by
  rw [planOrdinate_eq h haxis hfound, planInside_cons, planInside_cons]
  exact ⟨⟨Nat.lt_succ_of_lt haxis, Nat.lt_succ_of_lt hfound⟩,
    ⟨Nat.lt_succ_of_lt haxis, Nat.lt_succ_self _⟩, List.forall_mem_nil _⟩

/-- A target axis that is matched gives both coefficients of its row. -/
theorem planAxis_of_contribution {o : OrdinateMap α}
    (hok : contribution ordinate source axis = .ok o) : o.source < source.length ∧
      planAxis envelopes source axis =
        [.ok ⟨axis.2, o.source, o.scale⟩, .ok ⟨axis.2, source.length, o.offset⟩] := by
  obtain ⟨a, i, hmatch, rfl⟩ := contribution_eq_ok.mp hok
  have hi : i < source.length := matchAxis_lt hmatch
  rw [planAxis, matchAxis_eq_ok_iff_colinearAxes.mp hmatch, h.source]
  exact ⟨hi, planOrdinate_eq h haxis hi⟩

/-- One that is not matched fails, behind writes that are possible. -/
theorem planAxis_of_error {e : MatrixError} (herror : matchAxis source axis.1 = .error e) :
    ∃ writes, PlanInside (target.length + 1) (source.length + 1) writes ∧
      planAxis envelopes source axis = writes ++ [.error (.refused e)] := by
  have hplaces : ∀ found ∈ colinearAxes source axis.1, found.2 < source.length :=
    fun _ hfound => place_lt_of_mem_zipIdx (List.mem_of_mem_filter hfound)
  rw [matchAxis] at herror
  rw [planAxis]
  split at herror
  · next hnone =>
    cases herror
    rw [hnone]
    exact ⟨[], List.forall_mem_nil _, rfl⟩
  · cases herror
  · next found second index rest hseveral =>
    cases herror
    rw [hseveral] at hplaces ⊢
    exact ⟨_, planInside_planOrdinate h haxis (hplaces found List.mem_cons_self), rfl⟩

end OneAxis

/-- Behind rows that are written, the first target axis that is not matched stops the rest. -/
theorem carryOut_planAxis_stopped {axes : List (AxisDirection × ℕ)} {e : MatrixError}
    (haxes : ∀ axis ∈ axes, axis.2 < target.length)
    (herror : axes.mapM (contribution ordinate source) = .error e)
    (rest : List (Except StepFault (CellWrite α))) :
    (zero (target.length + 1) (source.length + 1)).carryOut
      (axes.flatMap (planAxis envelopes source) ++ rest) = .error (.refused e) := by
  obtain ⟨before, axis, after, rfl, hbefore, haxis⟩ := mapM_eq_error.mp herror
  rw [List.forall_mem_append, List.forall_mem_cons] at haxes
  obtain ⟨writes, hwrites, hplan⟩ := planAxis_of_error h haxes.2.1 (contribution_eq_error.mp haxis)
  have hinside : PlanInside (target.length + 1) (source.length + 1)
      (before.flatMap (planAxis envelopes source)) := by
    refine planInside_flatMap fun b hb => ?_
    obtain ⟨o, ho⟩ := hbefore b hb
    obtain ⟨hsource, hrow⟩ := planAxis_of_contribution h (haxes.1 b hb) ho
    rw [hrow, planInside_cons, planInside_cons]
    exact ⟨⟨Nat.lt_succ_of_lt (haxes.1 b hb), Nat.lt_succ_of_lt hsource⟩,
      ⟨Nat.lt_succ_of_lt (haxes.1 b hb), Nat.lt_succ_self _⟩, List.forall_mem_nil _⟩
  have hsplit : (before ++ axis :: after).flatMap (planAxis envelopes source) ++ rest =
      (before.flatMap (planAxis envelopes source) ++ writes) ++ .error (.refused e) ::
        (after.flatMap (planAxis envelopes source) ++ rest) := by
    rw [List.flatMap_append, List.flatMap_cons, hplan]
    simp only [List.append_assoc, List.cons_append, List.nil_append]
  rw [hsplit]
  exact carryOut_stopped (canonical_ofBlock _) (represents_ofFn _ _ fun _ _ => 0)
    (hinside.append hwrites)

section Matched

variable {ordinates : List (OrdinateMap α)}
  (hordinates : target.zipIdx.mapM (contribution ordinate source) = .ok ordinates)

include hordinates

/-- If all target axes are matched, each of them gives both coefficients of its row. -/
theorem exists_planAxis (haxis : axis ∈ target.zipIdx) : ∃ o, ordinates[axis.2]? = some o ∧
    o.source < source.length ∧ planAxis envelopes source axis =
      [.ok ⟨axis.2, o.source, o.scale⟩, .ok ⟨axis.2, source.length, o.offset⟩] := by
  have hplace : target.zipIdx[axis.2]? = some axis := by
    rw [List.getElem?_zipIdx, List.mem_zipIdx_iff_getElem?.mp haxis, Option.map_some,
      Nat.zero_add]
  obtain ⟨o, ho, hcontribution⟩ := getElem?_of_mapM hordinates hplace
  exact ⟨o, ho, planAxis_of_contribution h (place_lt_of_mem_zipIdx haxis) hcontribution⟩

theorem planWrites_axes : PlanWrites (ordinates.length + 1) (source.length + 1)
    (ordinateEntry source.length ordinates)
    (target.zipIdx.flatMap (planAxis envelopes source)) := by
  refine planWrites_flatMap fun axis haxis step hstep => ?_
  obtain ⟨o, ho, hsource, hplan⟩ := exists_planAxis h hordinates haxis
  have hj : axis.2 < ordinates.length := (List.getElem?_eq_some_iff.mp ho).1
  rw [hplan, List.mem_cons, List.mem_singleton] at hstep
  rcases hstep with rfl | rfl
  · refine ⟨_, rfl, Nat.lt_succ_of_lt hj, Nat.lt_succ_of_lt hsource, ?_⟩
    rw [ordinateEntry_of_getElem? ho, if_neg hsource.ne, if_pos rfl]
  · refine ⟨_, rfl, Nat.lt_succ_of_lt hj, Nat.lt_succ_self _, ?_⟩
    rw [ordinateEntry_of_getElem? ho, if_pos rfl]

/-- What is not written in the row of a target axis is zero. -/
theorem planCovers_axes {j : ℕ} (hj : j < target.length) (k : ℕ) :
    ordinateEntry source.length ordinates j k = 0 ∨
      PlanCovers (target.zipIdx.flatMap (planAxis envelopes source)) j k := by
  have haxis : (target[j], j) ∈ target.zipIdx :=
    List.mem_zipIdx_iff_getElem?.mpr (List.getElem?_eq_getElem hj)
  obtain ⟨o, ho, -, hplan⟩ := exists_planAxis h hordinates haxis
  rw [ordinateEntry_of_getElem? ho]
  by_cases hlast : k = source.length
  · subst hlast
    refine .inr (planCovers_flatMap haxis ⟨o.offset, ?_⟩)
    rw [hplan]
    exact List.mem_cons_of_mem _ (List.mem_singleton_self _)
  · by_cases hk : k = o.source
    · subst hk
      refine .inr (planCovers_flatMap haxis ⟨o.scale, ?_⟩)
      rw [hplan]
      exact List.mem_cons_self
    · rw [if_neg hlast, if_neg hk]
      exact .inl rfl

end Matched

/-- The matrix of the ordinates along all target axes is what is written, and the first target axis
that is not matched is what fails. -/
theorem writeAxes_eq : writeAxes envelopes source target = Checked.ofMatrix
    (ofOrdinates source.length <$> target.zipIdx.mapM (contribution ordinate source)) := by
  rw [writeAxes_eq_carryOut]
  cases hordinates : target.zipIdx.mapM (contribution ordinate source) with
  | error e =>
    exact carryOut_planAxis_stopped h (fun _ => place_lt_of_mem_zipIdx) hordinates _
  | ok ordinates =>
    have hlength : ordinates.length = target.length := by
      rw [length_of_mapM hordinates, List.length_zipIdx]
    rw [← hlength]
    apply carryOut_ordinates (planWrites_axes h hordinates)
    rw [hlength]
    exact fun j hj k _ => planCovers_axes h hordinates hj k

end Rows

/-! ## With and without envelopes -/

section Envelopes

variable {e e' : Envelope α}

theorem contributes_sign (n r : ℕ) :
    Contributes (α := α) none n r fun same index _ => signed index same :=
  ⟨fun _ _ _ _ _ => rfl, fun _ _ _ => rfl⟩

theorem contributes_extents (h : e.dimension = n) {r : ℕ} (h' : e'.dimension = r) :
    Contributes (some (e, e')) n r fun same i j =>
      alongAxis i same (e.extents.getD i ⟨0, 0⟩) (e'.extents.getD j ⟨0, 0⟩) := by
  refine ⟨fun same i hi j hj => ?_, fun _ _ _ => rfl⟩
  have hsource : i < e.extents.length := hi.trans_eq h.symm
  have htarget : j < e'.extents.length := hj.trans_eq h'.symm
  rw [ordinateAlong, Checked.read_of_getElem? (List.getElem?_eq_getElem htarget),
    Checked.read_of_getElem? (List.getElem?_eq_getElem hsource), List.getD_eq_getElem _ _ hsource,
    List.getD_eq_getElem _ _ htarget]
  rfl

/-- Without envelopes what is written is the matrix of signs, and the same is refused. -/
theorem writeBetweenAxes_eq (source target : List AxisDirection) :
    (writeBetweenAxes source target : Except StepFault (StoredMatrix α)) =
      Checked.ofMatrix (betweenAxes source target) := by
  have hcontribution : contribution (fun same index _ => signed index same) source =
      axisOrdinate (α := α) source ∘ Prod.fst := by
    funext axis
    simp only [contribution, axisOrdinate, signed, beq_iff_eq, Function.comp_apply]
  have hplaces : target.zipIdx.map Prod.fst = target := List.zipIdx_map_fst 0 target
  rw [writeBetweenAxes, writeAxes_eq (contributes_sign _ _), hcontribution, ← List.mapM_map,
    hplaces, ← bind_pure_comp]
  rfl

theorem zip_extents_eq (h : e'.dimension = target.length) : target.zip e'.extents =
    target.zipIdx.map fun axis => (axis.1, e'.extents.getD axis.2 ⟨0, 0⟩) := by
  apply List.ext_getElem
  · rw [length_zip_extents h, List.length_map, List.length_zipIdx]
  · intro j hj _
    rw [length_zip_extents h] at hj
    rw [List.getElem_zip, List.getElem_map, List.getElem_zipIdx, Nat.zero_add,
      List.getD_eq_getElem _ _ (hj.trans_eq h.symm)]

/-- Between envelopes their dimensions are compared first. No extent is read that there is not. -/
theorem writeBetweenFrames_eq (e : Envelope α) (source : List AxisDirection) (e' : Envelope α)
    (target : List AxisDirection) : writeBetweenFrames e source e' target =
      Checked.ofMatrix (betweenFrames e source e' target) := by
  rw [writeBetweenFrames, betweenFrames]
  cases hsource : e.checkDimension .source source.length with
  | error fault => rfl
  | ok _ =>
    cases htarget : e'.checkDimension .destination target.length with
    | error fault => rfl
    | ok _ =>
      have h := (Envelope.checkDimension_eq_ok _).mp hsource
      have h' := (Envelope.checkDimension_eq_ok _).mp htarget
      change writeAxes (some (e, e')) source target = Checked.ofMatrix
        ((target.zip e'.extents).mapM (frameOrdinate e source) >>=
          fun ordinates => pure (ofOrdinates source.length ordinates))
      rw [writeAxes_eq (contributes_extents h h'), zip_extents_eq h', List.mapM_map, bind_pure_comp]
      rfl

end Envelopes

/-! ## What becomes of the axes -/

theorem exists_writeBetweenAxes_iff :
    (∃ x : StoredMatrix α, writeBetweenAxes source target = .ok x) ↔
      ∀ c ∈ target, source.countP c.isColinear = 1 := by
  simp only [writeBetweenAxes_eq, Checked.ofMatrix_eq_ok]
  exact exists_betweenAxes_iff

theorem writeBetweenAxes_eq_error {fault : StepFault} :
    (writeBetweenAxes source target : Except StepFault (StoredMatrix α)) = .error fault ↔
      ∃ error, fault = .refused error ∧ FirstMismatch source target error := by
  simp only [writeBetweenAxes_eq, Checked.ofMatrix_eq_error, betweenAxes_eq_error]

/-- The search through all source axes for every target axis succeeds if and only if every target
axis has exactly one colinear source axis. What it has written is then the sign of each target axis
in the column of that source axis. Otherwise it stops at the first target axis that has none, or
several, and reports this axis, with the second one of several. It never misses the matrix. -/
theorem writeBetweenAxes_spec (hzero : ((0 : α) == 0) = true) (hone : ((1 : α) == 1) = true)
    (source target : List AxisDirection) :
    ((∃ x : StoredMatrix α, writeBetweenAxes source target = .ok x) ↔
      ∀ c ∈ target, source.countP c.isColinear = 1) ∧
    (∀ x : StoredMatrix α, writeBetweenAxes source target = .ok x → MapsAxes source target x) ∧
    (∀ fault, (writeBetweenAxes source target : Except StepFault (StoredMatrix α)) =
      .error fault ↔ ∃ error, fault = .refused error ∧ FirstMismatch source target error) ∧
    (writeBetweenAxes source target : Except StepFault (StoredMatrix α)) =
      Checked.ofMatrix (betweenAxes source target) := by
  refine ⟨exists_writeBetweenAxes_iff, fun x hx => ?_, fun _ => writeBetweenAxes_eq_error,
    writeBetweenAxes_eq source target⟩
  rw [writeBetweenAxes_eq, Checked.ofMatrix_eq_ok] at hx
  exact mapsAxes_of_betweenAxes hzero hone hx

/-- In doubles: one axis is left out, which makes the matrix no square, and the other one is
reversed; then the second of two opposite source axes is reported, before the missing one. -/
theorem writeBetweenAxes_spec_double :
    ((0 : Float) == 0) = true ∧ ((1 : Float) == 1) = true ∧
    (∃ x : StoredMatrix Float, writeBetweenAxes [.up, .west] [.east] = .ok x ∧
      MapsAxes [.up, .west] [.east] x ∧ x.get 0 1 = .ok (-1) ∧ ¬ x.isAffine = true) ∧
    (writeBetweenAxes [.north, .up, .south] [.up, .south, .east] :
      Except StepFault (StoredMatrix Float)) = .error (.refused (.colinearAxes .south .south)) := by
  have hzero : ((0 : Float) == 0) = true := Double.beq_iff.mpr rfl
  have hone : ((1 : Float) == 1) = true := Double.beq_iff.mpr rfl
  refine ⟨hzero, hone, ?_, ?_⟩
  · obtain ⟨hexists, hmaps, -⟩ := writeBetweenAxes_spec hzero hone [.up, .west] [.east]
    obtain ⟨x, hx⟩ := hexists.mpr (by decide)
    have hx' := hmaps x hx
    obtain ⟨i, a, ha, hplace, -, hentry⟩ := hx'.axis 0 .east rfl
    have hi : 1 = i := (hplace 1 .west rfl).mp (by decide)
    subst hi
    cases ha
    refine ⟨x, hx, hx', hentry 1 (by decide), ?_⟩
    rw [hx'.isAffine]
    decide
  · rw [(writeBetweenAxes_spec hzero hone _ _).2.2.1]
    exact ⟨_, rfl, [.up], .south, [.east], rfl, by decide, .several (by decide) (by decide)⟩

end StoredMatrix

end Georeferencing
