import Georeferencing.Proofs.Matrix.Axes
import Georeferencing.Proofs.Matrix.Grid

/-! # Matching axes

Every target axis is made of the one source axis that is colinear with it. The axes are looked at
in order, and the first one without such a source axis, or with more than one, is reported; what is
returned otherwise is a matrix of signs, affine if there are as many target axes as source axes.
-/

namespace Georeferencing

namespace StoredMatrix

section Matching

variable {source : List AxisDirection} {c : AxisDirection} {error : MatrixError}

/-- What can be wrong with a target axis: no source axis is colinear with it, or a second one is.
-/
inductive Mismatch (source : List AxisDirection) (c : AxisDirection) : MatrixError → Prop
  | notFound (h : source.countP c.isColinear = 0) : Mismatch source c (.axisNotFound c)
  | several {second : AxisDirection} (h : 1 < source.countP c.isColinear)
      (hsecond : (source.filter c.isColinear)[1]? = some second) :
      Mismatch source c (.colinearAxes second c)

/-- What is wrong with the first of the target axes that has not got one colinear source axis. -/
def FirstMismatch (source target : List AxisDirection) (error : MatrixError) : Prop :=
  ∃ before c after, target = before ++ c :: after ∧
    (∀ b ∈ before, source.countP b.isColinear = 1) ∧ Mismatch source c error

theorem map_fst_colinearAxes (source : List AxisDirection) (c : AxisDirection) :
    (colinearAxes source c).map Prod.fst = source.filter c.isColinear := by
  have hplaces : source.zipIdx.map Prod.fst = source := List.zipIdx_map_fst 0 source
  conv_rhs => rw [← hplaces, List.filter_map]
  rfl

theorem length_colinearAxes (source : List AxisDirection) (c : AxisDirection) :
    (colinearAxes source c).length = source.countP c.isColinear := by
  rw [List.countP_eq_length_filter, ← map_fst_colinearAxes, List.length_map]

/-- The matched source axis is the only colinear one. -/
theorem place_of_matchAxis {found : AxisDirection} {i : ℕ}
    (h : matchAxis source c = .ok (found, i)) : source[i]? = some found ∧
      ∀ k b, source[k]? = some b → (b.absolute = c.absolute ↔ k = i) := by
  obtain ⟨hfound, habsolute, hunique⟩ := matchAxis_eq_ok.mp h
  refine ⟨hfound, fun k b hb => ⟨fun hbc => hunique k b hb hbc.symm, ?_⟩⟩
  rintro rfl
  cases hb.symm.trans hfound
  exact habsolute.symm

theorem exists_matchAxis_iff :
    (∃ found, matchAxis source c = .ok found) ↔ source.countP c.isColinear = 1 := by
  rw [← length_colinearAxes, matchAxis]
  split
  · next h => simp [h]
  · next h => simp [h]
  · next h => simp [h]

theorem matchAxis_eq_error : matchAxis source c = .error error ↔ Mismatch source c error := by
  have hcount := length_colinearAxes source c
  have hfilter := map_fst_colinearAxes source c
  rw [matchAxis]
  split
  · next h =>
    rw [h, List.length_nil] at hcount
    constructor
    · rintro ⟨⟩
      exact .notFound hcount.symm
    · rintro (_ | ⟨hseveral, -⟩)
      · rfl
      · omega
  · next h =>
    rw [h, List.length_singleton] at hcount
    constructor
    · rintro ⟨⟩
    · rintro (hnone | ⟨hseveral, -⟩)
      · omega
      · omega
  · next first second index rest h =>
    rw [h, List.length_cons, List.length_cons] at hcount
    have hsecond : (source.filter c.isColinear)[1]? = some second := by
      rw [← hfilter, h]
      rfl
    constructor
    · rintro ⟨⟩
      exact .several (by omega) hsecond
    · rintro (hnone | ⟨-, hother⟩)
      · omega
      · cases hother.symm.trans hsecond
        rfl

end Matching

variable {α : Type} [Scalar α]

section Maps

variable {n j k : ℕ} {ordinates : List (OrdinateMap α)} {o : OrdinateMap α}
  {source target : List AxisDirection} {c : AxisDirection} {x : StoredMatrix α}
  {error : MatrixError}

/-- The coefficient at a row and a column of the matrix that makes the listed ordinates. -/
def ordinateEntry (n : ℕ) (ordinates : List (OrdinateMap α)) (i j : ℕ) : α :=
  match ordinates[i]? with
  | some o => if j = n then o.offset else if j = o.source then o.scale else 0
  | none => if j = n then 1 else 0

theorem ordinateEntry_of_getElem? (h : ordinates[j]? = some o) (n k : ℕ) :
    ordinateEntry n ordinates j k =
      if k = n then o.offset else if k = o.source then o.scale else 0 := by
  rw [ordinateEntry, h]

theorem ordinateEntry_last (n : ℕ) (ordinates : List (OrdinateMap α)) (k : ℕ) :
    ordinateEntry n ordinates ordinates.length k = if k = n then 1 else 0 := by
  rw [ordinateEntry, List.getElem?_eq_none le_rfl]

theorem ofOrdinates_eq_ofFn (n : ℕ) (ordinates : List (OrdinateMap α)) :
    ofOrdinates n ordinates =
      ofFn (ordinates.length + 1) (n + 1) fun i j => ordinateEntry n ordinates i j := rfl

theorem represents_ofOrdinates (n : ℕ) (ordinates : List (OrdinateMap α)) :
    Represents (ofOrdinates n ordinates)
      ⟨ordinates.length + 1, n + 1, ordinateEntry n ordinates⟩ := by
  apply represents_of_elements (numRow_ofOrdinates n ordinates) (numCol_ofOrdinates n ordinates)
  rw [ofOrdinates_eq_ofFn, ofFn, elements_ofBlock]
  exact Block.elements_eq_iff.mpr fun i j => Block.entry_ofFn _ i j

theorem get_ofOrdinates (h : ordinates[j]? = some o) (hk : k ≤ n) :
    (ofOrdinates n ordinates).get j k =
      .ok (if k = n then o.offset else if k = o.source then o.scale else 0) := by
  have hj : j < ordinates.length := (List.getElem?_eq_some_iff.mp h).1
  rw [(represents_ofOrdinates n ordinates).get, Grid.get,
    if_pos ⟨Nat.lt_succ_of_lt hj, Nat.lt_succ_of_le hk⟩]
  exact congrArg Except.ok (ordinateEntry_of_getElem? h n k)

theorem get_ofOrdinates_last (hk : k ≤ n) :
    (ofOrdinates n ordinates).get ordinates.length k = .ok (if k = n then 1 else 0) := by
  rw [(represents_ofOrdinates n ordinates).get, Grid.get,
    if_pos ⟨Nat.lt_succ_self _, Nat.lt_succ_of_le hk⟩]
  exact congrArg Except.ok (ordinateEntry_last n ordinates k)

/-- The last row is that of an affine matrix. -/
theorem isAffine_ofOrdinates (hzero : ((0 : α) == 0) = true) (hone : ((1 : α) == 1) = true) :
    (ofOrdinates n ordinates).isAffine = true ↔ ordinates.length = n := by
  rw [(represents_ofOrdinates n ordinates).isAffine, decide_eq_true_iff, Grid.IsAffine]
  simp only [Nat.add_sub_cancel, ordinateEntry_last, Nat.add_right_cancel_iff]
  constructor
  · rintro ⟨h, -, -⟩
    exact h
  · intro h
    refine ⟨h, Nat.succ_ne_zero _, fun j _ => ?_⟩
    split
    · exact hone
    · exact hzero

/-- The matrix that takes the source axes to the target axes: each row but the last one has a sign
in the column of the one colinear source axis and zeros elsewhere. -/
structure MapsAxes (source target : List AxisDirection) (x : StoredMatrix α) : Prop where
  numRow : x.numRow = target.length + 1
  numCol : x.numCol = source.length + 1
  axis : ∀ j c, target[j]? = some c → ∃ i a, source[i]? = some a ∧
    (∀ k b, source[k]? = some b → (b.absolute = c.absolute ↔ k = i)) ∧
    (a = c ∨ a = c.opposite) ∧
    ∀ k ≤ source.length, x.get j k = .ok (if k = i then if a = c then 1 else -1 else 0)
  last : ∀ k ≤ source.length,
    x.get target.length k = .ok (if k = source.length then 1 else 0)
  isAffine : x.isAffine = true ↔ target.length = source.length

theorem axisOrdinate_eq_error :
    (axisOrdinate source c : Except MatrixError (OrdinateMap α)) = .error error ↔
      Mismatch source c error := by
  rw [axisOrdinate, bind_eq_error, matchAxis_eq_error]
  simp [pure, Except.pure]

theorem exists_axisOrdinate_iff :
    (∃ o : OrdinateMap α, axisOrdinate source c = .ok o) ↔ source.countP c.isColinear = 1 := by
  rw [← exists_matchAxis_iff]
  simp only [axisOrdinate_eq_ok, Prod.exists]
  constructor
  · rintro ⟨o, a, i, h, -⟩
    exact ⟨a, i, h⟩
  · rintro ⟨a, i, h⟩
    exact ⟨_, a, i, h, rfl⟩

theorem exists_betweenAxes_iff : (∃ x : StoredMatrix α, betweenAxes source target = .ok x) ↔
    ∀ c ∈ target, source.countP c.isColinear = 1 := by
  have hordinates : (∃ ordinates : List (OrdinateMap α),
      target.mapM (axisOrdinate source) = .ok ordinates) ↔
        ∀ c ∈ target, source.countP c.isColinear = 1 := by
    rw [exists_mapM_iff]
    exact forall₂_congr fun c _ => exists_axisOrdinate_iff
  rw [← hordinates]
  simp only [betweenAxes_eq_ok]
  constructor
  · rintro ⟨x, ordinates, h, -⟩
    exact ⟨ordinates, h⟩
  · rintro ⟨ordinates, h⟩
    exact ⟨_, ordinates, h, rfl⟩

theorem mapM_axisOrdinate_eq_error :
    target.mapM (axisOrdinate (α := α) source) = .error error ↔
      (betweenAxes source target : Except MatrixError (StoredMatrix α)) = .error error := by
  change _ ↔ (target.mapM (axisOrdinate source) >>= fun ordinates => _) = _
  rw [bind_eq_error]
  simp [pure, Except.pure]

theorem betweenAxes_eq_error :
    (betweenAxes source target : Except MatrixError (StoredMatrix α)) = .error error ↔
      FirstMismatch source target error := by
  simp only [← mapM_axisOrdinate_eq_error, mapM_eq_error, exists_axisOrdinate_iff,
    axisOrdinate_eq_error, FirstMismatch]

theorem mapsAxes_of_betweenAxes (hzero : ((0 : α) == 0) = true) (hone : ((1 : α) == 1) = true)
    (h : betweenAxes source target = .ok x) : MapsAxes source target x := by
  obtain ⟨ordinates, hordinates, rfl⟩ := betweenAxes_eq_ok.mp h
  have hlength : ordinates.length = target.length := length_of_mapM hordinates
  refine ⟨?_, numCol_ofOrdinates _ _, fun j c hc => ?_, fun k hk => ?_, ?_⟩
  · rw [numRow_ofOrdinates, hlength]
  · obtain ⟨o, ho, haxis⟩ := getElem?_of_mapM hordinates hc
    obtain ⟨a, i, hmatch, rfl⟩ := axisOrdinate_eq_ok.mp haxis
    obtain ⟨ha, hplace⟩ := place_of_matchAxis hmatch
    have hi : i < source.length := matchAxis_lt hmatch
    have habsolute : a.absolute = c.absolute := (hplace i a ha).mpr rfl
    refine ⟨i, a, ha, hplace, AxisDirection.eq_or_eq_opposite habsolute.symm, fun k hk => ?_⟩
    rw [get_ofOrdinates ho hk, signed]
    by_cases hki : k = i
    · subst hki
      simp [hi.ne]
    · simp [hki]
  · rw [← hlength]
    exact get_ofOrdinates_last hk
  · rw [isAffine_ofOrdinates hzero hone, hlength]

end Maps

end StoredMatrix

end Georeferencing
