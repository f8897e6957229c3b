import Mathlib.Data.List.GetD
import Georeferencing.Proofs.Matrix.AxisMatching
import Georeferencing.Proofs.Transform.Points

/-! # Mapping an envelope onto another

The matrix between two envelopes makes each target ordinate of one source ordinate alone, linearly,
so that the ends of the source extent go to the ends of the target extent: to the same ends along
the same direction, exchanged along the opposite one. Extents that are not reversed are therefore
mapped into each other, and the source box into the target box. What can go wrong are the dimensions
of the envelopes, which are compared first, and then the axes, exactly as without envelopes.
-/

namespace Georeferencing

section Arithmetic

variable {α : Type} [Scalar α] {source target : List AxisDirection} {e e' : Envelope α}
  {error : MatrixError}

namespace StoredMatrix

/-- What can go wrong between envelopes: the dimension of the source envelope, then that of the
target envelope, then the axes. -/
inductive FrameFailure (e : Envelope α) (source : List AxisDirection) (e' : Envelope α)
    (target : List AxisDirection) : MatrixError → Prop
  | source (h : e.dimension ≠ source.length) :
    FrameFailure e source e' target (.mismatchedDimension .source source.length e.dimension)
  | destination (h : e.dimension = source.length) (h' : e'.dimension ≠ target.length) :
    FrameFailure e source e' target
      (.mismatchedDimension .destination target.length e'.dimension)
  | axes {error : MatrixError} (h : e.dimension = source.length)
    (h' : e'.dimension = target.length)
    (haxes : (betweenAxes source target : Except MatrixError (StoredMatrix α)) = .error error) :
    FrameFailure e source e' target error

/-- Between envelopes an axis fails as it does without. -/
theorem frameOrdinate_eq_error (p : AxisDirection × Extent α) (error : MatrixError) :
    frameOrdinate e source p = .error error ↔
      (axisOrdinate source p.1 : Except MatrixError (OrdinateMap α)) = .error error := by
  rw [axisOrdinate_eq_error, frameOrdinate, bind_eq_error, matchAxis_eq_error]
  simp [pure, Except.pure]

theorem mapM_frameOrdinate_eq_error (h' : e'.dimension = target.length) :
    (target.zip e'.extents).mapM (frameOrdinate e source) = .error error ↔
      (betweenAxes source target : Except MatrixError (StoredMatrix α)) = .error error := by
  have haxes : (target.zip e'.extents).map Prod.fst = target := List.map_fst_zip h'.ge
  rw [mapM_eq_error_iff_map frameOrdinate_eq_error, haxes, mapM_axisOrdinate_eq_error]

theorem betweenFrames_eq_error : betweenFrames e source e' target = .error error ↔
    FrameFailure e source e' target error := by
  constructor
  · intro h
    rcases bind_eq_error.mp h with hsource | ⟨_, hsource, h⟩
    · obtain ⟨hne, rfl⟩ := Envelope.checkDimension_eq_error.mp hsource
      exact .source hne
    rw [Envelope.checkDimension_eq_ok] at hsource
    rcases bind_eq_error.mp h with htarget | ⟨_, htarget, h⟩
    · obtain ⟨hne, rfl⟩ := Envelope.checkDimension_eq_error.mp htarget
      exact .destination hsource hne
    rw [Envelope.checkDimension_eq_ok] at htarget
    rcases bind_eq_error.mp h with haxes | ⟨_, -, h⟩
    · exact .axes hsource htarget ((mapM_frameOrdinate_eq_error htarget).mp haxes)
    · cases h
  · rintro (hne | ⟨hsource, hne⟩ | ⟨hsource, htarget, haxes⟩)
    · exact bind_eq_error.mpr (.inl (Envelope.checkDimension_eq_error.mpr ⟨hne, rfl⟩))
    · refine bind_eq_error.mpr (.inr ⟨(), Envelope.checkDimension_eq_ok _ |>.mpr hsource, ?_⟩)
      exact bind_eq_error.mpr (.inl (Envelope.checkDimension_eq_error.mpr ⟨hne, rfl⟩))
    · refine bind_eq_error.mpr (.inr ⟨(), Envelope.checkDimension_eq_ok _ |>.mpr hsource, ?_⟩)
      refine bind_eq_error.mpr (.inr ⟨(), Envelope.checkDimension_eq_ok _ |>.mpr htarget, ?_⟩)
      exact bind_eq_error.mpr (.inl ((mapM_frameOrdinate_eq_error htarget).mpr haxes))

/-- Without envelopes no dimension is compared. -/
theorem mismatchedDimension_iff : (∃ role expected actual,
      betweenFrames e source e' target = .error (.mismatchedDimension role expected actual)) ↔
    e.dimension ≠ source.length ∨ e'.dimension ≠ target.length := by
  simp only [betweenFrames_eq_error]
  constructor
  · rintro ⟨role, expected, actual, hne | ⟨-, hne⟩ | ⟨-, -, haxes⟩⟩
    · exact .inl hne
    · exact .inr hne
    · obtain ⟨_, c, _, -, -, hmismatch⟩ := betweenAxes_eq_error.mp haxes
      cases hmismatch
  · intro h
    by_cases hsource : e.dimension = source.length
    · exact ⟨_, _, _, .destination hsource (h.resolve_left (not_not_intro hsource))⟩
    · exact ⟨_, _, _, .source hsource⟩

end StoredMatrix

end Arithmetic

/-! ## The image of an envelope -/

variable {K : Type} [Field K] [LinearOrder K]

namespace StoredMatrix

variable {n : ℕ} {ordinates : List (OrdinateMap K)} {o : OrdinateMap K} {p : List K}

/-- What is made of a value of the source ordinate. -/
def OrdinateMap.value (o : OrdinateMap K) (y : K) : K := o.scale * y + o.offset

theorem OrdinateMap.row_dotProduct (ho : o.source < n) (p : List K) :
    o.row ho ⬝ᵥ homogeneous n p = o.value (p.getD o.source 0) := by
  have hsource : homogeneous n p ⟨o.source, ho.trans n.lt_succ_self⟩ = p.getD o.source 0 :=
    homogeneous_castSucc p ⟨o.source, ho⟩
  rw [row, add_dotProduct, single_dotProduct, single_dotProduct, hsource, homogeneous_last, mul_one,
    value]

/-- A place behind the source ordinates counts as zero. -/
theorem lift_ofOrdinates {i : Fin ordinates.length} (h : ordinates[i.val]? = some o)
    (hp : p.length = n) : (⟨ofOrdinates n ordinates⟩ : Projective K).lift n ordinates.length p
      i.castSucc = o.value (p.getD o.source 0) := by
  rw [Projective.lift, Matrix.mulVec]
  rcases lt_or_ge o.source n with ho | ho
  · rw [toMatrix_ofOrdinates_row rfl h ho, OrdinateMap.row_dotProduct]
  · rw [toMatrix_ofOrdinates_row_of_le rfl h ho, single_dotProduct, homogeneous_last, mul_one,
      List.getD_eq_default _ _ (hp.trans_le ho), OrdinateMap.value, mul_zero, zero_add]

theorem lift_ofOrdinates_last (p : List K) :
    (⟨ofOrdinates n ordinates⟩ : Projective K).lift n ordinates.length p (Fin.last _) = 1 := by
  rw [Projective.lift, Matrix.mulVec, toMatrix_ofOrdinates_last rfl rfl, single_dotProduct,
    homogeneous_last, mul_one]

theorem hasShape_ofOrdinates (n : ℕ) (ordinates : List (OrdinateMap K)) :
    (⟨ofOrdinates n ordinates⟩ : Projective K).HasShape n ordinates.length :=
  ⟨numRow_ofOrdinates n ordinates, numCol_ofOrdinates n ordinates, consistent_ofBlock _⟩

/-- Each ordinate of the image is made as listed, whatever the shape of the matrix. -/
theorem image_ofOrdinates (ordinates : List (OrdinateMap K)) (hp : p.length = n) :
    (⟨ofOrdinates n ordinates⟩ : Projective K).image p =
      ordinates.map fun o => o.value (p.getD o.source 0) := by
  -- A matrix that is not square is not taken for affine, but what it divides by is one.
  rw [Projective.image_eq (hasShape_ofOrdinates n ordinates) hp, ofHomogeneous,
    lift_ofOrdinates_last]
  apply List.ext_getElem
  · simp
  · intro j hj hj'
    have hlt : j < ordinates.length := by simpa using hj'
    rw [List.getElem_ofFn, div_one, List.getElem_map]
    exact lift_ofOrdinates (i := ⟨j, hlt⟩) (List.getElem?_eq_getElem hlt) hp

/-- Along the same direction values are counted from the target minimum. -/
theorem value_alongAxis_same (i : ℕ) (s t : Extent K) (y : K) : (alongAxis i true s t).value y =
    t.minimum + t.span / s.span * (y - s.minimum) := by
  simp only [OrdinateMap.value, alongAxis, if_true]
  ring

/-- Along the opposite direction they are counted down from the target maximum. -/
theorem value_alongAxis_opposite (i : ℕ) (s t : Extent K) (y : K) :
    (alongAxis i false s t).value y = t.maximum - t.span / s.span * (y - s.minimum) := by
  simp only [OrdinateMap.value, alongAxis, Bool.false_eq_true, if_false]
  ring

end StoredMatrix

def Extent.Contains (s : Extent K) (y : K) : Prop := s.minimum ≤ y ∧ y ≤ s.maximum

def Envelope.Contains (e : Envelope K) (p : List K) : Prop :=
  List.Forall₂ Extent.Contains e.extents p

/-- A function that takes the ends of one extent to the ends of another, exchanging them along
opposite directions, and does not leave the other extent where these are not reversed. -/
structure FitsExtent (same : Bool) (s t : Extent K) (f : K → K) : Prop where
  minimum : f s.minimum = if same then t.minimum else t.maximum
  maximum : f s.maximum = if same then t.maximum else t.minimum
  within : 0 < s.span → 0 ≤ t.span → ∀ y, s.Contains y → t.Contains (f y)

section Extents

variable [IsStrictOrderedRing K] {s t : Extent K} {y : K}

/-- How far a value is from the source minimum, seen in the target extent. -/
theorem fraction_mem (hs : 0 < s.span) (ht : 0 ≤ t.span) (hy : s.Contains y) :
    0 ≤ t.span / s.span * (y - s.minimum) ∧ t.span / s.span * (y - s.minimum) ≤ t.span := by
  have hscale : 0 ≤ t.span / s.span := div_nonneg ht hs.le
  have hend : t.span / s.span * (s.maximum - s.minimum) = t.span := div_mul_cancel₀ _ hs.ne'
  constructor
  · exact mul_nonneg hscale (sub_nonneg.mpr hy.1)
  · calc t.span / s.span * (y - s.minimum)
        ≤ t.span / s.span * (s.maximum - s.minimum) :=
          mul_le_mul_of_nonneg_left (sub_le_sub_right hy.2 _) hscale
      _ = t.span := hend

theorem fitsExtent_alongAxis (hs : s.span ≠ 0) (i : ℕ) (same : Bool) :
    FitsExtent same s t (StoredMatrix.alongAxis i same s t).value := by
  have hend : t.span / s.span * (s.maximum - s.minimum) = t.maximum - t.minimum :=
    div_mul_cancel₀ _ hs
  cases same with
  | true =>
    refine ⟨?_, ?_, fun hs ht y hy => ?_⟩
    · simp [StoredMatrix.value_alongAxis_same]
    · simp [StoredMatrix.value_alongAxis_same, hend]
    · obtain ⟨hzero, hspan⟩ := fraction_mem hs ht hy
      rw [StoredMatrix.value_alongAxis_same]
      exact ⟨le_add_of_nonneg_right hzero, add_le_of_le_sub_left hspan⟩
  | false =>
    refine ⟨?_, ?_, fun hs ht y hy => ?_⟩
    · simp [StoredMatrix.value_alongAxis_opposite]
    · simp [StoredMatrix.value_alongAxis_opposite, hend]
    · obtain ⟨hzero, hspan⟩ := fraction_mem hs ht hy
      rw [StoredMatrix.value_alongAxis_opposite]
      exact ⟨le_sub_comm.mp hspan, sub_le_self _ hzero⟩

end Extents

variable [Elementary K]

/-- Every point of the envelope has an image, and it lies in the other envelope. -/
def Transform.MapsInto (t : Transform K) (e e' : Envelope K) : Prop :=
  ∀ p, e.Contains p → ∃ q, t.applyPoint p = .ok q ∧ e'.Contains q

/-- The transform makes each target ordinate of the ordinate along the one colinear source axis,
and fits the extent of that axis, if it has a span, to the extent of the target axis. -/
structure FitsAxes (e : Envelope K) (source : List AxisDirection) (e' : Envelope K)
    (target : List AxisDirection) (t : Transform K) : Prop where
  total : ∀ p, p.length = source.length → ∃ q, t.applyPoint p = .ok q ∧ q.length = target.length
  axis : ∀ (j : ℕ) (c : AxisDirection) (v : Extent K), target[j]? = some c →
    e'.extents[j]? = some v → ∃ (i : ℕ) (a : AxisDirection) (u : Extent K) (f : K → K),
      source[i]? = some a ∧ e.extents[i]? = some u ∧
      (∀ k b, source[k]? = some b → (b.absolute = c.absolute ↔ k = i)) ∧
      (∀ p q y, p.length = source.length → t.applyPoint p = .ok q → p[i]? = some y →
        q[j]? = some (f y)) ∧
      (u.span ≠ 0 → FitsExtent (a == c) u v f)

section Frames

open StoredMatrix

variable {e e' : Envelope K} {source target : List AxisDirection} {t : Transform K}
  {x : StoredMatrix K}

theorem applyPoint_ofOrdinates {n : ℕ} (ordinates : List (OrdinateMap K)) {p : List K}
    (hp : p.length = n) : (Transform.linear ⟨ofOrdinates n ordinates⟩).applyPoint p =
      .ok (ordinates.map fun o => o.value (p.getD o.source 0)) := by
  rw [← image_ofOrdinates ordinates hp]
  exact Transform.applyPoint_linear (hp.trans (hasShape_ofOrdinates n ordinates).source.symm)

theorem FitsAxes.mapsInto (h : FitsAxes e source e' target t)
    (hsource : e.dimension = source.length) (htarget : e'.dimension = target.length)
    (hspans : ∀ u ∈ e.extents, 0 < u.span) (hspans' : ∀ v ∈ e'.extents, 0 ≤ v.span) :
    t.MapsInto e e' := by
  intro p hp
  have hlength : p.length = source.length := hp.length_eq.symm.trans hsource
  obtain ⟨q, hq, hlength'⟩ := h.total p hlength
  refine ⟨q, hq, List.forall₂_iff_get.mpr ⟨htarget.trans hlength'.symm, fun j hj hj' => ?_⟩⟩
  have hv : e'.extents[j]? = some e'.extents[j] := List.getElem?_eq_getElem hj
  have hjc : j < target.length := hj'.trans_eq hlength'
  have hc : target[j]? = some target[j] := List.getElem?_eq_getElem hjc
  obtain ⟨i, a, u, f, -, hu, -, hf, hfits⟩ := h.axis j _ _ hc hv
  obtain ⟨y, hy, huy⟩ := exists_getElem?_of_forall₂ hp hu
  have hspan : 0 < u.span := hspans u (List.mem_of_getElem? hu)
  have hqj : q[j] = f y :=
    Option.some.inj ((List.getElem?_eq_getElem hj').symm.trans (hf p q y hlength hq hy))
  rw [List.get_eq_getElem, List.get_eq_getElem, hqj]
  exact (hfits hspan.ne').within hspan (hspans' _ (List.getElem_mem hj)) y huy

/-- What is made between two envelopes fits the extents along all axes. -/
theorem fitsAxes_of_betweenFrames [IsStrictOrderedRing K]
    (h : betweenFrames e source e' target = .ok x) :
    FitsAxes e source e' target (.linear ⟨x⟩) := by
  obtain ⟨hsource, htarget, ordinates, hordinates, rfl⟩ := betweenFrames_eq_ok.mp h
  have hlength : ordinates.length = target.length :=
    (length_of_mapM hordinates).trans (length_zip_extents htarget)
  constructor
  · intro p hp
    exact ⟨_, applyPoint_ofOrdinates ordinates hp, by rw [List.length_map, hlength]⟩
  · intro j c v hc hv
    have hpair : (target.zip e'.extents)[j]? = some (c, v) :=
      List.getElem?_zip_eq_some.mpr ⟨hc, hv⟩
    obtain ⟨o, ho, haxis⟩ := getElem?_of_mapM hordinates hpair
    obtain ⟨a, i, hmatch, rfl⟩ := frameOrdinate_eq_ok.mp haxis
    have hi : i < e.extents.length := (matchAxis_lt hmatch).trans_eq hsource.symm
    have hu : e.extents[i]? = some e.extents[i] := List.getElem?_eq_getElem hi
    obtain ⟨ha, hplace⟩ := place_of_matchAxis hmatch
    refine ⟨i, a, e.extents[i], _, ha, hu, hplace, fun p q y hp hq hy => ?_,
      fun hspan => fitsExtent_alongAxis hspan i (a == c)⟩
    cases (applyPoint_ofOrdinates ordinates hp).symm.trans hq
    rw [List.getD_eq_getElem?_getD, hu, Option.getD_some] at ho
    simp [ho, alongAxis, hy]

end Frames

variable (K)

/-- In exact arithmetic, whatever is made between two envelopes fits the extents along all axes, and
takes the source box into the target box if the source extents have a positive span and the target
extents are not reversed. In any arithmetic, the dimension of an envelope is reported if and only if
one of the two is wrong, and what is wrong with the axes otherwise, as without envelopes. -/
theorem betweenFrames_fits_spec [IsStrictOrderedRing K] (α : Type) [Scalar α] :
    (∀ (e : Envelope K) (source : List AxisDirection) (e' : Envelope K)
      (target : List AxisDirection) (x : StoredMatrix K),
      StoredMatrix.betweenFrames e source e' target = .ok x →
        ∃ t, Projective.ofMatrix x = .ok t ∧ FitsAxes e source e' target (.linear t) ∧
          ((∀ u ∈ e.extents, 0 < u.span) → (∀ v ∈ e'.extents, 0 ≤ v.span) →
            (Transform.linear t).MapsInto e e')) ∧
    ∀ (e : Envelope α) (source : List AxisDirection) (e' : Envelope α)
      (target : List AxisDirection),
      ((∃ role expected actual, StoredMatrix.betweenFrames e source e' target =
          .error (.mismatchedDimension role expected actual)) ↔
        e.dimension ≠ source.length ∨ e'.dimension ≠ target.length) ∧
      ∀ error, StoredMatrix.betweenFrames e source e' target = .error error ↔
        StoredMatrix.FrameFailure e source e' target error := by
  constructor
  · intro e source e' target x h
    have hfits : FitsAxes e source e' target (.linear ⟨x⟩) := fitsAxes_of_betweenFrames h
    obtain ⟨hsource, htarget, ordinates, -, rfl⟩ := StoredMatrix.betweenFrames_eq_ok.mp h
    refine ⟨_, ?_, hfits, hfits.mapsInto hsource htarget⟩
    rw [Projective.ofMatrix, if_neg]
    simp
  · intro e source e' target
    exact ⟨StoredMatrix.mismatchedDimension_iff, fun _ => StoredMatrix.betweenFrames_eq_error⟩

/-- East is reversed and comes first, and height is left out; then the target envelope has a
dimension too many. -/
theorem betweenFrames_fits_spec_plane :
    letI : Elementary ℚ := Exact.quarterTurns
    let e : Envelope ℚ := ⟨[⟨0, 2⟩, ⟨1, 5⟩, ⟨3, 4⟩]⟩
    let e' : Envelope ℚ := ⟨[⟨10, 20⟩, ⟨7, 8⟩]⟩
    let source : List AxisDirection := [.north, .east, .up]
    let target : List AxisDirection := [.west, .north]
    let x : StoredMatrix ℚ := .flat ⟨3, 4, #[0, -5 / 2, 0, 45 / 2, 1 / 2, 0, 0, 7, 0, 0, 0, 1]⟩
    StoredMatrix.betweenFrames e source e' target = .ok x ∧
      (∀ u ∈ e.extents, 0 < u.span) ∧ (∀ v ∈ e'.extents, 0 ≤ v.span) ∧
      (∃ t, Projective.ofMatrix x = .ok t ∧ FitsAxes e source e' target (.linear t) ∧
        (Transform.linear t).MapsInto e e') ∧
      StoredMatrix.betweenFrames e source e' [.north] =
        .error (.mismatchedDimension .destination 1 2) := by
  let _ : Elementary ℚ := Exact.quarterTurns
  intro e e' source target x
  obtain ⟨hmaps, hfails⟩ := betweenFrames_fits_spec ℚ ℚ
  have hx : StoredMatrix.betweenFrames e source e' target = .ok x := by decide +kernel
  have hspans : ∀ u ∈ e.extents, 0 < u.span := by decide +kernel
  have hspans' : ∀ v ∈ e'.extents, 0 ≤ v.span := by decide +kernel
  obtain ⟨t, ht, hfits, hinto⟩ := hmaps e source e' target x hx
  refine ⟨hx, hspans, hspans', ⟨t, ht, hfits, hinto hspans hspans'⟩, ?_⟩
  exact ((hfails e source e' [.north]).2 _).mpr (.destination rfl (by decide))

end Georeferencing
