import Georeferencing.Proofs.Matrix.InverseTwice
import Georeferencing.Proofs.Transform.Simplified

/-! # The inverse of a chain

The inverses of some steps, that of the last step first, lead back through the points that the steps
passed, as long as each inverse undoes its step there. What is made of the steps has the same way
back, since its inverse is made of their inverses. A matrix is undone by its inverse wherever it has
a denominator: the denominator of the inverse at the image is the reciprocal, and cancels.
-/

namespace Georeferencing

namespace Transform

section Chains

variable {α : Type} [Scalar α] {t step : Transform α} {steps before after : List (Transform α)}

theorem inverse_linear {t u : Projective α} (h : t.inverse = .ok u) :
    (linear t).inverse = .ok (linear u) := by
  rw [inverse, h]
  rfl

theorem inverseSteps_eq_mapM (steps : List (Transform α)) :
    inverseSteps steps = steps.reverse.mapM inverse := by
  induction steps with
  | nil =>
    rw [inverseSteps]
    rfl
  | cons step rest ih =>
    rw [inverseSteps, ih, List.reverse_cons, List.mapM_append]
    simp

theorem length_inverseSteps {back : List (Transform α)} (h : inverseSteps steps = .ok back) :
    back.length = steps.length := by
  rw [inverseSteps_eq_mapM] at h
  rw [length_of_mapM h, List.length_reverse]

theorem inverseSteps_ne_nil {back : List (Transform α)} (hsteps : steps ≠ [])
    (h : inverseSteps steps = .ok back) : back ≠ [] := by
  rw [← List.length_pos_iff, length_inverseSteps h]
  exact List.length_pos_iff.mpr hsteps

theorem exists_inverseSteps_iff :
    (∃ back, inverseSteps steps = .ok back) ↔ ∀ step ∈ steps, ∃ u, step.inverse = .ok u := by
  simp only [inverseSteps_eq_mapM, exists_mapM_iff, List.mem_reverse]

theorem ofKept_of_two_le (dimension : ℕ) (h : 2 ≤ steps.length) :
    ofKept dimension steps = chain steps := by
  match steps, h with
  | _ :: _ :: _, _ => rfl

/-- The inverse of what is made of some steps is made of their inverses. -/
theorem inverse_ofKept (hsteps : steps ≠ []) (dimension dimension' : ℕ) :
    (ofKept dimension steps).inverse = (ofKept dimension' ·) <$> inverseSteps steps := by
  by_cases htwo : 2 ≤ steps.length
  · rw [ofKept_of_two_le dimension htwo, inverse]
    cases hback : inverseSteps steps with
    | error e => rfl
    | ok back =>
      rw [← length_inverseSteps hback] at htwo
      exact congrArg Except.ok (ofKept_of_two_le dimension' htwo).symm
  · have hone : steps.length = 1 := by
      have hpos := List.length_pos_iff.mpr hsteps
      omega
    obtain ⟨step, rfl⟩ := List.length_eq_one_iff.mp hone
    rw [inverseSteps, inverseSteps]
    change step.inverse = _
    cases step.inverse with
    | error e => rfl
    | ok u => rfl

theorem exists_inverse_ofKept_iff (hsteps : steps ≠ []) (dimension : ℕ) :
    (∃ u, (ofKept dimension steps).inverse = .ok u) ↔
      ∀ step ∈ steps, ∃ u, step.inverse = .ok u := by
  rw [← exists_inverseSteps_iff, inverse_ofKept hsteps dimension dimension]
  cases inverseSteps steps with
  | error e => simp
  | ok back => simp

variable [Elementary α] {p q : List α}

theorem length_of_applyPoint (h : t.applyPoint p = .ok q) : p.length = t.source := by
  by_contra hne
  rw [applyPoint_of_length_ne hne] at h
  cases h

/-- Steps that a point passes fit together. -/
theorem fits_of_applyInOrder (h : applyInOrder steps p = .ok q) : Fits p.length steps := by
  induction steps generalizing p with
  | nil => trivial
  | cons step rest ih =>
    rw [applyInOrder_cons] at h
    obtain ⟨r, hr, hrest⟩ := bind_eq_ok.mp h
    have hfits := ih hrest
    rw [length_applyPoint hr] at hfits
    exact ⟨(length_of_applyPoint hr).symm, hfits⟩

/-- What is made of some steps takes a point where they take it. -/
theorem applyPoint_ofKept_of_applyInOrder (hsteps : steps ≠ []) (dimension : ℕ)
    (h : applyInOrder steps p = .ok q) : (ofKept dimension steps).applyPoint p = .ok q := by
  have hany : ofKept dimension steps = ofKept p.length steps := by
    cases steps with
    | nil => exact absurd rfl hsteps
    | cons first rest => cases rest <;> rfl
  rw [hany, applyPoint_ofKept_of_ne_nil hsteps (fits_of_applyInOrder h) rfl, h]

/-- The inverses of the steps, that of the last step first, lead from `q` to `p`. -/
def Retraces (steps : List (Transform α)) (q p : List α) : Prop :=
  ∃ back, inverseSteps steps = .ok back ∧ applyInOrder back q = .ok p

theorem retraces_nil : Retraces [] q p ↔ q = p := by
  simp [Retraces, inverseSteps, applyInOrder, pure, Except.pure]

theorem retraces_append : Retraces (before ++ after) q p ↔
    ∃ r, Retraces after q r ∧ Retraces before r p := by
  have hsplit : inverseSteps (before ++ after) = (do
      let later ← inverseSteps after
      let earlier ← inverseSteps before
      return later ++ earlier) := by
    simp only [inverseSteps_eq_mapM, List.reverse_append, List.mapM_append]
  rw [Retraces, hsplit]
  constructor
  · rintro ⟨back, hback, hpoint⟩
    obtain ⟨later, hlater, hback⟩ := bind_eq_ok.mp hback
    obtain ⟨earlier, hearlier, hback⟩ := bind_eq_ok.mp hback
    cases hback
    rw [applyInOrder_append] at hpoint
    obtain ⟨r, hr, hpoint⟩ := bind_eq_ok.mp hpoint
    exact ⟨r, ⟨later, hlater, hr⟩, earlier, hearlier, hpoint⟩
  · rintro ⟨r, ⟨later, hlater, hr⟩, earlier, hearlier, hpoint⟩
    refine ⟨later ++ earlier, ?_, ?_⟩
    · rw [hlater, hearlier]
      rfl
    · rw [applyInOrder_append, hr]
      exact hpoint

theorem retraces_singleton :
    Retraces [step] q p ↔ ∃ u, step.inverse = .ok u ∧ u.applyPoint q = .ok p := by
  have hone : inverseSteps [step] = (fun u => [u]) <$> step.inverse := by
    rw [inverseSteps, inverseSteps]
    rfl
  rw [Retraces, hone]
  cases step.inverse with
  | error e => simp
  | ok u => simp [applyInOrder]

/-- The way back through some steps is the inverse of what is made of them. -/
theorem Retraces.exists_inverse (hsteps : steps ≠ []) (h : Retraces steps q p) (dimension : ℕ) :
    ∃ u, (ofKept dimension steps).inverse = .ok u ∧ u.applyPoint q = .ok p := by
  obtain ⟨back, hback, hpoint⟩ := h
  have hne := inverseSteps_ne_nil hsteps hback
  refine ⟨ofKept dimension back, ?_, applyPoint_ofKept_of_applyInOrder hne dimension hpoint⟩
  rw [inverse_ofKept hsteps dimension dimension, hback]
  rfl

/-- The lengths of the points that a step which leads back retraces. -/
theorem length_of_retraces {P : Transform α → Prop} (hstep : step.LeadsBack P)
    (h : Retraces [step] q p) : q.length = step.target ∧ p.length = step.source := by
  obtain ⟨u, hu, hpoint⟩ := retraces_singleton.mp h
  obtain ⟨-, hsource, htarget⟩ := hstep u hu
  rw [← hsource, ← htarget]
  exact ⟨length_of_applyPoint hpoint, length_applyPoint hpoint⟩

/-- Through steps that fit together and lead back there is no other way. -/
theorem retraces_iff_inverse {P : Transform α → Prop} {dimension : ℕ} (hsteps : steps ≠ [])
    (hfits : Fits dimension steps) (hleads : AllComposed (LeadsBack P) steps) :
    Retraces steps q p ↔
      ∃ u, (ofKept dimension steps).inverse = .ok u ∧ u.applyPoint q = .ok p := by
  refine ⟨fun h => h.exists_inverse hsteps dimension, ?_⟩
  rintro ⟨u, hu, hpoint⟩
  rw [inverse_ofKept hsteps dimension (lastTarget steps dimension)] at hu
  cases hback : inverseSteps steps with
  | error e =>
    rw [hback] at hu
    cases hu
  | ok back =>
    rw [hback] at hu
    cases hu
    have hne := inverseSteps_ne_nil hsteps hback
    have hfits' : Fits (lastTarget steps dimension) back := (hleads.inverseSteps hfits hback).1
    have hlength := length_of_applyPoint hpoint
    rw [(shape_ofKept hfits').1] at hlength
    rw [applyPoint_ofKept_of_ne_nil hne hfits' hlength] at hpoint
    exact ⟨back, hback, hpoint⟩

/-- The inverse of the transform takes the image of the point back to the point. -/
def UndoneAt (t : Transform α) (p : List α) : Prop :=
  ∃ q u, t.applyPoint p = .ok q ∧ t.inverse = .ok u ∧ u.applyPoint q = .ok p

/-- The inverse of each step undoes it at the point that reaches it. -/
def AllUndoneAt : List (Transform α) → List α → Prop
  | [], _ => True
  | step :: rest, p =>
    step.UndoneAt p ∧ ∀ q, step.applyPoint p = .ok q → AllUndoneAt rest q

theorem AllUndoneAt.retraces (h : AllUndoneAt steps p) :
    ∃ q, applyInOrder steps p = .ok q ∧ Retraces steps q p := by
  induction steps generalizing p with
  | nil => exact ⟨p, rfl, retraces_nil.mpr rfl⟩
  | cons step rest ih =>
    obtain ⟨⟨r, u, hr, hu, hback⟩, hrest⟩ := h
    obtain ⟨q, hq, hretraces⟩ := ih (hrest r hr)
    refine ⟨q, ?_, ?_⟩
    · rw [applyInOrder_cons, hr]
      exact hq
    · rw [← List.singleton_append, retraces_append]
      exact ⟨r, hretraces, retraces_singleton.mpr ⟨u, hu, hback⟩⟩

theorem AllUndoneAt.cons {r : List α} (hr : step.applyPoint p = .ok r) (hstep : step.UndoneAt p)
    (hrest : AllUndoneAt steps r) : AllUndoneAt (step :: steps) p := by
  refine ⟨hstep, fun q hq => ?_⟩
  obtain rfl : r = q := Except.ok.inj (hr.symm.trans hq)
  exact hrest

/-- What is made of steps that are undone is undone by its inverse. -/
theorem AllUndoneAt.undoneAt_ofKept (h : AllUndoneAt steps p) (hsteps : steps ≠ [])
    (dimension : ℕ) : (ofKept dimension steps).UndoneAt p := by
  obtain ⟨q, hq, hretraces⟩ := h.retraces
  obtain ⟨u, hu, hback⟩ := hretraces.exists_inverse hsteps dimension
  exact ⟨q, u, applyPoint_ofKept_of_applyInOrder hsteps dimension hq, hu, hback⟩

/-- An inverse that undoes a transform somewhere leads from its target to its source. -/
theorem UndoneAt.dimensions (h : t.UndoneAt p) {u : Transform α} (hu : t.inverse = .ok u) :
    u.source = t.target ∧ u.target = t.source := by
  obtain ⟨q, u', hq, hu', hback⟩ := h
  obtain rfl : u' = u := Except.ok.inj (hu'.symm.trans hu)
  constructor
  · rw [← length_of_applyPoint hback, length_applyPoint hq]
  · rw [← length_applyPoint hback, length_of_applyPoint hq]

end Chains

end Transform

namespace Projective

variable {K : Type} [Field K] [LinearOrder K] {n m k : ℕ} {first second t u : Projective K}
  {point : List K}

/-- Where a matrix has a denominator, a left inverse undoes it; its denominator is the
reciprocal. -/
theorem image_image_of_mul_eq_one (hfirst : first.HasShape n k) (hsecond : second.HasShape k n)
    (hmul : second.matrix.toMatrix (n + 1) (k + 1) * first.matrix.toMatrix (k + 1) (n + 1) = 1)
    (hp : point.length = n) (hw : first.denominator point ≠ 0) :
    second.image (first.image point) = point ∧
      second.denominator (first.image point) = (first.denominator point)⁻¹ := by
  have hlength : (first.image point).length = k := by rw [length_image, hfirst.target]
  have hlift : second.lift k n (first.image point) =
      (first.denominator point)⁻¹ • homogeneous n point := by
    rw [lift_image hfirst hp hw, lift, Matrix.mulVec_mulVec, hmul, Matrix.one_mulVec]
  constructor
  · rw [image_eq hsecond hlength, hlift, ofHomogeneous_smul _ (inv_ne_zero hw),
      ofHomogeneous_homogeneous hp]
  · rw [denominator_eq hsecond hlength, hlift, Pi.smul_apply, homogeneous_last, smul_eq_mul,
      mul_one]

variable [IsStrictOrderedRing K]

/-- An inverse is one of a square matrix, and has its shape. -/
theorem matrix_of_inverse (h : t.HasShape n m) (hu : t.inverse = .ok u) :
    m = n ∧ u.HasShape n n ∧
      u.matrix.toMatrix (n + 1) (n + 1) * t.matrix.toMatrix (n + 1) (n + 1) = 1 := by
  obtain ⟨x, hx, hux⟩ := bind_eq_ok.mp hu
  cases hux
  obtain ⟨hsquare, hrow, hcol, hleft⟩ := StoredMatrix.inverse_ok hx
  have hmn : m = n := by
    rw [h.numRow, h.numCol] at hsquare
    omega
  subst hmn
  rw [h.numRow] at hrow hcol hleft
  exact ⟨rfl, ⟨hrow, hcol, (StoredMatrix.canonical_inverse hx).consistent⟩, hleft⟩

theorem image_inverse (h : t.HasShape n m) (hu : t.inverse = .ok u) (hp : point.length = n)
    (hw : t.denominator point ≠ 0) : u.image (t.image point) = point := by
  obtain ⟨rfl, hshape, hmul⟩ := matrix_of_inverse h hu
  exact (image_image_of_mul_eq_one h hshape hmul hp hw).1

end Projective

namespace Transform

section Exact

variable {K : Type} [Field K] [LinearOrder K] [IsStrictOrderedRing K] [Elementary K]

/-- A matrix with an inverse is undone where it has a denominator. -/
theorem undoneAt_linear {t u : Projective K} {p : List K} (h : (linear t).WellFormed)
    (hu : t.inverse = .ok u) (hp : p.length = t.source) (hw : t.denominator p ≠ 0) :
    (linear t).UndoneAt p := by
  rw [WellFormed] at h
  obtain ⟨htarget, hshape, -⟩ := Projective.matrix_of_inverse h hu
  refine ⟨t.image p, linear u, applyPoint_linear hp, inverse_linear hu, ?_⟩
  rw [applyPoint_linear, Projective.image_inverse h hu hp hw]
  rw [Projective.length_image, hshape.source, htarget]

omit [Elementary K] in
theorem inverse_identity (dimension : ℕ) :
    (linear (.identity dimension) : Transform K).inverse = .ok (linear (.identity dimension)) := by
  apply inverse_linear
  rw [Projective.inverse, Projective.identity, StoredMatrix.inverse_identity]
  rfl

theorem undoneAt_identity {dimension : ℕ} {p : List K} (hp : p.length = dimension) :
    (linear (.identity dimension) : Transform K).UndoneAt p :=
  ⟨p, _, applyPoint_identity hp, inverse_identity dimension, applyPoint_identity hp⟩

end Exact

/-- In any arithmetic, a concatenation that keeps some step has an inverse if every kept step does,
and is undone by it wherever each kept step is undone by its own. In exact arithmetic one that keeps
none is its own inverse, and a matrix with an inverse is undone by it wherever it has a
denominator. -/
theorem concatenate_undone :
    (∀ (α : Type) [Scalar α] [Elementary α] (steps : List (Transform α)) t,
      concatenate steps = .ok t → ∃ kept, keptSteps steps = .ok kept ∧ (kept ≠ [] →
        ((∃ u, t.inverse = .ok u) ↔ ∀ step ∈ kept, ∃ u, step.inverse = .ok u) ∧
        ∀ p, AllUndoneAt kept p → t.UndoneAt p ∧
          ∀ u, t.inverse = .ok u → u.source = t.target ∧ u.target = t.source)) ∧
    ∀ (K : Type) [Field K] [LinearOrder K] [IsStrictOrderedRing K] [Elementary K],
      (∀ (steps : List (Transform K)) t, concatenate steps = .ok t → keptSteps steps = .ok [] →
        t.inverse = .ok t ∧ t.source = t.target ∧ ∀ p, p.length = t.source → t.UndoneAt p) ∧
      ∀ (t u : Projective K) p, (linear t).WellFormed → t.inverse = .ok u →
        p.length = t.source → t.denominator p ≠ 0 →
          u.image (t.image p) = p ∧ (linear t).UndoneAt p := by
  refine ⟨?_, fun K => ⟨?_, ?_⟩⟩
  · intro α _ _ steps t h
    obtain ⟨-, kept, hkept, rfl⟩ := concatenate_eq_ok.mp h
    refine ⟨kept, hkept, fun hne => ⟨exists_inverse_ofKept_iff hne _, fun p hp => ?_⟩⟩
    have hundone := hp.undoneAt_ofKept hne (chain steps).source
    exact ⟨hundone, fun u hu => hundone.dimensions hu⟩
  · intro steps t h hnone
    obtain ⟨-, kept, hkept, rfl⟩ := concatenate_eq_ok.mp h
    obtain rfl : [] = kept := Except.ok.inj (hnone.symm.trans hkept)
    have hempty : Fits (chain steps).source ([] : List (Transform K)) := trivial
    obtain ⟨hsource, htarget⟩ := shape_ofKept hempty
    refine ⟨inverse_identity _, ?_, fun p hp => undoneAt_identity (hp.trans hsource)⟩
    rw [hsource, htarget, lastTarget]
  · intro t u p h hu hp hw
    refine ⟨?_, undoneAt_linear h hu hp hw⟩
    rw [WellFormed] at h
    exact Projective.image_inverse h hu hp hw

/-- A line, a reciprocal and a perspective, from three to an eighth and back. -/
theorem concatenate_undone_eighth :
    letI : Elementary ℚ := Exact.quarterTurns
    let line : Projective ℚ := ⟨.small 2 (by decide) (.of2 2 1 0 1)⟩
    let perspective : Projective ℚ := ⟨.flat ⟨2, 2, #[1, 0, 1, 1]⟩⟩
    let reciprocal : ExternalTransform ℚ :=
      { source := 1
        target := 1
        run := Batch.pointwise 1 1 fun point => .ok [1 / point.headD 0]
        length_run := Batch.length_pointwise fun _ _ h => by cases h; rfl }
    let steps : List (Transform ℚ) :=
      [linear line, external reciprocal (.ok (external reciprocal (.error .noConvergence))),
        linear perspective]
    ∃ t, concatenate steps = .ok t ∧ t.applyPoint [3] = .ok [1 / 8] ∧ t.UndoneAt [3] := by
  let _ : Elementary ℚ := Exact.quarterTurns
  intro line perspective reciprocal steps
  have hline : (linear line).isIdentity = false := by decide +kernel
  have hperspective : (linear perspective).isIdentity = false := by decide +kernel
  have hkept : keptSteps steps = .ok steps := by
    simp only [steps, keptSteps, List.foldlM_cons, Concatenation.add, hline, hperspective]
    rfl
  have hline' : line.inverse = .ok ⟨.small 2 (by decide) (.of2 (1 / 2) (-1 / 2) 0 1)⟩ := by
    decide +kernel
  have hperspective' : perspective.inverse =
      .ok ⟨.small 2 (by decide) (.of2 1 0 (-1) 1)⟩ := by decide +kernel
  have hundo := (concatenate_undone.2 ℚ).2
  have hall : AllUndoneAt steps [3] := by
    apply AllUndoneAt.cons (r := [7]) (by decide +kernel)
    · exact (hundo line _ [3] ⟨rfl, rfl, rfl⟩ hline' rfl (by decide +kernel)).2
    apply AllUndoneAt.cons (r := [1 / 7]) (by decide +kernel)
    · exact ⟨[1 / 7], _, by decide +kernel, rfl, by decide +kernel⟩
    apply AllUndoneAt.cons (r := [1 / 8]) (by decide +kernel)
    · exact (hundo perspective _ [1 / 7] ⟨rfl, rfl, rfl⟩ hperspective' rfl (by decide +kernel)).2
    trivial
  have hpoint : (concatenate steps).toOption.map (fun t => t.applyPoint [3]) =
      some (.ok [1 / 8]) := by decide +kernel
  obtain ⟨t, h⟩ : ∃ t, concatenate steps = .ok t := exists_of_isOk (by decide +kernel)
  obtain ⟨kept, hkept', hundone⟩ := concatenate_undone.1 ℚ steps t h
  obtain rfl : steps = kept := Except.ok.inj (hkept.symm.trans hkept')
  rw [h] at hpoint
  exact ⟨t, h, Option.some.inj hpoint, ((hundone (by simp [steps])).2 [3] hall).1⟩

end Transform

end Georeferencing
