import Georeferencing.Proofs.Projection.Batches
import Georeferencing.Proofs.Transform.Refusals

/-! # Projecting never fails

A matrix and a projection have an image for every point of their dimension, whatever the arithmetic
makes of it, and chains that fit pass this on: each step is given as many ordinates as it takes. So
projecting a pair succeeds, a buffer is refused only for a pair that is not complete, and a matrix
in front of a projection or behind it only for its dimensions.
-/

namespace Georeferencing

variable {α : Type} [Scalar α] [Elementary α]

namespace Transform

variable {steps : List (Transform α)} {t : Transform α} {dimension : ℕ}

/-- Every point of the right dimension has an image. -/
def NeverFails (t : Transform α) : Prop :=
  ∀ p : List α, p.length = t.source → ∃ q, t.applyPoint p = .ok q

theorem neverFails_linear (t : Projective α) : (linear t).NeverFails := fun _ hp =>
  ⟨_, applyPoint_linear hp⟩

omit [Elementary α] in
theorem composable_mercator (m : Mercator α) : (mercator m).Composable :=
  (composed_mercator (P := fun _ => True) m).composable nofun

theorem neverFails_mercator (m : Mercator α) : (mercator m).NeverFails := by
  intro p hp
  obtain ⟨lambda, phi, rfl⟩ := List.length_eq_two.mp hp
  exact ⟨_, applyPoint_mercator m lambda phi⟩

/-- Each step gives the next one a point of the right dimension. -/
theorem exists_applyInOrder (hsteps : ∀ step ∈ steps, step.NeverFails) {p : List α}
    (hfits : Fits p.length steps) : ∃ q, applyInOrder steps p = .ok q := by
  induction steps generalizing p with
  | nil => exact ⟨p, rfl⟩
  | cons step rest ih =>
    rw [List.forall_mem_cons] at hsteps
    obtain ⟨hsource, hrest⟩ := hfits
    obtain ⟨q, hq⟩ := hsteps.1 p hsource.symm
    rw [← length_applyPoint hq] at hrest
    obtain ⟨r, hr⟩ := ih hsteps.2 hrest
    exact ⟨r, (applyInOrder_cons_ok hq rest).trans hr⟩

theorem neverFails_ofKept (hfits : Fits dimension steps)
    (hsteps : ∀ step ∈ steps, step.NeverFails) : (ofKept dimension steps).NeverFails := by
  by_cases hnil : steps = []
  -- what is left of steps that cancel is an identity matrix
  · subst hnil
    exact neverFails_linear _
  · intro p hp
    rw [(shape_ofKept hfits).1] at hp
    rw [applyPoint_ofKept_of_ne_nil hnil hfits hp]
    exact exists_applyInOrder hsteps (hp ▸ hfits)

/-- A product of matrices is a matrix, so concatenation keeps only steps that do not fail. -/
theorem neverFails_concatenate (h : concatenate steps = .ok t)
    (hsteps : ∀ step ∈ steps, step.NeverFails) (hcomposable : ∀ step ∈ steps, step.Composable) :
    t.NeverFails := by
  obtain ⟨-, kept, hkept, rfl⟩ := concatenate_eq_ok.mp h
  obtain ⟨hfits, -⟩ := fits_keptSteps hkept fun step hstep => (hcomposable step hstep).identity
  exact neverFails_ofKept hfits
    (keptSteps_forall (fun _ _ _ => neverFails_linear _) hkept hsteps)

end Transform

namespace MapProjection

open Transform

variable {params : ProjectionParameters α} {p : MapProjection α}

theorem concatenate_steps (h : mercator params = .ok p) :
    concatenate p.steps = .ok p.transform := by
  rw [mercator] at h
  obtain ⟨_, -, h⟩ := bind_eq_ok.mp h
  obtain ⟨factor, -, h⟩ := bind_eq_ok.mp h
  obtain ⟨t, ht, hp⟩ := bind_eq_ok.mp h
  cases hp
  exact ht

theorem hasShape_steps (h : mercator params = .ok p) :
    p.normalize.HasShape 2 2 ∧ p.denormalize.HasShape 2 2 := by
  obtain ⟨factor, -, -, -, hn, hd, -⟩ := mercator_ok h
  exact ⟨hn ▸ ⟨rfl, rfl, rfl⟩, hd ▸ ⟨rfl, rfl, rfl⟩⟩

theorem forall_steps {Q : Transform α → Prop} (hlinear : ∀ t : Projective α, t.HasShape 2 2 →
    Q (.linear t)) (hmercator : ∀ m, Q (.mercator m)) (h : mercator params = .ok p) :
    ∀ step ∈ p.steps, Q step := by
  obtain ⟨hn, hd⟩ := hasShape_steps h
  simp only [steps, List.forall_mem_cons, List.not_mem_nil, false_imp_iff, implies_true, and_true]
  exact ⟨hlinear _ hn, hmercator _, hlinear _ hd⟩

theorem composable_steps (h : mercator params = .ok p) : ∀ step ∈ p.steps, step.Composable := by
  refine forall_steps (fun t ht => composable_linear.mpr ?_) composable_mercator h
  rw [ht.numRow, ht.numCol]
  exact ⟨by decide, by decide⟩

theorem neverFails_steps (h : mercator params = .ok p) : ∀ step ∈ p.steps, step.NeverFails :=
  forall_steps (fun t _ => neverFails_linear t) neverFails_mercator h

theorem isChain_steps (h : mercator params = .ok p) : p.steps.IsChain Follows := by
  obtain ⟨hn, hd⟩ := hasShape_steps h
  exact .cons_cons hn.target.symm (.cons_cons hd.source (.singleton _))

theorem exists_forward (h : mercator params = .ok p) (lon lat : α) :
    ∃ q, p.forward lon lat = .ok q := by
  obtain ⟨-, hsource, -⟩ := composed_transform h
  have htotal := neverFails_concatenate (concatenate_steps h) (neverFails_steps h)
    (composable_steps h)
  obtain ⟨q, hq⟩ := htotal [lon, lat] hsource.symm
  obtain ⟨x, y, rfl⟩ := exists_pair_of_applyPoint h hq
  exact ⟨(x, y), (forward_eq_ok h).mpr hq⟩

/-- A buffer of complete pairs is projected. -/
theorem failure?_forwardAll (h : mercator params = .ok p) {coords : List α}
    (heven : coords.length % 2 = 0) : (p.forwardAll coords).failure? = none := by
  obtain ⟨buffer, hbuffer⟩ :=
    (forwardAll_pairs h heven).1.mpr fun k _ => exists_forward h _ _
  exact (Batch.result_eq_ok.mp hbuffer).1

variable {g : Projective α} {t : Transform α} {e : TransformError α}

theorem after_eq_error_iff (h : mercator params = .ok p) (hg : (linear g).Composable) :
    p.after g = .error e ↔ g.target ≠ 2 ∧ e = .mismatchedDimension g.target 2 := by
  have hsteps : ∀ step ∈ linear g :: p.steps, step.Composable :=
    List.forall_mem_cons.mpr ⟨hg, composable_steps h⟩
  have hsource : (linear p.normalize).source = 2 := (hasShape_steps h).1.source
  have hbefore : ([] ++ [linear g]).IsChain Follows := .singleton _
  refine (concatenate_joined_eq_error_iff hsteps hbefore (isChain_steps h)).trans ?_
  rw [hsource, ne_comm]
  rfl

theorem andThen_eq_error_iff (h : mercator params = .ok p) (hg : (linear g).Composable) :
    p.andThen g = .error e ↔ g.source ≠ 2 ∧ e = .mismatchedDimension 2 g.source := by
  have hsteps : ∀ step ∈ p.steps ++ [linear g], step.Composable :=
    List.forall_mem_append.mpr ⟨composable_steps h, by simpa using hg⟩
  have htarget : (linear p.denormalize).target = 2 := (hasShape_steps h).2.target
  have hbefore : ([linear p.normalize, .mercator p.kernel] ++ [linear p.denormalize]).IsChain
      Follows := isChain_steps h
  refine (concatenate_joined_eq_error_iff hsteps hbefore (.singleton _)).trans ?_
  rw [htarget]
  rfl

/-- With a matrix in front, a projection takes the points that the matrix takes. -/
theorem after_ok (h : mercator params = .ok p) (hg : (linear g).Composable)
    (ht : p.after g = .ok t) : t.source = g.source ∧ t.target = 2 ∧ t.NeverFails := by
  have hcomposable : ∀ step ∈ linear g :: p.steps, step.Composable :=
    List.forall_mem_cons.mpr ⟨hg, composable_steps h⟩
  have hnever : ∀ step ∈ linear g :: p.steps, step.NeverFails :=
    List.forall_mem_cons.mpr ⟨neverFails_linear g, neverFails_steps h⟩
  obtain ⟨hsource, htarget⟩ :=
    shape_concatenate ht fun step hstep => (hcomposable step hstep).identity
  exact ⟨hsource, htarget.trans (hasShape_steps h).2.target,
    neverFails_concatenate ht hnever hcomposable⟩

/-- With a matrix behind it, a projection gives the points that the matrix gives. -/
theorem andThen_ok (h : mercator params = .ok p) (hg : (linear g).Composable)
    (ht : p.andThen g = .ok t) : t.source = 2 ∧ t.target = g.target ∧ t.NeverFails := by
  have hcomposable : ∀ step ∈ p.steps ++ [linear g], step.Composable :=
    List.forall_mem_append.mpr ⟨composable_steps h, List.forall_mem_singleton.mpr hg⟩
  have hnever : ∀ step ∈ p.steps ++ [linear g], step.NeverFails :=
    List.forall_mem_append.mpr
      ⟨neverFails_steps h, List.forall_mem_singleton.mpr (neverFails_linear g)⟩
  obtain ⟨hsource, htarget⟩ :=
    shape_concatenate ht fun step hstep => (hcomposable step hstep).identity
  exact ⟨hsource.trans (hasShape_steps h).1.source, htarget,
    neverFails_concatenate ht hnever hcomposable⟩

/-- In any arithmetic every pair is projected, whatever its ordinates are, and a buffer is refused
only for an odd length, and left as it is. A matrix in front of the projection or behind it is
refused only for the dimension on its inner side; otherwise every point of the dimension on the
outer side is transformed. -/
theorem projection_never_fails (h : mercator params = .ok p) :
    (∀ lon lat, ∃ q, p.forward lon lat = .ok q) ∧
    (∀ coords : List α,
      (coords.length % 2 = 1 →
        p.forwardAll coords = ⟨coords, some (.mismatchedDimension 2 coords.length)⟩) ∧
      (coords.length % 2 = 0 → (p.forwardAll coords).failure? = none)) ∧
    ∀ g : Projective α, 0 < g.matrix.numRow → 0 < g.matrix.numCol →
      (∀ e, p.after g = .error e ↔ g.target ≠ 2 ∧ e = .mismatchedDimension g.target 2) ∧
      (∀ t, p.after g = .ok t → t.source = g.source ∧ t.target = 2 ∧ t.NeverFails) ∧
      (∀ e, p.andThen g = .error e ↔ g.source ≠ 2 ∧ e = .mismatchedDimension 2 g.source) ∧
      ∀ t, p.andThen g = .ok t → t.source = 2 ∧ t.target = g.target ∧ t.NeverFails := by
  refine ⟨exists_forward h, fun coords => ⟨?_, failure?_forwardAll h⟩, fun g hrow hcol => ?_⟩
  · intro hodd
    rw [forwardAll, if_neg (by omega)]
  · have hg : (linear g).Composable := composable_linear.mpr ⟨hrow, hcol⟩
    exact ⟨fun e => after_eq_error_iff h hg, fun t => after_ok h hg,
      fun e => andThen_eq_error_iff h hg, fun t => andThen_ok h hg⟩

/-- A latitude far beyond the pole of a sphere, and a matrix that makes points of the plane from
numbers. -/
theorem projection_never_fails_line :
    letI : Elementary ℚ := Exact.quarterTurns
    let params : ProjectionParameters ℚ :=
      { ellipsoid := .sphere 1
        variant := .equatorScale
        centralMeridian := 0
        scaleFactor := 2
        standardParallel := 0
        falseEasting := 1
        falseNorthing := 0 }
    let line : Projective ℚ := ⟨.flat ⟨3, 2, #[1, 0, 2, 5, 0, 1]⟩⟩
    ∃ p, mercator params = .ok p ∧ (∃ q, p.forward 180 1000 = .ok q) ∧
      (p.forwardAll [180, 1000, 7]).buffer = [180, 1000, 7] ∧
      (∃ t q, p.after line = .ok t ∧ t.applyPoint [7] = .ok q) ∧
      p.andThen line = .error (.mismatchedDimension 2 1) := by
  let _ : Elementary ℚ := Exact.quarterTurns
  intro params line
  obtain ⟨p, hp⟩ : ∃ p, mercator params = .ok p := exists_of_isOk (by decide +kernel)
  obtain ⟨hforward, hbuffer, hmatrix⟩ := projection_never_fails hp
  obtain ⟨hafter, hpoints, hbehind, -⟩ := hmatrix line (by decide) (by decide)
  have hodd := (hbuffer [180, 1000, 7]).1 rfl
  refine ⟨p, hp, hforward 180 1000, by rw [hodd], ?_, (hbehind _).mpr ⟨by decide, rfl⟩⟩
  cases ht : p.after line with
  | error e => exact absurd rfl ((hafter e).mp ht).1
  | ok t =>
    obtain ⟨hsource, -, htotal⟩ := hpoints t ht
    obtain ⟨q, hq⟩ := htotal [7] hsource.symm
    exact ⟨t, q, rfl, hq⟩

end MapProjection

end Georeferencing
