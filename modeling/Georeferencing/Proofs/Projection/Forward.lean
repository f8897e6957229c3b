import Georeferencing.Proofs.Transform.Concatenation
import Georeferencing.Projection.MapProjection

/-! # The forward projection

A map projection holds what concatenation leaves of its three steps: the kernel, and the matrix
steps that are not the identity. Projecting a point in place is applying these in order.
-/

namespace Georeferencing

variable {α : Type}

theorem Batch.result_within_whole {source target : ℕ} {run : List α → List α → Batch α}
    {pts : List α} (hsource : pts.length = source) (htarget : pts.length = target) :
    (within source target run pts 0 0).result = (run pts pts).result := by
  subst hsource htarget
  simp [within, capacityFault?, result]

variable [Scalar α]

namespace Transform

/-- A matrix as a list of steps, empty if it is the identity. -/
def unlessIdentity (t : Projective α) : List (Transform α) :=
  if t.isIdentity then [] else [linear t]

theorem linked_unlessIdentity {t : Projective α} {n : ℕ} (h : t.HasShape n n) :
    Linked n (unlessIdentity t) ∧ lastTarget (unlessIdentity t) n = n := by
  rw [unlessIdentity]
  split
  · exact ⟨trivial, rfl⟩
  · have hwf : (linear t).WellFormed := by
      rwa [WellFormed, h.source, h.target]
    exact ⟨⟨h.source, hwf, trivial⟩, h.target⟩

/-- A projection of the plane between two matrices: only matrices that are the identity are
dropped. -/
theorem concatenate_between {n d : Projective α} (m : Mercator α) (hns : n.source = 2)
    (hnt : n.target = 2) (hds : d.source = 2) :
    concatenate [linear n, mercator m, linear d] =
      .ok (ofKept 2 (unlessIdentity n ++ mercator m :: unlessIdentity d)) := by
  unfold unlessIdentity
  by_cases hn : n.isIdentity = true <;> by_cases hd : d.isIdentity = true <;>
    simp [concatenate, Concatenation.add, source, target, isIdentity, keepLinear, hns, hnt, hds,
      hn, hd] <;>
    rfl

variable [Elementary α]

theorem applyWithin_mercator (m : Mercator α) (lambda phi : α) :
    ((mercator m).applyWithin [lambda, phi] 0 0 1).result =
      applyInOrder [mercator m] [lambda, phi] := by
  rw [applyInOrder_cons, applyPoint_mercator]
  rfl

theorem applyWithin_chain {steps : List (Transform α)} {pts : List α}
    (h : (chain steps).WellFormed) (hsource : pts.length = (chain steps).source)
    (htarget : pts.length = (chain steps).target) :
    ((chain steps).applyWithin pts 0 0 1).result = applyInOrder steps pts := by
  unfold applyWithin
  rw [Batch.result_within_whole (by omega) (by omega)]
  exact result_applyBatch_chain h.fits hsource htarget

/-- Steps around a projection of the plane, applied to a point in place. -/
theorem applyWithin_ofKept {m : Mercator α} {before after : List (Transform α)}
    (hlinked : Linked 2 (before ++ mercator m :: after))
    (htarget : lastTarget (before ++ mercator m :: after) 2 = 2) (lambda phi : α) :
    ((ofKept 2 (before ++ mercator m :: after)).applyWithin [lambda, phi] 0 0 1).result =
      applyInOrder (before ++ mercator m :: after) [lambda, phi] := by
  have hchain : ∀ steps : List (Transform α), 2 ≤ steps.length → Linked 2 steps →
      lastTarget steps 2 = 2 → ((ofKept 2 steps).applyWithin [lambda, phi] 0 0 1).result =
        applyInOrder steps [lambda, phi] := by
    intro steps hlength hsteps hlast
    match steps, hlength with
    | first :: second :: rest, _ =>
      have hsource : (chain (first :: second :: rest)).source = 2 := hsteps.1
      apply applyWithin_chain
      · rwa [WellFormed, hsource]
      · exact hsource.symm
      · exact hlast.symm
  cases before with
  | nil =>
    cases after with
    | nil => exact applyWithin_mercator m lambda phi
    | cons step rest => exact hchain _ (by simp) hlinked htarget
  | cons step rest =>
    apply hchain _ _ hlinked htarget
    simp only [List.length_append, List.length_cons]
    omega

end Transform

namespace ProjectionParameters

variable {params : ProjectionParameters α}

/-- An accepted ellipsoid has a positive and finite semi-major axis. -/
theorem semiMajor_of_checkEllipsoid (h : params.checkEllipsoid = .ok ()) :
    0 < params.ellipsoid.semiMajor ∧ Scalar.isFinite params.ellipsoid.semiMajor = true := by
  simp only [checkEllipsoid] at h
  split at h
  · next ha => exact ha
  · cases h

/-- An accepted scale factor is positive and finite. -/
theorem pos_of_equatorFactor [Elementary α] {factor : α} (h : params.equatorFactor = .ok factor) :
    0 < factor ∧ Scalar.isFinite factor = true := by
  rw [equatorFactor] at h
  obtain ⟨given, -, h⟩ := bind_eq_ok.mp h
  split at h
  · next hfactor =>
    cases h
    exact hfactor
  · cases h

end ProjectionParameters

namespace MapProjection

/-- The steps that concatenation keeps. -/
def activeSteps (p : MapProjection α) : List (Transform α) :=
  Transform.unlessIdentity p.normalize ++
    .mercator p.kernel :: Transform.unlessIdentity p.denormalize

theorem linked_activeSteps {p : MapProjection α} (hn : p.normalize.HasShape 2 2)
    (hd : p.denormalize.HasShape 2 2) :
    Transform.Linked 2 p.activeSteps ∧ Transform.lastTarget p.activeSteps 2 = 2 := by
  rcases Transform.linked_unlessIdentity hn with ⟨hlinked, htarget⟩
  rcases Transform.linked_unlessIdentity hd with ⟨hlinked', htarget'⟩
  rw [activeSteps, Transform.linked_append, Transform.lastTarget_append, htarget]
  exact ⟨⟨hlinked, rfl, trivial, hlinked'⟩, htarget'⟩

variable [Elementary α]

/-- What the steps of a projection are made from, and what becomes of them. -/
theorem mercator_ok {params : ProjectionParameters α} {p : MapProjection α}
    (h : mercator params = .ok p) :
    ∃ factor, params.checkEllipsoid = .ok () ∧ params.equatorFactor = .ok factor ∧
      p.kernel = params.kernel ∧ p.normalize = params.normalize ∧
      p.denormalize = params.denormalize factor ∧
      p.transform = Transform.ofKept 2 p.activeSteps := by
  rw [mercator] at h
  obtain ⟨u, hcheck, h⟩ := bind_eq_ok.mp h
  obtain ⟨factor, hfactor, h⟩ := bind_eq_ok.mp h
  obtain ⟨t, ht, hp⟩ := bind_eq_ok.mp h
  rw [Transform.concatenate_between params.kernel rfl rfl rfl] at ht
  cases ht
  cases hp
  exact ⟨factor, hcheck, hfactor, rfl, rfl, rfl, rfl⟩

/-- There is a projection if the ellipsoid and the scale factor are accepted. -/
theorem exists_mercator {params : ProjectionParameters α} {factor : α}
    (hcheck : params.checkEllipsoid = .ok ()) (hfactor : params.equatorFactor = .ok factor) :
    ∃ p, mercator params = .ok p := by
  have ht := Transform.concatenate_between (n := params.normalize)
    (d := params.denormalize factor) params.kernel rfl rfl rfl
  exact ⟨_, bind_eq_ok.mpr ⟨(), hcheck, bind_eq_ok.mpr ⟨factor, hfactor,
    bind_eq_ok.mpr ⟨_, ht, rfl⟩⟩⟩⟩

/-- Projecting a point in place applies the kept steps in order. -/
theorem forward_eq {params : ProjectionParameters α} {p : MapProjection α}
    (h : mercator params = .ok p) (lon lat : α) :
    p.forward lon lat = (do
      let pts ← Transform.applyInOrder p.activeSteps [lon, lat]
      return (pts.getD 0 0, pts.getD 1 0)) := by
  rcases mercator_ok h with ⟨factor, -, -, -, hn, hd, ht⟩
  have hshape : p.normalize.HasShape 2 2 := hn ▸ ⟨rfl, rfl, rfl⟩
  have hshape' : p.denormalize.HasShape 2 2 := hd ▸ ⟨rfl, rfl, rfl⟩
  rcases linked_activeSteps hshape hshape' with ⟨hlinked, htarget⟩
  rw [forward, ht]
  exact congrArg (· >>= _) (Transform.applyWithin_ofKept hlinked htarget lon lat)

end MapProjection

end Georeferencing
