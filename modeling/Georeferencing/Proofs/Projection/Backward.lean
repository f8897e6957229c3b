import Georeferencing.Proofs.Projection.Forward
import Georeferencing.Proofs.Transform.Undoing

/-! # The way back from a map

A map projection leads back from the map by inverting its three steps one by one. The transform that
concatenation made of the steps can be inverted as a whole too. It lacks the matrices that are the
identity; these are their own inverses and leave every point where it is, so both ways lead to the
same place, or neither does.
-/

namespace Georeferencing

/-- What passes for the identity is held as the identity is. -/
theorem Projective.eq_identity {K : Type} [Field K] [LinearOrder K] {n : ℕ} {t : Projective K}
    (h : t.HasShape n n) (hheld : t.matrix.Canonical) (hid : t.isIdentity = true) :
    t = .identity n := by
  obtain ⟨-, hone⟩ := matrix_of_isIdentity h hid
  have hmatrix := hheld.eq_ofMatrix h.numRow h.numCol
  rw [hone, ← StoredMatrix.identity_eq] at hmatrix
  exact congrArg Projective.mk hmatrix

namespace Transform

section Steps

variable {α : Type} [Scalar α] {P : Transform α → Prop}

theorem allComposed_unlessIdentity (t : Projective α) : AllComposed P (unlessIdentity t) := by
  rw [unlessIdentity, allComposed_iff]
  split
  · simp
  · simpa using composed_linear t

variable [Elementary α] {q p : List α}

theorem retraces_mercator {m : Mercator α} {x y : α} :
    Retraces [mercator m] [x, y] p ↔ m.unprojectPoint [x, y] = .ok p := by
  rw [retraces_singleton, inverse, ← applyPoint_inverseMercator]
  simp

/-- The points that a step between points of the plane retraces have two ordinates. -/
theorem Retraces.exists_pair {step : Transform α} (h : Retraces [step] q p)
    (hstep : step.Composed (LeadsBack fun _ => True)) (hsource : step.source = 2) :
    ∃ a b, p = [a, b] := by
  rw [← List.length_eq_two, (length_of_retraces hstep.leadsBack h).2, hsource]

end Steps

variable {K : Type} [Field K] [LinearOrder K] [IsStrictOrderedRing K] [Elementary K] {n : ℕ}
  {t : Projective K} {q p : List K}

/-- To retrace a matrix that passes for the identity is to stay. -/
theorem retraces_unlessIdentity (h : t.HasShape n n) (hheld : t.matrix.Canonical)
    (hq : q.length = n) : Retraces (unlessIdentity t) q p ↔ Retraces [linear t] q p := by
  rw [unlessIdentity]
  split
  · next hid =>
    obtain rfl := Projective.eq_identity h hheld hid
    rw [retraces_nil, retraces_singleton, inverse_identity]
    simp [applyPoint_identity hq]
  · rfl

omit [IsStrictOrderedRing K] in
/-- A matrix that passes for the identity may be left out. -/
theorem applyInOrder_unlessIdentity (h : t.HasShape n n) (hp : p.length = n) :
    applyInOrder (unlessIdentity t) p = applyInOrder [linear t] p := by
  rw [unlessIdentity]
  split
  · next hid =>
    rw [applyInOrder_cons, applyPoint_linear (hp.trans h.source.symm),
      (Projective.image_of_isIdentity h hp hid).2]
    rfl
  · rfl

end Transform

namespace MapProjection

open Transform

section Steps

variable {α : Type} [Scalar α] [Elementary α] {x y : α} {q : α × α}

theorem undo_eq_ok {t : Projective α} (ht : t.source = 2) :
    undo t x y = .ok q ↔ Retraces [linear t] [x, y] [q.1, q.2] := by
  constructor
  · intro h
    obtain ⟨u, hu, h⟩ := bind_eq_ok.mp h
    obtain ⟨p, hp, h⟩ := bind_eq_ok.mp h
    have hretraces := retraces_singleton.mpr
      ⟨linear u, inverse_linear (TransformError.ofMatrix_eq_ok.mp hu), hp⟩
    obtain ⟨a, b, rfl⟩ := hretraces.exists_pair (composed_linear t) ht
    cases h
    exact hretraces
  · intro h
    obtain ⟨u, hu, hp⟩ := retraces_singleton.mp h
    rw [inverse] at hu
    obtain ⟨back, hback, hu⟩ := bind_eq_ok.mp hu
    cases hu
    rw [undo, hback]
    change ((linear back).applyPoint [x, y] >>= _) = _
    rw [hp]
    rfl

theorem unproject_eq_ok {m : Mercator α} :
    m.unproject x y = .ok q ↔ Retraces [.mercator m] [x, y] [q.1, q.2] := by
  rw [retraces_mercator, Mercator.unproject, Mercator.unprojectPoint]
  cases m.ordinateToLatitude y with
  | error e => simp
  | ok phi =>
    change Except.ok (x, phi) = _ ↔ Except.ok [x, phi] = _
    simp [Prod.ext_iff]

/-- The way back retraces the three steps. -/
theorem retraces_steps {p : MapProjection α} (hn : p.normalize.source = 2)
    (hd : p.denormalize.source = 2) {r : List α} :
    Retraces p.steps [x, y] r ↔ ∃ q, p.backward x y = .ok q ∧ r = [q.1, q.2] := by
  have hsteps : p.steps =
      [linear p.normalize] ++ ([.mercator p.kernel] ++ [linear p.denormalize]) := rfl
  simp only [hsteps, retraces_append]
  constructor
  · rintro ⟨s, ⟨s', hdenormalize, hkernel⟩, hnormalize⟩
    obtain ⟨ξ, η, rfl⟩ := hdenormalize.exists_pair (composed_linear p.denormalize) hd
    obtain ⟨lambda, phi, rfl⟩ := hkernel.exists_pair (composed_mercator p.kernel) rfl
    obtain ⟨lon, lat, rfl⟩ := hnormalize.exists_pair (composed_linear p.normalize) hn
    refine ⟨(lon, lat), bind_eq_ok.mpr ⟨(ξ, η), ?_, bind_eq_ok.mpr ⟨(lambda, phi), ?_, ?_⟩⟩, rfl⟩
    · exact (undo_eq_ok hd).mpr hdenormalize
    · exact unproject_eq_ok.mpr hkernel
    · exact (undo_eq_ok hn).mpr hnormalize
  · rintro ⟨q, h, rfl⟩
    obtain ⟨⟨ξ, η⟩, hdenormalize, h⟩ := bind_eq_ok.mp h
    obtain ⟨⟨lambda, phi⟩, hkernel, hnormalize⟩ := bind_eq_ok.mp h
    refine ⟨[lambda, phi], ⟨[ξ, η], ?_, ?_⟩, ?_⟩
    · exact (undo_eq_ok hd).mp hdenormalize
    · exact unproject_eq_ok.mp hkernel
    · exact (undo_eq_ok hn).mp hnormalize

end Steps

variable {K : Type} [Field K] [LinearOrder K] [Elementary K] {params : ProjectionParameters K}
  {p : MapProjection K}

/-- The matrices of a projection are held as their shape asks for. -/
theorem held_of_mercator (h : mercator params = .ok p) :
    (p.normalize.HasShape 2 2 ∧ p.normalize.matrix.Canonical) ∧
      p.denormalize.HasShape 2 2 ∧ p.denormalize.matrix.Canonical := by
  obtain ⟨factor, -, -, -, hn, hd, -⟩ := mercator_ok h
  rw [hn, hd]
  exact ⟨⟨⟨rfl, rfl, rfl⟩, trivial⟩, ⟨rfl, rfl, rfl⟩, trivial⟩

/-- The kept steps do to a point what all of them do. -/
theorem applyInOrder_activeSteps_eq (h : mercator params = .ok p) (lon lat : K) :
    applyInOrder p.activeSteps [lon, lat] = applyInOrder p.steps [lon, lat] := by
  obtain ⟨⟨hn, -⟩, hd, -⟩ := held_of_mercator h
  have hall : p.steps = [linear p.normalize] ++ .mercator p.kernel :: [linear p.denormalize] := rfl
  rw [activeSteps, hall, applyInOrder_append, applyInOrder_append,
    applyInOrder_unlessIdentity hn rfl]
  cases hr : applyInOrder [linear p.normalize] [lon, lat] with
  | error e => rfl
  | ok r =>
    obtain ⟨lambda, phi, rfl⟩ := List.length_eq_two.mp ((length_applyInOrder hr).trans hn.target)
    have hkernel := applyInOrder_cons_ok (applyPoint_mercator p.kernel lambda phi)
    exact (hkernel _).trans ((applyInOrder_unlessIdentity hd rfl).trans (hkernel _).symm)

variable [IsStrictOrderedRing K]

/-- The kept steps are retraced as all of them are. -/
theorem retraces_activeSteps (h : mercator params = .ok p) {x y : K} {r : List K} :
    Retraces p.activeSteps [x, y] r ↔ Retraces p.steps [x, y] r := by
  obtain ⟨⟨hn, hn'⟩, hd, hd'⟩ := held_of_mercator h
  have hkept : p.activeSteps = unlessIdentity p.normalize ++
      ([.mercator p.kernel] ++ unlessIdentity p.denormalize) := rfl
  have hall : p.steps =
      [linear p.normalize] ++ ([.mercator p.kernel] ++ [linear p.denormalize]) := rfl
  have hdenormalize : ∀ s, Retraces (unlessIdentity p.denormalize) [x, y] s ↔
      Retraces [linear p.denormalize] [x, y] s := fun _ => retraces_unlessIdentity hd hd' rfl
  simp only [hkept, hall, retraces_append, hdenormalize]
  refine exists_congr fun s => and_congr_right ?_
  rintro ⟨s', -, hkernel⟩
  obtain ⟨lambda, phi, rfl⟩ := hkernel.exists_pair (composed_mercator p.kernel) rfl
  exact retraces_unlessIdentity hn hn' rfl

/-- The inverse of the transform that is made of the steps leads back as the steps do. -/
theorem inverse_applyPoint_iff (h : mercator params = .ok p) {x y : K} {r : List K} :
    (∃ u, p.transform.inverse = .ok u ∧ u.applyPoint [x, y] = .ok r) ↔
      ∃ q, p.backward x y = .ok q ∧ r = [q.1, q.2] := by
  obtain ⟨⟨hn, -⟩, hd, -⟩ := held_of_mercator h
  obtain ⟨factor, -, -, -, -, -, ht⟩ := mercator_ok h
  have hne : p.activeSteps ≠ [] := by simp [activeSteps]
  have hleads : AllComposed (LeadsBack fun _ => True) p.activeSteps := by
    rw [activeSteps, allComposed_append, AllComposed]
    exact ⟨allComposed_unlessIdentity _, composed_mercator _, allComposed_unlessIdentity _⟩
  rw [← retraces_steps hn.source hd.source, ← retraces_activeSteps h, ht,
    retraces_iff_inverse hne (linked_activeSteps hn hd).1.fits hleads]

/-- The way back gives a point exactly if the inverse of the transform does, and then it is the same
point. -/
theorem backward_iff_inverse (h : mercator params = .ok p) (x y : K) :
    ((∃ q, p.backward x y = .ok q) ↔
      ∃ u r, p.transform.inverse = .ok u ∧ u.applyPoint [x, y] = .ok r) ∧
    ∀ q u r, p.backward x y = .ok q → p.transform.inverse = .ok u →
      u.applyPoint [x, y] = .ok r → r = [q.1, q.2] := by
  refine ⟨⟨?_, ?_⟩, ?_⟩
  · rintro ⟨q, hq⟩
    obtain ⟨u, hu, hr⟩ := (inverse_applyPoint_iff h).mpr ⟨q, hq, rfl⟩
    exact ⟨u, _, hu, hr⟩
  · rintro ⟨u, r, hu, hr⟩
    obtain ⟨q, hq, -⟩ := (inverse_applyPoint_iff h).mp ⟨u, hu, hr⟩
    exact ⟨q, hq⟩
  · intro q u r hq hu hr
    obtain ⟨q', hq', hr'⟩ := (inverse_applyPoint_iff h).mp ⟨u, hu, hr⟩
    rw [hr', Except.ok.inj (hq.symm.trans hq')]

/-- A unit sphere, where nothing is left to scale, and a false easting too far off to be undone. -/
theorem backward_iff_inverse_sphere :
    letI : Elementary ℚ := { Exact.quarterTurns with atan := fun x => x * (11 / 14) }
    let params : ProjectionParameters ℚ :=
      { ProjectionParameters.standard with ellipsoid := .sphere 1, centralMeridian := 30 }
    let far : ProjectionParameters ℚ := { params with falseEasting := 2 ^ 53 }
    ∃ p p', mercator params = .ok p ∧ mercator far = .ok p' ∧ p.denormalize.isIdentity = true ∧
      (∃ u, p.transform.inverse = .ok u ∧ u.applyPoint [0, 0] = .ok [30, 0]) ∧
      ¬ ∃ u r, p'.transform.inverse = .ok u ∧ u.applyPoint [2 ^ 53, 0] = .ok r := by
  let _ : Elementary ℚ := { Exact.quarterTurns with atan := fun x => x * (11 / 14) }
  intro params far
  have hidentity : (mercator params).toOption.map (fun p => p.denormalize.isIdentity) =
      some true := by decide +kernel
  have hpoint : (mercator params).toOption.map (fun p => p.backward 0 0) =
      some (.ok (30, 0)) := by decide +kernel
  have hnone : (mercator far).toOption.map (fun p => p.backward (2 ^ 53) 0) =
      some (.error (.matrix .nonInvertible)) := by decide +kernel
  obtain ⟨p, h⟩ : ∃ p, mercator params = .ok p := exists_of_isOk (by decide +kernel)
  obtain ⟨p', h'⟩ : ∃ p, mercator far = .ok p := exists_of_isOk (by decide +kernel)
  rw [h] at hidentity hpoint
  rw [h'] at hnone
  obtain ⟨hdefined, hsame⟩ := backward_iff_inverse h 0 0
  obtain ⟨u, r, hu, hr⟩ := hdefined.mp ⟨_, Option.some.inj hpoint⟩
  obtain rfl := hsame _ u r (Option.some.inj hpoint) hu hr
  refine ⟨p, p', h, h', Option.some.inj hidentity, ⟨u, hu, hr⟩, ?_⟩
  rw [← (backward_iff_inverse h' (2 ^ 53) 0).1]
  rintro ⟨q, hq⟩
  cases hq.symm.trans (Option.some.inj hnone)

end MapProjection

end Georeferencing
