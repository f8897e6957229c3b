import Georeferencing.Proofs.Projection.Forward
import Georeferencing.Proofs.Projection.InPlace

/-! # Projecting a buffer of coordinates

A map projection is a concatenation of steps that act pointwise, so it does to a buffer of pairs
what it does to each pair. A buffer that is transformed onto itself has the same outcome as one that
is read from a copy.
-/

namespace Georeferencing

variable {α : Type} [Scalar α] [Elementary α]

namespace Transform

variable {t : Transform α} {pts : List α} {count : ℕ}

/-- A buffer that holds only the points is transformed in place as it is onto itself. -/
theorem result_applyWithin_whole (hsource : pts.length = count * t.source)
    (htarget : pts.length = count * t.target) :
    (t.applyWithin pts 0 0 count).result = (t.applyBatch pts pts count).result := by
  have hcopied : (t.copyFirst pts 0 0 count).result = (t.applyBatch pts pts count).result :=
    Batch.result_within_whole hsource htarget
  cases t with
  | mercator m =>
    change pts.length = count * 2 at hsource
    have hroom : 0 + 2 * count ≤ pts.length := by omega
    obtain ⟨hnone, hmoved⟩ := Mercator.applyWithin_moved (m := m) hroom hroom
    obtain ⟨hnone', hmoved'⟩ := copyFirst_moved (m := m) hroom hroom
    rw [← hcopied, Batch.result_eq_ok.mpr ⟨hnone', rfl⟩, Batch.result_eq_ok]
    exact ⟨hnone, hmoved.unique hmoved'⟩
  | linear _ | inverseMercator _ | external _ _ | chain _ => exact hcopied

/-- One point in place. -/
theorem result_applyWithin_one {p q : List α} (ht : t.ActsPointwise) (hsource : p.length = t.source)
    (htarget : p.length = t.target) :
    (t.applyWithin p 0 0 1).result = .ok q ↔ t.applyPoint p = .ok q := by
  rw [result_applyWithin_whole (by rw [Nat.one_mul, hsource]) (by rw [Nat.one_mul, htarget])]
  exact Batch.Maps.result_one ht (length_applyBatch t p p 1) hsource htarget

end Transform

namespace MapProjection

open Transform

variable {params : ProjectionParameters α} {p : MapProjection α}

/-- The transform of a projection is composed of what acts pointwise, and stays in the plane. -/
theorem composed_transform (h : mercator params = .ok p) :
    p.transform.Composed ActsPointwise ∧ p.transform.source = 2 ∧ p.transform.target = 2 := by
  rw [mercator] at h
  obtain ⟨_, -, h⟩ := bind_eq_ok.mp h
  obtain ⟨factor, -, h⟩ := bind_eq_ok.mp h
  obtain ⟨t, ht, hp⟩ := bind_eq_ok.mp h
  cases hp
  apply concatenate_spec ht
  rw [← allComposed_iff]
  simp [AllComposed, Composed]

/-- A projected point is a pair. -/
theorem exists_pair_of_applyPoint (h : mercator params = .ok p) {q r : List α}
    (hr : p.transform.applyPoint q = .ok r) : ∃ x y, r = [x, y] := by
  obtain ⟨-, -, htarget⟩ := composed_transform h
  rw [← List.length_eq_two, length_applyPoint hr, htarget]

/-- One pair is projected as a point. -/
theorem forward_eq_ok (h : mercator params = .ok p) {lon lat x y : α} :
    p.forward lon lat = .ok (x, y) ↔ p.transform.applyPoint [lon, lat] = .ok [x, y] := by
  obtain ⟨hcomposed, hsource, htarget⟩ := composed_transform h
  have hpoint : ∀ q, (p.transform.applyWithin [lon, lat] 0 0 1).result = .ok q ↔
      p.transform.applyPoint [lon, lat] = .ok q := fun q =>
    result_applyWithin_one hcomposed.actsPointwise hsource.symm htarget.symm
  rw [forward, bind_eq_ok]
  constructor
  · rintro ⟨q, hq, hxy⟩
    rw [hpoint] at hq
    obtain ⟨x', y', rfl⟩ := exists_pair_of_applyPoint h hq
    cases hxy
    exact hq
  · intro hq
    exact ⟨[x, y], (hpoint _).mpr hq, rfl⟩

/-- The pair at place `k` of a buffer. -/
def pairAt (coords : List α) (k : ℕ) : α × α := (coords.getD (2 * k) 0, coords.getD (2 * k + 1) 0)

omit [Elementary α] in
theorem pointAt_eq_pairAt {coords : List α} {k : ℕ} (hk : k < coords.length / 2) :
    pointAt 2 coords k = [(pairAt coords k).1, (pairAt coords k).2] := by
  have hroom : coords.length / 2 * 2 ≤ coords.length := Nat.div_mul_le_self _ _
  obtain ⟨x, y, hx, hy, hpoint⟩ := pointAt_two hroom hk
  rw [hpoint, pairAt, List.getD_eq_getElem?_getD, List.getD_eq_getElem?_getD, hx, hy]
  rfl

/-- A buffer of pairs is projected if each of its pairs is, and then to their projections. -/
theorem forwardAll_pairs (h : mercator params = .ok p) {coords : List α}
    (heven : coords.length % 2 = 0) :
    ((∃ buffer, (p.forwardAll coords).result = .ok buffer) ↔ ∀ k < coords.length / 2,
      ∃ q, p.forward (pairAt coords k).1 (pairAt coords k).2 = .ok q) ∧
    ∀ buffer, (p.forwardAll coords).result = .ok buffer →
      buffer.length = coords.length ∧ ∀ k < coords.length / 2,
        p.forward (pairAt coords k).1 (pairAt coords k).2 = .ok (pairAt buffer k) := by
  obtain ⟨hcomposed, hsource, htarget⟩ := composed_transform h
  have hmaps : Batch.Maps 2 2 p.transform.applyPoint p.transform.applyBatch := by
    have hpointwise := hcomposed.actsPointwise
    rwa [ActsPointwise, hsource, htarget] at hpointwise
  have hroom : coords.length / 2 * 2 = coords.length :=
    Nat.div_mul_cancel (Nat.dvd_of_mod_eq_zero heven)
  have hwhole : (p.forwardAll coords).result =
      (p.transform.applyBatch coords coords (coords.length / 2)).result := by
    rw [forwardAll, if_pos heven]
    apply result_applyWithin_whole
    · rw [hsource, hroom]
    · rw [htarget, hroom]
  simp only [hwhole, Batch.result_eq_ok, exists_and_left, exists_eq', and_true]
  constructor
  · rw [hmaps.succeeds_iff _ _ _ hroom.le hroom.le]
    apply forall₂_congr
    intro k hk
    rw [pointAt_eq_pairAt hk]
    constructor
    · rintro ⟨q, hq⟩
      obtain ⟨x, y, rfl⟩ := exists_pair_of_applyPoint h hq
      exact ⟨(x, y), (forward_eq_ok h).mpr hq⟩
    · rintro ⟨q, hq⟩
      exact ⟨_, (forward_eq_ok h).mp hq⟩
  · rintro buffer ⟨hnone, rfl⟩
    have hlength := length_applyBatch p.transform coords coords (coords.length / 2)
    refine ⟨hlength, fun k hk => ?_⟩
    have himage := hmaps.image _ _ _ hroom.le hroom.le hnone k hk
    rw [pointAt_eq_pairAt hk, pointAt_eq_pairAt (by rwa [hlength])] at himage
    exact (forward_eq_ok h).mpr himage

variable (α)

/-- Batches are their points: of every transform composed of steps with this property, of the
concatenations and inverses of such transforms, and of map projections, which project a buffer of
pairs as they project each of them. -/
theorem batches_pointwise :
    (∀ t : Transform α, t.Composed ActsPointwise → t.ActsPointwise) ∧
    (∀ (steps : List (Transform α)) t, (∀ step ∈ steps, step.Composed ActsPointwise) →
      concatenate steps = .ok t → t.Composed ActsPointwise ∧ t.ActsPointwise) ∧
    (∀ t u : Transform α, t.Composed (LeadsBack ActsPointwise) → t.inverse = .ok u →
      u.Composed ActsPointwise ∧ u.ActsPointwise) ∧
    ∀ (params : ProjectionParameters α) p, mercator params = .ok p →
      p.transform.source = 2 ∧ p.transform.target = 2 ∧ p.transform.ActsPointwise ∧
      ∀ coords : List α, coords.length % 2 = 0 →
        ((∃ buffer, (p.forwardAll coords).result = .ok buffer) ↔ ∀ k < coords.length / 2,
          ∃ q, p.forward (pairAt coords k).1 (pairAt coords k).2 = .ok q) ∧
        ∀ buffer, (p.forwardAll coords).result = .ok buffer →
          buffer.length = coords.length ∧ ∀ k < coords.length / 2,
            p.forward (pairAt coords k).1 (pairAt coords k).2 = .ok (pairAt buffer k) := by
  refine ⟨fun t h => h.actsPointwise, ?_, ?_, ?_⟩
  · intro steps t hsteps h
    obtain ⟨hcomposed, -, -⟩ := concatenate_spec h hsteps
    exact ⟨hcomposed, hcomposed.actsPointwise⟩
  · intro t u ht hu
    obtain ⟨hcomposed, -, -⟩ := ht.leadsBack u hu
    exact ⟨hcomposed, hcomposed.actsPointwise⟩
  · intro params p h
    obtain ⟨hcomposed, hsource, htarget⟩ := composed_transform h
    exact ⟨hsource, htarget, hcomposed.actsPointwise, fun coords heven => forwardAll_pairs h heven⟩

/-- Two pairs on a sphere. -/
theorem batches_pointwise_sphere :
    letI : Elementary ℚ := Exact.quarterTurns
    let params : ProjectionParameters ℚ :=
      { ellipsoid := .sphere 1
        variant := .equatorScale
        centralMeridian := 0
        scaleFactor := 2
        standardParallel := 0
        falseEasting := 1
        falseNorthing := 0 }
    ∃ p, mercator params = .ok p ∧ p.transform.ActsPointwise ∧
      ∃ buffer, (p.forwardAll [180, 0, -90, 45]).result = .ok buffer ∧
        p.forward (-90) 45 = .ok (pairAt buffer 1) := by
  let _ : Elementary ℚ := Exact.quarterTurns
  intro params
  have hok : (mercator params).isOk = true := by decide +kernel
  cases h : mercator params with
  | error e =>
    rw [h] at hok
    cases hok
  | ok p =>
    obtain ⟨-, -, hpointwise, hpairs⟩ := (batches_pointwise ℚ).2.2.2 params p h
    obtain ⟨-, hpairs⟩ := hpairs [180, 0, -90, 45] rfl
    have hall : (mercator params).toOption.map
        (fun p => (p.forwardAll [180, 0, -90, 45]).result.isOk) = some true := by
      decide +kernel
    rw [h] at hall
    cases hresult : (p.forwardAll [180, 0, -90, 45]).result with
    | error e =>
      rw [Except.toOption, Option.map_some, hresult] at hall
      cases hall
    | ok buffer =>
      exact ⟨p, rfl, hpointwise, buffer, hresult, (hpairs buffer hresult).2 1 (by decide)⟩

end MapProjection

end Georeferencing
