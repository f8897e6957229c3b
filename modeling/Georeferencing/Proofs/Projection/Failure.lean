import Georeferencing.Proofs.Projection.Forward
import Georeferencing.Proofs.Projection.InPlace

/-! # What a failure leaves behind

Buffers that are too short are refused before anything is written; after that neither a matrix nor
the Mercator projection can fail, and a chain writes only when all of its steps have succeeded. So a
failure of any of these leaves the destination as it was. The inverse of the Mercator projection
differs: it writes each point before it tries the next one, and when the latitude of a point does
not settle, the points before it have been written already.
-/

namespace Georeferencing

theorem pointAt_drop {α : Type} (dimension : ℕ) (buffer : List α) (k : ℕ) :
    pointAt dimension (buffer.drop dimension) k = pointAt dimension buffer (k + 1) := by
  rw [pointAt, pointAt, List.drop_drop, Nat.succ_mul, Nat.add_comm]

namespace Batch

variable {α : Type} {source target k count : ℕ} {src dst former buffer : List α}
  {f : List α → Except (TransformError α) (List α)}

/-- A failure leaves the destination as it was. -/
def KeepsOnFailure (former : List α) (b : Batch α) : Prop := b.failure? ≠ none → b.buffer = former

/-- The images of the first `k` points have been written, and nothing else. -/
structure WrittenUpTo (source target : ℕ) (f : List α → Except (TransformError α) (List α))
    (src former : List α) (k : ℕ) (buffer : List α) : Prop where
  image : ∀ i < k, f (pointAt source src i) = .ok (pointAt target buffer i)
  rest : buffer.drop (k * target) = former.drop (k * target)

/-- A batch that fails only at a point, and then has written the points before it. -/
structure StopsAtPoint (source target : ℕ) (f : List α → Except (TransformError α) (List α))
    (src former : List α) (count : ℕ) (b : Batch α) : Prop where
  succeeds_iff : b.failure? = none ↔ ∀ k < count, ∃ q, f (pointAt source src k) = .ok q
  failed : ∀ e, b.failure? = some e → ∃ k < count, f (pointAt source src k) = .error e ∧
    WrittenUpTo source target f src former k b.buffer

theorem flatten_points (dimension : ℕ) (buffer : List α) (count : ℕ) :
    (points dimension buffer count).flatten = buffer.take (count * dimension) := by
  induction count generalizing buffer with
  | zero => simp [points]
  | succ count ih =>
    rw [points, List.flatten_cons, ih, Nat.succ_mul, Nat.add_comm, List.take_add]

/-- What has been written makes no difference if it was there before. -/
theorem WrittenUpTo.eq_iff (h : WrittenUpTo source target f src former k buffer) :
    buffer = former ↔ ∀ i < k, f (pointAt source src i) = .ok (pointAt target former i) := by
  constructor
  · rintro rfl
    exact h.image
  · intro hformer
    have hpoints : points target buffer k = points target former k := by
      rw [points_eq_map, points_eq_map]
      apply List.map_congr_left
      intro i hi
      have hik := List.mem_range.mp hi
      exact Except.ok.inj ((h.image i hik).symm.trans (hformer i hik))
    calc buffer
        = buffer.take (k * target) ++ buffer.drop (k * target) := (List.take_append_drop _ _).symm
      _ = former.take (k * target) ++ former.drop (k * target) := by
        rw [← flatten_points, hpoints, flatten_points, h.rest]
      _ = former := List.take_append_drop _ _

theorem pointwise_fault (h : ¬ (count * source ≤ src.length ∧ count * target ≤ dst.length)) :
    (pointwise source target f src dst count).failure? ≠ none ∧
      (pointwise source target f src dst count).buffer = dst := by
  unfold pointwise
  split
  · exact ⟨by simp, rfl⟩
  · exact ⟨by simp, rfl⟩
  · next hsrc hdst =>
    rw [capacityFault?_eq_none] at hsrc hdst
    exact absurd ⟨hsrc, hdst⟩ h

/-- A loop that stops at a point has done what it does to the points before it. -/
theorem mapUntilError_points {e : TransformError α}
    (h : (mapUntilError f (points source src count)).2 = some e) :
    ∃ k < count, f (pointAt source src k) = .error e ∧
      (mapUntilError f (points source src k)).2 = none ∧
      (mapUntilError f (points source src count)).1 =
        (mapUntilError f (points source src k)).1 := by
  induction count generalizing src with
  | zero => cases h
  | succ count ih =>
    have hfirst : src.take source = pointAt source src 0 := by simp [pointAt]
    rw [points, hfirst] at h ⊢
    cases hb : f (pointAt source src 0) with
    | error e' =>
      simp only [mapUntilError, hb, Option.some.injEq] at h ⊢
      subst h
      exact ⟨0, Nat.succ_pos count, hb, rfl, rfl⟩
    | ok q =>
      simp only [mapUntilError, hb] at h ⊢
      obtain ⟨k, hk, herror, hnone, hsame⟩ := ih h
      rw [pointAt_drop] at herror
      refine ⟨k + 1, Nat.succ_lt_succ hk, herror, ?_, ?_⟩
      · simp only [points, hfirst, mapUntilError, hb, hnone]
      · simp only [points, hfirst, mapUntilError, hb, hsame]

/-- The loop over points writes the images of those before the first that has none. -/
theorem stopsAtPoint_pointwise (hf : ∀ p q, f p = .ok q → q.length = target)
    (hsrc : count * source ≤ src.length) (hdst : count * target ≤ dst.length) :
    StopsAtPoint source target f src dst count (pointwise source target f src dst count) where
  succeeds_iff := (maps_pointwise hf).succeeds_iff src dst count hsrc hdst
  failed e h := by
    rw [pointwise_of_capacity hsrc hdst] at h ⊢
    obtain ⟨k, hk, herror, hnone, hsame⟩ := mapUntilError_points h
    obtain ⟨images, himages, hlength, hrows, hget⟩ := images_of_points hf hnone
    have hwritten : images.flatten.length = k * target := by
      rw [length_flatten_of_forall hrows, hlength]
    rw [hsame, himages]
    refine ⟨k, hk, herror, fun i hi => ?_, drop_overwrite hwritten⟩
    rw [← hlength] at hi
    rw [hget i hi, overwrite, pointAt_append hwritten (hlength ▸ hi), pointAt_flatten hrows hi]

/-- A loop that can transform every point fails only for want of room. -/
theorem keepsOnFailure_pointwise (hf : ∀ p, p.length = source → ∃ q, f p = .ok q) :
    (pointwise source target f src dst count).KeepsOnFailure dst := by
  intro hfailure
  by_cases hroom : count * source ≤ src.length ∧ count * target ≤ dst.length
  · have hnone : (pointwise source target f src dst count).failure? = none := by
      rw [pointwise_of_capacity hroom.1 hroom.2, mapUntilError_none_iff, points_eq_map]
      intro p hp
      obtain ⟨i, hi, rfl⟩ := List.mem_map.mp hp
      exact hf _ (length_pointAt hroom.1 (List.mem_range.mp hi))
    exact absurd hnone hfailure
  · exact (pointwise_fault hroom).2

section Within

variable {sourceLength targetLength srcOff dstOff : ℕ} {run : List α → List α → Batch α}
  {pts : List α}

theorem region_append : (pts.drop dstOff).take targetLength ++ pts.drop (dstOff + targetLength) =
    pts.drop dstOff := by
  rw [← List.drop_drop, List.take_append_drop]

/-- A region that is left as it was leaves the whole buffer as it was. -/
theorem keepsOnFailure_within (h : ∀ src dst, (run src dst).KeepsOnFailure dst) :
    (within sourceLength targetLength run pts srcOff dstOff).KeepsOnFailure pts := by
  intro hfailure
  by_cases hroom : srcOff + sourceLength ≤ pts.length ∧ dstOff + targetLength ≤ pts.length
  · rw [within_of_capacity hroom.1 hroom.2] at hfailure ⊢
    have hkeeps := h _ _ hfailure
    calc pts.take dstOff ++ (run _ ((pts.drop dstOff).take targetLength)).buffer ++
          pts.drop (dstOff + targetLength)
        = pts.take dstOff ++ pts.drop dstOff := by
          rw [hkeeps, List.append_assoc, region_append]
      _ = pts := List.take_append_drop _ _
  · exact (within_fault hroom).2

/-- What lies behind the points of a region is neither read nor written. -/
theorem StopsAtPoint.append_rest {b : Batch α} (hsrc : count * source ≤ src.length)
    (hdst : count * target ≤ former.length) (hlength : b.buffer.length = count * target)
    (h : StopsAtPoint source target f (src.take (count * source)) (former.take (count * target))
      count b) :
    StopsAtPoint source target f src former count
      ⟨b.buffer ++ former.drop (count * target), b.failure?⟩ where
  succeeds_iff := by
    rw [h.succeeds_iff]
    apply forall₂_congr
    intro k hk
    rw [pointAt_take hsrc hk]
  failed e he := by
    obtain ⟨k, hk, herror, hwritten⟩ := h.failed e he
    have hend : k * target ≤ count * target := Nat.mul_le_mul_right _ hk.le
    rw [pointAt_take hsrc hk] at herror
    refine ⟨k, hk, herror, fun i hi => ?_, ?_⟩
    · have himage := hwritten.image i hi
      rwa [pointAt_take hsrc (hi.trans hk),
        ← pointAt_append hlength (hi.trans hk) (former.drop (count * target))] at himage
    · calc (b.buffer ++ former.drop (count * target)).drop (k * target)
          = (former.take (count * target)).drop (k * target) ++ former.drop (count * target) := by
            rw [List.drop_append_of_le_length (hlength.symm ▸ hend), hwritten.rest]
        _ = (former.take (count * target) ++ former.drop (count * target)).drop (k * target) := by
            rw [List.drop_append_of_le_length ((List.length_take_of_le hdst).symm ▸ hend)]
        _ = former.drop (k * target) := by rw [List.take_append_drop]

/-- A batch within one buffer writes the images up to the first point that has none, and leaves
what lies before its region. -/
theorem stopsAtPoint_within (hf : ∀ p q, f p = .ok q → q.length = target)
    (hsrc : srcOff + count * source ≤ pts.length) (hdst : dstOff + count * target ≤ pts.length) :
    let out := within (count * source) (count * target)
      (fun src dst => pointwise source target f src dst count) pts srcOff dstOff
    out.buffer.take dstOff = pts.take dstOff ∧
      StopsAtPoint source target f (pts.drop srcOff) (pts.drop dstOff) count
        ⟨out.buffer.drop dstOff, out.failure?⟩ := by
  intro out
  have hsource : count * source ≤ (pts.drop srcOff).length := by
    rw [List.length_drop]
    omega
  have htarget : count * target ≤ (pts.drop dstOff).length := by
    rw [List.length_drop]
    omega
  have hbefore : (pts.take dstOff).length = dstOff := List.length_take_of_le (by omega)
  have hstops := stopsAtPoint_pointwise hf (List.length_take_of_le hsource).ge
    (List.length_take_of_le htarget).ge
  have hregion : (pointwise source target f ((pts.drop srcOff).take (count * source))
      ((pts.drop dstOff).take (count * target)) count).buffer.length = count * target := by
    rw [length_pointwise hf, List.length_take_of_le htarget]
  have hout : out = _ := within_of_capacity hsrc hdst
  dsimp only at hout
  rw [hout, List.append_assoc, ← List.drop_drop, List.take_left' hbefore, List.drop_left' hbefore]
  exact ⟨rfl, hstops.append_rest hsource htarget hregion⟩

end Within

end Batch

variable {α : Type} [Scalar α] [Elementary α]

theorem Latitude.settle_error {ts e : α} {fault : TransformError α} {count : ℕ} {phi : α}
    (h : settle ts e count phi = .error fault) : fault = .noConvergence := by
  induction count generalizing phi with
  | zero =>
    cases h
    rfl
  | succ count ih =>
    rw [settle] at h
    split at h
    · exact ih h
    · cases h

/-- The only way in which the inverse projection fails at a point of the plane. -/
theorem Mercator.unprojectPoint_error {m : Mercator α} {p : List α} {e : TransformError α}
    (hp : p.length = 2) (h : m.unprojectPoint p = .error e) : e = .noConvergence := by
  obtain ⟨x, y, rfl⟩ := List.length_eq_two.mp hp
  rw [unprojectPoint] at h
  cases hphi : m.ordinateToLatitude y with
  | ok phi =>
    rw [hphi] at h
    cases h
  | error e' =>
    rw [hphi] at h
    cases h
    rw [ordinateToLatitude] at hphi
    split at hphi
    · cases hphi
    · exact Latitude.settle_error hphi

namespace Transform

/-- A failure leaves the destination as it was, in a buffer of its own or in place. -/
structure KeepsOnFailure (t : Transform α) : Prop where
  batch : ∀ src dst count, (t.applyBatch src dst count).KeepsOnFailure dst
  inPlace : ∀ pts srcOff dstOff count, (t.applyWithin pts srcOff dstOff count).KeepsOnFailure pts

/-- A transform that is refused for want of room, and otherwise stops at the first point that `f`
fails at, having written the images of the points before it. -/
structure StopsAtPoint (t : Transform α) (f : List α → Except (TransformError α) (List α)) :
    Prop where
  batch : ∀ src dst count, count * t.source ≤ src.length → count * t.target ≤ dst.length →
    Batch.StopsAtPoint t.source t.target f src dst count (t.applyBatch src dst count)
  batch_fault : ∀ src dst count,
    ¬ (count * t.source ≤ src.length ∧ count * t.target ≤ dst.length) →
      (t.applyBatch src dst count).failure? ≠ none ∧ (t.applyBatch src dst count).buffer = dst
  inPlace : ∀ pts srcOff dstOff count, srcOff + count * t.source ≤ pts.length →
    dstOff + count * t.target ≤ pts.length →
      (t.applyWithin pts srcOff dstOff count).buffer.take dstOff = pts.take dstOff ∧
      Batch.StopsAtPoint t.source t.target f (pts.drop srcOff) (pts.drop dstOff) count
        ⟨(t.applyWithin pts srcOff dstOff count).buffer.drop dstOff,
          (t.applyWithin pts srcOff dstOff count).failure?⟩
  inPlace_fault : ∀ pts srcOff dstOff count,
    ¬ (srcOff + count * t.source ≤ pts.length ∧ dstOff + count * t.target ≤ pts.length) →
      (t.applyWithin pts srcOff dstOff count).failure? ≠ none ∧
        (t.applyWithin pts srcOff dstOff count).buffer = pts

theorem keepsOnFailure_linear (t : Projective α) : (linear t).KeepsOnFailure := by
  have hbatch : ∀ src dst count, ((linear t).applyBatch src dst count).KeepsOnFailure dst :=
    fun src dst count => Batch.keepsOnFailure_pointwise fun p _ => ⟨t.image p, rfl⟩
  exact ⟨hbatch, fun pts srcOff dstOff count =>
    Batch.keepsOnFailure_within fun src dst => hbatch src dst count⟩

theorem keepsOnFailure_mercator (m : Mercator α) : (mercator m).KeepsOnFailure where
  batch src dst count := by
    apply Batch.keepsOnFailure_pointwise
    intro p hp
    obtain ⟨lambda, phi, rfl⟩ := List.length_eq_two.mp hp
    exact ⟨_, rfl⟩
  inPlace pts srcOff dstOff count hfailure := by
    by_cases hroom : srcOff + 2 * count ≤ pts.length ∧ dstOff + 2 * count ≤ pts.length
    · exact absurd (Mercator.applyWithin_moved hroom.1 hroom.2).1 hfailure
    · exact (Mercator.applyWithin_fault hroom).2

/-- Whatever the steps are, also where they write before they fail. -/
theorem keepsOnFailure_chain (steps : List (Transform α)) : (chain steps).KeepsOnFailure := by
  have hbatch : ∀ src dst count, ((chain steps).applyBatch src dst count).KeepsOnFailure dst := by
    intro src dst count hfailure
    by_cases hroom : count * (chain steps).source ≤ src.length ∧
        count * (chain steps).target ≤ dst.length
    · rw [applyBatch_chain hroom.1 hroom.2] at hfailure ⊢
      cases hrun : runSteps steps (src.take (count * (chain steps).source)) count with
      | error e => rfl
      | ok written =>
        rw [hrun] at hfailure
        exact absurd rfl hfailure
    · rw [applyBatch]
      split
      · rfl
      · rfl
      · next hsrc hdst =>
        rw [capacityFault?_eq_none] at hsrc hdst
        exact absurd ⟨hsrc, hdst⟩ hroom
  exact ⟨hbatch, fun pts srcOff dstOff count =>
    Batch.keepsOnFailure_within fun src dst => hbatch src dst count⟩

theorem stopsAtPoint_inverseMercator (m : Mercator α) :
    (inverseMercator m).StopsAtPoint m.unprojectPoint where
  batch _ _ _ hsrc hdst := Batch.stopsAtPoint_pointwise m.length_unprojectPoint hsrc hdst
  batch_fault _ _ _ hroom := Batch.pointwise_fault hroom
  inPlace _ _ _ _ hsrc hdst := Batch.stopsAtPoint_within m.length_unprojectPoint hsrc hdst
  inPlace_fault _ _ _ _ hroom := Batch.within_fault hroom

/-- A chain around a projection, or the projection alone. -/
theorem keepsOnFailure_ofKept (m : Mercator α) (before after : List (Transform α)) (n : ℕ) :
    (ofKept n (before ++ mercator m :: after)).KeepsOnFailure := by
  cases before with
  | nil =>
    cases after with
    | nil => exact keepsOnFailure_mercator m
    | cons step rest => exact keepsOnFailure_chain _
  | cons first rest =>
    cases rest with
    | nil => exact keepsOnFailure_chain _
    | cons second rest => exact keepsOnFailure_chain _

end Transform

namespace MapProjection

theorem keepsOnFailure_forwardAll {p : MapProjection α} (h : p.transform.KeepsOnFailure)
    (coords : List α) : (p.forwardAll coords).KeepsOnFailure coords := by
  intro hfailure
  rw [forwardAll] at hfailure ⊢
  split
  · next heven =>
    rw [if_pos heven] at hfailure
    exact h.inPlace coords 0 0 _ hfailure
  · rfl

variable (α)

/-- A failure leaves the destination as it was, of matrices, Mercator projections, chains and map
projections. The inverse projection stops at the first point whose latitude does not settle, and
has then written the points before it: the destination is as it was only if it held their images
already. -/
theorem failure_spec :
    (∀ t : Projective α, (Transform.linear t).KeepsOnFailure) ∧
    (∀ m : Mercator α, (Transform.mercator m).KeepsOnFailure) ∧
    (∀ steps : List (Transform α), (Transform.chain steps).KeepsOnFailure) ∧
    (∀ (params : ProjectionParameters α) p, mercator params = .ok p →
      p.transform.KeepsOnFailure ∧ ∀ coords, (p.forwardAll coords).KeepsOnFailure coords) ∧
    (∀ m : Mercator α, (Transform.inverseMercator m).StopsAtPoint m.unprojectPoint ∧
      ∀ p e, p.length = 2 → m.unprojectPoint p = .error e → e = .noConvergence) ∧
    ∀ (m : Mercator α) (src former buffer : List α) (k : ℕ),
      Batch.WrittenUpTo 2 2 m.unprojectPoint src former k buffer →
        (buffer = former ↔ ∀ i < k,
          m.unprojectPoint (pointAt 2 src i) = .ok (pointAt 2 former i)) := by
  refine ⟨Transform.keepsOnFailure_linear, Transform.keepsOnFailure_mercator,
    Transform.keepsOnFailure_chain, ?_, ?_, ?_⟩
  · intro params p h
    obtain ⟨factor, -, -, -, -, -, htransform⟩ := mercator_ok h
    have hkeeps : p.transform.KeepsOnFailure := by
      rw [htransform]
      exact Transform.keepsOnFailure_ofKept _ _ _ _
    exact ⟨hkeeps, keepsOnFailure_forwardAll hkeeps⟩
  · intro m
    exact ⟨Transform.stopsAtPoint_inverseMercator m, fun p e => Mercator.unprojectPoint_error⟩
  · intro m src former buffer k
    exact Batch.WrittenUpTo.eq_iff

/-- Two points on a flat ellipsoid, with functions for which the latitude of the first settles at
once and that of the second never: the second is left, the first is not. -/
theorem failure_spec_oscillating :
    letI : Elementary ℚ := { Exact.quarterTurns with pow := fun x _ => 1 / x }
    let m : Mercator ℚ := .ellipsoidal (.ofFlattening 1 (1 / 2))
    let out := (Transform.inverseMercator m).applyBatch [3, 1, 4, 0] [7, 7, 7, 7] 2
    let params : ProjectionParameters ℚ :=
      { ellipsoid := .sphere 1
        variant := .equatorScale
        centralMeridian := 0
        scaleFactor := 2
        standardParallel := 0
        falseEasting := 1
        falseNorthing := 0 }
    out.failure? = some .noConvergence ∧ out.buffer.drop 2 = [7, 7] ∧ out.buffer ≠ [7, 7, 7, 7] ∧
      ∃ p, mercator params = .ok p ∧ p.transform.KeepsOnFailure := by
  let _ : Elementary ℚ := { Exact.quarterTurns with pow := fun x _ => 1 / x }
  intro m out params
  obtain ⟨-, -, -, hprojection, hinverse, hwritten⟩ := failure_spec ℚ
  have hfailure : out.failure? = some .noConvergence := by decide +kernel
  obtain ⟨k, hk, herror, hbefore⟩ :=
    ((hinverse m).1.batch [3, 1, 4, 0] [7, 7, 7, 7] 2 (by decide) (by decide)).failed _ hfailure
  have hfirst : m.unprojectPoint (pointAt 2 [3, 1, 4, 0] 0) = .ok [3, 11 / 7] := by decide +kernel
  have hsecond : k = 1 := by
    interval_cases k
    · cases hfirst.symm.trans herror
    · rfl
  subst hsecond
  have hchanged : out.buffer ≠ [7, 7, 7, 7] := by
    intro hsame
    have himage := (hwritten m _ _ _ 1 hbefore).mp hsame 0 Nat.one_pos
    cases hfirst.symm.trans himage
  have hok : (mercator params).isOk = true := by decide +kernel
  cases h : mercator params with
  | error e =>
    rw [h] at hok
    cases hok
  | ok p =>
    exact ⟨hfailure, hbefore.rest, hchanged, p, rfl, (hprojection params p h).1⟩

end MapProjection

end Georeferencing
