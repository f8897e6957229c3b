import Georeferencing.Proofs.Outcome
import Georeferencing.Proofs.Transform.Homogeneous
import Georeferencing.Transform.Basic

/-! # Transforming points

What a batch does to the length of its buffer, and what a transform does to a single point. A chain
of steps that fit one another does to a point what the steps do in turn, and in exact arithmetic a
transform that is known to be the identity gives every point back.
-/

namespace Georeferencing

theorem TransformError.ofMatrix_eq_ok {α β : Type} {x : Except MatrixError β} {b : β} :
    (ofMatrix x : Except (TransformError α) β) = .ok b ↔ x = .ok b := by
  cases x with
  | error e => simp [ofMatrix]
  | ok a => simp [ofMatrix]

@[simp] theorem capacityFault?_eq_none {α : Type} {required actual : ℕ} :
    (capacityFault? required actual : Option (TransformError α)) = none ↔ required ≤ actual := by
  rw [capacityFault?]
  split
  · simp
    omega
  · simp
    omega

namespace Batch

variable {α : Type}

theorem length_mapUntilError_le {β ε : Type} {f : β → Except ε (List α)} {target : ℕ}
    (hf : ∀ b c, f b = .ok c → c.length = target) (bs : List β) :
    (mapUntilError f bs).1.flatten.length ≤ bs.length * target := by
  induction bs with
  | nil => exact Nat.zero_le _
  | cons b bs ih =>
    rw [mapUntilError]
    split
    · exact Nat.zero_le _
    · next c hc =>
      rw [List.flatten_cons, List.length_append, hf b c hc, List.length_cons, Nat.succ_mul]
      omega

theorem length_pointwise {source target : ℕ} {f : List α → Except (TransformError α) (List α)}
    (hf : ∀ p q, f p = .ok q → q.length = target) (src dst : List α) (count : ℕ) :
    (pointwise source target f src dst count).buffer.length = dst.length := by
  rw [pointwise]
  split
  · rfl
  · rfl
  · next hdst =>
    have hcapacity : count * target ≤ dst.length := capacityFault?_eq_none.mp hdst
    have hwritten := length_mapUntilError_le hf (points source src count)
    rw [length_points] at hwritten
    exact length_overwrite (hwritten.trans hcapacity)

/-- A batch of one point is the function itself. -/
theorem result_pointwise_one {source target : ℕ}
    {f : List α → Except (TransformError α) (List α)}
    (hf : ∀ p q, f p = .ok q → q.length = target) {point dst : List α}
    (hp : point.length = source) (hdst : dst.length = target) :
    (pointwise source target f point dst 1).result = f point := by
  have hpoint : points source point 1 = [point] := by
    rw [points, List.take_of_length_le hp.le, points]
  rw [pointwise, capacityFault?, capacityFault?, if_neg (by omega), if_neg (by omega), hpoint]
  simp only [mapUntilError]
  cases h : f point with
  | error e => rfl
  | ok q =>
    have hq := hf point q h
    simp [result, overwrite, hq, hdst]

end Batch

theorem Projective.length_image {α : Type} [Scalar α] (t : Projective α) (point : List α) :
    (t.image point).length = t.target := by
  rw [image]
  split
  · simp
  · simp

theorem Projective.length_of_image_eq {α ε : Type} [Scalar α] (t : Projective α) (p q : List α)
    (h : (.ok (t.image p) : Except ε (List α)) = .ok q) : q.length = t.target := by
  cases h
  exact t.length_image p

theorem Mercator.length_projectPoint {α : Type} [Scalar α] [Elementary α] {m : Mercator α}
    (p q : List α) (h : m.projectPoint p = .ok q) : q.length = 2 := by
  unfold projectPoint at h
  split at h
  · cases h
    rfl
  · cases h

theorem Mercator.length_unprojectPoint {α : Type} [Scalar α] [Elementary α] {m : Mercator α}
    (p q : List α) (h : m.unprojectPoint p = .ok q) : q.length = 2 := by
  unfold unprojectPoint at h
  split at h
  · obtain ⟨phi, -, hq⟩ := bind_eq_ok.mp h
    cases hq
    rfl
  · cases h

namespace Transform

theorem lastTarget_source {α : Type} (steps : List (Transform α)) :
    lastTarget steps (chain steps).source = (chain steps).target := by
  cases steps with
  | nil => rfl
  | cons step rest => rfl

/-- Steps the first of which takes points of the given dimension and each other one those that the
step before gives. -/
def Fits {α : Type} : ℕ → List (Transform α) → Prop
  | _, [] => True
  | dimension, step :: rest => step.source = dimension ∧ Fits step.target rest

section Batches

variable {α : Type} [Scalar α] [Elementary α]

mutual

/-- A batch leaves the length of its buffer alone. -/
theorem length_applyBatch : ∀ (t : Transform α) (src dst : List α) (count : ℕ),
    (t.applyBatch src dst count).buffer.length = dst.length
  | linear t, src, dst, count => by
    rw [applyBatch]
    exact Batch.length_pointwise t.length_of_image_eq src dst count
  | mercator m, src, dst, count => by
    rw [applyBatch]
    exact Batch.length_pointwise m.length_projectPoint src dst count
  | inverseMercator m, src, dst, count => by
    rw [applyBatch]
    exact Batch.length_pointwise m.length_unprojectPoint src dst count
  | external t _, src, dst, count => by
    rw [applyBatch]
    exact t.length_run src dst count
  | chain steps, src, dst, count => by
    rw [applyBatch]
    split
    · rfl
    · rfl
    · next hsrc hdst =>
      split
      · next written hwritten =>
        rw [capacityFault?_eq_none] at hsrc hdst
        have hlength := length_runSteps steps _ written count (chain steps).source
          (List.length_take_of_le hsrc) hwritten
        rw [lastTarget_source] at hlength
        exact Batch.length_overwrite (hlength.trans_le hdst)
      · rfl

theorem length_runSteps : ∀ (steps : List (Transform α)) (buffer written : List α) (count d : ℕ),
    buffer.length = count * d → runSteps steps buffer count = .ok written →
      written.length = count * lastTarget steps d
  | [], buffer, written, count, d, hbuffer, h => by
    rw [runSteps] at h
    cases h
    exact hbuffer
  | step :: rest, buffer, written, count, d, hbuffer, h => by
    have hstep := length_applyBatch step buffer (List.replicate (count * step.target) 0) count
    rw [runSteps, Batch.result] at h
    cases hf : (step.applyBatch buffer (List.replicate (count * step.target) 0) count).failure? with
    | some e =>
      rw [hf] at h
      cases h
    | none =>
      rw [hf] at h
      rw [List.length_replicate] at hstep
      exact length_runSteps rest _ written count step.target hstep h

end

theorem applyPoint_eq {t : Transform α} {p : List α} (h : p.length = t.source) :
    t.applyPoint p = (t.applyBatch p (List.replicate t.target 0) 1).result :=
  if_pos h.symm

theorem applyPoint_of_length_ne {t : Transform α} {p : List α} (h : p.length ≠ t.source) :
    t.applyPoint p = .error (.mismatchedDimension t.source p.length) :=
  if_neg h.symm

theorem length_applyPoint {t : Transform α} {p q : List α} (h : t.applyPoint p = .ok q) :
    q.length = t.target := by
  have hbuffer := length_applyBatch t p (List.replicate t.target 0) 1
  rw [List.length_replicate] at hbuffer
  rw [applyPoint] at h
  split at h
  · rw [Batch.result] at h
    split at h
    · cases h
    · cases h
      exact hbuffer
  · cases h

theorem applyPoint_mercator (m : Mercator α) (lambda phi : α) :
    (mercator m).applyPoint [lambda, phi] = .ok [lambda, m.latitudeToOrdinate phi] := by
  rw [applyPoint_eq rfl, applyBatch]
  exact Batch.result_pointwise_one m.length_projectPoint rfl rfl

theorem applyPoint_inverseMercator (m : Mercator α) (x y : α) :
    (inverseMercator m).applyPoint [x, y] = m.unprojectPoint [x, y] := by
  rw [applyPoint_eq rfl, applyBatch]
  exact Batch.result_pointwise_one m.length_unprojectPoint rfl rfl

theorem applyPoint_linear {t : Projective α} {p : List α} (h : p.length = t.source) :
    (linear t).applyPoint p = .ok (t.image p) := by
  rw [applyPoint_eq h, applyBatch]
  exact Batch.result_pointwise_one t.length_of_image_eq h List.length_replicate

/-- The steps applied to a point one after the other. -/
def applyInOrder (steps : List (Transform α)) (point : List α) :
    Except (TransformError α) (List α) :=
  steps.foldlM (fun point step => step.applyPoint point) point

theorem applyInOrder_cons (step : Transform α) (rest : List (Transform α)) (point : List α) :
    applyInOrder (step :: rest) point = step.applyPoint point >>= applyInOrder rest := rfl

theorem applyInOrder_cons_ok {step : Transform α} {p q : List α} (h : step.applyPoint p = .ok q)
    (rest : List (Transform α)) : applyInOrder (step :: rest) p = applyInOrder rest q := by
  rw [applyInOrder_cons, h]
  rfl

theorem applyInOrder_append (before after : List (Transform α)) (point : List α) :
    applyInOrder (before ++ after) point = applyInOrder before point >>= applyInOrder after :=
  List.foldlM_append

/-- A transform from outside that claims to be the identity gives every point back. -/
def Honest (t : ExternalTransform α) : Prop :=
  t.isIdentity = true → ∀ p : List α, p.length = t.source →
    (t.run p (List.replicate t.target 0) 1).result = .ok p

mutual

/-- Matrices have a row and a column and all their coefficients, claims to be the identity are
true, and the steps of a chain fit one another. -/
def WellFormed : Transform α → Prop
  | linear t => t.HasShape t.source t.target
  | mercator _ => True
  | inverseMercator _ => True
  | external t _ => Honest t
  | chain steps => Linked (chain steps).source steps

/-- Well-formed steps, the first of which takes points of dimension `dimension` and each other one
what the step before gives. -/
def Linked : ℕ → List (Transform α) → Prop
  | _, [] => True
  | dimension, step :: rest =>
    step.source = dimension ∧ step.WellFormed ∧ Linked step.target rest

end

omit [Elementary α] in
theorem Linked.fits {steps : List (Transform α)} {dimension : ℕ} (h : Linked dimension steps) :
    Fits dimension steps := by
  induction steps generalizing dimension with
  | nil => trivial
  | cons step rest ih =>
    rw [Linked] at h
    exact ⟨h.1, ih h.2.2⟩

omit [Elementary α] in
theorem WellFormed.fits {steps : List (Transform α)} (h : (chain steps).WellFormed) :
    Fits (chain steps).source steps := by
  rw [WellFormed] at h
  exact h.fits

theorem runSteps_one {steps : List (Transform α)} {point : List α}
    (h : Fits point.length steps) : runSteps steps point 1 = applyInOrder steps point := by
  induction steps generalizing point with
  | nil =>
    rw [runSteps]
    rfl
  | cons step rest ih =>
    rcases h with ⟨hsource, hrest⟩
    rw [runSteps, Nat.one_mul, applyInOrder_cons, ← applyPoint_eq hsource.symm]
    cases hq : step.applyPoint point with
    | error e => rfl
    | ok q => exact ih (by rwa [length_applyPoint hq])

/-- A chain does to a point what its steps do in turn, whatever buffer it writes to. -/
theorem result_applyBatch_chain {steps : List (Transform α)} {point dst : List α}
    (h : Fits (chain steps).source steps) (hp : point.length = (chain steps).source)
    (hdst : dst.length = (chain steps).target) :
    ((chain steps).applyBatch point dst 1).result = applyInOrder steps point := by
  rw [← hp] at h
  have hrun := runSteps_one h
  rw [applyBatch, capacityFault?, capacityFault?, if_neg (by omega), if_neg (by omega)]
  simp only [Nat.one_mul, ← hp, List.take_length, hrun]
  cases hq : applyInOrder steps point with
  | error e => rfl
  | ok q =>
    rw [hq] at hrun
    have hlength := length_runSteps steps point q 1 _ (by rw [Nat.one_mul, hp]) hrun
    rw [lastTarget_source, Nat.one_mul] at hlength
    simp [Batch.result, Batch.overwrite, hlength, hdst]

theorem applyPoint_chain {steps : List (Transform α)} {point : List α}
    (h : Fits (chain steps).source steps) (hp : point.length = (chain steps).source) :
    (chain steps).applyPoint point = applyInOrder steps point := by
  rw [applyPoint_eq hp]
  exact result_applyBatch_chain h hp List.length_replicate

theorem length_applyInOrder {steps : List (Transform α)} {p q : List α}
    (h : applyInOrder steps p = .ok q) : q.length = lastTarget steps p.length := by
  induction steps generalizing p with
  | nil =>
    cases h
    rfl
  | cons step rest ih =>
    rw [applyInOrder_cons] at h
    obtain ⟨r, hr, hrest⟩ := bind_eq_ok.mp h
    rw [ih hrest, lastTarget, length_applyPoint hr]

end Batches

/-! ## Transforms that pass for the identity -/

section Identity

/-- A matrix is among what the transform is made of, chains being taken apart. -/
inductive Multiplies {α : Type} : Transform α → Prop where
  | linear (t : Projective α) : Multiplies (linear t)
  | step {steps : List (Transform α)} {step : Transform α} (hstep : step ∈ steps)
    (h : Multiplies step) : Multiplies (chain steps)

section Multiplies

variable {α : Type} {step : Transform α} {steps : List (Transform α)}

theorem multiplies_chain_iff : (chain steps).Multiplies ↔ ∃ step ∈ steps, step.Multiplies := by
  constructor
  · rintro (_ | ⟨hstep, h⟩)
    exact ⟨_, hstep, h⟩
  · rintro ⟨step, hstep, h⟩
    exact .step hstep h

theorem not_multiplies_nil : ¬ (chain ([] : List (Transform α))).Multiplies := by
  rw [multiplies_chain_iff]
  simp

theorem not_multiplies_external (t : ExternalTransform α)
    (back : Except (TransformError α) (Transform α)) : ¬ (external t back).Multiplies := by
  intro h
  cases h

theorem multiplies_chain_cons :
    (chain (step :: steps)).Multiplies ↔ step.Multiplies ∨ (chain steps).Multiplies := by
  rw [multiplies_chain_iff, multiplies_chain_iff, List.exists_mem_cons_iff]

end Multiplies

/-- A relation of points to what identities make of them: it holds for the image under an identity
matrix and passes along a sequence. The proposition tells whether a matrix multiplies. -/
structure TracksIdentities {α : Type} [Scalar α] (R : Prop → List α → List α → Prop) : Prop where
  refl : ∀ p, R False p p
  trans : ∀ {first second : Prop} {p q r : List α}, R first p q → R second q r →
    R (first ∨ second) p r
  linear : ∀ {t : Projective α} {n m : ℕ} {p : List α}, t.HasShape n m → t.isIdentity = true →
    p.length = n → R True p (t.image p)

variable {α : Type} [Scalar α] [Elementary α] {R : Prop → List α → List α → Prop}

mutual

/-- A transform that passes for the identity succeeds on every point of its dimension. -/
theorem exists_applyPoint_of_isIdentity (hR : TracksIdentities R) :
    ∀ (t : Transform α) (p : List α), t.WellFormed → t.isIdentity = true → p.length = t.source →
      ∃ q, t.applyPoint p = .ok q ∧ R t.Multiplies p q
  | linear t, p, h, hid, hp => by
    rw [WellFormed] at h
    rw [isIdentity] at hid
    refine ⟨t.image p, applyPoint_linear hp, ?_⟩
    rw [eq_true (Multiplies.linear t)]
    exact hR.linear h hid hp
  | mercator m, p, h, hid, hp => by
    rw [isIdentity] at hid
    cases hid
  | inverseMercator m, p, h, hid, hp => by
    rw [isIdentity] at hid
    cases hid
  | external t back, p, h, hid, hp => by
    rw [WellFormed] at h
    rw [isIdentity] at hid
    refine ⟨p, ?_, ?_⟩
    · rw [applyPoint_eq hp, applyBatch]
      exact h hid p hp
    · rw [eq_false (not_multiplies_external t back)]
      exact hR.refl p
  | chain steps, p, h, hid, hp => by
    rw [isIdentity] at hid
    have hlinked := h
    rw [WellFormed, ← hp] at hlinked
    rw [applyPoint_chain h.fits hp]
    exact exists_applyInOrder_of_allIdentity hR steps p hlinked hid

theorem exists_applyInOrder_of_allIdentity (hR : TracksIdentities R) :
    ∀ (steps : List (Transform α)) (p : List α), Linked p.length steps →
      allIdentity steps = true → ∃ q, applyInOrder steps p = .ok q ∧ R (chain steps).Multiplies p q
  | [], p, h, hid => by
    refine ⟨p, rfl, ?_⟩
    rw [eq_false not_multiplies_nil]
    exact hR.refl p
  | step :: rest, p, h, hid => by
    rw [Linked] at h
    obtain ⟨hsource, hstep, hrest⟩ := h
    rw [allIdentity, Bool.and_eq_true] at hid
    obtain ⟨q, hq, hfirst⟩ :=
      exists_applyPoint_of_isIdentity hR step p hstep hid.1 hsource.symm
    rw [← length_applyPoint hq] at hrest
    obtain ⟨r, hr, hsecond⟩ := exists_applyInOrder_of_allIdentity hR rest q hrest hid.2
    refine ⟨r, ?_, ?_⟩
    · rw [applyInOrder_cons_ok hq, hr]
    · rw [multiplies_chain_cons]
      exact hR.trans hfirst hsecond

end

/-- In exact arithmetic identities keep points as they are. -/
theorem tracksIdentities_eq {K : Type} [Field K] [LinearOrder K] :
    TracksIdentities fun (_ : Prop) (p q : List K) => q = p where
  refl _ := rfl
  trans hpq hqr := hqr.trans hpq
  linear h hid hp := (Projective.image_of_isIdentity h hp hid).2

/-- A transform that passes for the identity gives every point back. -/
theorem applyPoint_of_isIdentity {K : Type} [Field K] [LinearOrder K] [Elementary K]
    (t : Transform K) (p : List K) (h : t.WellFormed) (hid : t.isIdentity = true)
    (hp : p.length = t.source) : t.target = t.source ∧ t.applyPoint p = .ok p := by
  obtain ⟨q, hq, rfl⟩ := exists_applyPoint_of_isIdentity tracksIdentities_eq t p h hid hp
  exact ⟨(length_applyPoint hq).symm.trans hp, hq⟩

end Identity

end Transform

end Georeferencing
