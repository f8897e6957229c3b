import Georeferencing.Proofs.Transform.Concatenation

/-! # Dimensions of chains

The steps of a chain fit together when each takes the dimension that the step before it gives. A
concatenation of transforms whose chains fit is again one, whatever the arithmetic: a product has
the source of its first matrix and the target of its second, and what passes for the identity
gives the dimension that it takes. An inverse leads back from the target to the source.
-/

namespace Georeferencing

theorem StoredMatrix.shape_mul {α : Type} [Scalar α] {a product : StoredMatrix α}
    {b : HeldMatrix α} (h : a.mul b = .ok product) :
    product.numRow = a.numRow ∧ product.numCol = b.numCol := by
  unfold mul at h
  split at h
  · cases h
    exact ⟨rfl, rfl⟩
  · cases h
    exact ⟨rfl, rfl⟩
  · obtain ⟨_, -, h⟩ := bind_eq_ok.mp h
    cases h
    exact ⟨numRow_ofBlock _, numCol_ofBlock _⟩

theorem StoredMatrix.shape_inverse {α : Type} [Scalar α] {m inverted : StoredMatrix α}
    (h : m.inverse = .ok inverted) : inverted.numRow = m.numCol ∧ inverted.numCol = m.numRow := by
  unfold inverse at h
  split at h
  · split at h
    · cases h
      exact ⟨rfl, rfl⟩
    · cases h
  · next m =>
    unfold FlatMatrix.inverse at h
    split at h
    · next hsquare =>
      split at h
      · cases h
        exact ⟨(numRow_ofBlock _).trans hsquare, numCol_ofBlock _⟩
      · cases h
    · cases h

theorem Projective.source_eq_target_of_isIdentity {α : Type} [Scalar α] {t : Projective α}
    (h : t.isIdentity = true) : t.source = t.target := by
  simp only [isIdentity, StoredMatrix.isIdentity, RowMajor.isIdentity, Bool.and_eq_true,
    beq_iff_eq] at h
  rw [source, target, h.1]

namespace Transform

variable {α : Type} {P : Transform α → Prop} {dimension : ℕ}
  {steps before after : List (Transform α)}

theorem fits_append :
    Fits dimension (before ++ after) ↔
      Fits dimension before ∧ Fits (lastTarget before dimension) after := by
  induction before generalizing dimension with
  | nil => simp [Fits, lastTarget]
  | cons step rest ih => simp only [List.cons_append, Fits, ih, lastTarget, and_assoc]

mutual

/-- The steps of every chain fit together, and `P` holds of what is supplied from outside. -/
def Composed (P : Transform α → Prop) : Transform α → Prop
  | external t inverse => P (external t inverse)
  | chain steps => Fits (chain steps).source steps ∧ AllComposed P steps
  | linear _ | mercator _ | inverseMercator _ => True

def AllComposed (P : Transform α → Prop) : List (Transform α) → Prop
  | [] => True
  | step :: rest => step.Composed P ∧ AllComposed P rest

end

theorem allComposed_iff : AllComposed P steps ↔ ∀ step ∈ steps, step.Composed P := by
  induction steps with
  | nil => simp [AllComposed]
  | cons step rest ih => rw [AllComposed, ih, List.forall_mem_cons]

theorem allComposed_append :
    AllComposed P (before ++ after) ↔ AllComposed P before ∧ AllComposed P after := by
  simp only [allComposed_iff, List.mem_append, or_imp, forall_and]

theorem composed_linear (t : Projective α) : (linear t).Composed P := by
  rw [Composed]
  trivial

theorem composed_mercator (m : Mercator α) : (mercator m).Composed P := by
  rw [Composed]
  trivial

variable [Scalar α]

mutual

theorem source_eq_target_of_isIdentity : ∀ {t : Transform α}, t.Composed P →
    t.isIdentity = true → t.source = t.target
  | linear t, _, hid => by
    rw [isIdentity] at hid
    exact Projective.source_eq_target_of_isIdentity hid
  | mercator _, _, _ => rfl
  | inverseMercator _, _, _ => rfl
  | external t _, _, hid => by
    rw [isIdentity] at hid
    exact t.identity_dimension hid
  | chain steps, h, hid => by
    rw [Composed] at h
    rw [isIdentity] at hid
    rw [← lastTarget_source, lastTarget_of_allIdentity h.1 h.2 hid]

theorem lastTarget_of_allIdentity : ∀ {steps : List (Transform α)} {dimension : ℕ},
    Fits dimension steps → AllComposed P steps → allIdentity steps = true →
      lastTarget steps dimension = dimension
  | [], _, _, _, _ => rfl
  | step :: rest, dimension, hfits, h, hid => by
    rw [AllComposed] at h
    rw [allIdentity, Bool.and_eq_true] at hid
    rw [lastTarget, lastTarget_of_allIdentity hfits.2 h.2 hid.2,
      ← source_eq_target_of_isIdentity h.1 hid.1, hfits.1]

end

/-- The inverse is composed of what satisfies `P` and leads from the target to the source. -/
def LeadsBack (P : Transform α → Prop) (t : Transform α) : Prop :=
  ∀ u, t.inverse = .ok u → u.Composed P ∧ u.source = t.target ∧ u.target = t.source

/-- A chain of inverses takes the dimension from which it fits. -/
theorem source_inverseSteps {back : List (Transform α)} (hfits : Fits (chain steps).target back)
    (h : inverseSteps steps = .ok back) : (chain back).source = (chain steps).target := by
  cases back with
  | cons first rest => exact hfits.1
  | nil =>
    cases steps with
    | nil => rfl
    | cons step rest =>
      rw [inverseSteps] at h
      obtain ⟨later, -, h⟩ := bind_eq_ok.mp h
      obtain ⟨first, -, h⟩ := bind_eq_ok.mp h
      exact absurd (Except.ok.inj h) (by simp)

mutual

/-- If the inverses of what is supplied from outside lead back, so do those of what is composed
of it. -/
theorem Composed.leadsBack : ∀ {t : Transform α}, t.Composed (LeadsBack P) → t.LeadsBack P
  | linear t, _, u, hu => by
    rw [inverse] at hu
    obtain ⟨back, hback, hu⟩ := bind_eq_ok.mp hu
    obtain ⟨m, hm, hback⟩ := bind_eq_ok.mp (TransformError.ofMatrix_eq_ok.mp hback)
    cases hback
    cases hu
    obtain ⟨hrow, hcol⟩ := StoredMatrix.shape_inverse hm
    exact ⟨composed_linear _, congrArg (· - 1) hcol, congrArg (· - 1) hrow⟩
  | mercator m, _, u, hu => by
    rw [inverse] at hu
    cases hu
    rw [Composed]
    exact ⟨trivial, rfl, rfl⟩
  | inverseMercator m, _, u, hu => by
    rw [inverse] at hu
    cases hu
    rw [Composed]
    exact ⟨trivial, rfl, rfl⟩
  | external t back, h, u, hu => by
    rw [Composed] at h
    exact h u hu
  | chain steps, h, u, hu => by
    rw [Composed] at h
    rw [inverse] at hu
    obtain ⟨back, hback, hu⟩ := bind_eq_ok.mp hu
    cases hu
    obtain ⟨hfits, htarget, hcomposed⟩ := AllComposed.inverseSteps h.2 h.1 hback
    rw [lastTarget_source] at hfits htarget
    have hsource := source_inverseSteps hfits hback
    rw [Composed, ← lastTarget_source back, hsource]
    exact ⟨⟨hfits, hcomposed⟩, rfl, htarget⟩

theorem AllComposed.inverseSteps : ∀ {steps back : List (Transform α)} {dimension : ℕ},
    AllComposed (LeadsBack P) steps → Fits dimension steps →
      Transform.inverseSteps steps = .ok back →
        Fits (lastTarget steps dimension) back ∧
          lastTarget back (lastTarget steps dimension) = dimension ∧ AllComposed P back
  | [], back, dimension, _, _, hback => by
    rw [Transform.inverseSteps] at hback
    cases hback
    rw [AllComposed]
    exact ⟨trivial, rfl, trivial⟩
  | step :: rest, back, dimension, h, hfits, hback => by
    rw [AllComposed] at h
    rw [Transform.inverseSteps] at hback
    obtain ⟨later, hlater, hback⟩ := bind_eq_ok.mp hback
    obtain ⟨first, hfirst, hback⟩ := bind_eq_ok.mp hback
    cases hback
    obtain ⟨hfits', htarget, hcomposed⟩ := AllComposed.inverseSteps h.2 hfits.2 hlater
    obtain ⟨hstep, hsource, hback⟩ := Composed.leadsBack h.1 first hfirst
    rw [lastTarget, fits_append, lastTarget_append, htarget, allComposed_append]
    refine ⟨⟨hfits', hsource, trivial⟩, hback.trans hfits.1, hcomposed, ?_⟩
    rw [AllComposed, AllComposed]
    exact ⟨hstep, trivial⟩

end

/-- The kept steps fit together from `dimension` on, to the dimension that has been reached. -/
structure Concatenation.Typed (dimension : ℕ) (c : Concatenation α) : Prop where
  fits : Fits dimension c.kept.reverse
  target : lastTarget c.kept.reverse dimension = c.target

omit [Scalar α] in
/-- A step that fits may be put behind the kept ones. -/
theorem Concatenation.Typed.push {c : Concatenation α} (h : c.Typed dimension)
    {step : Transform α} (hsource : step.source = c.target) :
    Concatenation.Typed dimension ⟨step :: c.kept, step.target⟩ where
  fits := by
    rw [List.reverse_cons, fits_append, h.target]
    exact ⟨h.fits, hsource, trivial⟩
  target := by rw [List.reverse_cons, lastTarget_append, lastTarget, lastTarget]

omit [Scalar α] in
/-- The last step may be taken away. -/
theorem Concatenation.Typed.pop {step : Transform α} {before : List (Transform α)} {reached : ℕ}
    (h : Concatenation.Typed dimension ⟨step :: before, reached⟩) :
    Concatenation.Typed dimension ⟨before, step.source⟩ ∧ step.target = reached := by
  have hfits := h.fits
  have htarget := h.target
  rw [List.reverse_cons, fits_append] at hfits
  rw [List.reverse_cons, lastTarget_append] at htarget
  exact ⟨⟨hfits.1, hfits.2.1.symm⟩, htarget⟩

theorem keepLinear_typed {kept kept' : List (Transform α)} {second : Projective α}
    (hc : Concatenation.Typed dimension ⟨kept, second.source⟩)
    (h : keepLinear kept second = .ok kept') :
    Concatenation.Typed dimension ⟨kept', second.target⟩ := by
  unfold keepLinear at h
  split at h
  · next first before =>
    rcases keepLinear_cons_linear h with ⟨product, hproduct, rfl⟩
    obtain ⟨hrow, hcol⟩ := StoredMatrix.shape_mul hproduct
    have hsource : Projective.source ⟨product⟩ = first.source := congrArg (· - 1) hcol
    have htarget : Projective.target ⟨product⟩ = second.target := congrArg (· - 1) hrow
    obtain ⟨hbefore, -⟩ := hc.pop
    change Concatenation.Typed dimension ⟨before, first.source⟩ at hbefore
    rw [← htarget]
    split
    · next hid =>
      rwa [← Projective.source_eq_target_of_isIdentity hid, hsource]
    · have hstep : (linear ⟨product⟩ : Transform α).source = first.source := hsource
      exact hbefore.push hstep
  · cases h
    have hstep : (linear second).source = second.source := rfl
    exact hc.push hstep

/-- Adding a step that fits keeps the chain together. -/
theorem Concatenation.add_typed {c c' : Concatenation α} {step : Transform α}
    (h : c.add step = .ok c') (hstep : step.isIdentity = true → step.source = step.target)
    (hc : c.Typed dimension) : c'.Typed dimension := by
  unfold add at h
  split at h
  · cases h
  · next hsource =>
    rw [not_not] at hsource
    split at h
    · next hid =>
      cases h
      rwa [← hstep hid, hsource]
    · split at h
      · next second _ =>
        obtain ⟨kept, hkeep, hc'⟩ := bind_eq_ok.mp h
        cases hc'
        change second.source = c.target at hsource
        apply keepLinear_typed _ hkeep
        rwa [hsource]
      · cases h
        exact hc.push hsource

theorem foldlM_add_typed {c c' : Concatenation α} (h : steps.foldlM Concatenation.add c = .ok c')
    (hsteps : ∀ step ∈ steps, step.isIdentity = true → step.source = step.target)
    (hc : c.Typed dimension) : c'.Typed dimension :=
  foldlM_keeps h hc fun step hstep _ _ hbefore hadd =>
    Concatenation.add_typed hadd (hsteps step hstep) hbefore

/-- What is kept is a given step or a product of given matrices. -/
theorem Concatenation.add_forall {Q : Transform α → Prop}
    (hproduct : ∀ {first second : Projective α} {product : StoredMatrix α}, Q (linear first) →
      Q (linear second) → second.matrix.mul (.stored first.matrix) = .ok product →
        Q (linear ⟨product⟩))
    {c c' : Concatenation α} {step : Transform α} (h : c.add step = .ok c') (hstep : Q step)
    (hc : ∀ s ∈ c.kept, Q s) : ∀ s ∈ c'.kept, Q s := by
  unfold add at h
  split at h
  · cases h
  · split at h
    · cases h
      exact hc
    · split at h
      · obtain ⟨kept, hkeep, hc'⟩ := bind_eq_ok.mp h
        cases hc'
        unfold keepLinear at hkeep
        split at hkeep
        · next hkept =>
          rw [hkept, List.forall_mem_cons] at hc
          obtain ⟨product, hmul, rfl⟩ := keepLinear_cons_linear hkeep
          split
          · exact hc.2
          · exact List.forall_mem_cons.mpr ⟨hproduct hc.1 hstep hmul, hc.2⟩
        · cases hkeep
          exact List.forall_mem_cons.mpr ⟨hstep, hc⟩
      · cases h
        exact List.forall_mem_cons.mpr ⟨hstep, hc⟩

/-- The dimension that is reached is the one that the steps lead to. -/
theorem target_foldlM_add {c c' : Concatenation α}
    (h : steps.foldlM Concatenation.add c = .ok c') : c'.target = lastTarget steps c.target := by
  induction steps generalizing c with
  | nil =>
    cases h
    rfl
  | cons step rest ih =>
    rw [List.foldlM_cons] at h
    obtain ⟨next, hadd, hrest⟩ := bind_eq_ok.mp h
    have hnext : next.target = step.target := by
      unfold Concatenation.add at hadd
      split at hadd
      · cases hadd
      · split at hadd
        · cases hadd
          rfl
        · split at hadd
          · obtain ⟨kept, -, hkept⟩ := bind_eq_ok.mp hadd
            cases hkept
            rfl
          · cases hadd
            rfl
    rw [ih hrest, hnext, lastTarget]

theorem composed_ofKept (hfits : Fits dimension steps) (hsteps : ∀ step ∈ steps, step.Composed P) :
    (ofKept dimension steps).Composed P := by
  unfold ofKept
  split
  · exact composed_linear _
  · next step => exact hsteps step (List.mem_singleton_self _)
  · next hnil _ =>
    cases steps with
    | nil => exact absurd rfl hnil
    | cons step rest =>
      have hsource : (chain (step :: rest)).source = dimension := hfits.1
      rw [Composed, hsource, allComposed_iff]
      exact ⟨hfits, hsteps⟩

/-- The steps that concatenation keeps, in the order in which they apply. -/
def keptSteps (steps : List (Transform α)) :
    Except (TransformError α) (List (Transform α)) := do
  let c ← steps.foldlM Concatenation.add ⟨[], (chain steps).source⟩
  return c.kept.reverse

theorem keptSteps_eq_ok {kept : List (Transform α)} : keptSteps steps = .ok kept ↔
    ∃ c, steps.foldlM Concatenation.add ⟨[], (chain steps).source⟩ = .ok c ∧
      c.kept.reverse = kept := by
  simp [keptSteps, bind_eq_ok, pure, Except.pure]

/-- A concatenation is what is made of the steps that it keeps. -/
theorem concatenate_eq_ok {t : Transform α} : concatenate steps = .ok t ↔
    steps ≠ [] ∧ ∃ kept, keptSteps steps = .ok kept ∧ ofKept (chain steps).source kept = t := by
  cases steps with
  | nil => simp [concatenate]
  | cons first rest =>
    simp only [keptSteps_eq_ok, exists_exists_and_eq_and]
    rw [concatenate, bind_eq_ok]
    simp [pure, Except.pure, source]

/-- The kept steps lead from the dimension that the first given step takes to the one that the last
gives. -/
theorem fits_keptSteps {kept : List (Transform α)} (h : keptSteps steps = .ok kept)
    (hsteps : ∀ step ∈ steps, step.isIdentity = true → step.source = step.target) :
    Fits (chain steps).source kept ∧
      lastTarget kept (chain steps).source = (chain steps).target := by
  obtain ⟨c, hfold, rfl⟩ := keptSteps_eq_ok.mp h
  have htyped := foldlM_add_typed hfold hsteps ⟨trivial, rfl⟩
  refine ⟨htyped.fits, ?_⟩
  rw [htyped.target, target_foldlM_add hfold, lastTarget_source]

/-- A concatenation leads from the dimension that the first step takes to the one that the last
gives. -/
theorem shape_concatenate {t : Transform α} (h : concatenate steps = .ok t)
    (hsteps : ∀ step ∈ steps, step.isIdentity = true → step.source = step.target) :
    t.source = (chain steps).source ∧ t.target = (chain steps).target := by
  obtain ⟨-, kept, hkept, rfl⟩ := concatenate_eq_ok.mp h
  obtain ⟨hfits, htarget⟩ := fits_keptSteps hkept hsteps
  rw [← htarget]
  exact shape_ofKept hfits

/-- What holds of the given steps, and of the product of matrices of which it holds, holds of the
kept steps. -/
theorem keptSteps_forall {Q : Transform α → Prop}
    (hproduct : ∀ {first second : Projective α} {product : StoredMatrix α}, Q (linear first) →
      Q (linear second) → second.matrix.mul (.stored first.matrix) = .ok product →
        Q (linear ⟨product⟩))
    {kept : List (Transform α)} (h : keptSteps steps = .ok kept) (hsteps : ∀ step ∈ steps, Q step) :
    ∀ step ∈ kept, Q step := by
  obtain ⟨c, hfold, rfl⟩ := keptSteps_eq_ok.mp h
  have hkept : ∀ s ∈ c.kept, Q s :=
    foldlM_keeps (P := fun c => ∀ s ∈ c.kept, Q s) hfold (by simp) fun step hstep _ _ hbefore hadd =>
      Concatenation.add_forall hproduct hadd (hsteps step hstep) hbefore
  intro step hstep
  exact hkept step (List.mem_reverse.mp hstep)

theorem composed_keptSteps {kept : List (Transform α)} (h : keptSteps steps = .ok kept)
    (hsteps : ∀ step ∈ steps, step.Composed P) : ∀ step ∈ kept, step.Composed P :=
  keptSteps_forall (fun _ _ _ => composed_linear _) h hsteps

/-- A concatenation leads from the dimension that the first step takes to the one that the last
step gives, and makes no chain whose steps do not fit together. -/
theorem concatenate_spec {t : Transform α} (h : concatenate steps = .ok t)
    (hsteps : ∀ step ∈ steps, step.Composed P) :
    t.Composed P ∧ t.source = (chain steps).source ∧ t.target = (chain steps).target := by
  have hidentity : ∀ step ∈ steps, step.isIdentity = true → step.source = step.target :=
    fun step hstep => source_eq_target_of_isIdentity (hsteps step hstep)
  refine ⟨?_, shape_concatenate h hidentity⟩
  obtain ⟨-, kept, hkept, rfl⟩ := concatenate_eq_ok.mp h
  exact composed_ofKept (fits_keptSteps hkept hidentity).1 (composed_keptSteps hkept hsteps)

end Transform

end Georeferencing
