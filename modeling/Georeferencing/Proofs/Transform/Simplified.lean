import Georeferencing.Proofs.Transform.Dimensions

/-! # What a concatenation keeps

Steps that are known to be the identity are dropped and neighbouring matrices are multiplied, so
none of the former are kept, and no two of the latter in a row. A product that is dropped uncovers
the step kept before it; that one is not a matrix, since it stood next to one.
-/

namespace Georeferencing.Transform

variable {α : Type} [Scalar α] {steps before kept kept' : List (Transform α)} {step t : Transform α}

/-- No step is known to be the identity, and of two neighbours one is not a matrix. -/
structure Simplified (steps : List (Transform α)) : Prop where
  active : ∀ step ∈ steps, step.isIdentity = false
  apart : steps.IsChain fun first second => first.linear? = none ∨ second.linear? = none

namespace Simplified

theorem nil : Simplified ([] : List (Transform α)) where
  active := by simp
  apart := .nil

theorem reverse (h : Simplified steps) : Simplified steps.reverse where
  active step hstep := h.active step (List.mem_reverse.mp hstep)
  apart := by
    rw [List.isChain_reverse]
    exact h.apart.imp fun _ _ => Or.symm

theorem tail (h : Simplified (step :: before)) : Simplified before where
  active s hs := h.active s (List.mem_cons_of_mem _ hs)
  apart := h.apart.tail

theorem cons (h : Simplified before) (hstep : step.isIdentity = false)
    (hnext : ∀ next ∈ before.head?, step.linear? = none ∨ next.linear? = none) :
    Simplified (step :: before) where
  active := by
    rw [List.forall_mem_cons]
    exact ⟨hstep, h.active⟩
  apart := List.isChain_cons.mpr ⟨hnext, h.apart⟩

end Simplified

/-- A matrix is put on what is not one, or takes the place of the matrix that it is merged with. -/
theorem keepLinear_simplified {second : Projective α} (h : keepLinear kept second = .ok kept')
    (hkept : Simplified kept) (hsecond : second.isIdentity = false) : Simplified kept' := by
  unfold keepLinear at h
  split at h
  · next first before =>
    obtain ⟨product, -, rfl⟩ := keepLinear_cons_linear h
    split
    · exact hkept.tail
    · next hproduct =>
      apply hkept.tail.cons
      · rw [isIdentity]
        exact Bool.eq_false_of_not_eq_true hproduct
      · intro next hnext
        have hbeside := (List.isChain_cons.mp hkept.apart).1 next hnext
        exact Or.inr (hbeside.resolve_left (by simp [linear?]))
  · next hlast =>
    cases h
    apply hkept.cons
    · rwa [isIdentity]
    · intro next hnext
      right
      cases next with
      | linear first =>
        obtain ⟨before, rfl⟩ := List.head?_eq_some_iff.mp hnext
        exact absurd rfl (hlast first before)
      | mercator _ | inverseMercator _ | external _ _ | chain _ => rfl

/-- Adding a step leaves nothing to simplify. -/
theorem Concatenation.add_simplified {c c' : Concatenation α} (h : c.add step = .ok c')
    (hc : Simplified c.kept) : Simplified c'.kept := by
  unfold add at h
  split at h
  · cases h
  · split at h
    · cases h
      exact hc
    · next hstep =>
      have hactive : step.isIdentity = false := Bool.eq_false_of_not_eq_true hstep
      split at h
      · obtain ⟨kept, hkeep, hc'⟩ := bind_eq_ok.mp h
        cases hc'
        rw [isIdentity] at hactive
        exact keepLinear_simplified hkeep hc hactive
      · next hother =>
        cases h
        apply hc.cons hactive
        intro next _
        left
        cases step with
        | linear second => exact absurd rfl (hother second)
        | mercator _ | inverseMercator _ | external _ _ | chain _ => rfl

theorem keptSteps_simplified (h : keptSteps steps = .ok kept) : Simplified kept := by
  obtain ⟨c, hfold, rfl⟩ := keptSteps_eq_ok.mp h
  apply Simplified.reverse
  exact foldlM_keeps (P := fun c => Simplified c.kept) hfold .nil fun _ _ _ _ hc hadd =>
    Concatenation.add_simplified hadd hc

/-- What concatenation keeps holds no step that is known to be the identity and no two matrices in
a row, and fits together from the dimension that the first given step takes; what is made of it
leads to the dimension that the last one gives. All that is asked of the given steps is that what
passes for the identity gives the dimension that it takes, as is the case for whatever is put
together from steps that fit. -/
theorem concatenate_simplified (h : concatenate steps = .ok t) :
    ∃ kept, keptSteps steps = .ok kept ∧ t = ofKept (chain steps).source kept ∧
      Simplified kept ∧
      ((∀ step ∈ steps, step.isIdentity = true → step.source = step.target) →
        Fits (chain steps).source kept ∧ t.source = (chain steps).source ∧
          t.target = (chain steps).target) := by
  obtain ⟨-, kept, hkept, ht⟩ := concatenate_eq_ok.mp h
  refine ⟨kept, hkept, ht.symm, keptSteps_simplified hkept, fun hsteps => ?_⟩
  obtain ⟨hfits, htarget⟩ := fits_keptSteps hkept hsteps
  rw [← ht, ← htarget]
  exact ⟨hfits, shape_ofKept hfits⟩

/-- A change of dimension, then two matrices that cancel between two cubes. -/
theorem concatenate_simplified_cancelled :
    let cube : Transform ℚ := external
      { source := 1
        target := 1
        run := Batch.pointwise 1 1 fun point => .ok [point.headD 0 ^ 3]
        length_run := Batch.length_pointwise fun _ _ h => by cases h; rfl }
      (.error .noConvergence)
    let steps : List (Transform ℚ) :=
      [linear ⟨.flat ⟨2, 3, #[0, 1, 0, 0, 0, 1]⟩⟩, cube,
        linear ⟨.small 2 (by decide) (.of2 2 1 0 1)⟩,
        linear ⟨.flat ⟨2, 2, #[1 / 2, -1 / 2, 0, 1]⟩⟩, cube]
    ∃ t kept, concatenate steps = .ok t ∧ keptSteps steps = .ok kept ∧ kept.length = 3 ∧
      Simplified kept ∧ Fits 2 kept ∧ t.source = 2 ∧ t.target = 1 := by
  intro cube steps
  have hlength : (keptSteps steps).toOption.map List.length = some 3 := by decide +kernel
  obtain ⟨t, h⟩ : ∃ t, concatenate steps = .ok t := exists_of_isOk (by decide +kernel)
  obtain ⟨kept, hkept, -, hsimplified, hfits⟩ := concatenate_simplified h
  obtain ⟨hfits, hsource, htarget⟩ := hfits (by decide +kernel)
  rw [hkept] at hlength
  exact ⟨t, kept, h, hkept, Option.some.inj hlength, hsimplified, hfits, hsource, htarget⟩

end Georeferencing.Transform
