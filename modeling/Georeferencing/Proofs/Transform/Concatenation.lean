import Georeferencing.Proofs.Transform.Points
import Georeferencing.Transform.Concatenation

/-! # Concatenation preserves meaning

Concatenation rewrites a list of steps by two rules: an identity is dropped, and two neighbouring
matrices become their product. Both rules keep what the steps do to a point at which every matrix
met on the way has a denominator, they may be used anywhere in a list, and so whatever is made of
the steps kept at the end acts as the steps that were given.
-/

namespace Georeferencing.Transform

section Lists

variable {α : Type} {dimension : ℕ} {before after : List (Transform α)}

theorem lastTarget_append (before after : List (Transform α)) (dimension : ℕ) :
    lastTarget (before ++ after) dimension = lastTarget after (lastTarget before dimension) := by
  induction before generalizing dimension with
  | nil => rfl
  | cons step rest ih => exact ih step.target

theorem linked_append [Scalar α] :
    Linked dimension (before ++ after) ↔
      Linked dimension before ∧ Linked (lastTarget before dimension) after := by
  induction before generalizing dimension with
  | nil => simp [Linked, lastTarget]
  | cons step rest ih => simp only [List.cons_append, Linked, ih, lastTarget, and_assoc]

/-- A matrix is merged with a matrix before it, and the product dropped if it is the identity. -/
theorem keepLinear_cons_linear [Scalar α] {first second : Projective α}
    {before kept : List (Transform α)}
    (h : keepLinear (linear first :: before) second = .ok kept) :
    ∃ product, second.matrix.mul (.stored first.matrix) = .ok product ∧
      kept = if Projective.isIdentity ⟨product⟩ then before else linear ⟨product⟩ :: before := by
  rw [keepLinear] at h
  obtain ⟨product, hproduct, h⟩ := bind_eq_ok.mp h
  obtain ⟨merged, hmerged, hkept⟩ := bind_eq_ok.mp h
  rw [TransformError.ofMatrix_eq_ok] at hproduct hmerged
  rw [Projective.ofMatrix] at hmerged
  split at hmerged
  · cases hmerged
  · cases hmerged
    cases hkept
    exact ⟨product, hproduct, rfl⟩

/-- The dimensions of what is made of steps that fit together. -/
theorem shape_ofKept [Scalar α] (h : Fits dimension before) :
    (ofKept dimension before).source = dimension ∧
      (ofKept dimension before).target = lastTarget before dimension := by
  unfold ofKept
  split
  · constructor
    · exact congrArg (· - 1) (StoredMatrix.numCol_ofBlock _)
    · exact congrArg (· - 1) (StoredMatrix.numRow_ofBlock _)
  · exact ⟨h.1, rfl⟩
  · next hnil _ =>
    cases before with
    | nil => exact absurd rfl hnil
    | cons first rest => exact ⟨h.1, rfl⟩

/-- What is made of at least one step applies the steps in order. -/
theorem applyPoint_ofKept_of_ne_nil [Scalar α] [Elementary α] (hsteps : before ≠ [])
    (h : Fits dimension before) {point : List α} (hp : point.length = dimension) :
    (ofKept dimension before).applyPoint point = applyInOrder before point := by
  cases before with
  | nil => exact absurd rfl hsteps
  | cons first rest =>
    cases rest with
    | nil => exact (bind_pure (first.applyPoint point)).symm
    | cons second rest =>
      have hsource : (chain (first :: second :: rest)).source = dimension := h.1
      change (chain (first :: second :: rest)).applyPoint point = _
      apply applyPoint_chain
      · rwa [hsource]
      · rw [hp, hsource]

end Lists

variable {K : Type} [Field K] [LinearOrder K] [Elementary K] {dimension : ℕ}
  {steps steps' steps'' before after : List (Transform K)}

/-- A matrix has a denominator at a point; other transforms need none. -/
def Regular : Transform K → List K → Prop
  | linear t, point => t.denominator point ≠ 0
  | _, _ => True

/-- Every matrix among the steps has a denominator at the point that reaches it. -/
def RegularAt : List (Transform K) → List K → Prop
  | [], _ => True
  | step :: rest, point =>
    step.Regular point ∧ ∀ next, step.applyPoint point = .ok next → RegularAt rest next

instance (step : Transform K) (point : List K) : Decidable (step.Regular point) :=
  match step with
  | linear _ => inferInstanceAs (Decidable (_ ≠ _))
  | mercator _ | inverseMercator _ | external _ _ | chain _ => isTrue trivial

instance decidableRegularAt : ∀ (steps : List (Transform K)) (point : List K),
    Decidable (RegularAt steps point)
  | [], _ => isTrue trivial
  | step :: rest, point =>
    have : Decidable (∀ next, step.applyPoint point = .ok next → RegularAt rest next) :=
      match h : step.applyPoint point with
      | .error _ => isTrue fun _ hnext => by cases hnext
      | .ok next =>
        have := decidableRegularAt rest next
        decidable_of_iff (RegularAt rest next) ⟨fun hr _ hnext => by cases hnext; exact hr,
          fun hr => hr next rfl⟩
    inferInstanceAs (Decidable (_ ∧ _))

theorem regularAt_append {point : List K} :
    RegularAt (before ++ after) point ↔
      RegularAt before point ∧
        ∀ next, applyInOrder before point = .ok next → RegularAt after next := by
  induction before generalizing point with
  | nil =>
    rw [List.nil_append, RegularAt, true_and]
    constructor
    · intro h next hnext
      cases hnext
      exact h
    · intro h
      exact h point rfl
  | cons step rest ih =>
    simp only [List.cons_append, RegularAt, ih, and_assoc, applyInOrder_cons]
    cases hstep : step.applyPoint point with
    | error e => simp [bind, Except.bind]
    | ok q => simp [bind, Except.bind]

/-- The second list of steps fits together and does what the first one does. -/
structure Simplifies (dimension : ℕ) (steps steps' : List (Transform K)) : Prop where
  linked : Linked dimension steps'
  target : lastTarget steps' dimension = lastTarget steps dimension
  regular : ∀ point : List K, point.length = dimension → RegularAt steps point →
    RegularAt steps' point
  same : ∀ point : List K, point.length = dimension → RegularAt steps point →
    applyInOrder steps' point = applyInOrder steps point

namespace Simplifies

theorem refl (h : Linked dimension steps) : Simplifies dimension steps steps where
  linked := h
  target := rfl
  regular _ _ hregular := hregular
  same _ _ _ := rfl

theorem trans (h : Simplifies dimension steps steps') (h' : Simplifies dimension steps' steps'') :
    Simplifies dimension steps steps'' where
  linked := h'.linked
  target := h'.target.trans h.target
  regular point hp hregular := h'.regular point hp (h.regular point hp hregular)
  same point hp hregular := by
    rw [h'.same point hp (h.regular point hp hregular), h.same point hp hregular]

/-- The rules may be used behind other steps. -/
theorem append_left (hbefore : Linked dimension before)
    (h : Simplifies (lastTarget before dimension) steps steps') :
    Simplifies dimension (before ++ steps) (before ++ steps') where
  linked := linked_append.mpr ⟨hbefore, h.linked⟩
  target := by rw [lastTarget_append, lastTarget_append, h.target]
  regular point hp hregular := by
    rw [regularAt_append] at hregular ⊢
    constructor
    · exact hregular.1
    · intro next hnext
      exact h.regular next (hp ▸ length_applyInOrder hnext) (hregular.2 next hnext)
  same point hp hregular := by
    rw [regularAt_append] at hregular
    rw [applyInOrder_append, applyInOrder_append]
    cases hnext : applyInOrder before point with
    | error e => rfl
    | ok next => exact h.same next (hp ▸ length_applyInOrder hnext) (hregular.2 next hnext)

/-- The rules may be used in front of other steps. -/
theorem append_right (h : Simplifies dimension steps steps')
    (hafter : Linked (lastTarget steps dimension) after) :
    Simplifies dimension (steps ++ after) (steps' ++ after) where
  linked := linked_append.mpr ⟨h.linked, h.target ▸ hafter⟩
  target := by rw [lastTarget_append, lastTarget_append, h.target]
  regular point hp hregular := by
    rw [regularAt_append] at hregular ⊢
    rw [h.same point hp hregular.1]
    exact ⟨h.regular point hp hregular.1, hregular.2⟩
  same point hp hregular := by
    rw [regularAt_append] at hregular
    rw [applyInOrder_append, applyInOrder_append, h.same point hp hregular.1]

/-- An identity may be dropped. -/
theorem drop {step : Transform K} (h : step.WellFormed) (hid : step.isIdentity = true) :
    Simplifies step.source [step] [] where
  linked := trivial
  target := (applyPoint_of_isIdentity step (List.replicate step.source 0) h hid
    List.length_replicate).1.symm
  regular _ _ _ := trivial
  same point hp _ := by
    rw [applyInOrder_cons, (applyPoint_of_isIdentity step point h hid hp).2]
    rfl

/-- Two matrices may be replaced by their product. -/
theorem merge {first second : Projective K} {product : StoredMatrix K}
    (hlinked : Linked dimension [linear first, linear second])
    (hproduct : second.matrix.mul (.stored first.matrix) = .ok product) :
    Simplifies dimension [linear first, linear second] [linear ⟨product⟩] := by
  simp only [Linked, and_true] at hlinked
  rcases hlinked with ⟨hsource, hfirst, hinner, hsecond⟩
  rw [WellFormed] at hfirst hsecond
  change second.source = first.target at hinner
  rw [hinner] at hsecond
  have hshape : Projective.HasShape ⟨product⟩ first.source second.target :=
    Projective.hasShape_mul hfirst hsecond hproduct
  have hmul : ∀ point : List K, point.length = dimension →
      RegularAt [linear first, linear second] point →
      applyInOrder [linear first, linear second] point = .ok (Projective.image ⟨product⟩ point) ∧
        Projective.denominator ⟨product⟩ point ≠ 0 := by
    intro point hp hregular
    have hpoint : point.length = first.source := hp.trans hsource.symm
    have hnext : (first.image point).length = second.source := by
      rw [first.length_image, hinner]
    simp only [RegularAt, Regular, and_true, applyPoint_linear hpoint, implies_true] at hregular
    rcases hregular with ⟨hw, hregular⟩
    rcases Projective.image_mul hfirst hsecond hproduct hpoint hw with ⟨himage, hdenominator⟩
    constructor
    · rw [applyInOrder_cons, applyPoint_linear hpoint, himage]
      change applyInOrder [linear second] (first.image point) = _
      rw [applyInOrder_cons, applyPoint_linear hnext]
      rfl
    · rw [hdenominator]
      exact mul_ne_zero hw (hregular _ rfl)
  constructor
  · simp only [Linked, WellFormed, and_true]
    constructor
    · exact hshape.source.trans hsource
    · rw [hshape.source, hshape.target]
      exact hshape
  · exact hshape.target
  · intro point hp hregular
    exact ⟨(hmul point hp hregular).2, fun _ _ => trivial⟩
  · intro point hp hregular
    have hpoint : point.length = (linear (⟨product⟩ : Projective K)).source :=
      hp.trans (hsource.symm.trans hshape.source.symm)
    rw [(hmul point hp hregular).1, applyInOrder_cons, applyPoint_linear hpoint]
    rfl

end Simplifies

/-- Adding a matrix behind the kept steps uses both rules at most once, at the end of the list. -/
theorem keepLinear_simplifies {kept kept' : List (Transform K)} {second : Projective K}
    (hlinked : Linked dimension (kept.reverse ++ [linear second]))
    (h : keepLinear kept second = .ok kept') :
    Simplifies dimension (kept.reverse ++ [linear second]) kept'.reverse := by
  unfold keepLinear at h
  split at h
  · next first before =>
    rcases keepLinear_cons_linear h with ⟨product, hproduct, rfl⟩
    rw [List.reverse_cons, List.append_assoc] at hlinked ⊢
    rcases linked_append.mp hlinked with ⟨hbefore, htail⟩
    have hmerge := Simplifies.merge htail hproduct
    split
    · next hid =>
      have hwf := hmerge.linked
      simp only [Linked, and_true] at hwf
      have hdrop := Simplifies.drop hwf.2 hid
      rw [hwf.1] at hdrop
      have hboth := (hmerge.trans hdrop).append_left hbefore
      rwa [List.append_nil] at hboth
    · rw [List.reverse_cons]
      exact hmerge.append_left hbefore
  · cases h
    rw [List.reverse_cons]
    exact .refl hlinked

/-- Adding a step keeps what all the steps seen so far do. -/
theorem Concatenation.add_simplifies {done : List (Transform K)} {c c' : Concatenation K}
    {step : Transform K} (h : c.add step = .ok c') (hstep : step.WellFormed)
    (hkept : Simplifies dimension done c.kept.reverse)
    (htarget : c.target = lastTarget done dimension) :
    Simplifies dimension (done ++ [step]) c'.kept.reverse ∧
      c'.target = lastTarget (done ++ [step]) dimension := by
  unfold add at h
  split at h
  · cases h
  · next hsource =>
    have hfits : step.source = lastTarget done dimension := (not_not.mp hsource).trans htarget
    have hlinked : Linked (lastTarget done dimension) [step] := ⟨hfits, hstep, trivial⟩
    have hpush := hkept.append_right hlinked
    rw [lastTarget_append]
    split at h
    · next hid =>
      cases h
      have hdrop := Simplifies.drop hstep hid
      rw [hfits, ← hkept.target] at hdrop
      have hboth := hpush.trans (hdrop.append_left hkept.linked)
      rw [List.append_nil] at hboth
      exact ⟨hboth, rfl⟩
    · split at h
      · obtain ⟨kept, hkeep, hc⟩ := bind_eq_ok.mp h
        cases hc
        exact ⟨hpush.trans (keepLinear_simplifies hpush.linked hkeep), rfl⟩
      · cases h
        rw [List.reverse_cons]
        exact ⟨hpush, rfl⟩

theorem foldlM_add_simplifies {c c' : Concatenation K} {done steps : List (Transform K)}
    (h : steps.foldlM Concatenation.add c = .ok c') (hsteps : ∀ step ∈ steps, step.WellFormed)
    (hkept : Simplifies dimension done c.kept.reverse)
    (htarget : c.target = lastTarget done dimension) :
    Simplifies dimension (done ++ steps) c'.kept.reverse := by
  induction steps generalizing c done with
  | nil =>
    cases h
    rwa [List.append_nil]
  | cons step rest ih =>
    rw [List.foldlM_cons] at h
    obtain ⟨next, hadd, hfold⟩ := bind_eq_ok.mp h
    rcases Concatenation.add_simplifies hadd (hsteps step List.mem_cons_self) hkept htarget with
      ⟨hnext, hnextTarget⟩
    have hrest := ih hfold (fun s hs => hsteps s (List.mem_cons_of_mem _ hs)) hnext hnextTarget
    rwa [List.append_assoc] at hrest

theorem applyPoint_identity {point : List K} (hp : point.length = dimension) :
    (linear (.identity dimension) : Transform K).applyPoint point = .ok point := by
  obtain ⟨hshape, himage⟩ := Projective.identity_spec (K := K) dimension
  rw [applyPoint_linear (hp.trans hshape.source.symm), himage point hp]

/-- The transform made of steps that fit together takes the points that the first one takes and
applies them in order. -/
theorem applyPoint_ofKept (h : Linked dimension steps) :
    (ofKept dimension steps).source = dimension ∧
      ∀ point : List K, point.length = dimension →
        (ofKept dimension steps).applyPoint point = applyInOrder steps point := by
  constructor
  · exact (shape_ofKept h.fits).1
  · intro point hp
    by_cases hsteps : steps = []
    · subst hsteps
      exact applyPoint_identity hp
    · exact applyPoint_ofKept_of_ne_nil hsteps h.fits hp

/-- A concatenation does to every point what the given steps do one after the other, as long as
every matrix has a denominator at the point that reaches it. -/
theorem concatenate_applyPoint {t : Transform K} (h : concatenate steps = .ok t)
    (hsteps : ∀ step ∈ steps, step.WellFormed) {point : List K} (hregular : RegularAt steps point) :
    t.applyPoint point = applyInOrder steps point := by
  unfold concatenate at h
  split at h
  · cases h
  · next first rest =>
    obtain ⟨c, hfold, hc⟩ := bind_eq_ok.mp h
    cases hc
    have hstart : Simplifies first.source ([] : List (Transform K)) [] := .refl trivial
    have hkept := foldlM_add_simplifies hfold hsteps hstart rfl
    rw [List.nil_append] at hkept
    rcases applyPoint_ofKept hkept.linked with ⟨hsource, hpoint⟩
    by_cases hp : point.length = first.source
    · rw [hpoint point hp, hkept.same point hp hregular]
    · rw [applyPoint_of_length_ne (by rwa [hsource]), hsource, applyInOrder_cons,
        applyPoint_of_length_ne hp]
      rfl

/-- An affine step, one that changes nothing, a perspective and a cube. -/
theorem concatenate_applyPoint_cube :
    letI : Elementary ℚ := Exact.quarterTurns
    let cube : ExternalTransform ℚ :=
      { source := 1
        target := 1
        run := Batch.pointwise 1 1 fun point => .ok [point.headD 0 ^ 3]
        length_run := Batch.length_pointwise fun _ _ h => by cases h; rfl }
    let steps : List (Transform ℚ) :=
      [linear ⟨.small 2 (by decide) ⟨#v[2, 1, 0, 1]⟩⟩, linear (.identity 1),
        linear ⟨.flat ⟨2, 2, #[1, 0, 1, 1]⟩⟩, external cube (.error .noConvergence)]
    ∃ t, concatenate steps = .ok t ∧ t.applyPoint [3] = .ok [343 / 512] := by
  let _ : Elementary ℚ := Exact.quarterTurns
  intro cube steps
  have hwf : ∀ step ∈ steps, step.WellFormed := by
    simp only [steps, List.forall_mem_cons, List.not_mem_nil, false_imp_iff, implies_true,
      and_true, WellFormed]
    refine ⟨⟨rfl, rfl, rfl⟩, ?_, ⟨rfl, rfl, rfl⟩, ?_⟩
    · exact (Projective.identity_spec 1).1
    · intro hid
      cases hid
  have hregular : RegularAt steps [3] := by decide +kernel
  have hok : (concatenate steps).isOk = true := by decide +kernel
  cases h : concatenate steps with
  | error e =>
    rw [h] at hok
    cases hok
  | ok t =>
    refine ⟨t, rfl, ?_⟩
    rw [concatenate_applyPoint h hwf hregular]
    decide +kernel

end Georeferencing.Transform
