import Georeferencing.Proofs.Matrix.Product
import Georeferencing.Proofs.Transform.Simplified

/-! # Which lists are not concatenated

A list of steps is refused if it is empty or if two neighbours do not fit, and for no other reason.
A product of matrices could fail only if the matrix kept last gave a dimension other than the one
that has been reached. It never does: what is dropped gives the dimension that it takes, so the kept
steps always lead to the target of the step seen last, and failures depend on this target alone.
-/

namespace Georeferencing

theorem StoredMatrix.exists_mul {α : Type} [Scalar α] (a : StoredMatrix α) (b : HeldMatrix α)
    (h : b.numRow = a.numCol) : ∃ product, a.mul b = .ok product := by
  unfold mul
  split
  · exact ⟨_, rfl⟩
  · exact ⟨_, rfl⟩
  · obtain ⟨product, hproduct, -⟩ := HeldMatrix.product_fits (.stored a) b h
    exact ⟨product, hproduct⟩

namespace Transform

section Lists

variable {α : Type} {dimension : ℕ} {steps : List (Transform α)} {first second : Transform α}
  {e : TransformError α}

/-- The second step takes the points that the first one gives. -/
def Follows (first second : Transform α) : Prop := second.source = first.target

/-- Lists that are refused, and why: they are empty, or two neighbours do not fit, the first such
neighbours being reported. -/
inductive Refused : List (Transform α) → TransformError α → Prop where
  | empty : Refused [] (.invalidParameter .emptyConcatenation)
  | mismatch (before : List (Transform α)) (previous step : Transform α)
      (after : List (Transform α)) (fitting : (before ++ [previous]).IsChain Follows)
      (unfit : step.source ≠ previous.target) :
      Refused (before ++ previous :: step :: after)
        (.mismatchedDimension previous.target step.source)

/-- Steps fit together if all neighbours do. -/
theorem fits_cons_iff : Fits dimension (first :: steps) ↔
    first.source = dimension ∧ (first :: steps).IsChain Follows := by
  induction steps generalizing first dimension with
  | nil => simp [Fits]
  | cons step rest ih => rw [Fits, ih, List.isChain_cons_cons, Follows]

theorem Fits.isChain (h : Fits dimension steps) : steps.IsChain Follows := by
  cases steps with
  | nil => exact .nil
  | cons first rest => exact (fits_cons_iff.mp h).2

/-- A list that starts with neighbours that fit is refused for what comes behind. -/
theorem Refused.cons (h : Refused (second :: steps) e) (hfollows : first.Follows second) :
    Refused (first :: second :: steps) e := by
  generalize hlist : second :: steps = list at h
  cases h with
  | empty => cases hlist
  | mismatch before previous step after fitting unfit =>
    refine .mismatch (first :: before) previous step after (List.IsChain.cons fitting ?_) unfit
    cases before with
    | nil =>
      cases hlist
      rintro _ ⟨⟩
      exact hfollows
    | cons _ before =>
      cases hlist
      rintro _ ⟨⟩
      exact hfollows

theorem lastTarget_concat (before : List (Transform α)) (previous : Transform α) (dimension : ℕ) :
    lastTarget (before ++ [previous]) dimension = previous.target := by
  rw [lastTarget_append, lastTarget, lastTarget]

/-- A list fails at the first step that does not take what the steps before it lead to, which is
never its first one. -/
theorem refused_cons_iff : Refused (first :: steps) e ↔
    ∃ before step after, first :: steps = before ++ step :: after ∧ Fits first.source before ∧
      step.source ≠ lastTarget before first.source ∧
        e = .mismatchedDimension (lastTarget before first.source) step.source := by
  constructor
  · intro h
    generalize hlist : first :: steps = list at h
    cases h with
    | empty => cases hlist
    | mismatch before previous step after fitting unfit =>
      refine ⟨before ++ [previous], step, after, (List.append_cons ..), ?_, ?_⟩
      · cases before with
        | nil =>
          cases hlist
          exact fits_cons_iff.mpr ⟨rfl, fitting⟩
        | cons _ before =>
          cases hlist
          exact fits_cons_iff.mpr ⟨rfl, fitting⟩
      · rw [lastTarget_concat]
        exact ⟨unfit, rfl⟩
  · rintro ⟨before, step, after, hlist, hfits, hunfit, rfl⟩
    induction before using List.reverseRecOn with
    | nil =>
      cases hlist
      exact absurd rfl hunfit
    | append_singleton before previous _ =>
      rw [lastTarget_concat] at hunfit ⊢
      rw [hlist, ← List.append_cons]
      exact .mismatch before previous step after hfits.isChain hunfit

theorem exists_refused_iff :
    (∃ e, Refused steps e) ↔ steps = [] ∨ ∃ before previous step after,
      steps = before ++ previous :: step :: after ∧ step.source ≠ previous.target := by
  constructor
  · rintro ⟨e, h⟩
    cases h with
    | empty => exact .inl rfl
    | mismatch before previous step after _ unfit =>
      exact .inr ⟨before, previous, step, after, rfl, unfit⟩
  · rintro (rfl | ⟨before, previous, step, after, rfl, unfit⟩)
    · exact ⟨_, .empty⟩
    · -- The neighbours need not be the first ones that do not fit.
      induction before with
      | nil => exact ⟨_, .mismatch [] previous step after (.singleton _) unfit⟩
      | cons first before ih =>
        obtain ⟨e, h⟩ := ih
        cases before with
        | nil =>
          by_cases hfollows : first.Follows previous
          · exact ⟨e, h.cons hfollows⟩
          · exact ⟨_, .mismatch [] first previous _ (.singleton _) hfollows⟩
        | cons next before =>
          by_cases hfollows : first.Follows next
          · exact ⟨e, h.cons hfollows⟩
          · exact ⟨_, .mismatch [] first next _ (.singleton _) hfollows⟩

end Lists

variable {α : Type} [Scalar α] {dimension : ℕ} {steps before after : List (Transform α)}
  {step t : Transform α} {c : Concatenation α} {e : TransformError α}

/-- What holds of every transform that can be made: its matrix, if it is given by one, has at least
one row and one column, and if it passes for the identity it gives the dimension that it takes. -/
structure Composable (step : Transform α) : Prop where
  numRow_pos : ∀ t, step.linear? = some t → 0 < t.matrix.numRow
  numCol_pos : ∀ t, step.linear? = some t → 0 < t.matrix.numCol
  identity : step.isIdentity = true → step.source = step.target

theorem composable_linear {t : Projective α} :
    (linear t).Composable ↔ 0 < t.matrix.numRow ∧ 0 < t.matrix.numCol := by
  constructor
  · intro h
    exact ⟨h.numRow_pos t rfl, h.numCol_pos t rfl⟩
  · rintro ⟨hrow, hcol⟩
    constructor
    · rintro _ ⟨⟩
      exact hrow
    · rintro _ ⟨⟩
      exact hcol
    · intro hid
      rw [isIdentity] at hid
      exact Projective.source_eq_target_of_isIdentity hid

/-- Whatever is put together from steps that fit can be put together further. -/
theorem Composed.composable {P : Transform α → Prop} (h : step.Composed P)
    (hmatrix : ∀ t, step.linear? = some t → 0 < t.matrix.numRow ∧ 0 < t.matrix.numCol) :
    step.Composable where
  numRow_pos t ht := (hmatrix t ht).1
  numCol_pos t ht := (hmatrix t ht).2
  identity := source_eq_target_of_isIdentity h

theorem composable_mul {first second : Projective α} {product : StoredMatrix α}
    (hfirst : (linear first).Composable) (hsecond : (linear second).Composable)
    (h : second.matrix.mul (.stored first.matrix) = .ok product) :
    (linear ⟨product⟩ : Transform α).Composable := by
  rw [composable_linear] at hfirst hsecond ⊢
  obtain ⟨hrow, hcol⟩ := StoredMatrix.shape_mul h
  rw [hrow, hcol]
  exact ⟨hsecond.1, hfirst.2⟩

/-- Two matrices in a row that fit have a product, and it makes a transform. -/
theorem exists_merged {first second : Projective α} (hfirst : (linear first).Composable)
    (hsecond : (linear second).Composable) (h : second.source = first.target) :
    ∃ product, second.matrix.mul (.stored first.matrix) = .ok product ∧
      Projective.ofMatrix product = .ok ⟨product⟩ := by
  have hpositive := composable_linear.mp hfirst
  have hpositive' := composable_linear.mp hsecond
  have hinner : first.matrix.numRow = second.matrix.numCol := by
    rw [Projective.source, Projective.target] at h
    omega
  obtain ⟨product, hproduct⟩ := second.matrix.exists_mul (.stored first.matrix) hinner
  obtain ⟨hrow, hcol⟩ := composable_linear.mp (composable_mul hfirst hsecond hproduct)
  refine ⟨product, hproduct, if_neg ?_⟩
  rintro (hzero | hzero)
  · exact hrow.ne' hzero
  · exact hcol.ne' hzero

namespace Concatenation

/-- The kept steps lead to the dimension that has been reached, and any of them can be merged with
what comes next. -/
structure Ready (dimension : ℕ) (c : Concatenation α) : Prop where
  typed : c.Typed dimension
  composable : ∀ step ∈ c.kept, step.Composable

theorem ready_nil (dimension : ℕ) : Ready dimension (⟨[], dimension⟩ : Concatenation α) where
  typed := ⟨trivial, rfl⟩
  composable := by simp

theorem Ready.add {c' : Concatenation α} (hc : c.Ready dimension) (hstep : step.Composable)
    (h : c.add step = .ok c') : c'.Ready dimension where
  typed := add_typed h hstep.identity hc.typed
  composable := add_forall composable_mul h hstep hc.composable

theorem Ready.foldlM {c' : Concatenation α} (hc : c.Ready dimension)
    (hsteps : ∀ step ∈ steps, step.Composable) (h : steps.foldlM Concatenation.add c = .ok c') :
    c'.Ready dimension :=
  foldlM_keeps h hc fun step hstep _ _ hbefore hadd => Ready.add hbefore (hsteps step hstep) hadd

/-- The matrix kept last gives the dimension that has been reached. -/
theorem Ready.merged {first second : Projective α} {before : List (Transform α)}
    (hc : c.Ready dimension) (hkept : c.kept = linear first :: before)
    (hsecond : (linear second).Composable) (hsource : second.source = c.target) :
    ∃ product, second.matrix.mul (.stored first.matrix) = .ok product ∧
      Projective.ofMatrix product = .ok ⟨product⟩ := by
  obtain ⟨kept, target⟩ := c
  subst hkept
  have hfirst : (linear first).target = target := hc.typed.pop.2
  exact exists_merged (hc.composable _ List.mem_cons_self) hsecond (hsource.trans hfirst.symm)

theorem Ready.keepLinear {second : Projective α} (hc : c.Ready dimension)
    (hsecond : (linear second).Composable) (hsource : second.source = c.target) :
    ∃ kept, Transform.keepLinear c.kept second = .ok kept := by
  unfold Transform.keepLinear
  split
  · next first before hkept =>
    obtain ⟨product, hproduct, hmerged⟩ := hc.merged hkept hsecond hsource
    rw [hproduct, TransformError.ofMatrix]
    simp only [bind, Except.bind, hmerged, TransformError.ofMatrix]
    exact ⟨_, rfl⟩
  · exact ⟨_, rfl⟩

/-- A step is added if it takes the points that the steps before it give. -/
theorem Ready.add_fits (hc : c.Ready dimension) (hstep : step.Composable)
    (hsource : step.source = c.target) : ∃ c', c.add step = .ok c' := by
  unfold Concatenation.add
  rw [if_neg (not_not.mpr hsource)]
  split
  · exact ⟨_, rfl⟩
  · split
    · obtain ⟨kept, hkept⟩ := hc.keepLinear hstep hsource
      rw [hkept]
      exact ⟨_, rfl⟩
    · exact ⟨_, rfl⟩

theorem target_add {c' : Concatenation α} (h : c.add step = .ok c') : c'.target = step.target := by
  have hfold : [step].foldlM Concatenation.add c = .ok c' := by
    rw [List.foldlM_cons, h]
    rfl
  rw [target_foldlM_add hfold, lastTarget, lastTarget]

/-- The steps seen so far decide about a failure only by the dimension that they lead to. -/
theorem Ready.foldlM_eq_error_iff (hc : c.Ready dimension)
    (hsteps : ∀ step ∈ steps, step.Composable) :
    steps.foldlM Concatenation.add c = .error e ↔ ∃ before step after,
      steps = before ++ step :: after ∧ Fits c.target before ∧
        step.source ≠ lastTarget before c.target ∧
        e = .mismatchedDimension (lastTarget before c.target) step.source := by
  induction steps generalizing c with
  | nil =>
    constructor
    · rintro ⟨⟩
    · rintro ⟨before, step, after, h, -⟩
      exact absurd h.symm (List.append_ne_nil_of_right_ne_nil _ (List.cons_ne_nil _ _))
  | cons first rest ih =>
    rw [List.forall_mem_cons] at hsteps
    rw [List.foldlM_cons]
    by_cases hsource : first.source = c.target
    · obtain ⟨next, hnext⟩ := hc.add_fits hsteps.1 hsource
      rw [hnext]
      refine (ih (hc.add hsteps.1 hnext) hsteps.2).trans ?_
      rw [target_add hnext]
      constructor
      · rintro ⟨before, step, after, rfl, hfits, h⟩
        exact ⟨first :: before, step, after, rfl, ⟨hsource, hfits⟩, h⟩
      · rintro ⟨before, step, after, h, hfits, hunfit, he⟩
        cases before with
        | nil =>
          cases h
          exact absurd hsource hunfit
        | cons _ before =>
          cases h
          exact ⟨before, step, after, rfl, hfits.2, hunfit, he⟩
    · have hadd : c.add first = .error (.mismatchedDimension c.target first.source) := by
        unfold Concatenation.add
        rw [if_pos hsource]
      rw [hadd]
      constructor
      · rintro ⟨⟩
        exact ⟨[], first, rest, rfl, trivial, hsource, rfl⟩
      · rintro ⟨before, step, after, h, hfits, -, rfl⟩
        cases before with
        | nil =>
          cases h
          rfl
        | cons _ before =>
          cases h
          exact absurd hfits.1 hsource

end Concatenation

/-- A list that is not empty is concatenated unless adding one of its steps fails. -/
theorem concatenate_cons_eq_error {first : Transform α} :
    concatenate (first :: steps) = .error e ↔
      (first :: steps).foldlM Concatenation.add ⟨[], first.source⟩ = .error e := by
  rw [concatenate, bind_eq_error]
  apply or_iff_left
  rintro ⟨c, -, hc⟩
  cases hc

theorem concatenate_eq_error_iff (hsteps : ∀ step ∈ steps, step.Composable) :
    concatenate steps = .error e ↔ Refused steps e := by
  cases steps with
  | nil =>
    constructor
    · rintro ⟨⟩
      exact .empty
    · intro h
      generalize hlist : ([] : List (Transform α)) = list at h
      cases h with
      | empty => rfl
      | mismatch before previous step after =>
        exact absurd hlist.symm (List.append_ne_nil_of_right_ne_nil _ (List.cons_ne_nil _ _))
  | cons first rest =>
    rw [concatenate_cons_eq_error,
      (Concatenation.ready_nil first.source).foldlM_eq_error_iff hsteps]
    exact refused_cons_iff.symm

/-- Steps whose neighbours fit are concatenated. -/
theorem exists_concatenate (hne : steps ≠ []) (hsteps : ∀ step ∈ steps, step.Composable)
    (hfits : steps.IsChain Follows) : ∃ t, concatenate steps = .ok t := by
  cases h : concatenate steps with
  | ok t => exact ⟨t, rfl⟩
  | error e =>
    cases (concatenate_eq_error_iff hsteps).mp h with
    | empty => exact absurd rfl hne
    | mismatch before previous step after _ unfit =>
      rw [List.isChain_append_cons_cons] at hfits
      exact absurd hfits.2.1 unfit

/-- Two lists whose neighbours fit are refused behind each other only where they meet. -/
theorem concatenate_joined_eq_error_iff {previous : Transform α}
    (hsteps : ∀ s ∈ before ++ previous :: step :: after, s.Composable)
    (hbefore : (before ++ [previous]).IsChain Follows) (hafter : (step :: after).IsChain Follows) :
    concatenate (before ++ previous :: step :: after) = .error e ↔
      step.source ≠ previous.target ∧ e = .mismatchedDimension previous.target step.source := by
  by_cases hmeet : step.source = previous.target
  · obtain ⟨t, ht⟩ := exists_concatenate (by simp) hsteps
      (List.isChain_append_cons_cons.mpr ⟨hbefore, hmeet, hafter⟩)
    simp [ht, hmeet]
  · have hrefused := (concatenate_eq_error_iff hsteps).mpr
      (.mismatch before previous step after hbefore hmeet)
    simp [hrefused, hmeet, eq_comm]

/-- What earlier steps have been replaced by does not matter, as long as it leads to the same
dimension. -/
theorem foldlM_add_eq_error_congr {c' : Concatenation α} {dimension' : ℕ}
    (hc : c.Ready dimension) (hc' : c'.Ready dimension') (htarget : c.target = c'.target)
    (hsteps : ∀ step ∈ steps, step.Composable) :
    steps.foldlM Concatenation.add c = .error e ↔ steps.foldlM Concatenation.add c' = .error e := by
  rw [hc.foldlM_eq_error_iff hsteps, hc'.foldlM_eq_error_iff hsteps, htarget]

theorem composable_ofKept (hkept : ∀ step ∈ steps, step.Composable) (h : Simplified steps) :
    (ofKept dimension steps).Composable := by
  unfold ofKept
  split
  · have hrow : (Projective.identity dimension : Projective α).matrix.numRow = dimension + 1 :=
      StoredMatrix.numRow_ofBlock _
    have hcol : (Projective.identity dimension : Projective α).matrix.numCol = dimension + 1 :=
      StoredMatrix.numCol_ofBlock _
    rw [composable_linear, hrow, hcol]
    exact ⟨dimension.succ_pos, dimension.succ_pos⟩
  · next step => exact hkept step (List.mem_singleton_self _)
  · next hnil _ =>
    cases steps with
    | nil => exact absurd rfl hnil
    | cons first rest =>
      constructor
      · nofun
      · nofun
      · intro hid
        rw [isIdentity, allIdentity, h.active first List.mem_cons_self] at hid
        cases hid

theorem composable_concatenate (h : concatenate steps = .ok t)
    (hsteps : ∀ step ∈ steps, step.Composable) : t.Composable := by
  obtain ⟨-, kept, hkept, rfl⟩ := concatenate_eq_ok.mp h
  exact composable_ofKept (keptSteps_forall composable_mul hkept hsteps)
    (keptSteps_simplified hkept)

/-- Earlier steps may be replaced by their concatenation, which changes no failure. -/
theorem concatenate_cons_eq_error_iff (h : concatenate before = .ok t)
    (hbefore : ∀ step ∈ before, step.Composable) (hafter : ∀ step ∈ after, step.Composable) :
    concatenate (t :: after) = .error e ↔ concatenate (before ++ after) = .error e := by
  have ht : t.Composable := composable_concatenate h hbefore
  obtain ⟨-, kept, hkept, -⟩ := concatenate_eq_ok.mp h
  obtain ⟨-, htarget⟩ := shape_concatenate h fun step hstep => (hbefore step hstep).identity
  obtain ⟨c, hfold, -⟩ := keptSteps_eq_ok.mp hkept
  have hc := (Concatenation.ready_nil _).foldlM hbefore hfold
  obtain ⟨c', hadd⟩ := (Concatenation.ready_nil t.source).add_fits ht rfl
  have hc' := (Concatenation.ready_nil _).add ht hadd
  have hreached : c'.target = c.target := by
    rw [Concatenation.target_add hadd, target_foldlM_add hfold, lastTarget_source, htarget]
  cases before with
  | nil => cases h
  | cons first rest =>
    rw [concatenate_cons_eq_error, List.cons_append, concatenate_cons_eq_error, ← List.cons_append,
      List.foldlM_append, List.foldlM_cons, hadd]
    rw [source] at hfold
    rw [hfold]
    exact foldlM_add_eq_error_congr hc' hc hreached hafter

/-- A list is refused exactly if it is empty or two neighbours do not fit, and then for the first
such neighbours. Matrices that are merged on the way always have a product, from which a transform
can be made, and the first steps may be replaced by their concatenation without changing what is
reported. -/
theorem concatenate_refused_iff (hsteps : ∀ step ∈ steps, step.Composable) :
    ((∃ e, concatenate steps = .error e) ↔ steps = [] ∨ ∃ before previous step after,
      steps = before ++ previous :: step :: after ∧ step.source ≠ previous.target) ∧
    (∀ e, concatenate steps = .error e ↔ Refused steps e) ∧
    (∀ before second after c first rest, steps = before ++ linear second :: after →
      before.foldlM Concatenation.add ⟨[], (chain steps).source⟩ = .ok c →
        second.source = c.target → c.kept = linear first :: rest →
          ∃ product, second.matrix.mul (.stored first.matrix) = .ok product ∧
            Projective.ofMatrix product = .ok ⟨product⟩) ∧
    (∀ before after t, steps = before ++ after → concatenate before = .ok t →
      ∀ e, concatenate (t :: after) = .error e ↔ concatenate steps = .error e) := by
  refine ⟨?_, fun e => concatenate_eq_error_iff hsteps, ?_, ?_⟩
  · rw [← exists_refused_iff]
    exact exists_congr fun e => concatenate_eq_error_iff hsteps
  · rintro before second after c first rest rfl hfold hsource hkept
    rw [List.forall_mem_append, List.forall_mem_cons] at hsteps
    exact ((Concatenation.ready_nil _).foldlM hsteps.1 hfold).merged hkept hsteps.2.1 hsource
  · rintro before after t rfl h e
    rw [List.forall_mem_append] at hsteps
    exact concatenate_cons_eq_error_iff h hsteps.1 hsteps.2

/-- A cube, two matrices that cancel behind it, and a matrix that takes points of the plane in front
of a chain. -/
theorem concatenate_refused_iff_plane :
    let cube : Transform ℚ := external
      { source := 1
        target := 1
        run := Batch.pointwise 1 1 fun point => .ok [point.headD 0 ^ 3]
        length_run := Batch.length_pointwise fun _ _ h => by cases h; rfl }
      (.error .noConvergence)
    let double : Transform ℚ := linear ⟨.small 2 (by decide) (.of2 2 1 0 1)⟩
    let halve : Transform ℚ := linear ⟨.flat ⟨2, 2, #[1 / 2, -1 / 2, 0, 1]⟩⟩
    let plane : Transform ℚ := linear (.identity 2)
    ∃ t, concatenate [cube, double, halve] = .ok t ∧
      concatenate [cube, double, halve, plane, chain [cube, cube]] =
        .error (.mismatchedDimension 1 2) ∧
      concatenate [t, plane, chain [cube, cube]] = .error (.mismatchedDimension 1 2) := by
  intro cube double halve plane
  have hcube : cube.Composed fun _ => True := by
    rw [Composed]
    trivial
  have hchain : (chain [cube, cube]).Composed fun _ => True := by
    rw [Composed, allComposed_iff]
    refine ⟨⟨rfl, rfl, trivial⟩, ?_⟩
    simp only [List.forall_mem_cons, List.not_mem_nil, false_imp_iff, implies_true, and_true]
    exact ⟨hcube, hcube⟩
  have hsteps : ∀ step ∈ [cube, double, halve, plane, chain [cube, cube]], step.Composable := by
    simp only [List.forall_mem_cons, List.not_mem_nil, false_imp_iff, implies_true, and_true]
    refine ⟨hcube.composable nofun, ?_, ?_, ?_, hchain.composable nofun⟩
    · exact composable_linear.mpr (by decide)
    · exact composable_linear.mpr (by decide)
    · exact composable_linear.mpr (by decide)
  obtain ⟨-, hrefused, -, hreplaced⟩ := concatenate_refused_iff hsteps
  have hok : (concatenate [cube, double, halve]).isOk = true := by decide +kernel
  obtain ⟨t, ht⟩ := exists_of_isOk hok
  have hplane : Refused [cube, double, halve, plane, chain [cube, cube]]
      (.mismatchedDimension 1 2) :=
    .mismatch [cube, double] halve plane _ (.cons_cons rfl (.cons_cons rfl (.singleton _)))
      (by decide)
  refine ⟨t, ht, (hrefused _).mpr hplane, ?_⟩
  rw [hreplaced [cube, double, halve] [plane, chain [cube, cube]] t rfl ht]
  exact (hrefused _).mpr hplane

end Transform

end Georeferencing
