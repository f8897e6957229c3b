import Georeferencing.Proofs.Transform.Frames
import Georeferencing.Proofs.Matrix.Writing

/-! # Envelopes in a row

Without axes, what is made between two envelopes makes each target ordinate of the source ordinate
with the same number, as it is made along axes that are all the same. Hence the matrices of
envelopes in a row multiply, in exact arithmetic, the extent in between being passed over without a
loss. Envelopes of different dimensions have the leading ordinates in common; of the other source
ordinates nothing is made, and the other target ordinates are made of nothing.
-/

namespace Georeferencing

namespace StoredMatrix

section Arithmetic

variable {α : Type} [Scalar α] {e e' : Envelope α} {axes : List AxisDirection} {c : AxisDirection}
  {i : ℕ} {s t : Extent α}

/-- What the ordinates of the target envelope are made of. -/
def betweenOrdinates (e e' : Envelope α) : List (OrdinateMap α) :=
  e'.extents.mapIdx fun i t =>
    match e.extents[i]? with
    | some s => betweenExtents i s t
    | none => ⟨i, 0, 0⟩

@[simp] theorem length_betweenOrdinates (e e' : Envelope α) :
    (betweenOrdinates e e').length = e'.dimension :=
  List.length_mapIdx

theorem getElem?_betweenOrdinates (hs : e.extents[i]? = some s) (ht : e'.extents[i]? = some t) :
    (betweenOrdinates e e')[i]? = some (betweenExtents i s t) := by
  rw [betweenOrdinates, List.getElem?_mapIdx, ht, Option.map_some, hs]

theorem getElem?_betweenOrdinates_of_le (h : e.dimension ≤ i) (hi : i < e'.dimension) :
    (betweenOrdinates e e')[i]? = some ⟨i, 0, 0⟩ := by
  rw [betweenOrdinates, List.getElem?_mapIdx, List.getElem?_eq_getElem hi, Option.map_some,
    List.getElem?_eq_none h]

/-- Each ordinate is made of the one with the same number, if of any. -/
theorem source_betweenOrdinates {o : OrdinateMap α} (h : (betweenOrdinates e e')[i]? = some o) :
    o.source = i ∧ i < e'.dimension := by
  have hlt := (List.getElem?_eq_some_iff.mp h).1
  rw [length_betweenOrdinates] at hlt
  rcases lt_or_ge i e.dimension with hsource | hsource
  · rw [getElem?_betweenOrdinates (List.getElem?_eq_getElem hsource)
      (List.getElem?_eq_getElem hlt)] at h
    cases h
    exact ⟨rfl, hlt⟩
  · rw [getElem?_betweenOrdinates_of_le hsource hlt] at h
    cases h
    exact ⟨rfl, hlt⟩

theorem betweenEnvelopes_eq_ofOrdinates (e e' : Envelope α) :
    betweenEnvelopes e e' = ofOrdinates e.dimension (betweenOrdinates e e') := by
  have h := represents_ofOrdinates e.dimension (betweenOrdinates e e')
  rw [length_betweenOrdinates] at h
  rw [betweenEnvelopes_eq_ofFn]
  refine ((canonical_ofBlock _ : (ofOrdinates _ _).Canonical).eq_ofFn h fun i hi j _ => ?_).symm
  rcases Nat.lt_succ_iff_lt_or_eq.mp hi with hi | rfl
  · have ht : e'.extents[i]? = some e'.extents[i] := List.getElem?_eq_getElem hi
    rcases lt_or_ge i e.dimension with hsource | hsource
    · have hs : e.extents[i]? = some e.extents[i] := List.getElem?_eq_getElem hsource
      rw [betweenEntry_of_extents hs ht,
        ordinateEntry_of_getElem? (getElem?_betweenOrdinates hs ht)]
      rfl
    · rw [betweenEntry_of_le hsource hi,
        ordinateEntry_of_getElem? (getElem?_betweenOrdinates_of_le hsource hi)]
      simp only [ite_self]
  · rw [betweenEntry_last, ← length_betweenOrdinates e e', ordinateEntry_last]

/-! ## The same axes on both sides -/

theorem betweenExtents_eq_alongAxis (hone : ∀ x : α, 1 * x = x) (i : ℕ) (s t : Extent α) :
    betweenExtents i s t = alongAxis i true s t := by
  simp only [betweenExtents, alongAxis, if_true, hone]

/-- Without colinear pairs, every axis is matched with itself. -/
theorem matchAxis_of_pairwise (h : axes.Pairwise fun a b => ¬ a.isColinear b = true)
    (hi : axes[i]? = some c) : matchAxis axes c = .ok (c, i) := by
  refine matchAxis_eq_ok.mpr ⟨hi, rfl, fun j a ha hca => ?_⟩
  simp only [AxisDirection.isColinear_iff, List.pairwise_iff_getElem] at h
  obtain ⟨hlength, rfl⟩ := List.getElem?_eq_some_iff.mp hi
  obtain ⟨hlength', rfl⟩ := List.getElem?_eq_some_iff.mp ha
  rcases lt_trichotomy j i with hlt | heq | hgt
  · exact absurd hca.symm (h j i hlength' hlength hlt)
  · exact heq
  · exact absurd hca (h i j hlength hlength' hgt)

/-- The sign of an axis that is not reversed leaves the factor as it is, so that both constructions
round alike. -/
theorem betweenFrames_same_axes (hone : ∀ x : α, 1 * x = x) (h : e.dimension = axes.length)
    (h' : e'.dimension = axes.length) (haxes : axes.Pairwise fun a b => ¬ a.isColinear b = true) :
    betweenFrames e axes e' axes = .ok (betweenEnvelopes e e') := by
  rw [betweenFrames_eq_ok]
  refine ⟨h, h', betweenOrdinates e e', ?_, by rw [betweenEnvelopes_eq_ofOrdinates, h]⟩
  have hlength := length_zip_extents h'
  refine mapM_eq_ok.mpr (List.forall₂_iff_get.mpr ⟨?_, fun i hi hi' => ?_⟩)
  · rw [hlength, length_betweenOrdinates, h']
  · rw [hlength] at hi
    have hs : i < e.extents.length := hi.trans_eq h.symm
    have ht : i < e'.extents.length := hi.trans_eq h'.symm
    have hmade : (betweenOrdinates e e')[i]? = some (betweenExtents i e.extents[i] e'.extents[i]) :=
      getElem?_betweenOrdinates (List.getElem?_eq_getElem hs) (List.getElem?_eq_getElem ht)
    rw [List.getElem?_eq_getElem hi', Option.some.injEq] at hmade
    rw [List.get_eq_getElem, List.get_eq_getElem, List.getElem_zip, hmade, frameOrdinate_eq_ok]
    refine ⟨_, i, matchAxis_of_pairwise haxes (List.getElem?_eq_getElem hi), ?_⟩
    rw [beq_self_eq_true, betweenExtents_eq_alongAxis hone, List.getD_eq_getElem?_getD,
      List.getElem?_eq_getElem hs, Option.getD_some]

end Arithmetic

/-! ## Composition -/

section Exact

variable {K : Type} [Field K] [LinearOrder K] {e e' e'' : Envelope K} {i : ℕ} {s t u : Extent K}

theorem betweenExtents_after (ht : t.span ≠ 0) (i : ℕ) :
    (betweenExtents i t u).after (betweenExtents i s t) = betweenExtents i s u := by
  have hsame := betweenExtents_eq_alongAxis fun x : K => one_mul x
  rw [hsame, hsame, hsame]
  exact alongAxis_after ht i i true true

theorem betweenExtents_self (hs : s.span ≠ 0) (i : ℕ) : betweenExtents i s s = ⟨i, 1, 0⟩ := by
  rw [betweenExtents_eq_alongAxis fun x : K => one_mul x, alongAxis_self hs]

theorem betweenEnvelopes_comp (h : e'.dimension = e.dimension) (h' : e''.dimension = e.dimension)
    (hspans : ∀ t ∈ e'.extents, t.span ≠ 0) :
    (betweenEnvelopes e' e'').IsProduct (betweenEnvelopes e e') (betweenEnvelopes e e'') := by
  have hsources : ∀ o ∈ betweenOrdinates e e', o.source < e.dimension := by
    intro o ho
    obtain ⟨i, hi⟩ := List.mem_iff_getElem?.mp ho
    obtain ⟨rfl, hlt⟩ := source_betweenOrdinates hi
    exact hlt.trans_eq h
  have hthrough : List.Forall₂ (OrdinateMap.Through (betweenOrdinates e e'))
      (betweenOrdinates e' e'') (betweenOrdinates e e'') := by
    refine List.forall₂_iff_get.mpr ⟨?_, fun i hi hi' => ?_⟩
    · rw [length_betweenOrdinates, length_betweenOrdinates]
    · have hu : i < e''.extents.length := by rwa [length_betweenOrdinates] at hi
      have hs : i < e.extents.length := hu.trans_eq h'
      have ht : i < e'.extents.length := hs.trans_eq h.symm
      have houter := getElem?_betweenOrdinates (List.getElem?_eq_getElem ht)
        (List.getElem?_eq_getElem hu)
      have hmade := getElem?_betweenOrdinates (List.getElem?_eq_getElem hs)
        (List.getElem?_eq_getElem hu)
      rw [List.getElem?_eq_getElem hi, Option.some.injEq] at houter
      rw [List.getElem?_eq_getElem hi', Option.some.injEq] at hmade
      rw [List.get_eq_getElem, List.get_eq_getElem, houter, hmade]
      exact ⟨_, getElem?_betweenOrdinates (List.getElem?_eq_getElem hs)
        (List.getElem?_eq_getElem ht),
        (betweenExtents_after (hspans _ (List.getElem_mem ht)) i).symm⟩
  have hmul := mul_ofOrdinates hsources hthrough
  rw [length_betweenOrdinates] at hmul
  rw [isProduct_iff, betweenEnvelopes_eq_ofOrdinates, betweenEnvelopes_eq_ofOrdinates,
    betweenEnvelopes_eq_ofOrdinates]
  exact hmul

theorem betweenEnvelopes_self (hspans : ∀ s ∈ e.extents, s.span ≠ 0) :
    betweenEnvelopes e e = .identity (e.dimension + 1) := by
  rw [betweenEnvelopes_eq_ofOrdinates]
  apply ofOrdinates_eq_identity (length_betweenOrdinates e e)
  intro k hk
  have hs : e.extents[k]? = some e.extents[k] := List.getElem?_eq_getElem hk
  rw [getElem?_betweenOrdinates hs hs, betweenExtents_self (hspans _ (List.getElem_mem hk))]

end Exact

end StoredMatrix

/-! ## Points -/

open StoredMatrix

variable {K : Type} [Field K] [LinearOrder K] {e e' : Envelope K} {p : List K}

theorem StoredMatrix.value_betweenExtents (i : ℕ) (s t : Extent K) (y : K) :
    (betweenExtents i s t).value y = t.minimum + t.span / s.span * (y - s.minimum) := by
  rw [betweenExtents_eq_alongAxis fun x : K => one_mul x, value_alongAxis_same]

theorem hasShape_betweenEnvelopes (e e' : Envelope K) :
    (⟨betweenEnvelopes e e'⟩ : Projective K).HasShape e.dimension e'.dimension :=
  ⟨numRow_ofBlock _, numCol_ofBlock _, consistent_ofBlock _⟩

theorem denominator_betweenEnvelopes (e' : Envelope K) (hp : p.length = e.dimension) :
    (⟨betweenEnvelopes e e'⟩ : Projective K).denominator p = 1 := by
  rw [betweenEnvelopes_eq_ofOrdinates, Projective.denominator_eq (hasShape_ofOrdinates _ _) hp,
    lift_ofOrdinates_last]

/-- There and back every point is where it was. -/
theorem image_betweenEnvelopes_back (h : e'.dimension = e.dimension)
    (hspans : ∀ s ∈ e.extents, s.span ≠ 0) (hspans' : ∀ t ∈ e'.extents, t.span ≠ 0)
    (hp : p.length = e.dimension) :
    (⟨betweenEnvelopes e' e⟩ : Projective K).image
      ((⟨betweenEnvelopes e e'⟩ : Projective K).image p) = p := by
  have hproduct := betweenEnvelopes_comp h rfl hspans'
  rw [betweenEnvelopes_self hspans, isProduct_iff] at hproduct
  have hdenominator : (⟨betweenEnvelopes e e'⟩ : Projective K).denominator p ≠ 0 := by
    rw [denominator_betweenEnvelopes e' hp]
    exact one_ne_zero
  rw [← (Projective.image_mul (hasShape_betweenEnvelopes e e') (hasShape_betweenEnvelopes e' e)
    hproduct hp hdenominator).1]
  exact (Projective.identity_spec e.dimension).2 p hp

variable [Elementary K]

/-- The ordinates that both envelopes have are mapped one by one from extent to extent; the other
source ordinates are ignored, and the other target ordinates are zero. -/
structure Transform.MapsShared (e e' : Envelope K) (t : Transform K) : Prop where
  total : ∀ p, p.length = e.dimension → ∃ q, t.applyPoint p = .ok q ∧ q.length = e'.dimension
  shared : ∀ p q, p.length = e.dimension → t.applyPoint p = .ok q →
    ∀ (i : ℕ) (s u : Extent K) (y : K), e.extents[i]? = some s → e'.extents[i]? = some u →
      p[i]? = some y → q[i]? = some (u.minimum + u.span / s.span * (y - s.minimum))
  ignored : ∀ p p', p.length = e.dimension → p'.length = e.dimension →
    p.take e'.dimension = p'.take e'.dimension → t.applyPoint p = t.applyPoint p'
  missing : ∀ p q, p.length = e.dimension → t.applyPoint p = .ok q → ∀ i,
    e.dimension ≤ i → i < e'.dimension → q[i]? = some 0

theorem mapsShared_betweenEnvelopes (e e' : Envelope K) :
    (Transform.linear ⟨betweenEnvelopes e e'⟩).MapsShared e e' := by
  rw [betweenEnvelopes_eq_ofOrdinates]
  constructor
  · intro p hp
    exact ⟨_, applyPoint_ofOrdinates _ hp, by rw [List.length_map, length_betweenOrdinates]⟩
  · intro p q hp hq i s u y hs hu hy
    cases (applyPoint_ofOrdinates _ hp).symm.trans hq
    rw [List.getElem?_map, getElem?_betweenOrdinates hs hu, Option.map_some,
      value_betweenExtents, List.getD_eq_getElem?_getD]
    simp only [betweenExtents, hy, Option.getD_some]
  · intro p p' hp hp' htake
    rw [applyPoint_ofOrdinates _ hp, applyPoint_ofOrdinates _ hp']
    refine congrArg Except.ok (List.map_congr_left fun o ho => ?_)
    obtain ⟨i, hi⟩ := List.mem_iff_getElem?.mp ho
    obtain ⟨rfl, hlt⟩ := source_betweenOrdinates hi
    rw [List.getD_eq_getElem?_getD, List.getD_eq_getElem?_getD, ← List.getElem?_take_of_lt hlt,
      htake, List.getElem?_take_of_lt hlt]
  · intro p q hp hq i hsource htarget
    cases (applyPoint_ofOrdinates _ hp).symm.trans hq
    rw [List.getElem?_map, getElem?_betweenOrdinates_of_le hsource htarget, Option.map_some,
      OrdinateMap.value, zero_mul, add_zero]

/-- Between envelopes with the same axes the same matrix is made with and without the axes, in any
arithmetic in which one is neutral; and no write misses the matrix, whatever the dimensions. In
exact arithmetic, envelopes of one dimension in a row whose extents have a span may be passed over,
so that the way back undoes the way there; and whatever the dimensions, the ordinates that both
envelopes have are mapped. -/
theorem StoredMatrix.betweenEnvelopes_agree_and_compose :
    (∀ {α : Type} [Scalar α] (e e' : Envelope α) (axes : List AxisDirection),
      (∀ x : α, 1 * x = x) → e.dimension = axes.length → e'.dimension = axes.length →
        axes.Pairwise (fun a b => ¬ a.isColinear b = true) →
          betweenFrames e axes e' axes = .ok (betweenEnvelopes e e')) ∧
    (∀ {α : Type} [Scalar α] (e e' : Envelope α),
      writeBetweenEnvelopes e e' = .ok (betweenEnvelopes e e')) ∧
    (∀ {K : Type} [Field K] [LinearOrder K] [Elementary K] (e e' e'' : Envelope K),
      e'.dimension = e.dimension → e''.dimension = e.dimension →
      (∀ s ∈ e.extents, s.span ≠ 0) → (∀ t ∈ e'.extents, t.span ≠ 0) →
        (betweenEnvelopes e' e'').IsProduct (betweenEnvelopes e e') (betweenEnvelopes e e'') ∧
        (betweenEnvelopes e' e).IsProduct (betweenEnvelopes e e') (.identity (e.dimension + 1)) ∧
        ∃ t u, Projective.ofMatrix (betweenEnvelopes e e') = .ok t ∧
          Projective.ofMatrix (betweenEnvelopes e' e) = .ok u ∧ ∀ p, p.length = e.dimension →
            ∃ q, (Transform.linear t).applyPoint p = .ok q ∧
              (Transform.linear u).applyPoint q = .ok p) ∧
    ∀ {K : Type} [Field K] [LinearOrder K] [Elementary K] (e e' : Envelope K),
      ∃ t, Projective.ofMatrix (betweenEnvelopes e e') = .ok t ∧
        (Transform.linear t).MapsShared e e' := by
  have hmade : ∀ {K : Type} [Field K] [LinearOrder K] (e e' : Envelope K),
      Projective.ofMatrix (betweenEnvelopes e e') = .ok ⟨betweenEnvelopes e e'⟩ := by
    intro K _ _ e e'
    have hshape := hasShape_betweenEnvelopes e e'
    exact if_neg (by rw [hshape.numRow, hshape.numCol]; omega)
  refine ⟨?_, ?_, ?_, ?_⟩
  · intro α _ e e' axes hone h h' haxes
    exact betweenFrames_same_axes hone h h' haxes
  · intro α _ e e'
    exact writeBetweenEnvelopes_eq e e'
  · intro K _ _ _ e e' e'' h h' hspans hspans'
    have hback := betweenEnvelopes_comp h rfl hspans'
    rw [betweenEnvelopes_self hspans] at hback
    refine ⟨betweenEnvelopes_comp h h' hspans', hback, _, _, hmade e e', hmade e' e,
      fun p hp => ?_⟩
    have hthere := hasShape_betweenEnvelopes e e'
    refine ⟨_, Transform.applyPoint_linear (hp.trans hthere.source.symm), ?_⟩
    have himage := image_betweenEnvelopes_back h hspans hspans' hp
    rw [Transform.applyPoint_linear, himage]
    rw [Projective.image_eq hthere hp, length_ofHomogeneous,
      (hasShape_betweenEnvelopes e' e).source]
  · intro K _ _ _ e e'
    exact ⟨_, hmade e e', mapsShared_betweenEnvelopes e e'⟩

/-- Doubles along two axes; three envelopes of the plane, the first one with an extent that is
reversed; and a plane that is put into space. -/
theorem StoredMatrix.betweenEnvelopes_agree_and_compose_plane :
    letI : Elementary ℚ := Exact.quarterTurns
    let pixels : Envelope Float := ⟨[⟨0, 640⟩, ⟨0, 480⟩]⟩
    let world : Envelope Float := ⟨[⟨-180, 180⟩, ⟨-90, 90⟩]⟩
    let axes : List AxisDirection := [.east, .south]
    let e : Envelope ℚ := ⟨[⟨2, 0⟩, ⟨1, 5⟩]⟩
    let e' : Envelope ℚ := ⟨[⟨10, 20⟩, ⟨7, 8⟩]⟩
    let e'' : Envelope ℚ := ⟨[⟨3, 3⟩, ⟨0, 1⟩]⟩
    let space : Envelope ℚ := ⟨[⟨0, 4⟩, ⟨0, 8⟩, ⟨5, 6⟩]⟩
    ((∀ x : Float, 1 * x = x) ∧ pixels.dimension = axes.length ∧ world.dimension = axes.length ∧
      axes.Pairwise (fun a b => ¬ a.isColinear b = true) ∧
      betweenFrames pixels axes world axes = .ok (betweenEnvelopes pixels world)) ∧
    ((∀ s ∈ e.extents, s.span ≠ 0) ∧ (∀ t ∈ e'.extents, t.span ≠ 0) ∧
      (betweenEnvelopes e' e'').IsProduct (betweenEnvelopes e e') (betweenEnvelopes e e'') ∧
      (betweenEnvelopes e' e).IsProduct (betweenEnvelopes e e') (.identity 3)) ∧
    ∃ t q, Projective.ofMatrix (betweenEnvelopes e space) = .ok t ∧
      (Transform.linear t).applyPoint [1, 3] = .ok q ∧ q[0]? = some 2 ∧ q[2]? = some 0 := by
  let _ : Elementary ℚ := Exact.quarterTurns
  intro pixels world axes e e' e'' space
  have hone : ∀ x : Float, 1 * x = x :=
    fun x => (Double.mul_comm 1 x).trans (Double.mul_one x)
  have haxes : axes.Pairwise (fun a b => ¬ a.isColinear b = true) := by decide
  have hspans : ∀ s ∈ e.extents, s.span ≠ 0 := by decide +kernel
  have hspans' : ∀ t ∈ e'.extents, t.span ≠ 0 := by decide +kernel
  obtain ⟨hagree, -, hcompose, hmaps⟩ := betweenEnvelopes_agree_and_compose
  obtain ⟨hcomp, hback, -⟩ := hcompose e e' e'' rfl rfl hspans hspans'
  obtain ⟨t, ht, hshared⟩ := hmaps e space
  obtain ⟨q, hq, -⟩ := hshared.total [1, 3] rfl
  have hfirst := hshared.shared [1, 3] q rfl hq 0 ⟨2, 0⟩ ⟨0, 4⟩ 1 rfl rfl rfl
  have hlast := hshared.missing [1, 3] q rfl hq 2 le_rfl (by decide)
  have hmiddle : (0 : ℚ) + (4 - 0) / (0 - 2) * (1 - 2) = 2 := by norm_num
  exact ⟨⟨hone, rfl, rfl, haxes, hagree pixels world axes hone rfl rfl haxes⟩,
    ⟨hspans, hspans', hcomp, hback⟩, t, q, ht, hq, hfirst.trans (congrArg some hmiddle), hlast⟩

end Georeferencing
