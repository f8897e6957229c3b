import Mathlib.Data.List.Sigma
import Georeferencing.Proofs.Matrix.Algebra
import Georeferencing.Matrix.Construction
import Georeferencing.Proofs.Outcome

/-! # Composing axis maps

The matrix that takes the axes of one system to those of another makes each target ordinate of a
single source ordinate. Two such matrices in a row make it of the ordinate that the first one used
for the axis in between: a direction has no other colinear direction than its opposite, so that the
axis in between is passed over without a loss, reversing twice is not reversing, and the anchor of
the envelope in between cancels.
-/

namespace Georeferencing

namespace AxisDirection

theorem isColinear_iff {a b : AxisDirection} : a.isColinear b = true ↔ a.absolute = b.absolute :=
  beq_iff_eq

theorem eq_absolute_or_opposite (d : AxisDirection) :
    d = d.absolute ∨ d = d.absolute.opposite := by
  cases d <;> decide

theorem eq_or_eq_opposite {a c : AxisDirection} (h : c.absolute = a.absolute) :
    a = c ∨ a = c.opposite := by
  have ha := a.eq_absolute_or_opposite
  have hc := c.eq_absolute_or_opposite
  rw [← h] at ha
  generalize c.absolute = d at ha hc
  rcases ha with rfl | rfl <;> rcases hc with rfl | rfl <;> simp [opposite_opposite]

/-- Between colinear directions there are only two relations, the same and the opposite, and these
multiply like signs. -/
theorem beq_of_colinear {a b c : AxisDirection} (hab : a.absolute = b.absolute)
    (hbc : b.absolute = c.absolute) : (a == c) = ((a == b) == (b == c)) := by
  have ha := a.eq_absolute_or_opposite
  have hb := b.eq_absolute_or_opposite
  have hc := c.eq_absolute_or_opposite
  rw [hab, hbc] at ha
  rw [hbc] at hb
  generalize c.absolute = d at ha hb hc
  generalize d.opposite = e at ha hb hc
  have hswap : (e == d) = (d == e) := BEq.comm
  rcases ha with rfl | rfl <;> rcases hb with rfl | rfl <;> rcases hc with rfl | rfl <;>
    simp [hswap]

end AxisDirection

theorem Envelope.checkDimension_eq_ok {α : Type} (role : EnvelopeRole) {n : ℕ} {e : Envelope α} :
    e.checkDimension role n = .ok () ↔ e.dimension = n := by
  rw [Envelope.checkDimension]
  split
  · next h => simp [h]
  · next h => simp [h]

theorem Envelope.checkDimension_eq_error {α : Type} {role : EnvelopeRole} {n : ℕ} {e : Envelope α}
    {error : MatrixError} : e.checkDimension role n = .error error ↔
      e.dimension ≠ n ∧ .mismatchedDimension role n e.dimension = error := by
  rw [Envelope.checkDimension]
  split
  · next h => simp [h]
  · next h => simp [h]

namespace StoredMatrix

section Matching

variable {source target : List AxisDirection} {a b c found : AxisDirection} {i j index : ℕ}

theorem mem_colinearAxes : (found, index) ∈ colinearAxes source c ↔
    source[index]? = some found ∧ c.absolute = found.absolute := by
  rw [colinearAxes, List.mem_filter, List.mem_zipIdx_iff_getElem?]
  exact and_congr_right' AxisDirection.isColinear_iff

theorem nodup_colinearAxes (source : List AxisDirection) (c : AxisDirection) :
    (colinearAxes source c).Nodup :=
  (List.Nodup.of_map _ (List.nodup_zipIdx_map_snd source)).filter _

theorem matchAxis_eq_ok_iff_colinearAxes {axis : AxisDirection × ℕ} :
    matchAxis source c = .ok axis ↔ colinearAxes source c = [axis] := by
  rw [matchAxis]
  split
  · next h => simp [h]
  · next h => simp [h]
  · next h => simp [h]

/-- An axis is matched if it has one colinear axis and no other. -/
theorem matchAxis_eq_ok : matchAxis source c = .ok (found, index) ↔
    source[index]? = some found ∧ c.absolute = found.absolute ∧
      ∀ j a, source[j]? = some a → c.absolute = a.absolute → j = index := by
  rw [matchAxis_eq_ok_iff_colinearAxes]
  constructor
  · intro h
    have hfound : (found, index) ∈ colinearAxes source c := by
      rw [h]
      exact List.mem_singleton_self _
    rw [mem_colinearAxes] at hfound
    refine ⟨hfound.1, hfound.2, fun j a ha hca => ?_⟩
    have hmem := mem_colinearAxes.mpr ⟨ha, hca⟩
    rw [h, List.mem_singleton] at hmem
    exact congrArg Prod.snd hmem
  · rintro ⟨hfound, hc, hunique⟩
    apply List.perm_singleton.mp
    rw [List.perm_ext_iff_of_nodup (nodup_colinearAxes source c) (List.nodup_singleton _)]
    rintro ⟨a, j⟩
    rw [mem_colinearAxes, List.mem_singleton, Prod.mk.injEq]
    constructor
    · rintro ⟨ha, hca⟩
      obtain rfl := hunique j a ha hca
      exact ⟨Option.some.inj (ha.symm.trans hfound), rfl⟩
    · rintro ⟨rfl, rfl⟩
      exact ⟨hfound, hc⟩

/-- What is matched with an axis that is matched itself is matched with what that is matched
with. -/
theorem matchAxis_trans {first second : List AxisDirection} (hab : matchAxis first b = .ok (a, i))
    (hbc : matchAxis second c = .ok (b, j)) : matchAxis first c = .ok (a, i) := by
  rw [matchAxis_eq_ok] at hab hbc ⊢
  refine ⟨hab.1, hbc.2.1.trans hab.2.1, fun k d hd hcd => ?_⟩
  exact hab.2.2 k d hd (hbc.2.1.symm.trans hcd)

/-- An axis of the source that is matched is matched with itself. -/
theorem matchAxis_self (hb : source[j]? = some b) (h : matchAxis source b = .ok (found, index)) :
    found = b ∧ index = j := by
  rw [matchAxis_eq_ok] at h
  obtain rfl := h.2.2 j b hb rfl
  exact ⟨Option.some.inj (h.1.symm.trans hb), rfl⟩

theorem matchAxis_lt (h : matchAxis source c = .ok (found, index)) : index < source.length :=
  (List.getElem?_eq_some_iff.mp (matchAxis_eq_ok.mp h).1).1

end Matching

section Maps

variable {α : Type} [Scalar α]

@[simp] theorem numRow_ofOrdinates (n : ℕ) (ordinates : List (OrdinateMap α)) :
    (ofOrdinates n ordinates).numRow = ordinates.length + 1 :=
  numRow_ofBlock _

@[simp] theorem numCol_ofOrdinates (n : ℕ) (ordinates : List (OrdinateMap α)) :
    (ofOrdinates n ordinates).numCol = n + 1 :=
  numCol_ofBlock _

/-- The ordinate along an axis of the same or of the opposite direction. -/
def signed (index : ℕ) (same : Bool) : OrdinateMap α := ⟨index, if same then 1 else -1, 0⟩

/-- The ordinate along one target axis. -/
def axisOrdinate (source : List AxisDirection) (axis : AxisDirection) :
    Except MatrixError (OrdinateMap α) := do
  let (found, index) ← matchAxis source axis
  return ⟨index, if found = axis then 1 else -1, 0⟩

/-- The ordinate along one target axis between envelopes. -/
def frameOrdinate (sourceEnvelope : Envelope α) (source : List AxisDirection) :
    AxisDirection × Extent α → Except MatrixError (OrdinateMap α) := fun (axis, extent) => do
  let (found, index) ← matchAxis source axis
  return alongAxis index (found == axis) (sourceEnvelope.extents.getD index ⟨0, 0⟩) extent

variable {first second : List AxisDirection} {b : AxisDirection} {j : ℕ} {x : StoredMatrix α}
  {o : OrdinateMap α} {e e' : Envelope α} {extent : Extent α}

theorem betweenAxes_eq_ok : betweenAxes first second = .ok x ↔
    ∃ ordinates, second.mapM (axisOrdinate first) = .ok ordinates ∧
      ofOrdinates first.length ordinates = x := by
  change (second.mapM (axisOrdinate first) >>= fun ordinates => _) = _ ↔ _
  rw [bind_eq_ok]
  simp [pure, Except.pure]

theorem betweenFrames_eq_ok : betweenFrames e first e' second = .ok x ↔
    e.dimension = first.length ∧ e'.dimension = second.length ∧
      ∃ ordinates, (second.zip e'.extents).mapM (frameOrdinate e first) = .ok ordinates ∧
        ofOrdinates first.length ordinates = x := by
  rw [← Envelope.checkDimension_eq_ok .source, ← Envelope.checkDimension_eq_ok .destination]
  constructor
  · intro h
    obtain ⟨_, hsource, h⟩ := bind_eq_ok.mp h
    obtain ⟨_, htarget, h⟩ := bind_eq_ok.mp h
    obtain ⟨ordinates, hordinates, h⟩ := bind_eq_ok.mp h
    cases h
    exact ⟨hsource, htarget, ordinates, hordinates, rfl⟩
  · rintro ⟨hsource, htarget, ordinates, hordinates, rfl⟩
    exact bind_eq_ok.mpr ⟨_, hsource, bind_eq_ok.mpr ⟨_, htarget,
      bind_eq_ok.mpr ⟨ordinates, hordinates, rfl⟩⟩⟩

theorem axisOrdinate_eq_ok : axisOrdinate first b = .ok o ↔
    ∃ a i, matchAxis first b = .ok (a, i) ∧ signed i (a == b) = o := by
  rw [axisOrdinate, bind_eq_ok, Prod.exists]
  simp [pure, Except.pure, signed]

theorem frameOrdinate_eq_ok : frameOrdinate e first (b, extent) = .ok o ↔
    ∃ a i, matchAxis first b = .ok (a, i) ∧
      alongAxis i (a == b) (e.extents.getD i ⟨0, 0⟩) extent = o := by
  rw [frameOrdinate, bind_eq_ok, Prod.exists]
  simp [pure, Except.pure]

theorem source_axisOrdinate_lt (h : axisOrdinate first b = .ok o) : o.source < first.length := by
  obtain ⟨a, i, hab, rfl⟩ := axisOrdinate_eq_ok.mp h
  exact matchAxis_lt hab

theorem source_frameOrdinate_lt {p : AxisDirection × Extent α}
    (h : frameOrdinate e first p = .ok o) : o.source < first.length := by
  obtain ⟨a, i, hab, rfl⟩ := frameOrdinate_eq_ok.mp h
  exact matchAxis_lt hab

section Zipped

variable {axes : List AxisDirection} (h : e.dimension = axes.length)

include h

theorem getElem?_zip_extents (hj : axes[j]? = some b) :
    (axes.zip e.extents)[j]? = some (b, e.extents.getD j ⟨0, 0⟩) := by
  have hlt : j < e.extents.length := (List.getElem?_eq_some_iff.mp hj).1.trans_eq h.symm
  rw [List.getElem?_zip_eq_some, List.getD_eq_getElem?_getD, List.getElem?_eq_getElem hlt]
  exact ⟨hj, rfl⟩

omit [Scalar α] in
theorem length_zip_extents : (axes.zip e.extents).length = axes.length := by
  rw [List.length_zip, ← h, Envelope.dimension, Nat.min_self]

end Zipped

end Maps

section Ordinates

variable {K : Type} [Field K] [LinearOrder K] {n r : ℕ} {o : OrdinateMap K}
  {ordinates outer inner composed : List (OrdinateMap K)}

/-- An ordinate made of one that is made of another. -/
def OrdinateMap.after (outer inner : OrdinateMap K) : OrdinateMap K :=
  ⟨inner.source, outer.scale * inner.scale, outer.scale * inner.offset + outer.offset⟩

/-- What an ordinate becomes when its source is made as listed. -/
def OrdinateMap.Through (inner : List (OrdinateMap K)) (outer composed : OrdinateMap K) : Prop :=
  ∃ o, inner[outer.source]? = some o ∧ composed = outer.after o

/-- The row of an ordinate: its factor at its source, its term at the end. -/
def OrdinateMap.row (o : OrdinateMap K) (h : o.source < n) : Fin (n + 1) → K :=
  Pi.single ⟨o.source, h.trans n.lt_succ_self⟩ o.scale + Pi.single (Fin.last n) o.offset

theorem toMatrix_ofOrdinates_row (hr : ordinates.length + 1 = r) {i : Fin r}
    (h : ordinates[i.val]? = some o) (ho : o.source < n) :
    (ofOrdinates n ordinates).toMatrix r (n + 1) i = o.row ho := by
  subst hr
  funext j
  rw [ofOrdinates, ofFn, toMatrix_ofBlock, Block.toMatrix_apply, Block.entry_ofFn]
  simp only [h, OrdinateMap.row, Pi.add_apply, Pi.single_apply, Fin.ext_iff, Fin.val_last]
  by_cases hj : j.val = n
  · simp [hj, ho.ne']
  · simp [hj]

/-- A source behind all others gives nothing. -/
theorem toMatrix_ofOrdinates_row_of_le (hr : ordinates.length + 1 = r) {i : Fin r}
    (h : ordinates[i.val]? = some o) (ho : n ≤ o.source) :
    (ofOrdinates n ordinates).toMatrix r (n + 1) i = Pi.single (Fin.last n) o.offset := by
  subst hr
  funext j
  rw [ofOrdinates, ofFn, toMatrix_ofBlock, Block.toMatrix_apply, Block.entry_ofFn]
  simp only [h, Pi.single_apply, Fin.ext_iff, Fin.val_last]
  by_cases hj : j.val = n
  · rw [if_pos hj, if_pos hj]
  · rw [if_neg hj, if_neg (by omega), if_neg hj]

theorem toMatrix_ofOrdinates_last (hr : ordinates.length + 1 = r) {i : Fin r}
    (h : i.val = ordinates.length) :
    (ofOrdinates n ordinates).toMatrix r (n + 1) i = Pi.single (Fin.last n) 1 := by
  have hnone : ordinates[i.val]? = none := by
    rw [h]
    exact List.getElem?_eq_none le_rfl
  subst hr
  funext j
  rw [ofOrdinates, ofFn, toMatrix_ofBlock, Block.toMatrix_apply, Block.entry_ofFn]
  simp only [hnone, Pi.single_apply, Fin.ext_iff, Fin.val_last]

theorem OrdinateMap.row_vecMul {o' : OrdinateMap K} (h : inner[o.source]? = some o')
    (ho : o.source < inner.length) (ho' : o'.source < n) :
    Matrix.vecMul (o.row ho) ((ofOrdinates n inner).toMatrix (inner.length + 1) (n + 1)) =
      (o.after o').row ho' := by
  have hrow : ((ofOrdinates n inner).toMatrix (inner.length + 1) (n + 1)).row
      ⟨o.source, ho.trans (Nat.lt_succ_self _)⟩ = o'.row ho' :=
    toMatrix_ofOrdinates_row rfl h ho'
  have hlast : ((ofOrdinates n inner).toMatrix (inner.length + 1) (n + 1)).row (Fin.last _) =
      Pi.single (Fin.last n) 1 := toMatrix_ofOrdinates_last rfl rfl
  rw [row, Matrix.add_vecMul, Matrix.single_vecMul, Matrix.single_vecMul, hrow, hlast]
  simp only [row, after, smul_add, ← Pi.single_smul, smul_eq_mul, mul_one, add_assoc,
    ← Pi.single_add]

/-- The product makes each ordinate of what its source is made of. -/
theorem mul_ofOrdinates (hinner : ∀ o ∈ inner, o.source < n)
    (hcomposed : List.Forall₂ (OrdinateMap.Through inner) outer composed) :
    (ofOrdinates inner.length outer).mul (.stored (ofOrdinates n inner)) =
      .ok (ofOrdinates n composed) := by
  have hlength : outer.length = composed.length := hcomposed.length_eq
  have hlength' : composed.length + 1 = outer.length + 1 := by rw [hlength]
  have hcanonical : (ofOrdinates n composed).Canonical := canonical_ofBlock _
  rw [mul_eq _ _ (numRow_ofOrdinates _ _) (numCol_ofOrdinates _ _) (numRow_ofOrdinates _ _)
    (numCol_ofOrdinates _ _), hcanonical.eq_ofMatrix ((numRow_ofOrdinates _ _).trans hlength')
    (numCol_ofOrdinates _ _)]
  refine congrArg Except.ok (congrArg ofMatrix (funext fun i => ?_))
  rw [Matrix.mul_apply_eq_vecMul]
  rcases Nat.lt_succ_iff_lt_or_eq.mp i.isLt with hi | hi
  · obtain ⟨c, hc, o', ho', rfl⟩ :=
      exists_getElem?_of_forall₂ hcomposed (List.getElem?_eq_getElem hi)
    have hsource : (outer[i.val]).source < inner.length := (List.getElem?_eq_some_iff.mp ho').1
    have hsource' : ((outer[i.val]).after o').source < n := hinner o' (List.mem_of_getElem? ho')
    rw [toMatrix_ofOrdinates_row rfl (List.getElem?_eq_getElem hi) hsource,
      OrdinateMap.row_vecMul ho' hsource hsource', toMatrix_ofOrdinates_row hlength' hc]
  · rw [toMatrix_ofOrdinates_last rfl hi, Matrix.single_one_vecMul,
      toMatrix_ofOrdinates_last hlength' (hi.trans hlength)]
    exact toMatrix_ofOrdinates_last rfl rfl

/-- Two lists of ordinates, each made from a list of its own: if what an element of the second list
gives can be made of what the element that it refers to gives, the product is made from the second
list. -/
theorem mul_ofOrdinates_of_mapM {β γ : Type} {bs : List β} {cs : List γ}
    {f : β → Except MatrixError (OrdinateMap K)} {g h : γ → Except MatrixError (OrdinateMap K)}
    (hf : bs.mapM f = .ok inner) (hg : cs.mapM g = .ok outer)
    (hsource : ∀ b o, f b = .ok o → o.source < n)
    (hthrough : ∀ c ∈ cs, ∀ o, g c = .ok o →
      ∃ b, bs[o.source]? = some b ∧ ∀ o', f b = .ok o' → h c = .ok (o.after o')) :
    ∃ composed, cs.mapM h = .ok composed ∧
      (ofOrdinates bs.length outer).mul (.stored (ofOrdinates n inner)) =
        .ok (ofOrdinates n composed) := by
  have hinner : ∀ o ∈ inner, o.source < n := by
    intro o ho
    obtain ⟨b, -, hb⟩ := exists_of_mem_mapM hf ho
    exact hsource b o hb
  have hstep : ∀ c ∈ cs, ∀ o, g c = .ok o →
      ∃ o', h c = .ok o' ∧ OrdinateMap.Through inner o o' := by
    intro c hc o ho
    obtain ⟨b, hb, hafter⟩ := hthrough c hc o ho
    obtain ⟨o', ho', hbo⟩ := getElem?_of_mapM hf hb
    exact ⟨_, hafter o' hbo, o', ho', rfl⟩
  obtain ⟨composed, hcomposed, hforall⟩ := exists_mapM hg hstep
  refine ⟨composed, hcomposed, ?_⟩
  rw [← length_of_mapM hf]
  exact mul_ofOrdinates hinner hforall

/-- Ordinates that are taken as they are, in order. -/
theorem ofOrdinates_eq_identity (hlength : ordinates.length = n)
    (h : ∀ k < n, ordinates[k]? = some ⟨k, 1, 0⟩) :
    ofOrdinates n ordinates = .identity (n + 1) := by
  subst hlength
  refine congrArg ofBlock (Block.ext fun i j => ?_)
  rw [Block.entry_ofFn, Block.diagonal, Block.entry_ofFn]
  rcases Nat.lt_succ_iff_lt_or_eq.mp i.isLt with hi | hi
  · rw [h i hi]
    by_cases hj : j.val = ordinates.length
    · simp [hj, hi.ne]
    · simp [hj, eq_comm]
  · rw [List.getElem?_eq_none hi.ge, hi]
    simp [eq_comm]

theorem signed_after (i j : ℕ) (p q : Bool) :
    (signed j q : OrdinateMap K).after (signed i p) = signed i (p == q) := by
  cases p <;> cases q <;> simp [signed, OrdinateMap.after]

/-- The anchors of the extent in between cancel, unless it has no span. -/
theorem alongAxis_after {s t u : Extent K} (ht : t.span ≠ 0) (i j : ℕ) (p q : Bool) :
    (alongAxis j q t u).after (alongAxis i p s t) = alongAxis i (p == q) s u := by
  have hscale : u.span / t.span * (t.span / s.span) = u.span / s.span := div_mul_div_cancel₀ ht
  have hanchor : u.span / t.span * (t.maximum - t.minimum) = u.maximum - u.minimum :=
    div_mul_cancel₀ _ ht
  simp only [alongAxis, OrdinateMap.after, ← hscale]
  generalize u.span / t.span = f at hanchor ⊢
  generalize t.span / s.span = g
  cases p <;> cases q <;>
    simp only [OrdinateMap.mk.injEq, true_and, beq_iff_eq, reduceCtorEq, if_true, if_false]
  · exact ⟨by ring, by linear_combination -hanchor⟩
  · exact ⟨by ring, by linear_combination hanchor⟩
  · exact ⟨by ring, by ring⟩
  · exact ⟨by ring, by ring⟩

theorem alongAxis_self {s : Extent K} (hs : s.span ≠ 0) (i : ℕ) :
    alongAxis i true s s = ⟨i, 1, 0⟩ := by
  simp [alongAxis, hs]

end Ordinates

section Axes

variable {K : Type} [Field K] [LinearOrder K] {first second third : List AxisDirection}
  {a b c : AxisDirection} {i j : ℕ} {x y : StoredMatrix K} {e e' : Envelope K}

theorem beq_of_matchAxis (hab : matchAxis first b = .ok (a, i))
    (hbc : matchAxis second c = .ok (b, j)) : (a == c) = ((a == b) == (b == c)) :=
  AxisDirection.beq_of_colinear (matchAxis_eq_ok.mp hab).2.1.symm
    (matchAxis_eq_ok.mp hbc).2.1.symm

/-- Axis maps in a row are an axis map. -/
theorem betweenAxes_comp (hx : betweenAxes first second = .ok x)
    (hy : betweenAxes second third = .ok y) :
    ∃ z, betweenAxes first third = .ok z ∧ y.mul (.stored x) = .ok z := by
  obtain ⟨inner, hinner, rfl⟩ := betweenAxes_eq_ok.mp hx
  obtain ⟨outer, houter, rfl⟩ := betweenAxes_eq_ok.mp hy
  have hthrough : ∀ c ∈ third, ∀ o : OrdinateMap K, axisOrdinate second c = .ok o →
      ∃ b, second[o.source]? = some b ∧
        ∀ o', axisOrdinate first b = .ok o' → axisOrdinate first c = .ok (o.after o') := by
    intro c _ o ho
    obtain ⟨b, j, hbc, rfl⟩ := axisOrdinate_eq_ok.mp ho
    refine ⟨b, (matchAxis_eq_ok.mp hbc).1, fun o' hb => ?_⟩
    obtain ⟨a, i, hab, rfl⟩ := axisOrdinate_eq_ok.mp hb
    rw [signed_after, ← beq_of_matchAxis hab hbc]
    exact axisOrdinate_eq_ok.mpr ⟨a, i, matchAxis_trans hab hbc, rfl⟩
  obtain ⟨composed, hcomposed, hmul⟩ :=
    mul_ofOrdinates_of_mapM hinner houter (fun _ _ => source_axisOrdinate_lt) hthrough
  exact ⟨_, betweenAxes_eq_ok.mpr ⟨composed, hcomposed, rfl⟩, hmul⟩

/-- The source axes that a target axis is matched with have a span. -/
def SpansUsed (e : Envelope K) (source target : List AxisDirection) : Prop :=
  ∀ c ∈ target, ∀ b j, matchAxis source c = .ok (b, j) → (e.extents.getD j ⟨0, 0⟩).span ≠ 0

theorem SpansUsed.of_forall (h : e.dimension = first.length)
    (hspans : ∀ extent ∈ e.extents, extent.span ≠ 0) : SpansUsed e first second := by
  intro c _ b j hcb
  have hlt : j < e.extents.length := (matchAxis_lt hcb).trans_eq h.symm
  rw [List.getD_eq_getElem?_getD, List.getElem?_eq_getElem hlt]
  exact hspans _ (List.getElem_mem hlt)

/-- So are axis maps between envelopes, if what is used of the envelope in between has a span. -/
theorem betweenFrames_comp {e'' : Envelope K} (hx : betweenFrames e first e' second = .ok x)
    (hy : betweenFrames e' second e'' third = .ok y) (hspans : SpansUsed e' second third) :
    ∃ z, betweenFrames e first e'' third = .ok z ∧ y.mul (.stored x) = .ok z := by
  obtain ⟨hdimension, hdimension', inner, hinner, rfl⟩ := betweenFrames_eq_ok.mp hx
  obtain ⟨-, hdimension'', outer, houter, rfl⟩ := betweenFrames_eq_ok.mp hy
  have hthrough : ∀ p ∈ third.zip e''.extents, ∀ o, frameOrdinate e' second p = .ok o →
      ∃ q, (second.zip e'.extents)[o.source]? = some q ∧
        ∀ o', frameOrdinate e first q = .ok o' → frameOrdinate e first p = .ok (o.after o') := by
    rintro ⟨c, extent⟩ hp o ho
    obtain ⟨b, j, hbc, rfl⟩ := frameOrdinate_eq_ok.mp ho
    refine ⟨(b, e'.extents.getD j ⟨0, 0⟩),
      getElem?_zip_extents hdimension' (matchAxis_eq_ok.mp hbc).1, fun o' hb => ?_⟩
    obtain ⟨a, i, hab, rfl⟩ := frameOrdinate_eq_ok.mp hb
    have hspan := hspans c (List.of_mem_zip hp).1 b j hbc
    rw [alongAxis_after hspan, ← beq_of_matchAxis hab hbc]
    exact frameOrdinate_eq_ok.mpr ⟨a, i, matchAxis_trans hab hbc, rfl⟩
  obtain ⟨composed, hcomposed, hmul⟩ :=
    mul_ofOrdinates_of_mapM hinner houter (fun _ _ => source_frameOrdinate_lt) hthrough
  rw [length_zip_extents hdimension'] at hmul
  exact ⟨_, betweenFrames_eq_ok.mpr ⟨hdimension, hdimension'', composed, hcomposed, rfl⟩, hmul⟩

/-- Axes that can be mapped onto themselves stay where they are. -/
theorem betweenAxes_self (hx : betweenAxes first first = .ok x) :
    x = .identity (first.length + 1) := by
  obtain ⟨ordinates, hordinates, rfl⟩ := betweenAxes_eq_ok.mp hx
  apply ofOrdinates_eq_identity (length_of_mapM hordinates)
  intro k hk
  obtain ⟨o, ho, hself⟩ := getElem?_of_mapM hordinates (List.getElem?_eq_getElem hk)
  obtain ⟨a, i, haxis, rfl⟩ := axisOrdinate_eq_ok.mp hself
  obtain ⟨rfl, rfl⟩ := matchAxis_self (List.getElem?_eq_getElem hk) haxis
  rw [ho, beq_self_eq_true]
  rfl

theorem betweenFrames_self (hx : betweenFrames e first e first = .ok x)
    (hspans : SpansUsed e first first) : x = .identity (first.length + 1) := by
  obtain ⟨hdimension, -, ordinates, hordinates, rfl⟩ := betweenFrames_eq_ok.mp hx
  apply ofOrdinates_eq_identity
    ((length_of_mapM hordinates).trans (length_zip_extents hdimension))
  intro k hk
  obtain ⟨o, ho, hself⟩ := getElem?_of_mapM hordinates
    (getElem?_zip_extents hdimension (List.getElem?_eq_getElem hk))
  obtain ⟨a, i, haxis, rfl⟩ := frameOrdinate_eq_ok.mp hself
  have hspan := hspans _ (List.getElem_mem hk) a i haxis
  obtain ⟨rfl, rfl⟩ := matchAxis_self (List.getElem?_eq_getElem hk) haxis
  rw [ho, beq_self_eq_true, alongAxis_self hspan]

/-- Every axis of a target that can be reached is matched. -/
theorem exists_matchAxis (hx : betweenFrames e first e' second = .ok x) (hc : c ∈ second) :
    ∃ a i, matchAxis first c = .ok (a, i) := by
  obtain ⟨-, hdimension, ordinates, hordinates, -⟩ := betweenFrames_eq_ok.mp hx
  obtain ⟨j, hj⟩ := List.mem_iff_getElem?.mp hc
  obtain ⟨o, -, ho⟩ := getElem?_of_mapM hordinates (getElem?_zip_extents hdimension hj)
  obtain ⟨a, i, ha, -⟩ := frameOrdinate_eq_ok.mp ho
  exact ⟨a, i, ha⟩

/-- There and back, every axis is used. -/
theorem SpansUsed.self (h : SpansUsed e first second)
    (hx : betweenFrames e first e' second = .ok x) (hy : betweenFrames e' second e first = .ok y) :
    SpansUsed e first first := by
  intro c hc b j hcb
  obtain ⟨d, k, hcd⟩ := exists_matchAxis hy hc
  have hd : d ∈ second := List.mem_of_getElem? (matchAxis_eq_ok.mp hcd).1
  obtain ⟨a, i, hda⟩ := exists_matchAxis hx hd
  cases hcb.symm.trans (matchAxis_trans hda hcd)
  exact h d hd b j hda

variable (K)

/-- Axis maps in a row are the axis map from the first system to the last, between envelopes too if
the source axes that are used have a span; there and back is the identity. -/
theorem betweenAxes_spec :
    (∀ (first second third : List AxisDirection) (x y : StoredMatrix K),
      betweenAxes first second = .ok x → betweenAxes second third = .ok y →
        ∃ z, betweenAxes first third = .ok z ∧ y.IsProduct x z) ∧
    (∀ (first second third : List AxisDirection) (e e' e'' : Envelope K) (x y : StoredMatrix K),
      betweenFrames e first e' second = .ok x → betweenFrames e' second e'' third = .ok y →
        SpansUsed e' second third →
          ∃ z, betweenFrames e first e'' third = .ok z ∧ y.IsProduct x z) ∧
    (∀ (first second : List AxisDirection) (x y : StoredMatrix K),
      betweenAxes first second = .ok x → betweenAxes second first = .ok y →
        y.IsProduct x (.identity (first.length + 1))) ∧
    ∀ (first second : List AxisDirection) (e e' : Envelope K) (x y : StoredMatrix K),
      betweenFrames e first e' second = .ok x → betweenFrames e' second e first = .ok y →
        SpansUsed e first second → SpansUsed e' second first →
          y.IsProduct x (.identity (first.length + 1)) := by
  simp only [isProduct_iff]
  refine ⟨?_, ?_, ?_, ?_⟩
  · intro first second third x y hx hy
    exact betweenAxes_comp hx hy
  · intro first second third e e' e'' x y hx hy hspans
    exact betweenFrames_comp hx hy hspans
  · intro first second x y hx hy
    obtain ⟨z, hz, hproduct⟩ := betweenAxes_comp hx hy
    rwa [betweenAxes_self hz] at hproduct
  · intro first second e e' x y hx hy hspans hspans'
    obtain ⟨z, hz, hproduct⟩ := betweenFrames_comp hx hy hspans'
    rwa [betweenFrames_self hz (hspans.self hx hy)] at hproduct

/-- The axes of the plane are exchanged and one of them is reversed; then that one is kept and
reversed again. -/
theorem betweenAxes_spec_plane :
    let first : List AxisDirection := [.north, .west]
    let second : List AxisDirection := [.west, .south]
    let third : List AxisDirection := [.north]
    let turn : StoredMatrix ℚ := .small 3 (by decide) (.of3 0 1 0 (-1) 0 0 0 0 1)
    let turnBack : StoredMatrix ℚ := .small 3 (by decide) (.of3 0 (-1) 0 1 0 0 0 0 1)
    let keep : StoredMatrix ℚ := .flat ⟨2, 3, #[0, -1, 0, 0, 0, 1]⟩
    betweenAxes first second = .ok turn ∧ betweenAxes second third = .ok keep ∧
      (∃ z, betweenAxes first third = .ok z ∧ keep.IsProduct turn z) ∧
      betweenAxes second first = .ok turnBack ∧ turnBack.IsProduct turn (.identity 3) ∧
    let e : Envelope ℚ := ⟨[⟨0, 2⟩, ⟨1, 5⟩]⟩
    let e' : Envelope ℚ := ⟨[⟨10, 20⟩, ⟨-1, 1⟩]⟩
    let e'' : Envelope ℚ := ⟨[⟨3, 4⟩]⟩
    let fit : StoredMatrix ℚ := .small 3 (by decide) (.of3 0 (5 / 2) (15 / 2) (-1) 0 1 0 0 1)
    let fitBack : StoredMatrix ℚ := .small 3 (by decide) (.of3 0 (-1) 1 (2 / 5) 0 (-3) 0 0 1)
    let keepFit : StoredMatrix ℚ := .flat ⟨2, 3, #[0, -1 / 2, 7 / 2, 0, 0, 1]⟩
    betweenFrames e first e' second = .ok fit ∧ betweenFrames e' second e'' third = .ok keepFit ∧
      (∃ z, betweenFrames e first e'' third = .ok z ∧ keepFit.IsProduct fit z) ∧
      betweenFrames e' second e first = .ok fitBack ∧ fitBack.IsProduct fit (.identity 3) := by
  intro first second third turn turnBack keep
  have hturn : betweenAxes first second = .ok turn := by decide +kernel
  have hkeep : betweenAxes second third = .ok keep := by decide +kernel
  have hback : betweenAxes second first = .ok turnBack := by decide +kernel
  refine ⟨hturn, hkeep, (betweenAxes_spec ℚ).1 first second third turn keep hturn hkeep, hback,
    (betweenAxes_spec ℚ).2.2.1 first second turn turnBack hturn hback, ?_⟩
  intro e e' e'' fit fitBack keepFit
  have hfit : betweenFrames e first e' second = .ok fit := by decide +kernel
  have hkeepFit : betweenFrames e' second e'' third = .ok keepFit := by decide +kernel
  have hfitBack : betweenFrames e' second e first = .ok fitBack := by decide +kernel
  have hspans : ∀ extent ∈ e.extents, extent.span ≠ 0 := by decide +kernel
  have hspans' : ∀ extent ∈ e'.extents, extent.span ≠ 0 := by decide +kernel
  exact ⟨hfit, hkeepFit, (betweenAxes_spec ℚ).2.1 first second third e e' e'' fit keepFit hfit
    hkeepFit (.of_forall rfl hspans'), hfitBack, (betweenAxes_spec ℚ).2.2.2 first second e e' fit
    fitBack hfit hfitBack (.of_forall rfl hspans) (.of_forall rfl hspans')⟩

end Axes

end StoredMatrix

end Georeferencing
