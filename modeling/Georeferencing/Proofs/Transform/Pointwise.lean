import Georeferencing.Proofs.Transform.Dimensions

/-! # Batches are their points

A batch does to each of its points what the transform does to that point alone. This is shown once
for the loop over points that matrices and projections share, and carried through chains: there a
whole batch passes each step before the next one sees it, and the width of the buffer changes on
the way.
-/

namespace Georeferencing

section Buffers

variable {α : Type} {dimension count k : ℕ} {buffer : List α}

/-- The ordinates of the point at place `k` of a buffer of points. -/
def pointAt (dimension : ℕ) (buffer : List α) (k : ℕ) : List α :=
  (buffer.drop (k * dimension)).take dimension

theorem points_eq_map (dimension : ℕ) (buffer : List α) (count : ℕ) :
    points dimension buffer count = (List.range count).map (pointAt dimension buffer) := by
  induction count generalizing buffer with
  | zero => rfl
  | succ count ih =>
    rw [points, ih, List.range_succ_eq_map, List.map_cons, List.map_map]
    congr 1
    · simp [pointAt]
    · apply List.map_congr_left
      intro k _
      simp [pointAt, Nat.succ_mul, Nat.add_comm]

theorem end_le (h : count * dimension ≤ buffer.length) (hk : k < count) :
    k * dimension + dimension ≤ buffer.length := by
  rw [← Nat.succ_mul]
  exact (Nat.mul_le_mul_right _ hk).trans h

theorem length_pointAt (h : count * dimension ≤ buffer.length) (hk : k < count) :
    (pointAt dimension buffer k).length = dimension := by
  have hend := end_le h hk
  simp only [pointAt, List.length_take, List.length_drop]
  omega

/-- What lies behind the points does not matter. -/
theorem pointAt_append (h : buffer.length = count * dimension) (hk : k < count) (tail : List α) :
    pointAt dimension (buffer ++ tail) k = pointAt dimension buffer k := by
  have hend := end_le h.ge hk
  rw [pointAt, pointAt, List.drop_append_of_le_length (by omega),
    List.take_append_of_le_length (by simp; omega)]

theorem pointAt_take (h : count * dimension ≤ buffer.length) (hk : k < count) :
    pointAt dimension (buffer.take (count * dimension)) k = pointAt dimension buffer k := by
  have happend := pointAt_append (List.length_take_of_le h) hk (buffer.drop (count * dimension))
  rwa [List.take_append_drop, eq_comm] at happend

theorem pointAt_whole (h : buffer.length = dimension) : pointAt dimension buffer 0 = buffer := by
  simp [pointAt, h]

theorem length_flatten_of_forall {rows : List (List α)} (h : ∀ row ∈ rows, row.length = dimension) :
    rows.flatten.length = rows.length * dimension := by
  induction rows with
  | nil => simp
  | cons row rest ih =>
    rw [List.forall_mem_cons] at h
    rw [List.flatten_cons, List.length_append, h.1, ih h.2, List.length_cons, Nat.succ_mul,
      Nat.add_comm]

theorem pointAt_flatten {rows : List (List α)} (h : ∀ row ∈ rows, row.length = dimension)
    (hk : k < rows.length) : pointAt dimension rows.flatten k = rows[k] := by
  induction rows generalizing k with
  | nil => simp at hk
  | cons row rest ih =>
    rw [List.forall_mem_cons] at h
    cases k with
    | zero => simp [pointAt, ← h.1]
    | succ k =>
      have hskip : (k + 1) * dimension = row.length + k * dimension := by
        rw [h.1, Nat.succ_mul, Nat.add_comm]
      rw [List.getElem_cons_succ, ← ih h.2 (by simpa using hk), pointAt, pointAt,
        List.flatten_cons, hskip, List.drop_length_add_append]

theorem pointAt_two {src : List α} (h : count * 2 ≤ src.length) (hk : k < count) :
    ∃ x y, src[2 * k]? = some x ∧ src[2 * k + 1]? = some y ∧ pointAt 2 src k = [x, y] := by
  have hx : 2 * k < src.length := by omega
  have hy : 2 * k + 1 < src.length := by omega
  refine ⟨src[2 * k], src[2 * k + 1], List.getElem?_eq_getElem hx, List.getElem?_eq_getElem hy, ?_⟩
  rw [pointAt, Nat.mul_comm, List.drop_eq_getElem_cons hx, List.drop_eq_getElem_cons hy]
  rfl

end Buffers

section Runs

variable {β γ ε : Type} {f : β → Except ε γ}

theorem mapUntilError_none_iff (bs : List β) :
    (mapUntilError f bs).2 = none ↔ ∀ b ∈ bs, ∃ c, f b = .ok c := by
  induction bs with
  | nil => simp [mapUntilError]
  | cons b bs ih =>
    rw [mapUntilError, List.forall_mem_cons, ← ih]
    cases h : f b with
    | error e => simp
    | ok c => simp

theorem map_eq_of_mapUntilError {bs : List β} (h : (mapUntilError f bs).2 = none) :
    bs.map f = (mapUntilError f bs).1.map .ok := by
  induction bs with
  | nil => rfl
  | cons b bs ih =>
    rw [mapUntilError] at h ⊢
    cases hb : f b with
    | error e =>
      rw [hb] at h
      cases h
    | ok c =>
      rw [hb] at h
      simp only [List.map_cons, hb, ih h]

end Runs

namespace Batch

variable {α : Type} {source target : ℕ} {f g : List α → Except (TransformError α) (List α)}
  {run : List α → List α → ℕ → Batch α}

theorem result_eq_ok {b : Batch α} {written : List α} :
    b.result = .ok written ↔ b.failure? = none ∧ b.buffer = written := by
  rw [result]
  cases b.failure? with
  | none => simp
  | some e => simp

section Within

variable {sourceLength targetLength srcOff dstOff : ℕ} {run : List α → List α → Batch α}
  {pts out : List α}

theorem within_of_capacity (hsrc : srcOff + sourceLength ≤ pts.length)
    (hdst : dstOff + targetLength ≤ pts.length) :
    within sourceLength targetLength run pts srcOff dstOff =
      let out := run ((pts.drop srcOff).take sourceLength) ((pts.drop dstOff).take targetLength)
      ⟨pts.take dstOff ++ out.buffer ++ pts.drop (dstOff + targetLength), out.failure?⟩ := by
  rw [within, capacityFault?_eq_none.mpr hsrc, capacityFault?_eq_none.mpr hdst]

theorem within_fault (h : ¬ (srcOff + sourceLength ≤ pts.length ∧
    dstOff + targetLength ≤ pts.length)) :
    (within sourceLength targetLength run pts srcOff dstOff).failure? ≠ none ∧
      (within sourceLength targetLength run pts srcOff dstOff).buffer = pts := by
  unfold within
  split
  · exact ⟨by simp, rfl⟩
  · exact ⟨by simp, rfl⟩
  · next hsrc hdst =>
    rw [capacityFault?_eq_none] at hsrc hdst
    exact absurd ⟨hsrc, hdst⟩ h

theorem length_splice (hout : out.length = targetLength)
    (hdst : dstOff + targetLength ≤ pts.length) :
    (pts.take dstOff ++ out ++ pts.drop (dstOff + targetLength)).length = pts.length := by
  simp only [List.length_append, List.length_take, List.length_drop, hout]
  omega

/-- A buffer with a region replaced, place by place. -/
theorem getElem?_splice (hout : out.length = targetLength)
    (hdst : dstOff + targetLength ≤ pts.length) (i : ℕ) :
    (pts.take dstOff ++ out ++ pts.drop (dstOff + targetLength))[i]? =
      if dstOff ≤ i ∧ i < dstOff + targetLength then out[i - dstOff]? else pts[i]? := by
  have htake : (pts.take dstOff).length = dstOff := List.length_take_of_le (by omega)
  by_cases hlo : i < dstOff
  · rw [if_neg (by omega), List.append_assoc, List.getElem?_append_left (by omega),
      List.getElem?_take_of_lt hlo]
  · rw [List.append_assoc, List.getElem?_append_right (by omega), htake]
    by_cases hhi : i < dstOff + targetLength
    · rw [if_pos (by omega), List.getElem?_append_left (by omega)]
    · rw [if_neg (by omega), List.getElem?_append_right (by omega), hout, List.getElem?_drop]
      congr 1
      omega

end Within

/-- A batch operation that does to each point what `f` does to it, and nothing else: it is refused
if a buffer is too short, it succeeds if `f` does at every point, and what lies behind the points
of the destination stays. -/
structure Maps (source target : ℕ) (f : List α → Except (TransformError α) (List α))
    (run : List α → List α → ℕ → Batch α) : Prop where
  short_source : ∀ src dst count, src.length < count * source →
    (run src dst count).failure? = some (.bufferTooSmall (count * source) src.length)
  short_target : ∀ src dst count, count * source ≤ src.length → dst.length < count * target →
    (run src dst count).failure? = some (.bufferTooSmall (count * target) dst.length)
  succeeds_iff : ∀ src dst count, count * source ≤ src.length → count * target ≤ dst.length →
    ((run src dst count).failure? = none ↔ ∀ k < count, ∃ q, f (pointAt source src k) = .ok q)
  image : ∀ src dst count, count * source ≤ src.length → count * target ≤ dst.length →
    (run src dst count).failure? = none → ∀ k < count,
      f (pointAt source src k) = .ok (pointAt target (run src dst count).buffer k)
  rest : ∀ src dst count, count * source ≤ src.length → count * target ≤ dst.length →
    (run src dst count).failure? = none →
      (run src dst count).buffer.drop (count * target) = dst.drop (count * target)

/-- Only the images of points of the right dimension matter. -/
theorem Maps.congr (h : Maps source target f run)
    (hfg : ∀ p q, p.length = source → (f p = .ok q ↔ g p = .ok q)) : Maps source target g run where
  short_source := h.short_source
  short_target := h.short_target
  succeeds_iff src dst count hsrc hdst := by
    rw [h.succeeds_iff src dst count hsrc hdst]
    apply forall₂_congr
    intro k hk
    exact exists_congr fun q => hfg _ q (length_pointAt hsrc hk)
  image src dst count hsrc hdst hrun k hk := by
    rw [← hfg _ _ (length_pointAt hsrc hk)]
    exact h.image src dst count hsrc hdst hrun k hk
  rest := h.rest

/-- A batch of one point. -/
theorem Maps.result_one (h : Maps source target f run) {p dst q : List α}
    (hlength : (run p dst 1).buffer.length = dst.length) (hp : p.length = source)
    (hdst : dst.length = target) : (run p dst 1).result = .ok q ↔ f p = .ok q := by
  have hroom : 1 * source ≤ p.length ∧ 1 * target ≤ dst.length := by omega
  have himage : (run p dst 1).failure? = none → f p = .ok (run p dst 1).buffer := by
    intro hnone
    have hzero := h.image p dst 1 hroom.1 hroom.2 hnone 0 Nat.one_pos
    rwa [pointAt_whole hp, pointAt_whole (hlength.trans hdst)] at hzero
  rw [result_eq_ok]
  constructor
  · rintro ⟨hnone, rfl⟩
    exact himage hnone
  · intro hq
    have hnone : (run p dst 1).failure? = none := by
      rw [h.succeeds_iff p dst 1 hroom.1 hroom.2]
      intro k hk
      rw [Nat.lt_one_iff.mp hk, pointAt_whole hp]
      exact ⟨q, hq⟩
    exact ⟨hnone, Except.ok.inj ((himage hnone).symm.trans hq)⟩

theorem pointwise_of_capacity {src dst : List α} {count : ℕ} (hsrc : count * source ≤ src.length)
    (hdst : count * target ≤ dst.length) :
    pointwise source target f src dst count =
      ⟨overwrite dst (mapUntilError f (points source src count)).1.flatten,
        (mapUntilError f (points source src count)).2⟩ := by
  rw [pointwise, capacityFault?_eq_none.mpr hsrc, capacityFault?_eq_none.mpr hdst]

theorem drop_overwrite {dst written : List α} {n : ℕ} (h : written.length = n) :
    (overwrite dst written).drop n = dst.drop n := by
  subst h
  simp [overwrite]

/-- A loop that meets no failure gives one image for each point. -/
theorem images_of_points (hf : ∀ p q, f p = .ok q → q.length = target) {src : List α} {count : ℕ}
    (h : (mapUntilError f (points source src count)).2 = none) :
    ∃ images : List (List α), (mapUntilError f (points source src count)).1 = images ∧
      images.length = count ∧ (∀ row ∈ images, row.length = target) ∧
        ∀ k (hk : k < images.length), f (pointAt source src k) = .ok images[k] := by
  have hmap := map_eq_of_mapUntilError h
  rw [points_eq_map, List.map_map] at hmap
  rw [points_eq_map]
  generalize (mapUntilError f ((List.range count).map (pointAt source src))).1 = images at hmap ⊢
  have hlength : images.length = count := by
    have hlengths := congrArg List.length hmap
    simpa using hlengths.symm
  have hget : ∀ k (hk : k < images.length), f (pointAt source src k) = .ok images[k] := by
    intro k hk
    have hplace := congrArg (·[k]?) hmap
    simpa [hlength ▸ hk, hk] using hplace
  refine ⟨images, rfl, hlength, ?_, hget⟩
  intro row hrow
  obtain ⟨k, hk, rfl⟩ := List.mem_iff_getElem.mp hrow
  exact hf _ _ (hget k hk)

/-- What the loop writes if it meets no failure. -/
theorem pointwise_ok (hf : ∀ p q, f p = .ok q → q.length = target) {src dst : List α} {count : ℕ}
    (hsrc : count * source ≤ src.length) (hdst : count * target ≤ dst.length)
    (h : (pointwise source target f src dst count).failure? = none) :
    ∃ written, (pointwise source target f src dst count).buffer = overwrite dst written ∧
      written.length = count * target ∧
        ∀ k < count, f (pointAt source src k) = .ok (pointAt target written k) := by
  rw [pointwise_of_capacity hsrc hdst] at h ⊢
  obtain ⟨images, himages, hlength, hrows, hget⟩ := images_of_points hf h
  refine ⟨images.flatten, by rw [himages], ?_, ?_⟩
  · rw [length_flatten_of_forall hrows, hlength]
  · intro k hk
    rw [← hlength] at hk
    rw [hget k hk, pointAt_flatten hrows hk]

/-- The loop over points. -/
theorem maps_pointwise (hf : ∀ p q, f p = .ok q → q.length = target) :
    Maps source target f (pointwise source target f) := by
  constructor
  · intro src dst count hsrc
    rw [pointwise, capacityFault?, if_pos hsrc]
  · intro src dst count hsrc hdst
    rw [pointwise, capacityFault?_eq_none.mpr hsrc, capacityFault?, if_pos hdst]
  · intro src dst count hsrc hdst
    rw [pointwise_of_capacity hsrc hdst, mapUntilError_none_iff, points_eq_map]
    simp
  · intro src dst count hsrc hdst h k hk
    obtain ⟨written, hbuffer, hlength, himage⟩ := pointwise_ok hf hsrc hdst h
    rw [himage k hk, hbuffer, overwrite, pointAt_append hlength hk]
  · intro src dst count hsrc hdst h
    obtain ⟨written, hbuffer, hlength, -⟩ := pointwise_ok hf hsrc hdst h
    rw [hbuffer, drop_overwrite hlength]

end Batch

namespace Transform

variable {α : Type} [Scalar α] [Elementary α]

/-- A batch does to each of its points what the transform does to that point alone. -/
def ActsPointwise (t : Transform α) : Prop :=
  Batch.Maps t.source t.target t.applyPoint t.applyBatch

variable {steps : List (Transform α)} {dimension count : ℕ} {src dst buffer written : List α}

/-- A transform acts pointwise if some function of points gives its batches. -/
theorem actsPointwise_of_maps {t : Transform α} {f : List α → Except (TransformError α) (List α)}
    (h : Batch.Maps t.source t.target f t.applyBatch) : t.ActsPointwise := by
  apply h.congr
  intro p q hp
  rw [applyPoint_eq hp]
  exact (h.result_one (length_applyBatch t _ _ _) hp List.length_replicate).symm

theorem length_applyBatch_fresh (t : Transform α) (src : List α) (count : ℕ) :
    (t.applyBatch src (List.replicate (count * t.target) 0) count).buffer.length =
      count * t.target := by
  rw [length_applyBatch, List.length_replicate]

/-- Each point of a batch that has passed the steps has been transformed by them in turn. -/
theorem applyInOrder_of_runSteps (hsteps : ∀ step ∈ steps, step.ActsPointwise)
    (hfits : Fits dimension steps) (hbuffer : buffer.length = count * dimension)
    (h : runSteps steps buffer count = .ok written) {k : ℕ} (hk : k < count) :
    applyInOrder steps (pointAt dimension buffer k) =
      .ok (pointAt (lastTarget steps dimension) written k) := by
  induction steps generalizing dimension buffer with
  | nil =>
    cases h
    rfl
  | cons step rest ih =>
    rw [List.forall_mem_cons] at hsteps
    obtain ⟨rfl, hrest⟩ := hfits
    rw [runSteps] at h
    obtain ⟨next, hnext, h⟩ := bind_eq_ok.mp h
    obtain ⟨hfailure, rfl⟩ := Batch.result_eq_ok.mp hnext
    have hlength := length_applyBatch_fresh step buffer count
    rw [applyInOrder_cons, hsteps.1.image _ _ _ hbuffer.ge List.length_replicate.ge hfailure k hk]
    exact ih hsteps.2 hrest hlength h

/-- If the steps can transform each point of a batch, they can transform the batch. -/
theorem runSteps_of_applyInOrder (hsteps : ∀ step ∈ steps, step.ActsPointwise)
    (hfits : Fits dimension steps) (hbuffer : buffer.length = count * dimension)
    (h : ∀ k < count, ∃ q, applyInOrder steps (pointAt dimension buffer k) = .ok q) :
    ∃ written, runSteps steps buffer count = .ok written := by
  induction steps generalizing dimension buffer with
  | nil => exact ⟨buffer, rfl⟩
  | cons step rest ih =>
    rw [List.forall_mem_cons] at hsteps
    obtain ⟨rfl, hrest⟩ := hfits
    have hfailure : (step.applyBatch buffer (List.replicate (count * step.target) 0)
        count).failure? = none := by
      rw [hsteps.1.succeeds_iff _ _ _ hbuffer.ge List.length_replicate.ge]
      intro k hk
      obtain ⟨q, hq⟩ := h k hk
      obtain ⟨next, hnext, -⟩ := bind_eq_ok.mp hq
      exact ⟨next, hnext⟩
    have hlength := length_applyBatch_fresh step buffer count
    obtain ⟨written, hwritten⟩ := ih hsteps.2 hrest hlength (by
      intro k hk
      obtain ⟨q, hq⟩ := h k hk
      rw [applyInOrder_cons,
        hsteps.1.image _ _ _ hbuffer.ge List.length_replicate.ge hfailure k hk] at hq
      exact ⟨q, hq⟩)
    use written
    rw [runSteps, Batch.result_eq_ok.mpr ⟨hfailure, rfl⟩]
    exact hwritten

theorem applyBatch_chain (hsrc : count * (chain steps).source ≤ src.length)
    (hdst : count * (chain steps).target ≤ dst.length) :
    (chain steps).applyBatch src dst count =
      match runSteps steps (src.take (count * (chain steps).source)) count with
      | .ok written => ⟨Batch.overwrite dst written, none⟩
      | .error e => ⟨dst, some e⟩ := by
  rw [← capacityFault?_eq_none (α := α)] at hsrc hdst
  cases hrun : runSteps steps (src.take (count * (chain steps).source)) count with
  | error e => simp only [applyBatch, hsrc, hdst, hrun]
  | ok written => simp only [applyBatch, hsrc, hdst, hrun]

/-- A batch passes a chain by passing its steps. -/
theorem applyBatch_chain_ok (hsrc : count * (chain steps).source ≤ src.length)
    (hdst : count * (chain steps).target ≤ dst.length)
    (h : ((chain steps).applyBatch src dst count).failure? = none) :
    ∃ written, runSteps steps (src.take (count * (chain steps).source)) count = .ok written ∧
      written.length = count * (chain steps).target ∧
      ((chain steps).applyBatch src dst count).buffer = Batch.overwrite dst written := by
  rw [applyBatch_chain hsrc hdst] at h ⊢
  cases hrun : runSteps steps (src.take (count * (chain steps).source)) count with
  | error e =>
    rw [hrun] at h
    cases h
  | ok written =>
    have hlength := length_runSteps steps _ written count _ (List.length_take_of_le hsrc) hrun
    rw [lastTarget_source] at hlength
    exact ⟨written, rfl, hlength, rfl⟩

/-- A chain of steps that fit together and act pointwise acts pointwise. -/
theorem actsPointwise_chain (hsteps : ∀ step ∈ steps, step.ActsPointwise)
    (hfits : Fits (chain steps).source steps) : (chain steps).ActsPointwise := by
  apply actsPointwise_of_maps (f := applyInOrder steps)
  constructor
  · intro src dst count hsrc
    rw [applyBatch, capacityFault?, if_pos hsrc]
  · intro src dst count hsrc hdst
    rw [applyBatch, capacityFault?_eq_none.mpr hsrc, capacityFault?, if_pos hdst]
  · intro src dst count hsrc hdst
    have htake := List.length_take_of_le hsrc
    constructor
    · intro h k hk
      obtain ⟨written, hrun, -, -⟩ := applyBatch_chain_ok hsrc hdst h
      rw [← pointAt_take hsrc hk]
      exact ⟨_, applyInOrder_of_runSteps hsteps hfits htake hrun hk⟩
    · intro h
      obtain ⟨written, hrun⟩ := runSteps_of_applyInOrder hsteps hfits htake (by
        intro k hk
        rw [pointAt_take hsrc hk]
        exact h k hk)
      rw [applyBatch_chain hsrc hdst, hrun]
  · intro src dst count hsrc hdst h k hk
    obtain ⟨written, hrun, hlength, hbuffer⟩ := applyBatch_chain_ok hsrc hdst h
    have hpoint := applyInOrder_of_runSteps hsteps hfits (List.length_take_of_le hsrc) hrun hk
    rw [pointAt_take hsrc hk, lastTarget_source] at hpoint
    rw [hpoint, hbuffer, Batch.overwrite, pointAt_append hlength hk]
  · intro src dst count hsrc hdst h
    obtain ⟨written, -, hlength, hbuffer⟩ := applyBatch_chain_ok hsrc hdst h
    rw [hbuffer, Batch.drop_overwrite hlength]

theorem actsPointwise_linear (t : Projective α) : (linear t).ActsPointwise :=
  actsPointwise_of_maps (Batch.maps_pointwise t.length_of_image_eq)

theorem actsPointwise_mercator (m : Mercator α) : (mercator m).ActsPointwise :=
  actsPointwise_of_maps (Batch.maps_pointwise m.length_projectPoint)

theorem actsPointwise_inverseMercator (m : Mercator α) : (inverseMercator m).ActsPointwise :=
  actsPointwise_of_maps (Batch.maps_pointwise m.length_unprojectPoint)

mutual

/-- Whatever is composed of transforms that act pointwise acts pointwise. -/
theorem Composed.actsPointwise : ∀ {t : Transform α}, t.Composed ActsPointwise → t.ActsPointwise
  | linear t, _ => actsPointwise_linear t
  | mercator m, _ => actsPointwise_mercator m
  | inverseMercator m, _ => actsPointwise_inverseMercator m
  | external t inverse, h => by
    rwa [Composed] at h
  | chain steps, h => by
    rw [Composed] at h
    exact actsPointwise_chain (AllComposed.actsPointwise h.2) h.1

theorem AllComposed.actsPointwise : ∀ {steps : List (Transform α)},
    AllComposed ActsPointwise steps → ∀ step ∈ steps, step.ActsPointwise
  | [], _ => by
    intro step hstep
    cases hstep
  | first :: rest, h => by
    rw [AllComposed] at h
    rw [List.forall_mem_cons]
    exact ⟨Composed.actsPointwise h.1, AllComposed.actsPointwise h.2⟩

end

end Transform

end Georeferencing
