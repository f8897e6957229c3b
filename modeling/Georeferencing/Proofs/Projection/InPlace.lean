import Georeferencing.Proofs.Transform.Pointwise

/-! # Projecting in place

The Mercator projection moves the points of a buffer without copying them first. Each point is read
before its place is written, because the points are visited away from the direction in which they
move: first to last when they move back or stay, last to first when they move ahead. What has been
moved is an interval of points that grows at one end, and in the end the buffer is the one that a
copy of the source region would have given.
-/

namespace Georeferencing

variable {α : Type} [Scalar α] [Elementary α]

/-- Transforms a copy of the source region, which is how transforms work within one buffer unless
they know better. -/
def Transform.copyFirst (t : Transform α) (pts : List α) (srcOff dstOff count : ℕ) : Batch α :=
  .within (count * t.source) (count * t.target) (t.applyBatch · · count) pts srcOff dstOff

namespace Mercator

variable {m : Mercator α} {pts buffer : List α} {src dst srcOff dstOff count lo hi k : ℕ}

theorem length_movePoint : (m.movePoint pts src dst).length = pts.length := by
  simp [movePoint]

/-- A moved point: the place of the ordinate, the place of the longitude, and all others. -/
theorem getElem?_movePoint (hsrc : src + 1 < pts.length) (hdst : dst + 1 < pts.length) (i : ℕ) :
    (m.movePoint pts src dst)[i]? =
      if i = dst + 1 then pts[src + 1]?.map m.latitudeToOrdinate
      else if i = dst then pts[src]? else pts[i]? := by
  have hsrc' : src < pts.length := by omega
  have hdst' : dst < pts.length := by omega
  by_cases hordinate : i = dst + 1
  · subst hordinate
    simp [movePoint, hsrc, hdst]
  · rw [if_neg hordinate, movePoint, List.getElem?_set_ne (by omega)]
    by_cases hlongitude : i = dst
    · subst hlongitude
      simp [hsrc', hdst']
    · rw [if_neg hlongitude, List.getElem?_set_ne (by omega)]

/-- A point that stays where it is keeps its longitude. -/
theorem movePoint_self : m.movePoint pts src src = m.projectAt pts (src + 1) := by
  have hset : pts.set src (pts.getD src 0) = pts := by
    apply List.ext_getElem?
    intro i
    rw [List.getElem?_set]
    by_cases h : src = i
    · subst h
      by_cases hlt : src < pts.length
      · simp [hlt]
      · simp [hlt]
    · rw [if_neg h]
  rw [movePoint, projectAt, hset]

variable (m pts srcOff dstOff)

/-- The points from `lo` to `hi` have been moved, and every other place of the buffer is as it
was. -/
structure Moved (lo hi : ℕ) (buffer : List α) : Prop where
  length : buffer.length = pts.length
  longitude : ∀ k, lo ≤ k → k < hi → buffer[dstOff + 2 * k]? = pts[srcOff + 2 * k]?
  ordinate : ∀ k, lo ≤ k → k < hi →
    buffer[dstOff + 2 * k + 1]? = pts[srcOff + 2 * k + 1]?.map m.latitudeToOrdinate
  frame : ∀ i, i < dstOff + 2 * lo ∨ dstOff + 2 * hi ≤ i → buffer[i]? = pts[i]?

variable {m pts srcOff dstOff}

theorem moved_start (k : ℕ) : Moved m pts srcOff dstOff k k pts where
  length := rfl
  longitude j hlo hhi := by omega
  ordinate j hlo hhi := by omega
  frame i _ := rfl

/-- One more point, next to those that have been moved. Neither of its ordinates has been
overwritten. -/
theorem Moved.move {lo' hi' : ℕ} (h : Moved m pts srcOff dstOff lo hi buffer) (hle : lo ≤ hi)
    (hk : k = hi ∧ lo' = lo ∧ hi' = hi + 1 ∨ lo = k + 1 ∧ lo' = k ∧ hi' = hi)
    (hunread : srcOff + 2 * k + 2 ≤ dstOff + 2 * lo ∨ dstOff + 2 * hi ≤ srcOff + 2 * k)
    (hsrc : srcOff + 2 * k + 1 < pts.length) (hdst : dstOff + 2 * k + 1 < pts.length) :
    Moved m pts srcOff dstOff lo' hi'
      (m.movePoint buffer (srcOff + 2 * k) (dstOff + 2 * k)) := by
  rw [← h.length] at hsrc hdst
  have hreadLongitude := h.frame (srcOff + 2 * k) (by omega)
  have hreadLatitude := h.frame (srcOff + 2 * k + 1) (by omega)
  constructor
  · rw [length_movePoint, h.length]
  · intro j hlo hhi
    rw [getElem?_movePoint hsrc hdst, if_neg (by omega)]
    by_cases hj : j = k
    · subst hj
      rw [if_pos rfl, hreadLongitude]
    · rw [if_neg (by omega), h.longitude j (by omega) (by omega)]
  · intro j hlo hhi
    rw [getElem?_movePoint hsrc hdst]
    by_cases hj : j = k
    · subst hj
      rw [if_pos rfl, hreadLatitude]
    · rw [if_neg (by omega), if_neg (by omega), h.ordinate j (by omega) (by omega)]
  · intro i hi
    rw [getElem?_movePoint hsrc hdst, if_neg (by omega), if_neg (by omega), h.frame i (by omega)]

/-- First to last, when the points move back or stay. -/
theorem moved_forward (h : dstOff ≤ srcOff) (hroom : srcOff + 2 * count ≤ pts.length) :
    Moved m pts srcOff dstOff 0 count ((List.range count).foldl
      (fun pts k => m.movePoint pts (srcOff + 2 * k) (dstOff + 2 * k)) pts) := by
  induction count with
  | zero => exact moved_start 0
  | succ count ih =>
    rw [List.range_succ, List.foldl_append]
    apply (ih (by omega)).move (Nat.zero_le _) (Or.inl ⟨rfl, rfl, rfl⟩)
    · exact Or.inr (by omega)
    · omega
    · omega

/-- Last to first, when the points move ahead. -/
theorem moved_backward (h : srcOff ≤ dstOff) (hroom : dstOff + 2 * count ≤ pts.length)
    (hk : k ≤ count) (hbuffer : Moved m pts srcOff dstOff k count buffer) :
    Moved m pts srcOff dstOff 0 count ((List.range k).reverse.foldl
      (fun pts k => m.movePoint pts (srcOff + 2 * k) (dstOff + 2 * k)) buffer) := by
  induction k generalizing buffer with
  | zero => exact hbuffer
  | succ k ih =>
    rw [List.range_succ, List.reverse_append]
    apply ih (by omega)
    apply hbuffer.move hk (Or.inr ⟨rfl, rfl, rfl⟩)
    · exact Or.inl (by omega)
    · omega
    · omega

/-- What has been moved determines the buffer. -/
theorem Moved.unique {buffer' : List α} (h : Moved m pts srcOff dstOff 0 count buffer)
    (h' : Moved m pts srcOff dstOff 0 count buffer') : buffer = buffer' := by
  apply List.ext_getElem?
  intro i
  by_cases hi : i < dstOff + 2 * 0 ∨ dstOff + 2 * count ≤ i
  · rw [h.frame i hi, h'.frame i hi]
  · obtain ⟨k, hk⟩ : ∃ k, i = dstOff + 2 * k ∨ i = dstOff + 2 * k + 1 :=
      ⟨(i - dstOff) / 2, by omega⟩
    rcases hk with rfl | rfl
    · rw [h.longitude k (Nat.zero_le _) (by omega), h'.longitude k (Nat.zero_le _) (by omega)]
    · rw [h.ordinate k (Nat.zero_le _) (by omega), h'.ordinate k (Nat.zero_le _) (by omega)]

/-- A buffer with room for both regions is projected in place whatever their offsets. -/
theorem applyWithin_moved (hsrc : srcOff + 2 * count ≤ pts.length)
    (hdst : dstOff + 2 * count ≤ pts.length) :
    (m.applyWithin pts srcOff dstOff count).failure? = none ∧
      Moved m pts srcOff dstOff 0 count (m.applyWithin pts srcOff dstOff count).buffer := by
  have hroom : max srcOff dstOff + 2 * count ≤ pts.length := by omega
  rw [applyWithin, capacityFault?_eq_none.mpr hroom]
  constructor
  · rfl
  change Moved m pts srcOff dstOff 0 count (if _ then _ else _)
  split
  · next hsame =>
    subst hsame
    have hplace : ∀ k, srcOff + 1 + 2 * k = srcOff + 2 * k + 1 := by omega
    simp only [hplace, ← movePoint_self]
    exact moved_forward le_rfl hsrc
  · split
    · next hahead => exact moved_backward hahead.le hdst le_rfl (moved_start count)
    · next hback => exact moved_forward (not_lt.mp hback) hsrc

theorem applyWithin_fault (h : ¬ (srcOff + 2 * count ≤ pts.length ∧
    dstOff + 2 * count ≤ pts.length)) :
    (m.applyWithin pts srcOff dstOff count).failure? ≠ none ∧
      (m.applyWithin pts srcOff dstOff count).buffer = pts := by
  have hroom : pts.length < max srcOff dstOff + 2 * count := by omega
  rw [applyWithin, capacityFault?, if_pos hroom]
  exact ⟨by simp, rfl⟩

end Mercator

namespace Transform

open Mercator

variable {m : Mercator α} {pts src dst buffer : List α} {srcOff dstOff count k : ℕ}

/-- A batch keeps the longitudes and replaces the latitudes. -/
theorem applyBatch_mercator (hsrc : count * 2 ≤ src.length) (hdst : count * 2 ≤ dst.length) :
    ((mercator m).applyBatch src dst count).failure? = none ∧ ∀ k < count,
      ((mercator m).applyBatch src dst count).buffer[2 * k]? = src[2 * k]? ∧
      ((mercator m).applyBatch src dst count).buffer[2 * k + 1]? =
        src[2 * k + 1]?.map m.latitudeToOrdinate := by
  have hmaps := actsPointwise_mercator m
  have hnone : ((mercator m).applyBatch src dst count).failure? = none := by
    rw [hmaps.succeeds_iff src dst count hsrc hdst]
    intro k hk
    obtain ⟨lambda, phi, -, -, hpoint⟩ := pointAt_two hsrc hk
    use [lambda, m.latitudeToOrdinate phi]
    change (mercator m).applyPoint (pointAt 2 src k) = _
    rw [hpoint, applyPoint_mercator]
  constructor
  · exact hnone
  intro k hk
  obtain ⟨lambda, phi, hlambda, hphi, hpoint⟩ := pointAt_two hsrc hk
  obtain ⟨x, y, hx, hy, himage⟩ := pointAt_two
    (by rwa [length_applyBatch (mercator m) src dst count]) hk
  have hk' := hmaps.image src dst count hsrc hdst hnone k hk
  change (mercator m).applyPoint (pointAt 2 src k) = .ok (pointAt 2 _ k) at hk'
  rw [hpoint, himage, applyPoint_mercator] at hk'
  cases hk'
  rw [hx, hy, hlambda, hphi]
  exact ⟨rfl, rfl⟩

/-- Projecting a copy moves the points too. -/
theorem copyFirst_moved (hsrc : srcOff + 2 * count ≤ pts.length)
    (hdst : dstOff + 2 * count ≤ pts.length) :
    ((mercator m).copyFirst pts srcOff dstOff count).failure? = none ∧
      Moved m pts srcOff dstOff 0 count
        ((mercator m).copyFirst pts srcOff dstOff count).buffer := by
  rw [Nat.mul_comm] at hsrc hdst
  have hsource : ((pts.drop srcOff).take (count * 2)).length = count * 2 :=
    List.length_take_of_le (by rw [List.length_drop]; omega)
  have htarget : ((pts.drop dstOff).take (count * 2)).length = count * 2 :=
    List.length_take_of_le (by rw [List.length_drop]; omega)
  obtain ⟨hnone, hpoints⟩ := applyBatch_mercator (m := m) hsource.ge htarget.ge
  have hlength := length_applyBatch (mercator m) ((pts.drop srcOff).take (count * 2))
    ((pts.drop dstOff).take (count * 2)) count
  rw [htarget] at hlength
  have hread : ∀ j < count * 2, ((pts.drop srcOff).take (count * 2))[j]? = pts[srcOff + j]? := by
    intro j hj
    rw [List.getElem?_take_of_lt hj, List.getElem?_drop]
  rw [copyFirst]
  change (Batch.within (count * 2) (count * 2) _ _ _ _).failure? = none ∧
    Moved _ _ _ _ _ _ (Batch.within (count * 2) (count * 2) _ _ _ _).buffer
  rw [Batch.within_of_capacity hsrc hdst]
  constructor
  · exact hnone
  constructor
  · exact Batch.length_splice hlength hdst
  · intro k _ hk
    rw [Batch.getElem?_splice hlength hdst, if_pos (by omega), Nat.add_sub_cancel_left,
      (hpoints k hk).1, hread _ (by omega)]
  · intro k _ hk
    rw [Batch.getElem?_splice hlength hdst, if_pos (by omega), Nat.add_assoc,
      Nat.add_sub_cancel_left, (hpoints k hk).2, hread _ (by omega), Nat.add_assoc]
  · intro i hi
    rw [Batch.getElem?_splice hlength hdst, if_neg (by omega)]

theorem copyFirst_fault (h : ¬ (srcOff + 2 * count ≤ pts.length ∧
    dstOff + 2 * count ≤ pts.length)) :
    ((mercator m).copyFirst pts srcOff dstOff count).failure? ≠ none ∧
      ((mercator m).copyFirst pts srcOff dstOff count).buffer = pts := by
  rw [Nat.mul_comm] at h
  exact Batch.within_fault h

/-- Projecting points in place succeeds exactly when projecting a copy of the source region does,
and it leaves the same buffer. A failure leaves the buffer as it was. -/
theorem applyWithin_eq_copyFirst (m : Mercator α) (pts : List α) (srcOff dstOff count : ℕ) :
    let inPlace := (mercator m).applyWithin pts srcOff dstOff count
    let copied := (mercator m).copyFirst pts srcOff dstOff count
    (inPlace.failure? = none ↔ copied.failure? = none) ∧
      inPlace.buffer = copied.buffer ∧
      (inPlace.failure? ≠ none → inPlace.buffer = pts) := by
  intro inPlace copied
  by_cases hroom : srcOff + 2 * count ≤ pts.length ∧ dstOff + 2 * count ≤ pts.length
  · obtain ⟨hinPlace, hmoved⟩ := applyWithin_moved (m := m) hroom.1 hroom.2
    obtain ⟨hcopied, hmoved'⟩ := copyFirst_moved (m := m) hroom.1 hroom.2
    refine ⟨iff_of_true hinPlace hcopied, hmoved.unique hmoved', fun hfault => ?_⟩
    exact absurd hinPlace hfault
  · obtain ⟨hinPlace, hbuffer⟩ := applyWithin_fault (m := m) hroom
    obtain ⟨hcopied, hbuffer'⟩ := copyFirst_fault (m := m) hroom
    exact ⟨iff_of_false hinPlace hcopied, hbuffer.trans hbuffer'.symm, fun _ => hbuffer⟩

end Transform

end Georeferencing
