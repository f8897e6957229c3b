import Georeferencing.Proofs.Double.Comparison
import Georeferencing.Proofs.Matrix.Copies

/-! # How the modes of comparison are related

Strict equality implies equality by contract, which is the same as ignoring metadata and implies
approximate equality, which is the same as that for debugging. All of them are reflexive and
symmetric, and those without a tolerance are transitive. Each mode relates shapes and, where both
matrices list a coefficient, the two coefficients; what holds of two doubles is carried over to
matrices, and from there to operands that may be absent.
-/

namespace Georeferencing

/-! ## Absent operands -/

section Optional

variable {β : Type} {related related' : β → β → Bool} {a b : Option β}

theorem agreeOptional_iff : agreeOptional related a b = true ↔
    a = none ∧ b = none ∨ ∃ x y, a = some x ∧ b = some y ∧ related x y = true := by
  cases a with
  | none => cases b <;> simp [agreeOptional]
  | some x => cases b <;> simp [agreeOptional]

theorem agreeOptional_refl (h : ∀ x, related x x = true) (a : Option β) :
    agreeOptional related a a = true := by
  cases a with
  | none => rfl
  | some x => exact h x

theorem agreeOptional_mono (h : ∀ x y, related x y = true → related' x y = true)
    (hab : agreeOptional related a b = true) : agreeOptional related' a b = true := by
  rw [agreeOptional_iff] at hab ⊢
  rcases hab with hnone | ⟨x, y, ha, hb, hxy⟩
  · exact .inl hnone
  · exact .inr ⟨x, y, ha, hb, h x y hxy⟩

theorem agreeOptional_comm (h : ∀ x y, related x y = true → related y x = true) (a b : Option β) :
    agreeOptional related a b = agreeOptional related b a := by
  rw [Bool.eq_iff_iff, agreeOptional_iff, agreeOptional_iff]
  constructor
  · rintro (⟨ha, hb⟩ | ⟨x, y, ha, hb, hxy⟩)
    · exact .inl ⟨hb, ha⟩
    · exact .inr ⟨y, x, hb, ha, h x y hxy⟩
  · rintro (⟨hb, ha⟩ | ⟨y, x, hb, ha, hyx⟩)
    · exact .inl ⟨ha, hb⟩
    · exact .inr ⟨x, y, ha, hb, h y x hyx⟩

theorem agreeOptional_trans {c : Option β}
    (h : ∀ x ∈ a, ∀ y ∈ b, ∀ z, related x y = true → related y z = true → related x z = true)
    (hab : agreeOptional related a b = true) (hbc : agreeOptional related b c = true) :
    agreeOptional related a c = true := by
  rw [agreeOptional_iff] at hab hbc ⊢
  rcases hab with ⟨ha, hb⟩ | ⟨x, y, ha, hb, hxy⟩
  · rcases hbc with ⟨-, hc⟩ | ⟨y, z, hb', -, -⟩
    · exact .inl ⟨ha, hc⟩
    · rw [hb] at hb'
      cases hb'
  · rcases hbc with ⟨hb', -⟩ | ⟨y', z, hb', hc, hyz⟩
    · rw [hb] at hb'
      cases hb'
    · cases Option.some.inj (hb.symm.trans hb')
      exact .inr ⟨x, z, ha, hc, h x ha y hb z hxy hyz⟩

end Optional

/-! ## Relations of coefficients -/

namespace HeldMatrix

section Relations

variable {α : Type} {r s : α → α → Prop} {a b c : HeldMatrix α}

/-- Two matrices of one shape are related wherever both of them list a coefficient. -/
@[mk_iff]
structure RelatedBy (r : α → α → Prop) (a b : HeldMatrix α) : Prop where
  numRow : a.numRow = b.numRow
  numCol : a.numCol = b.numCol
  related : ∀ (k : ℕ) (x y : α), a.elements[k]? = some x → b.elements[k]? = some y → r x y

theorem RelatedBy.refl (h : ∀ x, r x x) (m : HeldMatrix α) : RelatedBy r m m := by
  refine ⟨rfl, rfl, fun k x y hx hy => ?_⟩
  cases Option.some.inj (hx.symm.trans hy)
  exact h x

theorem RelatedBy.symm (h : ∀ x y, r x y → r y x) (hab : RelatedBy r a b) : RelatedBy r b a :=
  ⟨hab.numRow.symm, hab.numCol.symm, fun k y x hy hx => h x y (hab.related k x y hx hy)⟩

theorem RelatedBy.mono (h : ∀ x y, r x y → s x y) (hab : RelatedBy r a b) : RelatedBy s a b :=
  ⟨hab.numRow, hab.numCol, fun k x y hx hy => h x y (hab.related k x y hx hy)⟩

/-- Where the first and the last matrix list a coefficient, the one between them has to list one,
too, so the shapes must be filled. -/
theorem RelatedBy.trans (h : ∀ x y z, r x y → r y z → r x z) (ha : a.Complete) (hb : b.Complete)
    (hab : RelatedBy r a b) (hbc : RelatedBy r b c) : RelatedBy r a c := by
  refine ⟨hab.numRow.trans hbc.numRow, hab.numCol.trans hbc.numCol, fun k x z hx hz => ?_⟩
  have hk : k < b.elements.size := by
    rw [hb, ← hab.numRow, ← hab.numCol, ← ha]
    exact (Array.getElem?_eq_some_iff.mp hx).1
  have hy := Array.getElem?_eq_getElem hk
  exact h x _ z (hab.related k x _ hx hy) (hbc.related k _ z hy hz)

/-- The type that holds a matrix. For a stored one this includes the storage: the size that it is
for, if it is for one. -/
inductive Holder where
  | stored (size : Option ℕ)
  | square (n : ℕ)
  | flat
  | table
  | foreign (name : String)

def storedSize : StoredMatrix α → Option ℕ
  | .small n _ _ => some n
  | .flat _ => none

def holder : HeldMatrix α → Holder
  | stored m => .stored (storedSize m)
  | square n _ => .square n
  | flat _ => .flat
  | table _ => .table
  | foreign m => .foreign m.name

theorem sameWords_iff [BitPattern α] {x y : Array α} : sameWords x y = true ↔
    ∀ (k : ℕ) (e f : α), x[k]? = some e → y[k]? = some f → BitPattern.same e f = true :=
  all_zip_iff

theorem same_stored_iff [BitPattern α] {x y : StoredMatrix α} :
    (stored x).same (stored y) = true ↔ (stored x).holder = (stored y).holder ∧
      RelatedBy (fun e f => BitPattern.same e f = true) (stored x) (stored y) := by
  cases x with
  | small n hn x =>
    cases y with
    | small m hm y =>
      rw [same]
      change (n == m && sameWords x.elements.toArray y.elements.toArray) = true ↔ _
      rw [Bool.and_eq_true, beq_iff_eq, sameWords_iff, relatedBy_iff, holder, holder, storedSize,
        storedSize, Holder.stored.injEq, Option.some_inj]
      simp only [numRow, numCol, elements, StoredMatrix.numRow, StoredMatrix.numCol,
        StoredMatrix.elements]
      tauto
    | flat y =>
      apply iff_of_false Bool.false_ne_true
      rintro ⟨h, -⟩
      exact Option.some_ne_none n (Holder.stored.inj h)
  | flat x =>
    cases y with
    | small m hm y =>
      apply iff_of_false Bool.false_ne_true
      rintro ⟨h, -⟩
      exact Option.some_ne_none m (Holder.stored.inj h).symm
    | flat y =>
      rw [same]
      change (x.numRow == y.numRow && x.numCol == y.numCol && sameWords x.elements y.elements) =
        true ↔ _
      rw [Bool.and_eq_true, Bool.and_eq_true, beq_iff_eq, beq_iff_eq, sameWords_iff, relatedBy_iff,
        holder, holder, storedSize, storedSize]
      simp only [numRow, numCol, elements, StoredMatrix.numRow, StoredMatrix.numCol,
        StoredMatrix.elements]
      tauto

theorem sameHolder_iff (h : ¬ ∃ x y, a = stored x ∧ b = stored y) :
    a.sameHolder b = true ↔ a.holder = b.holder := by
  cases a <;> cases b <;> simp_all [sameHolder, holder]

/-- Strict equality asks for the same holder, the same shape and the same bits. -/
theorem same_iff [BitPattern α] : a.same b = true ↔
    a.holder = b.holder ∧ RelatedBy (fun e f => BitPattern.same e f = true) a b := by
  by_cases hstored : ∃ x y, a = stored x ∧ b = stored y
  · obtain ⟨x, y, rfl, rfl⟩ := hstored
    exact same_stored_iff
  · have hsame : a.same b = (a.sameHolder b && a.numRow == b.numRow && a.numCol == b.numCol &&
        sameWords a.elements b.elements) := by
      rw [same]
      rintro x y rfl rfl
      exact hstored ⟨x, y, rfl, rfl⟩
    rw [hsame, Bool.and_eq_true, Bool.and_eq_true, Bool.and_eq_true, beq_iff_eq, beq_iff_eq,
      sameHolder_iff hstored, sameWords_iff, relatedBy_iff, and_assoc, and_assoc]

end Relations

/-! ## Matrices of doubles -/

section Double

open Double

variable {a b c : HeldMatrix Float} {epsilon epsilon' : Float} {relative : Bool}

theorem equalWithin_iff_relatedBy : a.equalWithin epsilon relative b = true ↔
    RelatedBy (fun x y => Scalar.equalWithin epsilon relative x y = true) a b := by
  rw [equalWithin_iff_listed, relatedBy_iff, CloseWhereListed]

theorem same_iff_eq : a.same b = true ↔ a.holder = b.holder ∧ RelatedBy Eq a b := by
  simp only [same_iff, Double.same_iff]

theorem equalWithin_zero_iff : a.equalWithin 0 false b = true ↔ RelatedBy Like a b := by
  simp only [equalWithin_iff_relatedBy, Double.equalWithin_zero_iff]

theorem same_refl (m : HeldMatrix Float) : m.same m = true :=
  same_iff_eq.mpr ⟨rfl, .refl (fun _ => rfl) m⟩

theorem same_symm (h : a.same b = true) : b.same a = true := by
  rw [same_iff_eq] at h ⊢
  exact ⟨h.1.symm, h.2.symm fun _ _ => Eq.symm⟩

theorem same_trans (ha : a.Complete) (hb : b.Complete) (hab : a.same b = true)
    (hbc : b.same c = true) : a.same c = true := by
  rw [same_iff_eq] at hab hbc ⊢
  exact ⟨hab.1.trans hbc.1, hab.2.trans (fun _ _ _ => Eq.trans) ha hb hbc.2⟩

theorem equalWithin_zero_of_same (h : a.same b = true) : a.equalWithin 0 false b = true := by
  rw [equalWithin_zero_iff]
  refine (same_iff_eq.mp h).2.mono ?_
  rintro x _ rfl
  exact .refl x

theorem equalWithin_zero_trans (ha : a.Complete) (hb : b.Complete)
    (hab : a.equalWithin 0 false b = true) (hbc : b.equalWithin 0 false c = true) :
    a.equalWithin 0 false c = true := by
  rw [equalWithin_zero_iff] at hab hbc ⊢
  exact hab.trans (fun _ _ _ => Like.trans) ha hb hbc

theorem equalWithin_symm (h : a.equalWithin epsilon relative b = true) :
    b.equalWithin epsilon relative a = true := by
  rw [equalWithin_iff_relatedBy] at h ⊢
  exact h.symm fun _ _ => Double.equalWithin_symm

theorem equalWithin_mono (hfinite : Scalar.isFinite epsilon = true)
    (hfinite' : Scalar.isFinite epsilon' = true) (hle : epsilon ≤ epsilon')
    (h : a.equalWithin epsilon relative b = true) : a.equalWithin epsilon' relative b = true := by
  rw [equalWithin_iff_relatedBy] at h ⊢
  exact h.mono fun _ _ => Double.equalWithin_mono hfinite hfinite' hle

/-- What is equal if nothing is tolerated is equal within a relative tolerance. -/
theorem equalWithin_relative_of_zero (hfinite : Scalar.isFinite epsilon = true)
    (hnonneg : 0 ≤ epsilon) (h : a.equalWithin 0 false b = true) :
    a.equalWithin epsilon true b = true := by
  rw [equalWithin_zero_iff] at h
  rw [equalWithin_iff_relatedBy]
  exact h.mono fun _ _ hlike =>
    Double.equalWithin_mono isFinite_zero hfinite hnonneg (equalWithin_of_like true hlike)

end Double

end HeldMatrix

/-! ## The modes -/

namespace Strictness

variable {a b c : Option (HeldMatrix Float)}

theorem isFinite_threshold : Scalar.isFinite (threshold : Float) = true := by decide +kernel

theorem threshold_nonneg : 0 ≤ (threshold : Float) := by decide +kernel

theorem byContract_of_strict (h : strict.equal a b = true) : byContract.equal a b = true :=
  agreeOptional_mono (fun _ _ => HeldMatrix.equalWithin_zero_of_same) h

theorem approximate_of_byContract (h : byContract.equal a b = true) :
    approximate.equal a b = true :=
  agreeOptional_mono
    (fun _ _ => HeldMatrix.equalWithin_relative_of_zero isFinite_threshold threshold_nonneg) h

theorem equal_refl (mode : Strictness) (a : Option (HeldMatrix Float)) :
    mode.equal a a = true := by
  have hstrict : strict.equal a a = true := agreeOptional_refl HeldMatrix.same_refl a
  have hcontract := byContract_of_strict hstrict
  cases mode with
  | strict => exact hstrict
  | byContract | ignoreMetadata => exact hcontract
  | approximate | debug => exact approximate_of_byContract hcontract

theorem equal_comm (mode : Strictness) (a b : Option (HeldMatrix Float)) :
    mode.equal a b = mode.equal b a := by
  cases mode with
  | strict => exact agreeOptional_comm (fun _ _ => HeldMatrix.same_symm) a b
  | byContract | ignoreMetadata | approximate | debug =>
    exact agreeOptional_comm (fun _ _ => HeldMatrix.equalWithin_symm) a b

theorem equal_trans {mode : Strictness} (hmode : mode = strict ∨ mode = byContract)
    (ha : ∀ m ∈ a, m.Complete) (hb : ∀ m ∈ b, m.Complete) (hab : mode.equal a b = true)
    (hbc : mode.equal b c = true) : mode.equal a c = true := by
  rcases hmode with rfl | rfl
  · exact agreeOptional_trans
      (fun x hx y hy _ => HeldMatrix.same_trans (ha x hx) (hb y hy)) hab hbc
  · exact agreeOptional_trans
      (fun x hx y hy _ => HeldMatrix.equalWithin_zero_trans (ha x hx) (hb y hy)) hab hbc

/-- The modes of comparison are nested, and all of them are reflexive and symmetric. Those without a
tolerance are also transitive on matrices that list all their coefficients. A comparison within a
tolerance is symmetric whatever the tolerance, and accepts more if a finite tolerance is raised to
another finite one. -/
theorem equal_laws (a b c : Option (HeldMatrix Float)) :
    (strict.equal a b = true → byContract.equal a b = true) ∧
      byContract.equal a b = ignoreMetadata.equal a b ∧
      (byContract.equal a b = true → approximate.equal a b = true) ∧
      approximate.equal a b = debug.equal a b ∧
      (∀ mode : Strictness, mode.equal a a = true ∧ mode.equal a b = mode.equal b a) ∧
      ((∀ m ∈ a, m.Complete) → (∀ m ∈ b, m.Complete) →
        ∀ mode, mode = strict ∨ mode = byContract →
          mode.equal a b = true → mode.equal b c = true → mode.equal a c = true) ∧
      (∀ (epsilon : Float) (relative : Bool),
        agreeOptional (HeldMatrix.equalWithin epsilon relative) a b =
          agreeOptional (HeldMatrix.equalWithin epsilon relative) b a) ∧
      (∀ (epsilon epsilon' : Float) (relative : Bool), Scalar.isFinite epsilon = true →
        Scalar.isFinite epsilon' = true → epsilon ≤ epsilon' →
          agreeOptional (HeldMatrix.equalWithin epsilon relative) a b = true →
            agreeOptional (HeldMatrix.equalWithin epsilon' relative) a b = true) := by
  refine ⟨byContract_of_strict, rfl, approximate_of_byContract, rfl,
    fun mode => ⟨equal_refl mode a, equal_comm mode a b⟩, ?_, ?_, ?_⟩
  · intro ha hb mode hmode hab hbc
    exact equal_trans hmode ha hb hab hbc
  · intro epsilon relative
    exact agreeOptional_comm (fun _ _ => HeldMatrix.equalWithin_symm) a b
  · intro epsilon epsilon' relative hfinite hfinite' hle
    exact agreeOptional_mono fun _ _ => HeldMatrix.equalWithin_mono hfinite hfinite' hle

/-- Zeros of both signs, an infinity and something that is not a number, held by three types.
Equality by contract accepts all of them, strict equality only the same matrix, and what a tolerance
of zero accepts is accepted by a relative tolerance of one. -/
theorem equal_laws_special :
    let a : Option (HeldMatrix Float) := some (.flat ⟨1, 3, #[0, Scalar.infinity, Scalar.nan]⟩)
    let b : Option (HeldMatrix Float) :=
      some (.stored (.flat ⟨1, 3, #[-0, Scalar.infinity, Scalar.nan]⟩))
    let c : Option (HeldMatrix Float) :=
      some (.foreign ⟨"Row", 1, 3, #[0, Scalar.infinity, Scalar.nan], fun _ _ => .ok 0⟩)
    strict.equal a b = false ∧ byContract.equal a b = true ∧ byContract.equal a c = true ∧
      approximate.equal a b = true ∧ byContract.equal c c = true ∧
      agreeOptional (HeldMatrix.equalWithin 1 true) b b = true := by
  intro a b c
  have ha : ∀ m ∈ a, m.Complete := by
    intro m hm
    cases Option.some.inj hm
    rfl
  have hb : ∀ m ∈ b, m.Complete := by
    intro m hm
    cases Option.some.inj hm
    rfl
  have hab : byContract.equal a b = true := by decide +kernel
  have hbc : byContract.equal b c = true := by decide +kernel
  obtain ⟨-, -, happroximate, -, -, htrans, -, -⟩ := equal_laws a b c
  obtain ⟨hcontract, -⟩ := equal_laws c c c
  obtain ⟨-, -, -, -, -, -, -, hmono⟩ := equal_laws b b b
  refine ⟨by decide +kernel, hab, ?_, happroximate hab, hcontract (by decide +kernel), ?_⟩
  · exact htrans ha hb byContract (.inr rfl) hab hbc
  · exact hmono 0 1 true (by decide +kernel) (by decide +kernel) (by decide +kernel)
      (by decide +kernel)

end Strictness

end Georeferencing
