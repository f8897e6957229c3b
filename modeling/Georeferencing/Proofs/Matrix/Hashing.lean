import Georeferencing.Proofs.Matrix.Strictness

/-! # Equality and hashing

Equality of stored matrices reads two arrays as far as both of them go, and a hash function is fed
with words one after the other. That neither of them confuses two matrices is owed to the number of
coefficients, which the shape determines: matrices of one shape have arrays of one length. So both
come down to one fingerprint, and a set of matrices has a member for each fingerprint.
-/

namespace Georeferencing

/-- A matrix whose coefficients fill its shape, its rows and its columns being counted by a word. -/
structure ProperMatrix (α : Type) where
  matrix : StoredMatrix α
  consistent : matrix.Consistent
  numRow_lt : matrix.numRow < UInt64.size
  numCol_lt : matrix.numCol < UInt64.size

/-- What tells matrices apart: the storage, the shape, and the bits of all coefficients. -/
structure Fingerprint where
  storedSize : Option ℕ
  numRow : ℕ
  numCol : ℕ
  bits : List UInt64
deriving DecidableEq

variable {α : Type} [BitPattern α]

def StoredMatrix.fingerprint (m : StoredMatrix α) : Fingerprint :=
  ⟨HeldMatrix.storedSize m, m.numRow, m.numCol, m.elements.toList.map BitPattern.bits⟩

section Words

theorem all_zip_same_iff {x y : List α} (h : x.length = y.length) :
    ((x.zip y).all fun (e, f) => BitPattern.same e f) = true ↔
      x.map BitPattern.bits = y.map BitPattern.bits := by
  induction x generalizing y with
  | nil =>
    cases y with
    | nil => simp
    | cons f y => cases h
  | cons e x ih =>
    cases y with
    | nil => cases h
    | cons f y =>
      rw [List.zip_cons_cons, List.all_cons, Bool.and_eq_true, ih (Nat.succ.inj h), List.map_cons,
        List.map_cons, List.cons.injEq]
      exact and_congr_left' beq_iff_eq

/-- Arrays of one length are compared to their end. -/
theorem sameWords_iff_bits {x y : Array α} (h : x.size = y.size) :
    sameWords x y = true ↔ x.toList.map BitPattern.bits = y.toList.map BitPattern.bits :=
  all_zip_same_iff h

theorem ofNat_inj_of_lt {n k : ℕ} (hn : n < UInt64.size) (hk : k < UInt64.size) :
    UInt64.ofNat n = UInt64.ofNat k ↔ n = k := by
  rw [← UInt64.toNat_inj, UInt64.toNat_ofNat', UInt64.toNat_ofNat', Nat.mod_eq_of_lt hn,
    Nat.mod_eq_of_lt hk]

end Words

namespace StoredMatrix

variable {a b : StoredMatrix α}

/-- Equality looks at the fingerprint: no difference is behind the end of the shorter array. -/
theorem beq_iff_fingerprint (ha : a.Consistent) (hb : b.Consistent) :
    (a == b) = true ↔ a.fingerprint = b.fingerprint := by
  have hbeq : (a == b) = true ↔ (HeldMatrix.stored a).holder = (HeldMatrix.stored b).holder ∧
      HeldMatrix.RelatedBy (fun e f => BitPattern.same e f = true) (.stored a) (.stored b) :=
    HeldMatrix.same_stored_iff
  rw [hbeq, HeldMatrix.relatedBy_iff, ← HeldMatrix.sameWords_iff, HeldMatrix.holder,
    HeldMatrix.holder, HeldMatrix.Holder.stored.injEq, fingerprint, fingerprint,
    Fingerprint.mk.injEq]
  change _ ∧ a.numRow = b.numRow ∧ a.numCol = b.numCol ∧ sameWords a.elements b.elements = true ↔ _
  refine and_congr_right fun _ => and_congr_right fun hrow => and_congr_right fun hcol => ?_
  apply sameWords_iff_bits
  rw [ha, hb, hrow, hcol]

/-- The word of a small size is not that of a flat array, and tells the sizes apart. -/
theorem sizeWord_inj {n k : ℕ} (hn : IsSmall n) (hk : IsSmall k) :
    UInt64.ofNat (n - 1) ≠ 4 ∧ (UInt64.ofNat (n - 1) = UInt64.ofNat (k - 1) ↔ n = k) := by
  obtain ⟨hn, hn'⟩ := hn
  obtain ⟨hk, hk'⟩ := hk
  have hlt : ∀ l ≤ 4, l < UInt64.size := fun l hl => hl.trans_lt (by decide)
  have hfour : (4 : UInt64) = UInt64.ofNat 4 := rfl
  constructor
  · rw [hfour, ne_eq, ofNat_inj_of_lt (hlt _ (by omega)) (hlt 4 le_rfl)]
    omega
  · rw [ofNat_inj_of_lt (hlt _ (by omega)) (hlt _ (by omega))]
    omega

/-- The words that are fed to a hash function tell fingerprints apart: the first one gives the
storage, then come the bits of as many coefficients as this asks for, or a shape and bits. -/
theorem hashWords_eq_iff (har : a.numRow < UInt64.size) (hac : a.numCol < UInt64.size)
    (hbr : b.numRow < UInt64.size) (hbc : b.numCol < UInt64.size) :
    a.hashWords = b.hashWords ↔ a.fingerprint = b.fingerprint := by
  have hrow := ofNat_inj_of_lt har hbr
  have hcol := ofNat_inj_of_lt hac hbc
  rw [fingerprint, fingerprint, Fingerprint.mk.injEq]
  cases a with
  | small n hn x =>
    cases b with
    | small k hk y =>
      change UInt64.ofNat (n - 1) :: _ = UInt64.ofNat (k - 1) :: _ ↔
        some n = some k ∧ n = k ∧ n = k ∧ _
      rw [List.cons.injEq, (sizeWord_inj hn hk).2, Option.some_inj, ← and_assoc, ← and_assoc,
        and_self, and_self]
      rfl
    | flat y =>
      apply iff_of_false
      · exact fun h => (sizeWord_inj hn hn).1 (List.cons.inj h).1
      · exact fun h => nomatch h.1
  | flat x =>
    cases b with
    | small k hk y =>
      apply iff_of_false
      · exact fun h => (sizeWord_inj hk hk).1 (List.cons.inj h).1.symm
      · exact fun h => nomatch h.1
    | flat y =>
      rw [hashWords, hashWords, List.cons.injEq, List.cons.injEq, List.cons.injEq]
      exact and_congr (iff_of_true rfl rfl) (and_congr hrow (and_congr hcol Iff.rfl))

end StoredMatrix

/-! ## Sets of matrices -/

section Keys

variable {σ ι κ : Type} [DecidableEq κ]

/-- If adding an element adds its key, then adding all elements of a list adds all their keys. -/
theorem foldl_keys {Holds : σ → Finset κ → Prop} {add : σ → ι → σ} {key : ι → κ}
    (step : ∀ s keys i, Holds s keys → Holds (add s i) (insert (key i) keys)) (is : List ι) {s : σ}
    {keys : Finset κ} (h : Holds s keys) :
    Holds (is.foldl add s) ((is.map key).toFinset ∪ keys) := by
  induction is generalizing s keys with
  | nil =>
    rw [List.map_nil, List.toFinset_nil, Finset.empty_union]
    exact h
  | cons i is ih =>
    have hrest := ih (step s keys i h)
    rwa [Finset.union_insert, ← Finset.insert_union, ← List.toFinset_cons] at hrest

end Keys

namespace ProperMatrix

def fingerprint (m : ProperMatrix α) : Fingerprint := m.matrix.fingerprint

instance : BEq (ProperMatrix α) := ⟨fun a b => a.matrix == b.matrix⟩

variable {a b c : ProperMatrix α}

theorem beq_iff : (a == b) = true ↔ a.fingerprint = b.fingerprint :=
  StoredMatrix.beq_iff_fingerprint a.consistent b.consistent

theorem hashWords_eq_iff :
    a.matrix.hashWords = b.matrix.hashWords ↔ a.fingerprint = b.fingerprint :=
  StoredMatrix.hashWords_eq_iff a.numRow_lt a.numCol_lt b.numRow_lt b.numCol_lt

instance : EquivBEq (ProperMatrix α) where
  symm h := beq_iff.mpr (beq_iff.mp h).symm
  trans h h' := beq_iff.mpr ((beq_iff.mp h).trans (beq_iff.mp h'))
  rfl := beq_iff.mpr rfl

/-- A listed set of matrices none of which is there twice: its keys are their fingerprints. -/
structure Lists (seen : List (StoredMatrix α)) (keys : Finset Fingerprint) : Prop where
  proper : ∀ s ∈ seen, ∃ m : ProperMatrix α, m.matrix = s
  nodup : (seen.map StoredMatrix.fingerprint).Nodup
  keys_eq : (seen.map StoredMatrix.fingerprint).toFinset = keys

theorem Lists.any_iff {seen : List (StoredMatrix α)} {keys : Finset Fingerprint}
    (h : Lists seen keys) (m : ProperMatrix α) :
    (seen.any fun s => s.hashWords == m.matrix.hashWords && s == m.matrix) = true ↔
      m.fingerprint ∈ keys := by
  rw [List.any_eq_true, ← h.keys_eq, List.mem_toFinset, List.mem_map]
  refine exists_congr fun s => and_congr_right fun hs => ?_
  obtain ⟨k, rfl⟩ := h.proper s hs
  rw [Bool.and_eq_true, beq_iff_eq, hashWords_eq_iff]
  change _ ∧ (k == m) = true ↔ k.fingerprint = m.fingerprint
  rw [beq_iff, and_self]

theorem Lists.insertDistinct {seen : List (StoredMatrix α)} {keys : Finset Fingerprint}
    (m : ProperMatrix α) (h : Lists seen keys) :
    Lists (StoredMatrix.insertDistinct seen m.matrix) (insert m.fingerprint keys) := by
  by_cases hm : m.fingerprint ∈ keys
  · rw [StoredMatrix.insertDistinct, if_pos ((h.any_iff m).mpr hm), Finset.insert_eq_of_mem hm]
    exact h
  rw [StoredMatrix.insertDistinct, if_neg fun hany => hm ((h.any_iff m).mp hany)]
  have hnew : m.matrix.fingerprint ∉ seen.map StoredMatrix.fingerprint := by
    rwa [← List.mem_toFinset, h.keys_eq]
  constructor
  case proper => exact List.forall_mem_cons.mpr ⟨⟨m, rfl⟩, h.proper⟩
  case nodup => exact List.nodup_cons.mpr ⟨hnew, h.nodup⟩
  case keys_eq =>
    rw [List.map_cons, List.toFinset_cons, h.keys_eq]
    rfl

theorem countDistinct_eq (ms : List (ProperMatrix α)) :
    StoredMatrix.countDistinct (ms.map matrix) = (ms.map fingerprint).toFinset.card := by
  have hrun := foldl_keys (fun seen keys m => Lists.insertDistinct m) ms
    (⟨by simp, List.nodup_nil, rfl⟩ : Lists ([] : List (StoredMatrix α)) ∅)
  rw [Finset.union_empty] at hrun
  rw [StoredMatrix.countDistinct, List.foldl_map, ← hrun.keys_eq,
    List.toFinset_card_of_nodup hrun.nodup, List.length_map]

/-- The hash that a hash function makes of the words of a matrix. -/
@[reducible]
def hashable (hasher : List UInt64 → UInt64) : Hashable (ProperMatrix α) :=
  ⟨fun m => hasher m.matrix.hashWords⟩

theorem lawfulHashable (hasher : List UInt64 → UInt64) :
    @LawfulHashable (ProperMatrix α) _ (hashable hasher) :=
  @LawfulHashable.mk _ _ (hashable hasher) fun _ _ h =>
    congrArg hasher (hashWords_eq_iff.mpr (beq_iff.mp h))

/-- A hash set of matrices, to which the listed ones are added one after the other. -/
def hashSet (hasher : List UInt64 → UInt64) (ms : List (ProperMatrix α)) :
    @Std.HashSet (ProperMatrix α) _ (hashable hasher) :=
  ms.foldl (fun s m => @Std.HashSet.insert _ _ (hashable hasher) s m)
    (@Std.HashSet.emptyWithCapacity _ _ (hashable hasher) 0)

theorem size_hashSet (hasher : List UInt64 → UInt64) (ms : List (ProperMatrix α)) :
    (hashSet hasher ms).size = (ms.map fingerprint).toFinset.card := by
  let := hashable (α := α) hasher
  have := lawfulHashable (α := α) hasher
  let Holds (s : Std.HashSet (ProperMatrix α)) (keys : Finset Fingerprint) : Prop :=
    s.size = keys.card ∧ ∀ m, m ∈ s ↔ m.fingerprint ∈ keys
  have hstart : Holds (Std.HashSet.emptyWithCapacity 0) ∅ :=
    ⟨Std.HashSet.size_emptyWithCapacity, fun m => by simp⟩
  have hstep : ∀ s keys m, Holds s keys → Holds (s.insert m) (insert m.fingerprint keys) := by
    rintro s keys m ⟨hsize, hmem⟩
    constructor
    · rw [Std.HashSet.size_insert, hsize, Finset.card_insert_eq_ite]
      exact if_congr (hmem m) rfl rfl
    · intro k
      rw [Std.HashSet.mem_insert, beq_iff, hmem, Finset.mem_insert, eq_comm]
  have hrun := foldl_keys hstep ms hstart
  rw [Finset.union_empty] at hrun
  exact hrun.1

/-- Equality is that of storage, shape and bits, as is equality of the words that are hashed, and a
set of matrices has a member for each storage, shape and bits that are listed. -/
theorem equality_hashing_spec :
    (∀ a b : ProperMatrix α,
      ((a.matrix == b.matrix) = true ↔
        HeldMatrix.storedSize a.matrix = HeldMatrix.storedSize b.matrix ∧
          a.matrix.numRow = b.matrix.numRow ∧ a.matrix.numCol = b.matrix.numCol ∧
          a.matrix.elements.toList.map BitPattern.bits =
            b.matrix.elements.toList.map BitPattern.bits) ∧
      ((a.matrix == b.matrix) = true ↔ a.matrix.hashWords = b.matrix.hashWords)) ∧
    Equivalence (fun a b : ProperMatrix α => (a.matrix == b.matrix) = true) ∧
    ∀ ms : List (ProperMatrix α),
      StoredMatrix.countDistinct (ms.map matrix) = (ms.map fingerprint).toFinset.card ∧
      ∀ hasher : List UInt64 → UInt64,
        (hashSet hasher ms).size = (ms.map fingerprint).toFinset.card := by
  refine ⟨fun a b => ⟨?_, ?_⟩, ?_, fun ms => ⟨countDistinct_eq ms, fun h => size_hashSet h ms⟩⟩
  · exact beq_iff.trans (Fingerprint.mk.injEq _ _ _ _ _ _ _ _).to_iff
  · exact beq_iff.trans hashWords_eq_iff.symm
  · exact ⟨fun a => beq_iff.mpr rfl, fun h => beq_iff.mpr (beq_iff.mp h).symm,
      fun h h' => beq_iff.mpr ((beq_iff.mp h).trans (beq_iff.mp h'))⟩

/-- Values that are not numbers are equal to themselves; the sign of a zero, the storage and the
shape tell matrices apart that are listed alike, even where all hashes collide. -/
theorem equality_hashing_spec_alike :
    let turn : ProperMatrix Float :=
      ⟨.small 2 (by decide) (.of2 0 (-1) 1 0), rfl, by decide, by decide⟩
    let signed : ProperMatrix Float :=
      ⟨.small 2 (by decide) (.of2 (-0) (-1) 1 0), rfl, by decide, by decide⟩
    let loose : ProperMatrix Float := ⟨.flat ⟨2, 2, #[0, -1, 1, 0]⟩, rfl, by decide, by decide⟩
    let wide : ProperMatrix Float :=
      ⟨.flat ⟨2, 3, #[Scalar.nan, 1, 2, 3, 4, Scalar.infinity]⟩, rfl, by decide, by decide⟩
    let tall : ProperMatrix Float :=
      ⟨.flat ⟨3, 2, #[Scalar.nan, 1, 2, 3, 4, Scalar.infinity]⟩, rfl, by decide, by decide⟩
    (wide.matrix == wide.matrix) = true ∧ ¬ (wide.matrix == tall.matrix) = true ∧
      turn.matrix.hashWords ≠ signed.matrix.hashWords ∧
      turn.matrix.hashWords ≠ loose.matrix.hashWords ∧
      (hashSet (fun _ => 0) [turn, signed, loose, wide, tall, wide]).size = 5 := by
  intro turn signed loose wide tall
  obtain ⟨hpairs, hequivalence, hsets⟩ := equality_hashing_spec (α := Float)
  refine ⟨hequivalence.refl wide, ?_, ?_, ?_, ?_⟩
  · rw [(hpairs wide tall).1]
    rintro ⟨-, hrow, -⟩
    exact absurd hrow (by decide)
  · rw [ne_eq, ← (hpairs turn signed).2, (hpairs turn signed).1]
    rintro ⟨-, -, -, hbits⟩
    exact absurd hbits (by decide +kernel)
  · rw [ne_eq, ← (hpairs turn loose).2, (hpairs turn loose).1]
    rintro ⟨hsize, -⟩
    exact absurd hsize (by decide)
  · rw [(hsets _).2]
    decide +kernel

end ProperMatrix

end Georeferencing
