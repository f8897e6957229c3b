import Georeferencing.Projection.MapProjection
import Georeferencing.Proofs.Matrix.Storage
import Georeferencing.Proofs.Transform.Dimensions

/-! # Sessions

Matrices and transforms are made one after the other, from data or from what has been made before.
However long this goes on, every matrix, also one inside of a transform, has all its coefficients
and the storage that its shape asks for.
-/

namespace Georeferencing

namespace Transform

variable {α : Type}

/-- The matrices that a transform works with: that of a matrix step, those of the steps of a chain,
and those of the inverse that a transform from outside comes with. -/
inductive Holds : Transform α → StoredMatrix α → Prop where
  | linear (t : Projective α) : Holds (linear t) t.matrix
  | step {steps : List (Transform α)} {step : Transform α} {m : StoredMatrix α}
    (hstep : step ∈ steps) (h : Holds step m) : Holds (chain steps) m
  | inverse {t : ExternalTransform α} {u : Transform α} {m : StoredMatrix α} (h : Holds u m) :
    Holds (external t (.ok u)) m

/-- Every matrix is held in the storage that its shape asks for. -/
def Canonical (t : Transform α) : Prop := ∀ m, t.Holds m → m.Canonical

variable {steps : List (Transform α)}

theorem canonical_linear_iff {t : Projective α} : (linear t).Canonical ↔ t.matrix.Canonical := by
  constructor
  · intro h
    exact h t.matrix (.linear t)
  · intro h m hm
    cases hm
    exact h

theorem canonical_mercator (m : Mercator α) : (mercator m).Canonical := by
  intro x hx
  cases hx

theorem canonical_inverseMercator (m : Mercator α) : (inverseMercator m).Canonical := by
  intro x hx
  cases hx

theorem canonical_chain_iff : (chain steps).Canonical ↔ ∀ step ∈ steps, step.Canonical := by
  constructor
  · intro h step hstep m hm
    exact h m (.step hstep hm)
  · intro h m hm
    cases hm with
    | step hstep hm => exact h _ hstep m hm

theorem canonical_external_iff {t : ExternalTransform α}
    {back : Except (TransformError α) (Transform α)} :
    (external t back).Canonical ↔ ∀ u, back = .ok u → u.Canonical := by
  constructor
  · rintro h u rfl m hm
    exact h m (.inverse hm)
  · intro h m hm
    cases hm with
    | inverse hm => exact h _ rfl m hm

variable [Scalar α]

theorem canonical_identity (dimension : ℕ) :
    (linear (.identity dimension) : Transform α).Canonical :=
  canonical_linear_iff.mpr (StoredMatrix.canonical_ofBlock _)

mutual

/-- Inverting a transform inverts its matrices, and an inverse is stored as its shape asks for. -/
theorem Canonical.inverse : ∀ {t u : Transform α}, t.Canonical → t.inverse = .ok u → u.Canonical
  | linear t, u, _, hu => by
    rw [Transform.inverse] at hu
    obtain ⟨back, hback, hu⟩ := bind_eq_ok.mp hu
    obtain ⟨m, hm, hback⟩ := bind_eq_ok.mp (TransformError.ofMatrix_eq_ok.mp hback)
    cases hback
    cases hu
    exact canonical_linear_iff.mpr (StoredMatrix.canonical_inverse hm)
  | mercator m, u, _, hu => by
    rw [Transform.inverse] at hu
    cases hu
    exact canonical_inverseMercator m
  | inverseMercator m, u, _, hu => by
    rw [Transform.inverse] at hu
    cases hu
    exact canonical_mercator m
  | external t back, u, h, hu => by
    rw [Transform.inverse] at hu
    exact canonical_external_iff.mp h u hu
  | chain steps, u, h, hu => by
    rw [Transform.inverse] at hu
    obtain ⟨back, hback, hu⟩ := bind_eq_ok.mp hu
    cases hu
    exact canonical_chain_iff.mpr (canonical_inverseSteps (canonical_chain_iff.mp h) hback)

theorem canonical_inverseSteps : ∀ {steps back : List (Transform α)},
    (∀ step ∈ steps, step.Canonical) → inverseSteps steps = .ok back →
      ∀ step ∈ back, step.Canonical
  | [], back, _, hback => by
    rw [inverseSteps] at hback
    cases hback
    simp
  | step :: rest, back, h, hback => by
    rw [List.forall_mem_cons] at h
    rw [inverseSteps] at hback
    obtain ⟨later, hlater, hback⟩ := bind_eq_ok.mp hback
    obtain ⟨first, hfirst, hback⟩ := bind_eq_ok.mp hback
    cases hback
    rw [List.forall_mem_append, List.forall_mem_singleton]
    exact ⟨canonical_inverseSteps h.2 hlater, h.1.inverse hfirst⟩

end

theorem canonical_ofKept {dimension : ℕ} (h : ∀ step ∈ steps, step.Canonical) :
    (ofKept dimension steps).Canonical := by
  unfold ofKept
  split
  · exact canonical_identity dimension
  · next step => exact h step (List.mem_singleton_self _)
  · exact canonical_chain_iff.mpr h

/-- A concatenation holds given matrices and their products. -/
theorem canonical_concatenate {t : Transform α} (h : concatenate steps = .ok t)
    (hsteps : ∀ step ∈ steps, step.Canonical) : t.Canonical := by
  obtain ⟨-, kept, hkept, rfl⟩ := concatenate_eq_ok.mp h
  apply canonical_ofKept
  apply keptSteps_forall _ hkept hsteps
  intro first second product _ _ hproduct
  exact canonical_linear_iff.mpr (StoredMatrix.canonical_mul hproduct)

end Transform

theorem Projective.matrix_of_ofMatrix {α : Type} {m : StoredMatrix α} {p : Projective α}
    (h : ofMatrix m = .ok p) : p.matrix = m := by
  unfold ofMatrix at h
  split at h
  · cases h
  · cases h
    rfl

theorem MapProjection.canonical_steps {α : Type} [Scalar α] [Elementary α]
    {p : ProjectionParameters α} {map : MapProjection α} (h : mercator p = .ok map) :
    map.transform.Canonical ∧ ∀ step ∈ map.steps, step.Canonical := by
  obtain ⟨_, -, h⟩ := bind_eq_ok.mp h
  obtain ⟨factor, -, h⟩ := bind_eq_ok.mp h
  obtain ⟨t, ht, h⟩ := bind_eq_ok.mp h
  cases h
  have hsteps : ∀ step ∈ [Transform.linear p.normalize, .mercator p.kernel,
      .linear (p.denormalize factor)], step.Canonical := by
    simp only [List.forall_mem_cons, List.not_mem_nil, false_imp_iff, implies_true, and_true]
    exact ⟨Transform.canonical_linear_iff.mpr trivial, Transform.canonical_mercator _,
      Transform.canonical_linear_iff.mpr trivial⟩
  exact ⟨Transform.canonical_concatenate ht hsteps, hsteps⟩

/-! ## What is made in a session -/

namespace Session

/-- Something that has been made. -/
inductive Value (α : Type) where
  | matrix (m : StoredMatrix α)
  | transform (t : Transform α)

/-- A way to make something. A place is that of a value made before; a matrix is not changed where
it stands, but the changed one is made beside it. -/
inductive Operation (α : Type) where
  | make (source : MatrixSource α)
  | change (place : ℕ) (how : MatrixChange α)
  /-- The matrix of a matrix transform. -/
  | matrixOf (place : ℕ)
  | identity (dimension : ℕ)
  | ofGeoTransform (g : Projective.GeoTransform α)
  | ofMatrix (place : ℕ)
  | andThen (first second : ℕ)
  | mercator (m : Mercator α)
  /-- A transform from outside, whose inverse is refused or has been made before. -/
  | external (t : ExternalTransform α) (inverse : Except (TransformError α) ℕ)
  | invert (place : ℕ)
  | concatenate (places : List ℕ)
  /-- A map projection, and its three steps. -/
  | mapProjection (p : ProjectionParameters α)

variable {α : Type} {values : List (Value α)} {place : ℕ}

def matrixAt (values : List (Value α)) (place : ℕ) : Option (StoredMatrix α) :=
  match values[place]? with
  | some (.matrix m) => some m
  | _ => none

def transformAt (values : List (Value α)) (place : ℕ) : Option (Transform α) :=
  match values[place]? with
  | some (.transform t) => some t
  | _ => none

def Value.Canonical : Value α → Prop
  | matrix m => m.Canonical
  | transform t => t.Canonical

/-- The matrices that have been made, those inside of transforms included. -/
inductive Reached (values : List (Value α)) (m : StoredMatrix α) : Prop where
  | made (h : .matrix m ∈ values)
  | held {t : Transform α} (h : .transform t ∈ values) (hm : t.Holds m)

variable [Scalar α] [Elementary α]

/-- What an operation makes; nothing if it fails. -/
def Operation.results? (values : List (Value α)) : Operation α → Option (List (Value α))
  | make source => do
    let m ← source.make.toOption
    return [.matrix m]
  | change place how => do
    let m ← matrixAt values place
    let changed ← (how.apply m).toOption
    return [.matrix changed]
  | matrixOf place => do
    let t ← transformAt values place
    let p ← t.linear?
    return [.matrix p.matrix]
  | identity dimension => some [.transform (.linear (.identity dimension))]
  | ofGeoTransform g => some [.transform (.linear (.ofGeoTransform g))]
  | ofMatrix place => do
    let m ← matrixAt values place
    let p ← (Projective.ofMatrix m).toOption
    return [.transform (.linear p)]
  | andThen first second => do
    let t ← transformAt values first
    let u ← transformAt values second
    let p ← t.linear?
    let q ← u.linear?
    let both ← (p.andThen q).toOption
    return [.transform (.linear both)]
  | mercator m => some [.transform (.mercator m)]
  | external t (.error e) => some [.transform (.external t (.error e))]
  | external t (.ok place) => do
    let u ← transformAt values place
    return [.transform (.external t (.ok u))]
  | invert place => do
    let t ← transformAt values place
    let u ← t.inverse.toOption
    return [.transform u]
  | concatenate places => do
    let steps ← places.mapM (transformAt values)
    let t ← (Transform.concatenate steps).toOption
    return [.transform t]
  | mapProjection p => do
    let map ← (MapProjection.mercator p).toOption
    return (.transform map.transform :: map.steps.map .transform)

/-- One operation; a failed one leaves everything as it is. -/
def perform (values : List (Value α)) (op : Operation α) : List (Value α) :=
  values ++ (op.results? values).getD []

/-- What has been made by a sequence of operations, from nothing. -/
def run (ops : List (Operation α)) : List (Value α) := ops.foldl perform []

omit [Scalar α] [Elementary α] in
theorem canonical_matrixAt (h : ∀ v ∈ values, v.Canonical) {m : StoredMatrix α}
    (hm : matrixAt values place = some m) : m.Canonical := by
  unfold matrixAt at hm
  split at hm
  · next hplace =>
    cases hm
    exact h _ (List.mem_of_getElem? hplace)
  · cases hm

omit [Scalar α] [Elementary α] in
theorem canonical_transformAt (h : ∀ v ∈ values, v.Canonical) {t : Transform α}
    (ht : transformAt values place = some t) : t.Canonical := by
  unfold transformAt at ht
  split at ht
  · next hplace =>
    cases ht
    exact h _ (List.mem_of_getElem? hplace)
  · cases ht

omit [Scalar α] [Elementary α] in
theorem toOption_eq_some {ε β : Type} {x : Except ε β} {b : β} (h : x.toOption = some b) :
    x = .ok b := by
  cases x with
  | error e => cases h
  | ok a => exact congrArg Except.ok (Option.some.inj h)

omit [Scalar α] [Elementary α] in
theorem canonical_mapM_transformAt (h : ∀ v ∈ values, v.Canonical) {places : List ℕ}
    {steps : List (Transform α)} (hsteps : places.mapM (transformAt values) = some steps) :
    ∀ step ∈ steps, step.Canonical := by
  induction places generalizing steps with
  | nil =>
    cases hsteps
    simp
  | cons place rest ih =>
    rw [List.mapM_cons] at hsteps
    obtain ⟨first, hfirst, hsteps⟩ := Option.bind_eq_some_iff.mp hsteps
    obtain ⟨later, hlater, hsteps⟩ := Option.bind_eq_some_iff.mp hsteps
    cases hsteps
    exact List.forall_mem_cons.mpr ⟨canonical_transformAt h hfirst, ih hlater⟩

omit [Scalar α] [Elementary α] in
theorem canonical_linear? {t : Transform α} {p : Projective α} (h : t.Canonical)
    (hp : t.linear? = some p) : p.matrix.Canonical := by
  cases t with
  | linear q =>
    cases hp
    exact Transform.canonical_linear_iff.mp h
  | mercator m => cases hp
  | inverseMercator m => cases hp
  | external t back => cases hp
  | chain steps => cases hp

/-- Every operation makes values that are stored by their shape from such values. -/
theorem canonical_results (h : ∀ v ∈ values, v.Canonical) {op : Operation α}
    {made : List (Value α)} (hmade : op.results? values = some made) :
    ∀ v ∈ made, v.Canonical := by
  cases op with
  | make source =>
    obtain ⟨m, hm, hmade⟩ := Option.bind_eq_some_iff.mp hmade
    cases hmade
    rw [List.forall_mem_singleton]
    exact StoredMatrix.canonical_make (toOption_eq_some hm)
  | change place how =>
    obtain ⟨m, hm, hmade⟩ := Option.bind_eq_some_iff.mp hmade
    obtain ⟨changed, hchanged, hmade⟩ := Option.bind_eq_some_iff.mp hmade
    cases hmade
    rw [List.forall_mem_singleton]
    exact (canonical_matrixAt h hm).apply (toOption_eq_some hchanged)
  | matrixOf place =>
    obtain ⟨t, ht, hmade⟩ := Option.bind_eq_some_iff.mp hmade
    obtain ⟨p, hp, hmade⟩ := Option.bind_eq_some_iff.mp hmade
    cases hmade
    rw [List.forall_mem_singleton]
    exact canonical_linear? (canonical_transformAt h ht) hp
  | identity dimension =>
    cases hmade
    rw [List.forall_mem_singleton]
    exact Transform.canonical_identity dimension
  | ofGeoTransform g =>
    cases hmade
    rw [List.forall_mem_singleton]
    exact Transform.canonical_linear_iff.mpr trivial
  | ofMatrix place =>
    obtain ⟨m, hm, hmade⟩ := Option.bind_eq_some_iff.mp hmade
    obtain ⟨p, hp, hmade⟩ := Option.bind_eq_some_iff.mp hmade
    cases hmade
    rw [List.forall_mem_singleton]
    have hmatrix : p.matrix = m := Projective.matrix_of_ofMatrix (toOption_eq_some hp)
    apply Transform.canonical_linear_iff.mpr
    rw [hmatrix]
    exact canonical_matrixAt h hm
  | andThen first second =>
    obtain ⟨t, -, hmade⟩ := Option.bind_eq_some_iff.mp hmade
    obtain ⟨u, -, hmade⟩ := Option.bind_eq_some_iff.mp hmade
    obtain ⟨p, -, hmade⟩ := Option.bind_eq_some_iff.mp hmade
    obtain ⟨q, -, hmade⟩ := Option.bind_eq_some_iff.mp hmade
    obtain ⟨both, hboth, hmade⟩ := Option.bind_eq_some_iff.mp hmade
    cases hmade
    obtain ⟨product, hproduct, hboth⟩ := bind_eq_ok.mp (toOption_eq_some hboth)
    cases hboth
    rw [List.forall_mem_singleton]
    exact Transform.canonical_linear_iff.mpr (StoredMatrix.canonical_mul hproduct)
  | mercator m =>
    cases hmade
    rw [List.forall_mem_singleton]
    exact Transform.canonical_mercator m
  | external t back =>
    cases back with
    | error e =>
      cases hmade
      rw [List.forall_mem_singleton]
      exact Transform.canonical_external_iff.mpr fun u hu => by cases hu
    | ok place =>
      obtain ⟨u, hu, hmade⟩ := Option.bind_eq_some_iff.mp hmade
      cases hmade
      rw [List.forall_mem_singleton]
      apply Transform.canonical_external_iff.mpr
      rintro _ ⟨⟩
      exact canonical_transformAt h hu
  | invert place =>
    obtain ⟨t, ht, hmade⟩ := Option.bind_eq_some_iff.mp hmade
    obtain ⟨u, hu, hmade⟩ := Option.bind_eq_some_iff.mp hmade
    cases hmade
    rw [List.forall_mem_singleton]
    exact (canonical_transformAt h ht).inverse (toOption_eq_some hu)
  | concatenate places =>
    obtain ⟨steps, hsteps, hmade⟩ := Option.bind_eq_some_iff.mp hmade
    obtain ⟨t, ht, hmade⟩ := Option.bind_eq_some_iff.mp hmade
    cases hmade
    rw [List.forall_mem_singleton]
    exact Transform.canonical_concatenate (toOption_eq_some ht)
      (canonical_mapM_transformAt h hsteps)
  | mapProjection p =>
    obtain ⟨map, hmap, hmade⟩ := Option.bind_eq_some_iff.mp hmade
    cases hmade
    rw [List.forall_mem_cons, List.forall_mem_map]
    exact MapProjection.canonical_steps (toOption_eq_some hmap)

/-- One operation keeps everything stored by its shape. -/
theorem canonical_perform (h : ∀ v ∈ values, v.Canonical) (op : Operation α) :
    ∀ v ∈ perform values op, v.Canonical := by
  rw [perform, List.forall_mem_append]
  refine ⟨h, ?_⟩
  cases hmade : op.results? values with
  | none => simp
  | some made => exact canonical_results h hmade

theorem canonical_foldl (h : ∀ v ∈ values, v.Canonical) (ops : List (Operation α)) :
    ∀ v ∈ ops.foldl perform values, v.Canonical := by
  induction ops generalizing values with
  | nil => exact h
  | cons op rest ih => exact ih (canonical_perform h op)

omit [Scalar α] [Elementary α] in
theorem Reached.canonical {m : StoredMatrix α} (hm : Reached values m)
    (h : ∀ v ∈ values, v.Canonical) : m.Canonical := by
  cases hm with
  | made hm => exact h _ hm
  | held ht hm => exact h _ ht m hm

/-- Whatever is done in whatever order, every matrix that is reached has as many coefficients as its
shape asks for, and is held as a block of size `n` exactly if it has `n` rows and `n` columns, `n`
from one to four. -/
theorem reached_stored_by_shape (ops : List (Operation α)) {m : StoredMatrix α}
    (hm : Reached (run ops) m) :
    m.elements.size = m.numRow * m.numCol ∧
      (∀ n, (∃ hn b, m = .small n hn b) ↔ m.numRow = n ∧ m.numCol = n ∧ 1 ≤ n ∧ n ≤ 4) ∧
      ((∃ f, m = .flat f) ↔ ¬ (m.numRow = m.numCol ∧ 1 ≤ m.numRow ∧ m.numRow ≤ 4)) := by
  have hcanonical : m.Canonical := hm.canonical (canonical_foldl (by simp) ops)
  exact ⟨hcanonical.consistent, hcanonical.storage⟩

omit [Scalar α] [Elementary α] in
theorem reached_of_matrixAt {m : StoredMatrix α} (h : matrixAt values place = some m) :
    Reached values m := by
  unfold matrixAt at h
  split at h
  · next hplace =>
    cases h
    exact .made (List.mem_of_getElem? hplace)
  · cases h

/-- A product of arrays is held as a block of size two, and so is the matrix that a transform
leads back by. -/
theorem reached_stored_by_shape_product :
    letI : Elementary ℚ := Exact.quarterTurns
    let ops : List (Operation ℚ) :=
      [.make (.listed 2 3 #[1, 2, 3, 4, 5, 6]), .change 0 .transpose,
        .change 1 (.set 2 0 7), .change 0 (.mul (.flat ⟨3, 2, #[1, 4, 2, 5, 7, 6]⟩)),
        .ofMatrix 3, .invert 4, .matrixOf 5]
    let back : StoredMatrix ℚ := .small 2 (by decide) (.of2 (11/30) (-16/105) (-4/15) (13/105))
    Reached (run ops) back ∧ back.elements.size = 2 * 2 ∧ ∃ hn b, back = .small 2 hn b := by
  let _ : Elementary ℚ := Exact.quarterTurns
  intro ops back
  have hplace : matrixAt (run ops) 6 = some back := by decide +kernel
  have hback : Reached (run ops) back := reached_of_matrixAt hplace
  obtain ⟨hsize, hsmall, -⟩ := reached_stored_by_shape ops hback
  exact ⟨hback, hsize, (hsmall 2).mpr ⟨rfl, rfl, by decide, by decide⟩⟩

end Session

end Georeferencing
