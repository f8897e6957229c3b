import Mathlib.Data.List.Forall2

/-! # Computations that may fail

A computation in several parts succeeds if each of its parts does, and fails with what the first
part that fails does.
-/

namespace Georeferencing

variable {ε α β γ δ : Type}

/-- A computation succeeds if its first part does and the rest does with what that part gave. -/
theorem bind_eq_ok {x : Except ε α} {f : α → Except ε β} {b : β} :
    x >>= f = .ok b ↔ ∃ a, x = .ok a ∧ f a = .ok b := by
  cases x with
  | error e => simp [bind, Except.bind]
  | ok a => simp [bind, Except.bind]

/-- A computation fails if its first part does, or else with what the rest fails with. -/
theorem bind_eq_error {x : Except ε α} {f : α → Except ε β} {e : ε} :
    x >>= f = .error e ↔ x = .error e ∨ ∃ a, x = .ok a ∧ f a = .error e := by
  cases x with
  | error e => simp [bind, Except.bind]
  | ok a => simp [bind, Except.bind]

theorem map_eq_ok {x : Except ε α} {f : α → β} {b : β} :
    f <$> x = .ok b ↔ ∃ a, x = .ok a ∧ f a = b := by
  cases x with
  | error e => simp [Functor.map, Except.map]
  | ok a => simp [Functor.map, Except.map]

theorem exists_ok_iff {x : Except ε α} : (∃ a, x = .ok a) ↔ ∀ e, x ≠ .error e := by
  cases x with
  | error e => simp
  | ok a => simp

theorem exists_of_isOk {x : Except ε α} (h : x.isOk = true) : ∃ a, x = .ok a := by
  cases x with
  | error e => cases h
  | ok a => exact ⟨a, rfl⟩

/-- What every step of a run keeps, the run keeps. -/
theorem foldlM_keeps {P : β → Prop} {f : β → α → Except ε β} {as : List α} {b c : β}
    (h : as.foldlM f b = .ok c) (start : P b)
    (step : ∀ a ∈ as, ∀ b c, P b → f b a = .ok c → P c) : P c := by
  induction as generalizing b with
  | nil =>
    cases h
    exact start
  | cons a as ih =>
    rw [List.foldlM_cons] at h
    obtain ⟨next, hnext, hrest⟩ := bind_eq_ok.mp h
    rw [List.forall_mem_cons] at step
    exact ih hrest (step.1 b next start hnext) step.2

theorem foldlM_congr {f g : β → α → Except ε β} {as : List α}
    (h : ∀ a ∈ as, ∀ b, f b a = g b a) (b : β) : as.foldlM f b = as.foldlM g b := by
  induction as generalizing b with
  | nil => rfl
  | cons a as ih =>
    rw [List.forall_mem_cons] at h
    rw [List.foldlM_cons, List.foldlM_cons, h.1]
    exact congrArg (g b a >>= ·) (funext (ih h.2))

/-- A run that goes on with one more element. -/
theorem foldlM_concat {f : β → α → Except ε β} {as : List α} {a : α} {b c : β}
    (h : as.foldlM f b = .ok c) : (as ++ [a]).foldlM f b = f c a := by
  rw [List.foldlM_append, h]
  exact bind_pure (f c a)

/-- Related lists have related elements at the same places. -/
theorem exists_getElem?_of_forall₂ {R : α → β → Prop} {as : List α} {bs : List β}
    (h : List.Forall₂ R as bs) {i : ℕ} {a : α} (ha : as[i]? = some a) :
    ∃ b, bs[i]? = some b ∧ R a b := by
  induction h generalizing i with
  | nil => cases ha
  | cons hab _ ih =>
    cases i with
    | zero =>
      cases ha
      exact ⟨_, rfl, hab⟩
    | succ i => exact ih ha

section Elements

variable {f : α → Except ε β} {as : List α} {bs : List β}

/-- A list is worked off if each of its elements is. -/
theorem mapM_eq_ok : as.mapM f = .ok bs ↔ List.Forall₂ (fun a b => f a = .ok b) as bs := by
  induction as generalizing bs with
  | nil =>
    rw [List.mapM_nil, List.forall₂_nil_left_iff]
    exact ⟨fun h => (Except.ok.inj h).symm, fun h => h ▸ rfl⟩
  | cons a as ih =>
    rw [List.mapM_cons, bind_eq_ok, List.forall₂_cons_left_iff]
    constructor
    · rintro ⟨b, hb, h⟩
      obtain ⟨rest, hrest, h⟩ := bind_eq_ok.mp h
      cases h
      exact ⟨b, rest, hb, ih.mp hrest, rfl⟩
    · rintro ⟨b, rest, hb, hrest, rfl⟩
      exact ⟨b, hb, bind_eq_ok.mpr ⟨rest, ih.mpr hrest, rfl⟩⟩

theorem mapM_eq_ok_map {g : α → β} (h : ∀ a ∈ as, f a = .ok (g a)) :
    as.mapM f = .ok (as.map g) := by
  rw [mapM_eq_ok, List.forall₂_map_right_iff, List.forall₂_same]
  exact h

/-- A list can be worked off if each of its elements can. -/
theorem exists_mapM_iff : (∃ bs, as.mapM f = .ok bs) ↔ ∀ a ∈ as, ∃ b, f a = .ok b := by
  simp only [mapM_eq_ok]
  induction as with
  | nil => simp
  | cons a as ih =>
    rw [List.forall_mem_cons, ← ih]
    constructor
    · rintro ⟨_, hab | ⟨hab, hrest⟩⟩
      exact ⟨⟨_, hab⟩, _, hrest⟩
    · rintro ⟨⟨b, hab⟩, bs, hrest⟩
      exact ⟨b :: bs, .cons hab hrest⟩

/-- A list fails with what the first of its elements that fails does. -/
theorem mapM_eq_error {e : ε} : as.mapM f = .error e ↔
    ∃ before a after, as = before ++ a :: after ∧ (∀ a ∈ before, ∃ b, f a = .ok b) ∧
      f a = .error e := by
  induction as with
  | nil =>
    rw [List.mapM_nil]
    constructor
    · rintro ⟨⟩
    · rintro ⟨before, a, after, h, -⟩
      exact absurd h.symm (List.append_ne_nil_of_right_ne_nil _ (List.cons_ne_nil _ _))
  | cons first as ih =>
    rw [List.mapM_cons, bind_eq_error]
    constructor
    · rintro (hfirst | ⟨b, hfirst, h⟩)
      · exact ⟨[], first, as, rfl, by simp, hfirst⟩
      · rcases bind_eq_error.mp h with hrest | ⟨bs, -, h⟩
        · obtain ⟨before, a, after, rfl, hbefore, ha⟩ := ih.mp hrest
          exact ⟨first :: before, a, after, rfl,
            List.forall_mem_cons.mpr ⟨⟨b, hfirst⟩, hbefore⟩, ha⟩
        · cases h
    · rintro ⟨before, a, after, h, hbefore, ha⟩
      cases before with
      | nil =>
        cases h
        exact .inl ha
      | cons first' before =>
        cases h
        rw [List.forall_mem_cons] at hbefore
        obtain ⟨⟨b, hfirst⟩, hbefore⟩ := hbefore
        exact .inr ⟨b, hfirst,
          bind_eq_error.mpr (.inl (ih.mpr ⟨before, a, after, rfl, hbefore, ha⟩))⟩

/-- Two computations that fail alike, the second one on what the first one's elements become, work
off the lists alike. -/
theorem mapM_eq_error_iff_map {p : α → γ} {g : γ → Except ε δ} {e : ε}
    (h : ∀ a e, f a = .error e ↔ g (p a) = .error e) :
    as.mapM f = .error e ↔ (as.map p).mapM g = .error e := by
  have hok : ∀ a, (∃ b, f a = .ok b) ↔ ∃ d, g (p a) = .ok d := by
    intro a
    simp only [exists_ok_iff, ne_eq, h]
  induction as with
  | nil => exact ⟨nofun, nofun⟩
  | cons a as ih =>
    have hrest : ∀ {β : Type} {x : Except ε (List β)} (b : β),
        (x >>= fun bs => pure (b :: bs)) = .error e ↔ x = .error e := by
      intro β x b
      rw [bind_eq_error]
      exact or_iff_left nofun
    simp only [List.map_cons, List.mapM_cons, bind_eq_error (x := f a),
      bind_eq_error (x := g (p a)), hrest, exists_and_right, ih, h, hok]

theorem length_of_mapM (h : as.mapM f = .ok bs) : bs.length = as.length :=
  (mapM_eq_ok.mp h).length_eq.symm

theorem getElem?_of_mapM (h : as.mapM f = .ok bs) {i : ℕ} {a : α} (ha : as[i]? = some a) :
    ∃ b, bs[i]? = some b ∧ f a = .ok b :=
  exists_getElem?_of_forall₂ (mapM_eq_ok.mp h) ha

theorem exists_of_mem_mapM (h : as.mapM f = .ok bs) {b : β} (hb : b ∈ bs) :
    ∃ a ∈ as, f a = .ok b := by
  obtain ⟨i, hi⟩ := List.mem_iff_getElem?.mp hb
  obtain ⟨a, ha, hab⟩ := exists_getElem?_of_forall₂ (mapM_eq_ok.mp h).flip hi
  exact ⟨a, List.mem_of_getElem? ha, hab⟩

/-- A second computation that gives, for each element, something related to what the first one
gave works the list off too. -/
theorem exists_mapM {g : α → Except ε γ} {R : β → γ → Prop} (h : as.mapM f = .ok bs)
    (hstep : ∀ a ∈ as, ∀ b, f a = .ok b → ∃ c, g a = .ok c ∧ R b c) :
    ∃ cs, as.mapM g = .ok cs ∧ List.Forall₂ R bs cs := by
  simp only [mapM_eq_ok] at h ⊢
  induction h with
  | nil => exact ⟨[], .nil, .nil⟩
  | cons hab _ ih =>
    rw [List.forall_mem_cons] at hstep
    obtain ⟨cs, hcs, hrelated⟩ := ih hstep.2
    obtain ⟨c, hc, hbc⟩ := hstep.1 _ hab
    exact ⟨c :: cs, .cons hc hcs, .cons hbc hrelated⟩

end Elements

end Georeferencing
