import Mathlib.Algebra.Order.Field.Rat
import Mathlib.Data.Rat.Cast.Order
import Mathlib.Tactic
import Georeferencing.Decimal

/-! # Reading numerals

The number that a text stands for, exactly, and what becomes of it when zeros are put behind the
text. Behind fraction digits they change nothing; behind an exponent they are digits of the
exponent.
-/

namespace Georeferencing

/-- What the text of a number says. -/
inductive Reading where
  | nan
  | infinite (negative : Bool)
  | finite (negative : Bool) (magnitude : ℚ)
deriving DecidableEq

namespace Reading

/-- The number that a text of digits stands for. -/
def digits? (t : List Char) : Option ℕ :=
  if t ≠ [] ∧ t.all Char.isDigit then some (Nat.ofDigitChars 10 t 0) else none

/-- Whether there is a minus sign, and the text behind it. -/
def unsigned : List Char → Bool × List Char
  | '-' :: t => (true, t)
  | t => (false, t)

/-- Digits, or digits around a point. -/
def mantissa? (t : List Char) : Option ℚ :=
  match t.splitOn '.' with
  | [whole] => (digits? whole).map fun n => (n : ℚ)
  | [whole, fraction] =>
    if whole = [] ∨ fraction = [] then none
    else (digits? (whole ++ fraction)).map fun n => (n : ℚ) / 10 ^ fraction.length
  | _ => none

def signed (negative : Bool) (n : ℕ) : ℤ := if negative then -n else n

def exponent? (t : List Char) : Option ℤ := (digits? (unsigned t).2).map (signed (unsigned t).1)

def magnitude? (t : List Char) : Option ℚ :=
  match t.splitOn 'e' with
  | [mantissa] => mantissa? mantissa
  | [mantissa, exponent] => do return (← mantissa? mantissa) * 10 ^ (← exponent? exponent)
  | _ => none

/-- The number that a text stands for, if it is the text of one. -/
def ofText? (t : List Char) : Option Reading :=
  if (unsigned t).2 = "NaN".toList then some nan
  else if (unsigned t).2 = "inf".toList then some (infinite (unsigned t).1)
  else (magnitude? (unsigned t).2).map (finite (unsigned t).1)

end Reading

/-- The parts of the text of a finite number. There is a point if there are fraction digits. -/
structure Numeral where
  negative : Bool
  whole : List Char
  fraction : List Char
  exponent : Option (Bool × List Char)

namespace Numeral

open Reading

variable {n : Numeral} {k : ℕ} {ds : List Char}

def IsDigits (ds : List Char) : Prop := ds ≠ [] ∧ ∀ c ∈ ds, c.isDigit = true

instance (ds : List Char) : Decidable (IsDigits ds) :=
  decidable_of_iff (ds ≠ [] ∧ ds.all Char.isDigit = true) (by rw [IsDigits, List.all_eq_true])

def sign (negative : Bool) : List Char := if negative then ['-'] else []

def mantissaText (n : Numeral) : List Char :=
  n.whole ++ if n.fraction = [] then [] else '.' :: n.fraction

def exponentText (n : Numeral) : List Char :=
  match n.exponent with
  | none => []
  | some (negative, ds) => 'e' :: (sign negative ++ ds)

def text (n : Numeral) : List Char := sign n.negative ++ (n.mantissaText ++ n.exponentText)

def mantissaValue (n : Numeral) : ℚ :=
  (Nat.ofDigitChars 10 (n.whole ++ n.fraction) 0 : ℚ) / 10 ^ n.fraction.length

def exponentValue (n : Numeral) : ℤ :=
  match n.exponent with
  | none => 0
  | some (negative, ds) => signed negative (Nat.ofDigitChars 10 ds 0)

/-- The magnitude of the number. -/
def value (n : Numeral) : ℚ :=
  n.mantissaValue * 10 ^ n.exponentValue

/-- Everything but signs, point and exponent mark is a digit. -/
structure WellFormed (n : Numeral) : Prop where
  whole : IsDigits n.whole
  fraction : ∀ c ∈ n.fraction, c.isDigit = true
  exponent : ∀ negative ds, n.exponent = some (negative, ds) → IsDigits ds

theorem digits?_eq (h : IsDigits ds) : digits? ds = some (Nat.ofDigitChars 10 ds 0) := by
  rw [digits?, if_pos ⟨h.1, List.all_eq_true.mpr h.2⟩]

theorem IsDigits.notMem (h : IsDigits ds) {c : Char} (hc : c.isDigit = false) : c ∉ ds := by
  intro hmem
  rw [h.2 c hmem] at hc
  cases hc

/-- A text that begins with a digit has no sign. -/
theorem unsigned_sign (negative : Bool) (h : IsDigits ds) (rest : List Char) :
    unsigned (sign negative ++ (ds ++ rest)) = (negative, ds ++ rest) := by
  obtain ⟨hne, hdigit⟩ := h
  cases ds with
  | nil => exact absurd rfl hne
  | cons d ds =>
    have hd : d ≠ '-' := by
      rintro rfl
      exact absurd (hdigit '-' (List.mem_cons_self ..)) (by decide)
    cases negative with
    | true => rfl
    | false =>
      change unsigned (d :: (ds ++ rest)) = _
      rw [unsigned]
      · rfl
      · rintro t ⟨⟩
        exact hd rfl

theorem IsDigits.append (h : IsDigits ds) {ds' : List Char} (h' : ∀ c ∈ ds', c.isDigit = true) :
    IsDigits (ds ++ ds') := by
  constructor
  · simp [h.1]
  · intro c hc
    rcases List.mem_append.mp hc with hc | hc
    · exact h.2 c hc
    · exact h' c hc

theorem mantissa?_eq (h : n.WellFormed) : mantissa? n.mantissaText = some n.mantissaValue := by
  have hpoint : '.' ∉ n.whole := h.whole.notMem (by decide)
  rw [mantissaText, mantissaValue]
  split
  · next hnil =>
    rw [List.append_nil, mantissa?, List.splitOn_eq_singleton hpoint]
    simp [hnil, digits?_eq h.whole]
  · next hne =>
    have hfraction : IsDigits n.fraction := ⟨hne, h.fraction⟩
    rw [mantissa?, List.splitOn_append_cons_self_of_not_mem hpoint,
      List.splitOn_eq_singleton (hfraction.notMem (by decide))]
    simp [h.whole.1, hne, digits?_eq (h.whole.append h.fraction)]

theorem exponent?_eq {negative : Bool} (h : IsDigits ds) :
    exponent? (sign negative ++ ds) = some (signed negative (Nat.ofDigitChars 10 ds 0)) := by
  have hsign := unsigned_sign negative h []
  rw [List.append_nil] at hsign
  rw [exponent?, hsign, digits?_eq h]
  rfl

theorem notMem_sign (negative : Bool) {c : Char} (hc : c ≠ '-') : c ∉ sign negative := by
  cases negative with
  | true => simpa [sign] using hc
  | false => simp [sign]

theorem WellFormed.notMem_mantissaText (h : n.WellFormed) {c : Char} (hc : c.isDigit = false)
    (hpoint : c ≠ '.') : c ∉ n.mantissaText := by
  rw [mantissaText]
  split
  · rw [List.append_nil]
    exact h.whole.notMem hc
  · next hne =>
    have hfraction : IsDigits n.fraction := ⟨hne, h.fraction⟩
    simp [h.whole.notMem hc, hpoint, hfraction.notMem hc]

theorem magnitude?_eq (h : n.WellFormed) :
    magnitude? (n.mantissaText ++ n.exponentText) = some n.value := by
  have hmark : 'e' ∉ n.mantissaText := h.notMem_mantissaText (by decide) (by decide)
  rw [magnitude?, value, exponentText, exponentValue]
  cases hexponent : n.exponent with
  | none =>
    rw [List.append_nil, List.splitOn_eq_singleton hmark]
    simp [mantissa?_eq h]
  | some e =>
    obtain ⟨negative, ds⟩ := e
    have hds := h.exponent negative ds hexponent
    have hmark' : 'e' ∉ sign negative ++ ds := by
      simp [notMem_sign, hds.notMem]
    rw [List.splitOn_append_cons_self_of_not_mem hmark, List.splitOn_eq_singleton hmark']
    simp [mantissa?_eq h, exponent?_eq hds]

/-- What begins with a digit is no word. -/
theorem IsDigits.append_ne (h : IsDigits ds) {rest word : List Char}
    (hword : word.head?.any Char.isDigit = false) : ds ++ rest ≠ word := by
  rintro rfl
  obtain ⟨hne, hdigit⟩ := h
  cases ds with
  | nil => exact hne rfl
  | cons d ds =>
    change d.isDigit = false at hword
    rw [hdigit d (List.mem_cons_self ..)] at hword
    cases hword

/-- A numeral stands for its value. -/
theorem ofText?_text (h : n.WellFormed) : ofText? n.text = some (.finite n.negative n.value) := by
  have hbody : n.mantissaText ++ n.exponentText = n.whole ++
      ((if n.fraction = [] then [] else '.' :: n.fraction) ++ n.exponentText) := by
    rw [mantissaText, List.append_assoc]
  have hsign := unsigned_sign n.negative h.whole
    ((if n.fraction = [] then [] else '.' :: n.fraction) ++ n.exponentText)
  rw [ofText?, text, hbody, hsign, if_neg (h.whole.append_ne rfl), if_neg (h.whole.append_ne rfl),
    ← hbody, magnitude?_eq h]
  rfl

/-- The numeral with zeros put behind its text. -/
def pad (k : ℕ) (n : Numeral) : Numeral :=
  match n.exponent with
  | none => { n with fraction := n.fraction ++ List.replicate k '0' }
  | some (negative, ds) => { n with exponent := some (negative, ds ++ List.replicate k '0') }

theorem text_pad (h : n.fraction ≠ []) (k : ℕ) :
    (n.pad k).text = n.text ++ List.replicate k '0' := by
  cases hexponent : n.exponent with
  | none => simp [text, pad, mantissaText, exponentText, hexponent, h]
  | some e => simp [text, pad, mantissaText, exponentText, hexponent, h]

theorem negative_pad (n : Numeral) (k : ℕ) : (n.pad k).negative = n.negative := by
  rw [pad]
  split
  · rfl
  · rfl

theorem WellFormed.pad (h : n.WellFormed) (k : ℕ) : (n.pad k).WellFormed := by
  have hzeros : ∀ c ∈ List.replicate k '0', c.isDigit = true := by
    intro c hc
    rw [List.eq_of_mem_replicate hc]
    rfl
  rw [Numeral.pad]
  split
  · next hnone =>
    refine ⟨h.whole, ?_, ?_⟩
    · intro c hc
      rcases List.mem_append.mp hc with hc | hc
      · exact h.fraction c hc
      · exact hzeros c hc
    · exact h.exponent
  · next negative ds hsome =>
    refine ⟨h.whole, h.fraction, ?_⟩
    rintro _ _ ⟨⟩
    exact (h.exponent negative ds hsome).append hzeros

theorem ofDigitChars_append_zeros (ds : List Char) (k : ℕ) :
    Nat.ofDigitChars 10 (ds ++ List.replicate k '0') 0 = Nat.ofDigitChars 10 ds 0 * 10 ^ k := by
  rw [Nat.ofDigitChars_append, Nat.ofDigitChars_replicate_zero, Nat.mul_comm]

/-- Zeros behind fraction digits change nothing. -/
theorem value_pad_plain (h : n.exponent = none) (k : ℕ) : (n.pad k).value = n.value := by
  have hten : (10 : ℚ) ^ k ≠ 0 := pow_ne_zero k (by norm_num)
  have hmantissa : (n.pad k).mantissaValue = n.mantissaValue := by
    simp only [mantissaValue, pad, h]
    rw [← List.append_assoc, ofDigitChars_append_zeros, List.length_append, List.length_replicate,
      Nat.cast_mul, Nat.cast_pow, pow_add]
    exact mul_div_mul_right _ _ hten
  rw [value, value, hmantissa]
  simp only [exponentValue, pad, h]

/-- Zeros behind an exponent multiply it. -/
theorem value_pad_exponent {e : Bool × List Char} (h : n.exponent = some e) (k : ℕ) :
    (n.pad k).value = n.mantissaValue * 10 ^ (n.exponentValue * 10 ^ k) := by
  obtain ⟨negative, ds⟩ := e
  have hexponent : (n.pad k).exponentValue = n.exponentValue * 10 ^ k := by
    simp only [exponentValue, pad, h, ofDigitChars_append_zeros, signed]
    cases negative with
    | true => simp
    | false => simp
  rw [value, hexponent]
  simp only [mantissaValue, pad, h]

theorem value_pad_ne (hmantissa : n.mantissaValue ≠ 0) (hexponent : n.exponentValue ≠ 0)
    (hk : 0 < k) : (n.pad k).value ≠ n.value := by
  cases h : n.exponent with
  | none =>
    rw [exponentValue, h] at hexponent
    exact absurd rfl hexponent
  | some e =>
    rw [value_pad_exponent h, value, ne_eq, mul_right_inj' hmantissa,
      zpow_right_inj₀ (by norm_num) (by norm_num), mul_eq_left₀ hexponent]
    exact (one_lt_pow₀ (by norm_num) hk.ne').ne'

theorem WellFormed.point_mem_text (h : n.WellFormed) : '.' ∈ n.text ↔ n.fraction ≠ [] := by
  have hexponent : '.' ∉ n.exponentText := by
    rw [exponentText]
    split
    · exact List.not_mem_nil
    · next negative ds hsome =>
      simp [notMem_sign, (h.exponent negative ds hsome).notMem]
  have hwhole : '.' ∉ n.whole := h.whole.notMem (by decide)
  simp [text, mantissaText, notMem_sign, hexponent, hwhole]

theorem WellFormed.mark_mem_text (h : n.WellFormed) : 'e' ∈ n.text ↔ n.exponent ≠ none := by
  have hmantissa : 'e' ∉ n.mantissaText := h.notMem_mantissaText (by decide) (by decide)
  rw [text, exponentText]
  cases n.exponent with
  | none => simp [notMem_sign, hmantissa]
  | some e => simp

theorem exponent_ne_none (h : n.exponentValue ≠ 0) : n.exponent ≠ none := by
  intro hnone
  rw [exponentValue, hnone] at h
  exact h rfl

/-- The characters that numbers are written with. -/
def isMark (c : Char) : Bool := c.isAlphanum || c == '-' || c == '.'

theorem isMark_of_isDigit {c : Char} (h : c.isDigit = true) : isMark c = true := by
  rw [isMark, Char.isAlphanum, h, Bool.or_true]
  rfl

theorem isMark_sign (negative : Bool) : ∀ c ∈ sign negative, isMark c = true := by
  apply List.all_eq_true.mp
  cases negative with
  | true => rfl
  | false => rfl

theorem WellFormed.isMark_text (h : n.WellFormed) : ∀ c ∈ n.text, isMark c = true := by
  rw [text, mantissaText, exponentText]
  simp only [List.forall_mem_append]
  refine ⟨isMark_sign _, ⟨fun c hc => isMark_of_isDigit (h.whole.2 c hc), ?_⟩, ?_⟩
  · split
    · simp
    · rw [List.forall_mem_cons]
      exact ⟨rfl, fun c hc => isMark_of_isDigit (h.fraction c hc)⟩
  · split
    · simp
    · next negative ds hsome =>
      rw [List.forall_mem_cons, List.forall_mem_append]
      have hds := h.exponent negative ds hsome
      exact ⟨rfl, isMark_sign _, fun c hc => isMark_of_isDigit (hds.2 c hc)⟩

theorem WellFormed.text_ne_nil (h : n.WellFormed) : n.text ≠ [] := by
  simp [text, mantissaText, h.whole.1]

end Numeral

/-- The text of a number as it is printed: a word, a plain number with a point, or a number with an
exponent, which may have a point. -/
inductive IsPrinted : List Char → Prop
  | nan : IsPrinted "NaN".toList
  | infinite (negative : Bool) : IsPrinted (Numeral.sign negative ++ "inf".toList)
  | plain (n : Numeral) (wellFormed : n.WellFormed) (point : n.fraction ≠ [])
      (noExponent : n.exponent = none) : IsPrinted n.text
  | exponent (n : Numeral) (wellFormed : n.WellFormed) (mantissa : n.mantissaValue ≠ 0)
      (exponent : n.exponentValue ≠ 0) : IsPrinted n.text

namespace IsPrinted

open Numeral

variable {t : List Char}

theorem isMark (h : IsPrinted t) : ∀ c ∈ t, isMark c = true := by
  cases h with
  | nan => exact List.all_eq_true.mp rfl
  | infinite negative => exact List.all_eq_true.mp (by cases negative <;> rfl)
  | plain n h _ _ => exact h.isMark_text
  | exponent n h _ _ => exact h.isMark_text

theorem ne_nil (h : IsPrinted t) : t ≠ [] := by
  cases h with
  | nan => decide
  | infinite negative => cases negative <;> decide
  | plain n h _ _ => exact h.text_ne_nil
  | exponent n h _ _ => exact h.text_ne_nil

/-- Zeros behind a point change nothing if there is no exponent. -/
theorem ofText?_append_zeros (h : IsPrinted t) (hpoint : '.' ∈ t) (hmark : 'e' ∉ t) (k : ℕ) :
    Reading.ofText? (t ++ List.replicate k '0') = Reading.ofText? t := by
  cases h with
  | nan => exact absurd hpoint (by decide)
  | infinite negative => exact absurd hpoint (by cases negative <;> decide)
  | plain n h hfraction hnone =>
    rw [← text_pad hfraction, ofText?_text (h.pad k), ofText?_text h, value_pad_plain hnone,
      negative_pad]
  | exponent n h _ hexponent =>
    exact absurd (h.mark_mem_text.mpr (exponent_ne_none hexponent)) hmark

/-- Zeros behind an exponent make another number of it. -/
theorem ofText?_append_zeros_ne (h : IsPrinted t) (hpoint : '.' ∈ t) (hmark : 'e' ∈ t) {k : ℕ}
    (hk : 0 < k) : Reading.ofText? (t ++ List.replicate k '0') ≠ Reading.ofText? t := by
  cases h with
  | nan => exact absurd hpoint (by decide)
  | infinite negative => exact absurd hpoint (by cases negative <;> decide)
  | plain n h hfraction hnone => exact absurd hnone (h.mark_mem_text.mp hmark)
  | exponent n h hmantissa hexponent =>
    rw [← text_pad (h.point_mem_text.mp hpoint), ofText?_text (h.pad k), ofText?_text h]
    intro heq
    exact value_pad_ne hmantissa hexponent hk (Reading.finite.inj (Option.some.inj heq)).2

end IsPrinted

end Georeferencing
