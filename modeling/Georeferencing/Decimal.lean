/-! # Decimal numbers and their text

A decimal is an integer times a power of ten. A `NumberStyle` says when it is written with an
exponent and whether an integral number keeps a point.
-/

namespace Georeferencing

/-- The number `digits * 10 ^ exponent`. -/
structure Decimal where
  digits : Nat
  exponent : Int
deriving DecidableEq, Repr

/-- How the texts of numbers are laid out. -/
structure NumberStyle where
  /-- Integral numbers end with `.0`. -/
  keepsPoint : Bool
  /-- Numbers whose leading digit stands for a power of ten within these bounds are written without
  an exponent; without bounds, all are. -/
  positional : Option (Int × Int)

namespace Decimal

/-- Drops at most `count` zeros from the end of `digits`. -/
def trimZeros : Nat → Decimal → Decimal
  | 0, d => d
  | count + 1, d =>
    if d.digits % 10 = 0 then trimZeros count ⟨d.digits / 10, d.exponent + 1⟩ else d

/-- The power of ten that the leading digit stands for. -/
def magnitude (d : Decimal) : Int :=
  (Nat.toDigits 10 d.digits).length - 1 + d.exponent

def zeros (count : Nat) : String := String.ofList (List.replicate count '0')

/-- The number without an exponent. -/
def positionalText (style : NumberStyle) (d : Decimal) : String :=
  let text := Nat.toDigits 10 d.digits
  if 0 ≤ d.exponent then
    String.ofList text ++ zeros d.exponent.toNat ++ (if style.keepsPoint then ".0" else "")
  else
    let places := (-d.exponent).toNat
    if places < text.length then
      let whole := text.length - places
      String.ofList (text.take whole) ++ "." ++ String.ofList (text.drop whole)
    else "0." ++ zeros (places - text.length) ++ String.ofList text

/-- The number with one digit before the point and an exponent; the point is left out after a
single digit. -/
def exponentText (d : Decimal) : String :=
  let text := Nat.toDigits 10 d.digits
  let fraction := text.drop 1
  String.ofList (text.take 1) ++
    (if fraction.isEmpty then "" else "." ++ String.ofList fraction) ++
    "e" ++ toString d.magnitude

def text (style : NumberStyle) (d : Decimal) : String :=
  match style.positional with
  | none => d.positionalText style
  | some (least, greatest) =>
    if least ≤ d.magnitude && d.magnitude ≤ greatest then d.positionalText style
    else d.exponentText

end Decimal

end Georeferencing
