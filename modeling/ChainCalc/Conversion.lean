import ChainCalc.Number

namespace ChainCalc

/-!
# Conversions — the text of a real from its digits and its exponent

A finite real is converted to a text with an exponent first, in a buffer of limited size.  The
digits and the exponent are read off that text, and laid out anew: positionally where the
exponent is small, else with an exponent again.

* `Conversion` — texts with an exponent for the finite doubles.
* `Conversion.standard` — the one that has the digits of `Format.shortest`.
* `Decimal.layout` — how digits are laid out by their exponent.
* `Binary64.format`, `Number.format` — the text of a number by way of a conversion, which fails
  if a converted text is too long for the buffer.
-/

/-- The sign in front of digits. -/
def Decimal.sign (negative : Bool) : Text := if negative then ascii "-" else []

/-- A text with an exponent for each finite double. -/
abbrev Conversion := Bool → Fin Binary64.finiteRanks → Text

/-- The conversion with the digits of the shortest decimal. -/
def Conversion.standard : Conversion := fun negative rank =>
  let d := Format.binary64.shortest rank
  Decimal.sign negative ++ Decimal.scientific (Numeral.ofNat d.coefficient) d.lead

/-- The integer in front of a text, behind blanks: its sign, if there is one, and its digits.
    Without digits it is zero. -/
def Numeral.leadingInt (t : Text) : Int :=
  match t.dropWhile Byte.isBlank with
  | 45 :: digits => -(value (digits.takeWhile Byte.isDigit) : Int)
  | 43 :: digits => value (digits.takeWhile Byte.isDigit)
  | digits => value (digits.takeWhile Byte.isDigit)

namespace Decimal

/-- Digits without the zeros at their end, of which the first digit is not one. -/
def trimZeros (digits : Text) : Text :=
  if 1 < digits.length ∧ digits.getLast? = some 48 then trimZeros digits.dropLast else digits
termination_by digits.length
decreasing_by
  rw [List.length_dropLast]
  omega

/-- Digits laid out by the power of ten that the first one stands for. -/
def layout (digits : Text) (lead : Int) : Text :=
  if -4 ≤ lead ∧ lead < 16 then positional digits lead else scientific digits lead

end Decimal

namespace Binary64

/-- The number of bytes that a converted text may have. -/
def bufferSize : Nat := 40

/-- The text of a double by way of a conversion. -/
def format (convert : Conversion) : Binary64 → Except Text Text
  | finite negative rank =>
    let converted := convert negative rank
    if bufferSize < converted.length then .error (ascii "cannot format real number")
    else
      let mantissa := converted.takeWhile (· ≠ 101)
      let lead := Numeral.leadingInt (converted.drop (mantissa.length + 1))
      let digits := Decimal.trimZeros (mantissa.filter Byte.isDigit)
      .ok (Decimal.sign negative ++ Decimal.layout digits lead)
  | infinite negative => .ok (if negative then ascii "-inf" else ascii "inf")
  | nan => .ok (ascii "nan")

end Binary64

/-- The text of a number by way of a conversion. -/
def Number.format (convert : Conversion) : Number → Except Text Text
  | integer value => .ok (Numeral.ofInt value.toInt)
  | real value => value.format convert

end ChainCalc
