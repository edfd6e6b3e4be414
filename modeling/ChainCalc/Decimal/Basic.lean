import ChainCalc.Numeral

namespace ChainCalc

/-!
# Decimals — a coefficient scaled by a power of ten

* `Decimal.toRat` — the number that a decimal stands for.
* `Decimal.trimmed` — the same number without trailing zeros in the coefficient.
* `Decimal.text` — how a decimal is written: positionally if its leading digit stands
  for a power of ten from `10⁻⁴` up to below `10¹⁶`, else with an exponent.
-/

/-- The number `coefficient * 10 ^ exponent`. -/
structure Decimal where
  coefficient : Nat
  exponent : Int
  deriving DecidableEq

namespace Decimal

/-- The number that a decimal stands for. -/
def toRat (d : Decimal) : Rat := (d.coefficient : Rat) * (10 : Rat) ^ d.exponent

/-- The number of decimal digits of `n`, which is one for zero. -/
def digitCount (n : Nat) : Nat :=
  if n < 10 then 1 else digitCount (n / 10) + 1
termination_by n
decreasing_by omega

/-- The numeral of a number has as many digits as are counted. -/
theorem length_ofNat (n : Nat) : (Numeral.ofNat n).length = digitCount n := by
  induction n using Nat.strongRecOn with
  | _ n ih =>
    rw [Numeral.ofNat, digitCount]
    split
    · rfl
    · simp [ih (n / 10) (by omega)]

/-- The same number without trailing zeros: the last digit of the coefficient is not
    zero, unless the number is, and then the exponent is zero too. -/
def trimmed (d : Decimal) : Decimal :=
  if d.coefficient = 0 then ⟨0, 0⟩
  else if d.coefficient % 10 = 0 then trimmed ⟨d.coefficient / 10, d.exponent + 1⟩
  else d
termination_by d.coefficient
decreasing_by omega

/-! ### Writing -/

/-- A run of zeros. -/
def zeros (n : Nat) : Text := List.replicate n 48

/-- Digits with the point after the digit for `10 ^ lead`, where the first digit stands
    for that power.  There is at least one digit on either side of the point. -/
def positional (digits : Text) (lead : Int) : Text :=
  if lead < 0 then ascii "0." ++ zeros (-lead - 1).toNat ++ digits
  else
    let whole := lead.toNat + 1
    if digits.length ≤ whole then digits ++ zeros (whole - digits.length) ++ ascii ".0"
    else digits.take whole ++ ascii "." ++ digits.drop whole

/-- A power of ten as an exponent: its sign, and at least two digits. -/
def exponentText (e : Int) : Text :=
  (if e < 0 then ascii "e-" else ascii "e+")
    ++ (if e.natAbs < 10 then zeros 1 else []) ++ Numeral.ofNat e.natAbs

/-- The first digit, then any others behind a point, then the exponent. -/
def scientific (digits : Text) (lead : Int) : Text :=
  let others := digits.drop 1
  digits.take 1 ++ (if others = [] then [] else ascii "." ++ others) ++ exponentText lead

/-- The power of ten that the leading digit stands for. -/
def lead (d : Decimal) : Int := d.exponent + (digitCount d.coefficient : Int) - 1

/-- The text of a decimal. -/
def text (d : Decimal) : Text :=
  let digits := Numeral.ofNat d.coefficient
  if -4 ≤ d.lead ∧ d.lead < 16 then positional digits d.lead else scientific digits d.lead

end Decimal

end ChainCalc
