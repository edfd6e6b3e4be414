import ChainCalc.Decimal.Basic
import ChainCalc.Format

namespace ChainCalc

/-!
# Shortest decimals — the fewest digits that read back

A magnitude of a binary format is written with as few digits as will still round to
it, and of the decimals with that many digits the nearest is taken.

Every magnitude is a decimal exactly, if a long one (`Format.decimal`).  Cut off after
`n` digits, that decimal has a neighbour above with `n` digits too, and no other decimal
with `n` digits can be nearer.  So trying the two for `n = 1, 2, …` finds the shortest.

* `Decimal.neighbours` — the two decimals around a decimal with so many digits fewer.
* `Format.shortest` — the decimal that a magnitude is written as.
-/

namespace Decimal

/-- The two decimals next to `d` without its last `dropped` digits, below and above, the
    nearer one first and of two equally near ones the even one. -/
def neighbours (d : Decimal) (dropped : Nat) : List Decimal :=
  let step := Nat.pow 10 dropped
  let below := d.coefficient / step
  let past := d.coefficient % step
  let lower : Decimal := ⟨below, d.exponent + dropped⟩
  let upper : Decimal := ⟨below + 1, d.exponent + dropped⟩
  if 2 * past < step ∨ (2 * past = step ∧ below % 2 = 0) then [lower, upper]
  else [upper, lower]

end Decimal

namespace Format

/-- The decimal that is exactly the magnitude of a rank: `2 ^ (-scale)` is
    `5 ^ scale * 10 ^ (-scale)`. -/
def decimal (f : Format) (rank : Nat) : Decimal :=
  ⟨f.units rank * Nat.pow 5 f.scale, -(f.scale : Int)⟩

/-- Whether a decimal rounds to the magnitude of a rank. -/
def readsBack (f : Format) (rank : Nat) (d : Decimal) : Bool := f.rank d.toRat == rank

/-- The shortest decimal that rounds to the magnitude of a rank, and of those with its
    number of digits the nearest.  The search ends by the last digit of the exact
    decimal, which reads back. -/
def shortest (f : Format) (rank : Nat) : Decimal :=
  let exact := f.decimal rank
  let digits := Decimal.digitCount exact.coefficient
  let found := (List.range digits).findSome? fun i =>
    (exact.neighbours (digits - (i + 1))).find? (f.readsBack rank)
  (found.getD exact).trimmed

end Format

end ChainCalc
