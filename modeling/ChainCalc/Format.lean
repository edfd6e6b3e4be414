namespace ChainCalc

/-!
# Binary formats — the magnitudes of a format, and rounding to them

A binary floating-point format has finitely many magnitudes below any bound, so they
can be counted upwards from zero: the *rank* of a magnitude is its place in that
order.  Magnitudes of rank `0` to `2 * block - 1` are one unit apart, the next `block`
of them two units, the next four, and so on, where the unit is `2 ^ (-scale)`.

* `Format.units`, `Format.magnitude` — the magnitude of a rank, in units and as a rational.
* `Format.rank` — the rank of the magnitude nearest to a rational, ties to the even rank.
* `Format.nearest` — the value of the format that is nearest to a rational.

Ranks are unbounded here: where a format ends is for the format's own type to say.
The parity of a rank is the parity of the significand, so "ties to the even rank" is
the usual rule.
-/

/-- A binary format: the bits of a significand, and the unit `2 ^ (-scale)` of which
    every magnitude is a multiple. -/
structure Format where
  precision : Nat
  scale : Nat
  deriving DecidableEq

/-- The quotient of `n` by `d` rounded to the nearest integer, ties to the even one. -/
def roundQuotient (n d : Nat) : Nat :=
  let q := n / d
  let r := n % d
  if 2 * r < d then q
  else if d < 2 * r then q + 1
  else q + q % 2

namespace Format

/-- The format of double precision. -/
def binary64 : Format := ⟨53, 1074⟩

/-- The format of extended precision, with a significand of 64 bits. -/
def extended : Format := ⟨64, 16445⟩

/-- How many magnitudes lie between two neighbouring powers of two. -/
def block (f : Format) : Nat := 1 <<< (f.precision - 1)

/-- The magnitude of a rank, in units of the format.  Below one block ranks count
    units; above it, each block doubles the spacing of the one before. -/
def units (f : Format) (rank : Nat) : Nat :=
  if rank < f.block then rank
  else (f.block + rank % f.block) <<< (rank / f.block - 1)

/-- The magnitude of a rank. -/
def magnitude (f : Format) (rank : Nat) : Rat :=
  (f.units rank : Rat) / ((1 <<< f.scale : Nat) : Rat)

/-- The rank of the magnitude nearest to `|q|`, ties to the even rank.

    In units, `|q|` is `n / d`.  The spacing around it is `2 ^ e` units, where `e` is
    how far the integer part of `n / d` overflows a significand; rounding to a multiple
    of the spacing and passing over `e` blocks gives the rank.  Rounding up to the next
    power of two needs no care: its rank is the next one. -/
def rank (f : Format) (q : Rat) : Nat :=
  let n := q.num.natAbs <<< f.scale
  let d := q.den
  let e := (n / d).log2 - (f.precision - 1)
  roundQuotient n (d <<< e) + e * f.block

/-- The value of the format nearest to `q`, ties to the even significand. -/
def nearest (f : Format) (q : Rat) : Rat :=
  if q < 0 then -f.magnitude (f.rank q) else f.magnitude (f.rank q)

/-- Below one block, a magnitude is its rank in units. -/
theorem units_of_lt_block {f : Format} {rank : Nat} (h : rank < f.block) :
    f.units rank = rank := by
  simp [units, h]

/-- Zero has rank zero. -/
@[simp] theorem rank_zero (f : Format) : f.rank 0 = 0 := by
  simp [rank, roundQuotient]

end Format

end ChainCalc
