import ChainCalc.Format

namespace ChainCalc

/-!
# Double-precision values

A double is a sign and the rank of its magnitude, an infinity, or not a number.
Zeros have a sign.  All values that are not numbers count as one.

* `Binary64.round` — the double nearest to a rational; every operation ends in it.
* `Binary64.ofInt`, `neg`, `add`, `sub`, `mul`, `div` — conversion and arithmetic, each
  rounding the exact result once.
* `Binary64.toBits`, `Binary64.ofBits` — the interchange encoding, in which the low 63
  bits of a finite value are its rank.
-/

/-- The number of finite magnitudes of a double, which is the rank of the first magnitude
    out of range. -/
def Binary64.finiteRanks : Nat := 0x7FF0000000000000

/-- A double-precision value. -/
inductive Binary64 where
  /-- A zero or another finite value. -/
  | finite (negative : Bool) (rank : Fin Binary64.finiteRanks)
  | infinite (negative : Bool)
  | nan
  deriving DecidableEq

namespace Binary64

/-- The rational with a given sign and magnitude. -/
def signed (negative : Bool) (magnitude : Rat) : Rat :=
  if negative then -magnitude else magnitude

/-- The number that a finite value stands for; infinities and NaN stand for none.  Both
    zeros stand for zero. -/
def toRat? : Binary64 → Option Rat
  | finite negative rank => some (signed negative (Format.binary64.magnitude rank))
  | _ => none

/-- Whether a value is finite. -/
def isFinite : Binary64 → Bool
  | finite _ _ => true
  | _ => false

/-- The value nearest to `q`, ties to the even significand, and the infinity of `q`'s
    sign past the largest finite value.  A zero result keeps the sign of `q`; if `q` is
    zero itself, its sign is `zeroSign`. -/
def round (zeroSign : Bool) (q : Rat) : Binary64 :=
  let negative := if q = 0 then zeroSign else decide (q < 0)
  let rank := Format.binary64.rank q
  if h : rank < finiteRanks then finite negative ⟨rank, h⟩ else infinite negative

/-- The value nearest to an integer. -/
def ofInt (n : Int) : Binary64 := round false (n : Rat)

/-! ### Arithmetic -/

/-- The value with the other sign. -/
def neg : Binary64 → Binary64
  | finite negative rank => finite (!negative) rank
  | infinite negative => infinite (!negative)
  | nan => nan

/-- The sum.  A sum of zero is negative only if both terms are. -/
def add : Binary64 → Binary64 → Binary64
  | nan, _ => nan
  | _, nan => nan
  | infinite s, infinite t => if s = t then infinite s else nan
  | infinite s, finite _ _ => infinite s
  | finite _ _, infinite t => infinite t
  | finite s a, finite t b =>
    round (s && t)
      (signed s (Format.binary64.magnitude a) + signed t (Format.binary64.magnitude b))

/-- The difference, which adds the value with the other sign. -/
def sub (x y : Binary64) : Binary64 := x.add y.neg

/-- The product.  Its sign is negative when just one factor is; zero times infinity is
    not a number. -/
def mul : Binary64 → Binary64 → Binary64
  | nan, _ => nan
  | _, nan => nan
  | infinite s, infinite t => infinite (s ^^ t)
  | infinite s, finite t b => if b.val = 0 then nan else infinite (s ^^ t)
  | finite s a, infinite t => if a.val = 0 then nan else infinite (s ^^ t)
  | finite s a, finite t b =>
    round (s ^^ t)
      (signed s (Format.binary64.magnitude a) * signed t (Format.binary64.magnitude b))

/-- The quotient.  Its sign is as for a product; zero by zero and infinity by infinity
    are not numbers, and any other value by zero is infinite. -/
def div : Binary64 → Binary64 → Binary64
  | nan, _ => nan
  | _, nan => nan
  | infinite _, infinite _ => nan
  | infinite s, finite t _ => infinite (s ^^ t)
  | finite s _, infinite t => round (s ^^ t) 0
  | finite s a, finite t b =>
    if b.val = 0 then (if a.val = 0 then nan else infinite (s ^^ t))
    else
      round (s ^^ t)
        (signed s (Format.binary64.magnitude a) / signed t (Format.binary64.magnitude b))

/-! ### Interchange encoding -/

/-- The bit of the encoding that says a value is negative. -/
def signBit : Bool → Nat
  | true => 0x8000000000000000
  | false => 0

/-- The encoding of a value in 64 bits. -/
def toBits : Binary64 → UInt64
  | finite negative rank => UInt64.ofNat (signBit negative + rank)
  | infinite negative => UInt64.ofNat (signBit negative + finiteRanks)
  | nan => 0x7FF8000000000000

/-- The value that 64 bits encode. -/
def ofBits (bits : UInt64) : Binary64 :=
  let negative := decide (0x8000000000000000 ≤ bits.toNat)
  let rank := bits.toNat % 0x8000000000000000
  if h : rank < finiteRanks then finite negative ⟨rank, h⟩
  else if rank = finiteRanks then infinite negative
  else nan

/-- Decoding undoes encoding. -/
theorem ofBits_toBits (x : Binary64) : ofBits x.toBits = x := by
  cases x with
  | finite negative rank =>
    have hrank : rank.val < 0x7FF0000000000000 := rank.isLt
    have hbits : (UInt64.ofNat (signBit negative + rank.val)).toNat
        = signBit negative + rank.val := by
      rw [UInt64.toNat_ofNat']
      exact Nat.mod_eq_of_lt (by cases negative <;> simp only [signBit] <;> omega)
    have hmod : (signBit negative + rank.val) % 0x8000000000000000 = rank.val := by
      cases negative <;> simp only [signBit] <;> omega
    have hsign : decide (0x8000000000000000 ≤ signBit negative + rank.val) = negative := by
      cases negative <;> simp [signBit]
      omega
    simp only [toBits, ofBits, hbits, hmod, hsign, rank.isLt, dif_pos]
  | infinite negative => cases negative <;> decide +kernel
  | nan => decide +kernel

/-- Changing the sign twice changes nothing. -/
@[simp] theorem neg_neg (x : Binary64) : x.neg.neg = x := by
  cases x <;> simp [neg]

end Binary64

end ChainCalc
