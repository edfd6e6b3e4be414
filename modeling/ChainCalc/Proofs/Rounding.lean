import ChainCalc.Binary64.Basic
import Mathlib.Algebra.Order.Field.Rat
import Mathlib.Algebra.Order.Ring.Abs
import Mathlib.Tactic.FieldSimp
import Mathlib.Tactic.Linarith
import Mathlib.Tactic.NormNum
import Mathlib.Tactic.Positivity
import Mathlib.Tactic.Ring

namespace ChainCalc

/-!
# Rounding — values of a format round to themselves

Rounding is defined on the numerator and denominator of a rational in lowest terms.  This
file says what it does to a fraction in any terms, and from that what it does to the
values of a format: nothing.

* `roundQuotient_mul_right` — rounding a quotient does not depend on its terms.
* `Format.rank_eq_of_abs_eq` — the rank of a rational from any fraction for it.
* `Format.exists_units_eq`, `exists_significand` — the magnitudes of a format are the
  significands of its precision, scaled by powers of two.
* `Format.rank_magnitude`, `nearest_of_abs_eq` — values of a format are their own
  nearest values.
* `Binary64.Representable` — the rationals that are doubles exactly, and
  `Binary64.toRat?_round`, by which rounding does not change them.
-/

/-! ### Quotients in any terms -/

/-- Rounding a quotient does not depend on a common factor of its terms. -/
theorem roundQuotient_mul_right (n d : ℕ) {k : ℕ} (hk : 0 < k) :
    roundQuotient (n * k) (d * k) = roundQuotient n d := by
  have hlt : 2 * (n % d * k) < d * k ↔ 2 * (n % d) < d := by
    rw [← Nat.mul_assoc, Nat.mul_lt_mul_right hk]
  have hgt : d * k < 2 * (n % d * k) ↔ d < 2 * (n % d) := by
    rw [← Nat.mul_assoc, Nat.mul_lt_mul_right hk]
  simp only [roundQuotient, Nat.mul_div_mul_right _ _ hk, Nat.mul_mod_mul_right, hlt, hgt]

/-- A quotient that is whole is not changed by rounding. -/
theorem roundQuotient_mul_self (n : ℕ) {d : ℕ} (hd : 0 < d) : roundQuotient (n * d) d = n := by
  simp [roundQuotient, hd]

namespace Format

variable (f : Format)

theorem block_eq : f.block = 2 ^ (f.precision - 1) := by
  simp [block, Nat.one_shiftLeft]

theorem block_pos : 0 < f.block := by
  rw [block_eq]
  exact Nat.two_pow_pos _

/-- A magnitude as a fraction. -/
theorem magnitude_eq (r : ℕ) : f.magnitude r = (f.units r : ℚ) / 2 ^ f.scale := by
  simp [magnitude, Nat.one_shiftLeft]

/-- The rank of a rational does not depend on its sign. -/
theorem rank_neg (q : ℚ) : f.rank (-q) = f.rank q := by
  simp [rank]

/-- The rank of a rational from any fraction for its magnitude in units. -/
theorem rank_eq_of_abs_eq {q : ℚ} {n d : ℕ} (hd : 0 < d)
    (hq : |q| = (n : ℚ) / d / 2 ^ f.scale) :
    f.rank q = roundQuotient n (d * 2 ^ ((n / d).log2 - (f.precision - 1)))
      + ((n / d).log2 - (f.precision - 1)) * f.block := by
  have hden : 0 < q.den := q.den_pos
  -- Both fractions stand for the magnitude, so their terms agree crosswise.
  have hcross : q.num.natAbs * 2 ^ f.scale * d = n * q.den := by
    have habs : |q| = (q.num.natAbs : ℚ) / q.den := by
      rw [Rat.abs_def, Rat.divInt_eq_div]
      simp
    have hdq : (d : ℚ) ≠ 0 := by positivity
    have hdenq : (q.den : ℚ) ≠ 0 := by positivity
    rw [habs] at hq
    field_simp at hq
    have hnat : q.num.natAbs * d * 2 ^ f.scale = q.den * n := by exact_mod_cast hq
    rw [Nat.mul_right_comm, hnat, Nat.mul_comm]
  have hfloor : q.num.natAbs * 2 ^ f.scale / q.den = n / d := by
    rw [← Nat.mul_div_mul_right _ _ hd, hcross, Nat.mul_comm n, Nat.mul_div_mul_left _ _ hden]
  have hround : ∀ e, roundQuotient (q.num.natAbs * 2 ^ f.scale) (q.den * 2 ^ e)
      = roundQuotient n (d * 2 ^ e) := by
    intro e
    rw [← roundQuotient_mul_right _ _ hd, hcross, ← roundQuotient_mul_right n _ hden]
    congr 1
    ring
  simp only [rank, Nat.shiftLeft_eq, hfloor, hround]

/-! ### Magnitudes by significand and power of two -/

variable {f}

/-- Behind the first block, the magnitude of a rank is a significand of full length, scaled
    by the number of blocks in between. -/
theorem units_mul_block_add (k : ℕ) {m : ℕ} (hlow : f.block ≤ m) (hhigh : m < 2 * f.block) :
    f.units (k * f.block + m) = m * 2 ^ k := by
  obtain ⟨j, rfl⟩ := Nat.exists_eq_add_of_le hlow
  have hj : j < f.block := by omega
  have hrank : k * f.block + (f.block + j) = j + f.block * (k + 1) := by ring
  have hge : ¬ j + f.block * (k + 1) < f.block := by
    have := Nat.le_mul_of_pos_right f.block (Nat.succ_pos k)
    omega
  rw [units, hrank, if_neg hge, Nat.add_mul_mod_self_left, Nat.mod_eq_of_lt hj,
    Nat.add_mul_div_left _ _ f.block_pos, Nat.div_eq_of_lt hj, Nat.shiftLeft_eq]
  congr 2
  omega

/-- A rank is in the first block, or it is a significand of full length behind so many
    blocks. -/
theorem lt_block_or_exists (f : Format) (r : ℕ) :
    r < f.block ∨ ∃ k m, f.block ≤ m ∧ m < 2 * f.block ∧ r = k * f.block + m := by
  rcases Nat.lt_or_ge r f.block with h | h
  · exact .inl h
  · have hmod : r % f.block < f.block := Nat.mod_lt _ f.block_pos
    have hdiv : 1 ≤ r / f.block := (Nat.one_le_div_iff f.block_pos).2 h
    obtain ⟨k, hk⟩ := Nat.exists_eq_add_of_le hdiv
    refine .inr ⟨k, f.block + r % f.block, by omega, by omega, ?_⟩
    have hr := Nat.div_add_mod r f.block
    rw [hk] at hr
    rw [← hr]
    ring_nf
    simp [Nat.add_mod]

/-- The magnitude of a rank is a significand scaled by a power of two, which is small for
    small ranks. -/
theorem exists_significand (f : Format) (r : ℕ) :
    ∃ m k, m < 2 * f.block ∧ f.units r = m * 2 ^ k ∧ (k = 0 ∨ (k + 1) * f.block ≤ r) := by
  rcases f.lt_block_or_exists r with h | ⟨k, m, hlow, hhigh, rfl⟩
  · exact ⟨r, 0, by omega, by rw [units_of_lt_block h, pow_zero, mul_one], .inl rfl⟩
  · refine ⟨m, k, hhigh, units_mul_block_add k hlow hhigh, .inr ?_⟩
    rw [add_mul, one_mul]
    omega

/-- A significand scaled by a power of two is the magnitude of a rank.  By induction on the
    power: a short significand takes a factor of two from it. -/
theorem exists_units_eq (f : Format) {m : ℕ} (e : ℕ) (hm : m < 2 * f.block) :
    ∃ r, r < (e + 2) * f.block ∧ f.units r = m * 2 ^ e := by
  induction e generalizing m with
  | zero =>
    rcases Nat.lt_or_ge m f.block with h | h
    · exact ⟨m, by omega, by rw [units_of_lt_block h, pow_zero, mul_one]⟩
    · exact ⟨0 * f.block + m, by omega, units_mul_block_add 0 h hm⟩
  | succ e ih =>
    rcases Nat.lt_or_ge m f.block with h | h
    · obtain ⟨r, hr, hunits⟩ := ih (m := 2 * m) (by omega)
      refine ⟨r, hr.trans_le (Nat.mul_le_mul_right _ (by omega)), ?_⟩
      rw [hunits, pow_succ]
      ring
    · refine ⟨(e + 1) * f.block + m, ?_, units_mul_block_add (e + 1) h hm⟩
      have hsplit : (e + 1 + 2) * f.block = (e + 1) * f.block + 2 * f.block := by ring
      omega

/-- A number that is a significand times a power of two, not too small, is a value of the
    format up to its sign. -/
theorem exists_abs_eq_magnitude (f : Format) {q : ℚ} {m e : ℤ} (hm : m.natAbs < 2 * f.block)
    (he : -(f.scale : ℤ) ≤ e) (hq : q = m * 2 ^ e) :
    ∃ r, r < ((e + f.scale).toNat + 2) * f.block ∧ |q| = f.magnitude r := by
  obtain ⟨r, hr, hunits⟩ := f.exists_units_eq (e + f.scale).toNat hm
  refine ⟨r, hr, ?_⟩
  have hpow : (2 : ℚ) ^ e = 2 ^ (e + f.scale).toNat / 2 ^ f.scale := by
    rw [eq_div_iff (by positivity), ← zpow_natCast, ← zpow_natCast, ← zpow_add₀ (by norm_num)]
    congr 1
    omega
  have hpos : (0 : ℚ) < 2 ^ e := zpow_pos (by norm_num) e
  have habs : |(m : ℚ)| = m.natAbs := by rw [← Int.cast_abs, Int.abs_eq_natAbs, Int.cast_natCast]
  rw [hq, abs_mul, abs_of_pos hpos, hpow, magnitude_eq, hunits, habs]
  push_cast
  ring

/-! ### Values of a format -/

theorem magnitude_nonneg (f : Format) (r : ℕ) : 0 ≤ f.magnitude r := by
  rw [magnitude_eq]
  positivity

/-- The length of a significand of full length that is scaled by a power of two. -/
theorem log2_mul_two_pow {f : Format} (k : ℕ) {m : ℕ} (hlow : f.block ≤ m)
    (hhigh : m < 2 * f.block) : (m * 2 ^ k).log2 = f.precision - 1 + k := by
  have hm : 0 < m := f.block_pos.trans_le hlow
  have hk : 0 < 2 ^ k := Nat.two_pow_pos k
  rw [f.block_eq] at hlow hhigh
  have hlower : 2 ^ (f.precision - 1 + k) ≤ m * 2 ^ k := by
    rw [pow_add]
    exact Nat.mul_le_mul_right _ hlow
  have hupper : m * 2 ^ k < 2 ^ (f.precision - 1 + k + 1) := by
    rw [pow_succ', pow_add, ← mul_assoc]
    exact Nat.mul_lt_mul_of_pos_right hhigh hk
  exact (Nat.log2_eq_iff (Nat.mul_pos hm hk).ne').2 ⟨hlower, hupper⟩

/-- **Rounding to a rank undoes magnitudes.** -/
theorem rank_magnitude (f : Format) (r : ℕ) : f.rank (f.magnitude r) = r := by
  have habs : |f.magnitude r| = ((f.units r : ℕ) : ℚ) / (1 : ℕ) / 2 ^ f.scale := by
    rw [abs_of_nonneg (f.magnitude_nonneg r), magnitude_eq, Nat.cast_one, div_one]
  rw [f.rank_eq_of_abs_eq one_pos habs, Nat.div_one, one_mul]
  rcases f.lt_block_or_exists r with h | ⟨k, m, hlow, hhigh, rfl⟩
  · -- In the first block, the spacing is one unit.
    have hlog : r.log2 - (f.precision - 1) = 0 := by
      rcases Nat.eq_zero_or_pos r with rfl | hpos
      · simp
      · rw [f.block_eq, ← Nat.log2_lt (by omega)] at h
        omega
    have hwhole := roundQuotient_mul_self r one_pos
    rw [mul_one] at hwhole
    rw [units_of_lt_block h, hlog, pow_zero, zero_mul, add_zero, hwhole]
  · -- Behind it, the spacing is the scale of the significand.
    have hlog : (m * 2 ^ k).log2 - (f.precision - 1) = k := by
      rw [log2_mul_two_pow k hlow hhigh, Nat.add_sub_cancel_left]
    rw [units_mul_block_add k hlow hhigh, hlog, roundQuotient_mul_self m (Nat.two_pow_pos k)]
    ring

/-- The rank of a value is the rank of its magnitude. -/
theorem rank_of_abs_eq {f : Format} {q : ℚ} {r : ℕ} (hq : |q| = f.magnitude r) :
    f.rank q = r := by
  rcases abs_choice q with h | h
  · rw [← h, hq, rank_magnitude]
  · rw [← rank_neg, ← h, hq, rank_magnitude]

/-- A value of a format is its own nearest value. -/
theorem nearest_of_abs_eq {f : Format} {q : ℚ} {r : ℕ} (hq : |q| = f.magnitude r) :
    f.nearest q = q := by
  rw [nearest, rank_of_abs_eq hq, ← hq]
  split
  · next hneg => rw [abs_of_neg hneg, neg_neg]
  · next hnonneg => exact abs_of_nonneg (not_lt.1 hnonneg)

end Format

/-! ### Doubles -/

namespace Binary64

/-- The rationals that are doubles exactly: an integer of at most 53 bits, scaled by a
    power of two in the range of the exponents. -/
def Representable (q : ℚ) : Prop :=
  ∃ m e : ℤ, m.natAbs < 2 ^ 53 ∧ -1074 ≤ e ∧ e ≤ 971 ∧ q = m * 2 ^ e

theorem block_binary64 : 2 * Format.binary64.block = 2 ^ 53 := by decide

theorem finiteRanks_eq : finiteRanks = 2047 * Format.binary64.block := by decide

/-- A number that is a double exactly is the magnitude of a finite rank, up to its sign. -/
theorem Representable.exists_rank {q : ℚ} (h : Representable q) :
    ∃ r, r < finiteRanks ∧ |q| = Format.binary64.magnitude r := by
  obtain ⟨m, e, hm, hlow, hhigh, hq⟩ := h
  have hscale : (Format.binary64.scale : ℤ) = 1074 := rfl
  rw [← block_binary64] at hm
  obtain ⟨r, hr, habs⟩ := Format.binary64.exists_abs_eq_magnitude hm (by omega) hq
  refine ⟨r, hr.trans_le ?_, habs⟩
  rw [finiteRanks_eq]
  exact Nat.mul_le_mul_right _ (by omega)

/-- Extended precision has every double. -/
theorem Representable.nearest_extended {q : ℚ} (h : Representable q) :
    Format.extended.nearest q = q := by
  obtain ⟨m, e, hm, hlow, -, hq⟩ := h
  have hblock : 2 ^ 53 ≤ 2 * Format.extended.block := by decide
  have hscale : (Format.extended.scale : ℤ) = 16445 := rfl
  obtain ⟨r, -, habs⟩ :=
    Format.extended.exists_abs_eq_magnitude (hm.trans_le hblock) (by omega) hq
  exact Format.nearest_of_abs_eq habs

/-- A number of finite rank is rounded to a finite value. -/
theorem round_of_rank_lt (zeroSign : Bool) {q : ℚ} (h : Format.binary64.rank q < finiteRanks) :
    round zeroSign q
      = finite (if q = 0 then zeroSign else decide (q < 0)) ⟨Format.binary64.rank q, h⟩ :=
  dif_pos h

/-- The magnitude of a number with its sign is the number, whatever sign a zero has. -/
theorem signed_abs (zeroSign : Bool) (q : ℚ) :
    signed (if q = 0 then zeroSign else decide (q < 0)) |q| = q := by
  rcases lt_trichotomy q 0 with hneg | rfl | hpos
  · simp [signed, hneg, hneg.ne, abs_of_neg]
  · simp [signed]
  · simp [signed, hpos.ne', hpos.not_gt, hpos.le]

/-- **A number that is a double exactly is rounded to itself**, whatever sign a zero is to
    have. -/
theorem toRat?_round {q : ℚ} (h : Representable q) (zeroSign : Bool) :
    (round zeroSign q).toRat? = some q := by
  obtain ⟨r, hr, habs⟩ := h.exists_rank
  have hrank := Format.rank_of_abs_eq habs
  rw [← hrank] at hr habs
  rw [round_of_rank_lt zeroSign hr, toRat?, ← habs, signed_abs]

/-- The numbers that doubles stand for are those that are doubles exactly. -/
theorem representable_iff (q : ℚ) : Representable q ↔ ∃ x : Binary64, x.toRat? = some q := by
  constructor
  · intro h
    exact ⟨round false q, toRat?_round h false⟩
  · rintro ⟨x, hx⟩
    cases x with
    | finite negative rank =>
      obtain ⟨m, k, hm, hunits, hk⟩ := Format.binary64.exists_significand rank
      have hrank : rank.val < 2047 * Format.binary64.block := by
        rw [← finiteRanks_eq]
        exact rank.isLt
      have hexponent : k ≤ 2045 := by
        rcases hk with rfl | hk
        · omega
        · have hlt : k + 1 < 2047 := Nat.lt_of_mul_lt_mul_right (hk.trans_lt hrank)
          omega
      have hscale : Format.binary64.scale = 1074 := rfl
      have hpow : (2 : ℚ) ^ ((k : ℤ) - 1074) = 2 ^ k / 2 ^ 1074 := by
        rw [zpow_sub₀ (by norm_num), zpow_natCast]
        rfl
      have hmagnitude : Format.binary64.magnitude rank = m * 2 ^ ((k : ℤ) - 1074) := by
        rw [Format.magnitude_eq, hunits, hscale, hpow, Nat.cast_mul, Nat.cast_pow, Nat.cast_ofNat,
          mul_div_assoc]
      rw [block_binary64] at hm
      refine ⟨if negative then -m else m, k - 1074, ?_, by omega, by omega, ?_⟩
      · cases negative <;> simpa using hm
      · rw [toRat?, Option.some.injEq, hmagnitude] at hx
        rw [← hx]
        cases negative <;> simp [signed]
    | infinite negative => cases hx
    | nan => cases hx

end Binary64

end ChainCalc
