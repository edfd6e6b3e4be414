import ChainCalc.Proofs.Widening

namespace ChainCalc

/-!
# TwoRoundings — the quotients that are not rounded to the nearest double

A quotient of words that is not an integer is rounded to extended precision first, and then
once more.  The second rounding can only go wrong from half-way between two doubles: it takes
the even one, though the quotient itself may be nearer to the other.  So a quotient is rounded
to the nearest double exactly if it is not moved to half-way from the side of an odd double.

* `Format.abs_nearest_le`, `Format.le_abs_nearest` — rounding does not pass a value of the format.
* `Binary64.exists_extended_magnitude`, `exists_extended_middle` — extended precision has every
  double, and what is half-way between two.
* `Binary64.Misrounded` — the numbers that are moved to half-way from the wrong side.
* `Binary64.isNearest_round_extended_iff` — two roundings give the nearest double to all others.
* `Binary64.not_misrounded_of_natAbs_lt` — no quotient by a small divisor is among them.
* `Number.apply_divide_integer` — what dividing a word by a word gives.
-/

namespace Format

variable {f : Format} {q : ℚ} {s : ℕ}

theorem abs_nearest (f : Format) (q : ℚ) : |f.nearest q| = f.magnitude (f.rank q) := by
  have hnonneg := f.magnitude_nonneg (f.rank q)
  unfold nearest
  split
  · rw [abs_neg, abs_of_nonneg hnonneg]
  · exact abs_of_nonneg hnonneg

/-- Rounding keeps the sign of what it does not round to zero. -/
theorem nearest_neg_iff (h : f.nearest q ≠ 0) : f.nearest q < 0 ↔ q < 0 := by
  have hnonneg := f.magnitude_nonneg (f.rank q)
  unfold nearest at h ⊢
  split
  · next hneg =>
    rw [if_pos hneg] at h
    exact iff_of_true (lt_of_le_of_ne (neg_nonpos.2 hnonneg) h) hneg
  · next hneg => exact iff_of_false hnonneg.not_gt hneg

/-- Rounding does not go above a value of the format that is above. -/
theorem abs_nearest_le (heven : 2 ∣ f.block) (h : |q| ≤ f.magnitude s) :
    |f.nearest q| ≤ f.magnitude s := by
  have hrank := rank_le_rank heven (h.trans (le_abs_self _))
  rw [rank_magnitude] at hrank
  rw [abs_nearest]
  exact f.magnitude_strictMono.monotone hrank

/-- Rounding does not go below a value of the format that is below. -/
theorem le_abs_nearest (heven : 2 ∣ f.block) (h : f.magnitude s ≤ |q|) :
    f.magnitude s ≤ |f.nearest q| := by
  have hrank := rank_le_rank heven ((abs_of_nonneg (f.magnitude_nonneg s)).le.trans h)
  rw [rank_magnitude] at hrank
  rw [abs_nearest]
  exact f.magnitude_strictMono.monotone hrank

end Format

namespace Binary64

/-! ### Doubles in extended precision -/

theorem two_dvd_block_extended : 2 ∣ Format.extended.block := by decide

/-- Extended precision has every number of 64 bits, scaled by a power of two that is not too
    small. -/
theorem exists_extended {m : ℕ} (k : ℕ) {j : ℕ} (hm : m < 2 ^ 64) (hj : j ≤ 16445) :
    ∃ s, (m : ℚ) * 2 ^ k / 2 ^ j = Format.extended.magnitude s := by
  have hblock : 2 * Format.extended.block = 2 ^ 64 := by decide
  have hscale : (Format.extended.scale : ℤ) = 16445 := rfl
  have hpow : (2 : ℚ) ^ ((k : ℤ) - j) = 2 ^ k / 2 ^ j := by
    rw [zpow_sub₀ two_ne_zero, zpow_natCast, zpow_natCast]
  have hbits : ((m : ℤ)).natAbs < 2 * Format.extended.block := by
    rw [hblock]
    exact hm
  obtain ⟨s, -, hs⟩ := Format.extended.exists_abs_eq_magnitude (e := (k : ℤ) - j) hbits
    (by omega) rfl
  refine ⟨s, ?_⟩
  rw [← hs, hpow, Int.cast_natCast, ← mul_div_assoc, abs_of_nonneg (by positivity)]

/-- A double and what is half-way to the next one, by the significand and the blocks in front. -/
theorem exists_magnitude_middle_eq (r : ℕ) :
    ∃ k m : ℕ, (k = 0 ∨ 2 ^ 52 ≤ m) ∧ m < 2 ^ 53
      ∧ Format.binary64.magnitude r = m * 2 ^ k / 2 ^ 1074
      ∧ Format.binary64.middle r = (2 * m + 1 : ℕ) * 2 ^ k / 2 ^ 1075 := by
  obtain ⟨k, m, hlow, hhigh, rfl⟩ := Format.binary64.exists_eq_mul_block_add r
  have hscale : Format.binary64.scale = 1074 := rfl
  refine ⟨k, m, hlow, hhigh.trans_eq block_binary64, ?_, ?_⟩
  · rw [Format.magnitude_eq, Format.units_mul_block_add_of_le hlow hhigh.le, hscale, Nat.cast_mul,
      Nat.cast_pow, Nat.cast_ofNat]
  · rw [Format.middle, Format.magnitude_eq, Format.magnitude_eq, Format.units_succ hlow hhigh,
      Format.units_mul_block_add_of_le hlow hhigh.le, hscale, pow_succ (2 : ℚ) 1074]
    generalize (2 : ℚ) ^ 1074 = unit
    push_cast
    ring

theorem exists_extended_magnitude (r : ℕ) :
    ∃ s, Format.binary64.magnitude r = Format.extended.magnitude s := by
  obtain ⟨k, m, -, hm, hmagnitude, -⟩ := exists_magnitude_middle_eq r
  rw [hmagnitude]
  exact exists_extended k (by omega) (by decide)

theorem exists_extended_middle (r : ℕ) :
    ∃ s, Format.binary64.middle r = Format.extended.magnitude s := by
  obtain ⟨k, m, -, hm, -, hmiddle⟩ := exists_magnitude_middle_eq r
  rw [hmiddle]
  exact exists_extended k (by omega) (by decide)

variable {q v : ℚ} {r : ℕ}

/-- Rounding to extended precision does not go above such a value that is above. -/
theorem abs_nearest_extended_le (hv : ∃ s, v = Format.extended.magnitude s) (h : |q| ≤ v) :
    |Format.extended.nearest q| ≤ v := by
  obtain ⟨s, rfl⟩ := hv
  exact Format.abs_nearest_le two_dvd_block_extended h

/-- Nor does it go below such a value that is below. -/
theorem le_abs_nearest_extended (hv : ∃ s, v = Format.extended.magnitude s) (h : v ≤ |q|) :
    v ≤ |Format.extended.nearest q| := by
  obtain ⟨s, rfl⟩ := hv
  exact Format.le_abs_nearest two_dvd_block_extended h

/-! ### Rounding twice -/

/-- A number that extended precision moves to half-way between two neighbouring doubles, from
    the side of the odd one. -/
def Misrounded (q : ℚ) : Prop :=
  ∃ r, |Format.extended.nearest q| = Format.binary64.middle r
    ∧ (|q| < Format.binary64.middle r ∧ r % 2 = 1 ∨ Format.binary64.middle r < |q| ∧ r % 2 = 0)

/-- A number that is moved to half-way is between the same two doubles. -/
theorem between_of_abs_nearest_eq (h : |Format.extended.nearest q| = Format.binary64.middle r) :
    Format.binary64.Between q r ∧ Format.binary64.Between (Format.extended.nearest q) r := by
  have hlow := Format.binary64.magnitude_lt_middle r
  have hhigh := Format.binary64.middle_lt_magnitude r
  refine ⟨⟨?_, ?_⟩, ⟨h ▸ hlow.le, h ▸ hhigh⟩⟩
  · by_contra hlt
    have hle := abs_nearest_extended_le (exists_extended_magnitude r) (not_le.1 hlt).le
    exact (h ▸ hle).not_gt hlow
  · by_contra hge
    have hle := le_abs_nearest_extended (exists_extended_magnitude (r + 1)) (not_lt.1 hge)
    exact (h ▸ hle).not_gt hhigh

/-- A number that is moved to half-way from the wrong side goes to the wrong double. -/
theorem Misrounded.rank_ne (h : Misrounded q) :
    Format.binary64.rank (Format.extended.nearest q) ≠ Format.binary64.rank q := by
  obtain ⟨r, hmiddle, hside⟩ := h
  obtain ⟨hq, hnearest⟩ := between_of_abs_nearest_eq hmiddle
  rw [hnearest.rank_of_eq_middle two_dvd_block hmiddle]
  rcases hside with ⟨hlt, hodd⟩ | ⟨hgt, heven⟩
  · rw [hq.rank_of_lt_middle two_dvd_block hlt]
    omega
  · rw [hq.rank_of_middle_lt two_dvd_block hgt]
    omega

/-- Any other number goes to the same double as if it had been rounded once. -/
theorem rank_nearest_extended (h : ¬ Misrounded q) :
    Format.binary64.rank (Format.extended.nearest q) = Format.binary64.rank q := by
  obtain ⟨r, hq, hrank⟩ := Format.exists_between two_dvd_block q
  have hlow := Format.binary64.magnitude_lt_middle r
  have hhigh := Format.binary64.middle_lt_magnitude r
  rcases hrank with ⟨hlt, hrank⟩ | ⟨hgt, hrank⟩ | ⟨heq, hrank⟩
  · rcases (abs_nearest_extended_le (exists_extended_middle r) hlt.le).lt_or_eq with hlt' | heq
    · have hbetween : Format.binary64.Between (Format.extended.nearest q) r :=
        ⟨le_abs_nearest_extended (exists_extended_magnitude r) hq.le, hlt'.trans hhigh⟩
      rw [hbetween.rank_of_lt_middle two_dvd_block hlt', hrank]
    · have hodd : ¬ r % 2 = 1 := fun hodd => h ⟨r, heq, .inl ⟨hlt, hodd⟩⟩
      rw [(between_of_abs_nearest_eq heq).2.rank_of_eq_middle two_dvd_block heq, hrank]
      omega
  · rcases (le_abs_nearest_extended (exists_extended_middle r) hgt.le).lt_or_eq with hgt' | heq
    · rw [hrank]
      have hle := abs_nearest_extended_le (exists_extended_magnitude (r + 1)) hq.lt.le
      rcases hle.lt_or_eq with hlt' | heq
      · have hbetween : Format.binary64.Between (Format.extended.nearest q) r :=
          ⟨(hlow.trans hgt').le, hlt'⟩
        exact hbetween.rank_of_middle_lt two_dvd_block hgt'
      · exact Format.rank_of_abs_eq heq
    · have heven : ¬ r % 2 = 0 := fun heven => h ⟨r, heq.symm, .inr ⟨hgt, heven⟩⟩
      rw [(between_of_abs_nearest_eq heq.symm).2.rank_of_eq_middle two_dvd_block heq.symm, hrank]
      omega
  · -- Half-way is a value of extended precision, so it is not moved.
    obtain ⟨s, hs⟩ := exists_extended_middle r
    rw [Format.nearest_of_abs_eq (heq.trans hs)]

/-- A value in place of another that stands for the same number and is as even. -/
theorem IsNearest.congr {x y : Binary64} (h : IsNearest q x) (hvalue : y.toRat? = x.toRat?)
    (heven : y.toBits.toNat % 2 = x.toBits.toNat % 2) : IsNearest q y := by
  obtain ⟨v, hv, hall⟩ := h
  refine ⟨v, hvalue.trans hv, ?_⟩
  rw [heven]
  exact hall

/-- **Rounding twice.**  A number that is not too large is rounded by way of extended precision
    to the nearest double, unless it is moved to half-way from the wrong side. -/
theorem isNearest_round_extended_iff (zeroSign : Bool) (hq : |q| < 2 ^ 1024 - 2 ^ 970) :
    IsNearest q (round zeroSign (Format.extended.nearest q)) ↔ ¬ Misrounded q := by
  have hfinite := (rank_lt_finiteRanks_iff q).2 hq
  constructor
  · intro hnearest hmisrounded
    by_cases hfinite' : Format.binary64.rank (Format.extended.nearest q) < finiteRanks
    · rw [round_of_rank_lt zeroSign hfinite'] at hnearest
      exact hmisrounded.rank_ne (hnearest.rank_eq hfinite)
    · obtain ⟨v, hv, -⟩ := hnearest
      rw [round, dif_neg hfinite'] at hv
      cases hv
  · intro h
    have hrank := rank_nearest_extended h
    have hnearest := isNearest_round zeroSign hfinite
    have hself := round_of_rank_lt zeroSign hfinite
    have htwice := round_of_rank_lt zeroSign (hrank.trans_lt hfinite)
    refine hnearest.congr ?_ ?_
    · rw [hself, htwice]
      simp only [toRat?, hrank]
      rcases eq_or_ne (Format.binary64.rank q) 0 with hzero | hzero
      · rw [hzero, Format.magnitude_zero]
        simp [signed]
      · have hq0 : q ≠ 0 := fun h0 => hzero (h0 ▸ Format.rank_zero _)
        have hp0 : Format.extended.nearest q ≠ 0 := fun h0 =>
          hzero (hrank ▸ h0 ▸ Format.rank_zero _)
        rw [if_neg hq0, if_neg hp0, decide_eq_decide.2 (Format.nearest_neg_iff hp0)]
    · rw [hself, htwice, toBits_finite_mod_two, toBits_finite_mod_two]
      exact congrArg (· % 2) hrank

/-! ### What is not misrounded -/

/-- A number of extended precision is not moved at all. -/
theorem not_misrounded_of_abs_eq {s : ℕ} (h : |q| = Format.extended.magnitude s) :
    ¬ Misrounded q := by
  rintro ⟨r, hmiddle, hside⟩
  rw [Format.nearest_of_abs_eq h] at hmiddle
  rcases hside with ⟨hlt, -⟩ | ⟨hgt, -⟩
  · exact hlt.ne hmiddle
  · exact hgt.ne' hmiddle

/-- An integer in the range of words is a number of extended precision. -/
theorem exists_extended_of_integer {n : ℤ} (h : |(n : ℚ)| ≤ 2 ^ 63) :
    ∃ s, |(n : ℚ)| = Format.extended.magnitude s := by
  have hbits : n.natAbs < 2 ^ 64 := by
    rw [← Int.cast_abs, ← Nat.cast_natAbs] at h
    have hle : n.natAbs ≤ 2 ^ 63 := by exact_mod_cast h
    omega
  obtain ⟨s, hs⟩ := exists_extended 0 hbits (Nat.zero_le _)
  refine ⟨s, ?_⟩
  rw [← hs, pow_zero, mul_one, div_one, Nat.cast_natAbs, Int.cast_abs]

/-- So it is not moved at all. -/
theorem not_misrounded_of_integer {n : ℤ} (h : |(n : ℚ)| ≤ 2 ^ 63) : ¬ Misrounded n := by
  obtain ⟨s, hs⟩ := exists_extended_of_integer h
  exact not_misrounded_of_abs_eq hs

/-- A number that is moved to half-way between two doubles is very near to it: extended
    precision has eleven bits more than a double, so ten more than what is half-way, and a
    number is moved by half the spacing at most. -/
theorem abs_sub_middle_le {k m : ℕ} (hm : m < 2 ^ 53)
    (hmiddle : Format.binary64.middle r = (2 * m + 1 : ℕ) * 2 ^ k / 2 ^ 1075)
    (h : |Format.extended.nearest q| = Format.binary64.middle r) :
    |(|q| - Format.binary64.middle r)| ≤ 2 ^ k / 2 ^ 1086 := by
  have hnearest := Format.isNearest_rank two_dvd_block_extended q
  rw [Format.abs_nearest] at h
  -- The neighbours on both sides, where `2 ^ k / 2 ^ 1085` is the spacing.
  obtain ⟨above, habove⟩ := exists_extended (m := (2 * m + 1) * 2 ^ 10 + 1) k (j := 1085)
    (by omega) (by decide)
  obtain ⟨below, hbelow⟩ := exists_extended (m := (2 * m + 1) * 2 ^ 10 - 1) k (j := 1085)
    (by omega) (by decide)
  have hscale : (2 : ℚ) ^ 1085 = 2 ^ 1075 * 2 ^ 10 := by rw [← pow_add]
  have hscale' : (2 : ℚ) ^ 1086 = 2 ^ 1075 * 2 ^ 11 := by rw [← pow_add]
  have hspacing : (0 : ℚ) < 2 ^ k / 2 ^ 1075 := by positivity
  rw [hscale']
  have hbelow' : Format.extended.magnitude below
      = Format.binary64.middle r - 2 ^ k / 2 ^ 1075 / 2 ^ 10 := by
    rw [← hbelow, hmiddle, Nat.cast_sub (by omega), hscale]
    generalize (2 : ℚ) ^ 1075 = unit
    push_cast
    ring
  have habove' : Format.extended.magnitude above
      = Format.binary64.middle r + 2 ^ k / 2 ^ 1075 / 2 ^ 10 := by
    rw [← habove, hmiddle, hscale]
    generalize (2 : ℚ) ^ 1075 = unit
    push_cast
    ring
  have hle := hnearest.le above
  have hge := hnearest.le below
  rw [h, habove'] at hle
  rw [h, hbelow'] at hge
  rw [← div_div]
  generalize (2 : ℚ) ^ k / 2 ^ 1075 = spacing at *
  have hle' := Format.two_mul_le_add_of_abs_sub_le (by linarith) hle
  have hge' := Format.add_le_two_mul_of_abs_sub_le (by linarith) hge
  exact abs_le.2 ⟨by linarith, by linarith⟩

/-- Fractions that differ are apart by a fraction with the product of their terms at least. -/
theorem one_le_mul_abs_sub {n d m u : ℕ} (hd : 0 < d) (hu : 0 < u) (hne : (n : ℚ) / d ≠ m / u) :
    1 ≤ d * u * |(n : ℚ) / d - m / u| := by
  have hd' : (0 : ℚ) < d := by exact_mod_cast hd
  have hu' : (0 : ℚ) < u := by exact_mod_cast hu
  have hcross : (d : ℚ) * u * (n / d - m / u) = ((n * u - d * m : ℤ) : ℚ) := by
    push_cast
    field_simp
  have hne' : (n * u - d * m : ℤ) ≠ 0 := by
    intro hzero
    rw [hzero, Int.cast_zero, mul_eq_zero] at hcross
    exact hne (sub_eq_zero.1 (hcross.resolve_left (by positivity)))
  have hone : (1 : ℚ) ≤ |((n * u - d * m : ℤ) : ℚ)| := by
    rw [← Int.cast_abs]
    exact_mod_cast Int.one_le_abs hne'
  rwa [← hcross, abs_mul, abs_of_pos (by positivity)] at hone

section

variable {n d k m : ℕ} (hd : 0 < d) (hne : (n : ℚ) / d ≠ (2 * m + 1 : ℕ) * 2 ^ k / 2 ^ 1075)

include hd hne

/-- A quotient by a small divisor is not near to half-way, if that is a fraction whose
    denominator is the scale of the spacing. -/
theorem lt_abs_sub_of_fraction (hsmall : d < 2 ^ 11) (hk : k ≤ 1075) :
    2 ^ k / 2 ^ 1086 < |(n : ℚ) / d - (2 * m + 1 : ℕ) * 2 ^ k / 2 ^ 1075| := by
  obtain ⟨j, hj⟩ := Nat.exists_eq_add_of_le hk
  have hunit : (2 : ℚ) ^ 1075 = 2 ^ k * 2 ^ j := by rw [hj, pow_add]
  have hscale : (2 : ℚ) ^ 1086 = 2 ^ 1075 * 2 ^ 11 := by rw [← pow_add]
  have hfraction : ((2 * m + 1 : ℕ) : ℚ) * 2 ^ k / 2 ^ 1075 = (2 * m + 1 : ℕ) / (2 ^ j : ℕ) := by
    rw [hunit, Nat.cast_pow, Nat.cast_ofNat]
    field_simp
  rw [hfraction] at hne ⊢
  by_contra hnear
  have hapart := one_le_mul_abs_sub hd (Nat.two_pow_pos j) hne
  have hle := mul_le_mul_of_nonneg_left (not_lt.1 hnear)
    (by positivity : (0 : ℚ) ≤ d * (2 ^ j : ℕ))
  have hbound : (d : ℚ) * (2 ^ j : ℕ) * (2 ^ k / 2 ^ 1086) = d / 2 ^ 11 := by
    rw [hscale, hunit, Nat.cast_pow, Nat.cast_ofNat]
    field_simp
  have hlt : (d : ℚ) / 2 ^ 11 < 1 := (div_lt_one (by norm_num)).2 (by exact_mod_cast hsmall)
  exact absurd (hapart.trans (hle.trans_eq hbound)) hlt.not_ge

/-- Nor is it if half-way is an integer, which is so large then that the divisor must be small
    against the spacing. -/
theorem lt_abs_sub_of_integer (hn : n ≤ 2 ^ 63) (hm : 2 ^ 52 ≤ m) (hk : 1075 ≤ k) :
    2 ^ k / 2 ^ 1086 < |(n : ℚ) / d - (2 * m + 1 : ℕ) * 2 ^ k / 2 ^ 1075| := by
  obtain ⟨j, rfl⟩ := Nat.exists_eq_add_of_le hk
  have hscale : (2 : ℚ) ^ 1086 = 2 ^ 1075 * 2 ^ 11 := by rw [← pow_add]
  have hinteger : ((2 * m + 1 : ℕ) : ℚ) * 2 ^ (1075 + j) / 2 ^ 1075
      = ((2 * m + 1) * 2 ^ j : ℕ) / (1 : ℕ) := by
    rw [pow_add, Nat.cast_mul, Nat.cast_pow, Nat.cast_ofNat, Nat.cast_one, div_one]
    field_simp
  have hspacing : (2 : ℚ) ^ (1075 + j) / 2 ^ 1086 = 2 ^ j / 2 ^ 11 := by
    rw [hscale, pow_add]
    field_simp
  rw [hinteger] at hne ⊢
  rw [hspacing]
  by_contra hnear
  have hapart := one_le_mul_abs_sub hd one_pos hne
  have hle := mul_le_mul_of_nonneg_left (not_lt.1 hnear) (by positivity : (0 : ℚ) ≤ d * (1 : ℕ))
  have hlarge : 2 ^ 53 * 2 ^ j ≤ (n : ℚ) / d := by
    have hlow := (abs_le.1 (not_lt.1 hnear)).1
    have hfull : (2 ^ 52 : ℚ) ≤ m := by exact_mod_cast hm
    have hproduct : (2 ^ 53 + 1 : ℚ) * 2 ^ j ≤ (2 * m + 1) * 2 ^ j := by
      gcongr
      linarith
    have hpos : (0 : ℚ) < 2 ^ j := by positivity
    push_cast at hlow
    linarith only [hlow, hproduct, hpos]
  have hd' : (0 : ℚ) < d := by exact_mod_cast hd
  have hn' : (n : ℚ) ≤ 2 ^ 63 := by exact_mod_cast hn
  rw [le_div_iff₀ hd'] at hlarge
  rw [Nat.cast_one] at hle hapart
  linarith only [hapart, hle, hlarge, hn']

end

/-- **A quotient by a small divisor is not misrounded.**  Unless it is half-way, it is too far
    from there to be moved. -/
theorem not_misrounded_of_natAbs_lt {n d : ℤ} (hn : n.natAbs ≤ 2 ^ 63) (hd : d.natAbs < 2 ^ 11) :
    ¬ Misrounded (n / d) := by
  rcases eq_or_ne d 0 with rfl | hzero
  · rw [Int.cast_zero, div_zero]
    exact not_misrounded_of_abs_eq (s := 0) (by rw [abs_zero, Format.magnitude_zero])
  rintro ⟨r, hnearest, hside⟩
  obtain ⟨k, m, hlow, hm, -, hmiddle⟩ := exists_magnitude_middle_eq r
  have hmoved := abs_sub_middle_le hm hmiddle hnearest
  have hne : |(n : ℚ) / d| ≠ Format.binary64.middle r := by
    rcases hside with ⟨hlt, -⟩ | ⟨hgt, -⟩
    · exact hlt.ne
    · exact hgt.ne'
  have habs : |(n : ℚ) / d| = (n.natAbs : ℚ) / d.natAbs := by
    rw [abs_div, Nat.cast_natAbs, Nat.cast_natAbs, Int.cast_abs, Int.cast_abs]
  rw [habs, hmiddle] at hmoved hne
  have hpos : 0 < d.natAbs := Int.natAbs_pos.2 hzero
  rcases Nat.le_total k 1075 with hk | hk
  · exact hmoved.not_gt (lt_abs_sub_of_fraction hpos hne hd hk)
  · have hfull : 2 ^ 52 ≤ m := hlow.resolve_left (by omega)
    exact hmoved.not_gt (lt_abs_sub_of_integer hpos hne hn hfull hk)

/-- The range of words is far from where rounding overflows. -/
theorem word_lt_overflow : (2 : ℚ) ^ 63 < 2 ^ 1024 - 2 ^ 970 := by
  have hsplit : (2 : ℚ) ^ 1024 = 2 ^ 970 * 2 ^ 54 := by rw [← pow_add]
  have hle : (2 : ℚ) ^ 63 ≤ 2 ^ 970 := pow_le_pow_right₀ (by norm_num) (by decide)
  rw [hsplit]
  generalize (2 : ℚ) ^ 970 = large at *
  linarith only [hle]

/-- Changing the sign behind rounding is changing it before. -/
theorem neg_round (zeroSign : Bool) (q : ℚ) : (round zeroSign q).neg = round (!zeroSign) (-q) := by
  have hsign : (!if q = 0 then zeroSign else decide (q < 0))
      = if -q = 0 then !zeroSign else decide (-q < 0) := by
    rcases lt_trichotomy q 0 with hneg | rfl | hpos
    · simp [hneg, hneg.ne, hneg.le]
    · simp
    · simp [hpos, hpos.ne', hpos.le]
  unfold round
  simp only [Format.rank_neg, ← hsign]
  split <;> rfl

end Binary64

/-! ### Quotients -/

/-- A quotient is an integer that is rounded once, or it is rounded twice. -/
theorem Word.exists_run_quotient (a : Int64) {b : Int64} (hb : b ≠ 0) :
    (∃ (n : ℤ) (zeroSign : Bool), (a.toInt : ℚ) / b.toInt = n
        ∧ (quotient a b).run = .ok (Binary64.round zeroSign n))
      ∨ (quotient a b).run
        = .ok (Binary64.round false (Format.extended.nearest ((a.toInt : ℚ) / b.toInt))) := by
  have hb' : b.toInt ≠ 0 := fun hzero => hb ((eq_zero_iff b).2 hzero)
  rw [run_quotient a hb]
  by_cases hone : b = -1
  · refine .inl ⟨-a.toInt, true, ?_, ?_⟩
    · rw [hone, show (-1 : Int64).toInt = -1 from rfl, Int.cast_neg, Int.cast_neg, Int.cast_one,
        div_neg, div_one]
    · rw [if_pos hone, Binary64.ofInt, Binary64.neg_round, Int.cast_neg]
      rfl
  · rw [if_neg hone]
    by_cases hdvd : b.toInt ∣ a.toInt
    · refine .inl ⟨a.toInt.tdiv b.toInt, false, ?_, by rw [if_pos hdvd, Binary64.ofInt]⟩
      obtain ⟨k, hk⟩ := hdvd
      have hbq : (b.toInt : ℚ) ≠ 0 := Int.cast_ne_zero.2 hb'
      rw [hk, Int.mul_tdiv_cancel_left _ hb', Int.cast_mul, mul_div_cancel_left₀ _ hbq]
    · exact .inr (by rw [if_neg hdvd])

/-- A quotient of words is in the range of words. -/
theorem Word.abs_div_le (a : Int64) {b : Int64} (hb : b ≠ 0) :
    |(a.toInt : ℚ) / b.toInt| ≤ 2 ^ 63 := by
  have hb' : b.toInt ≠ 0 := fun hzero => hb ((eq_zero_iff b).2 hzero)
  have hone : (1 : ℚ) ≤ |(b.toInt : ℚ)| := by
    rw [← Int.cast_abs]
    exact_mod_cast Int.one_le_abs hb'
  rw [abs_div]
  exact (div_le_self (abs_nonneg _) hone).trans (Binary64.abs_word_le a)

namespace Number

/-- **Dividing a word by a word.**  Unless the divisor is zero, this never fails, and gives the
    nearest double to the exact quotient, where of two equally near doubles the even one is
    taken, but for the quotients that are misrounded.  Divisors below `2 ^ 11` have none of
    these. -/
theorem apply_divide_integer (a : Int64) {b : Int64} (hb : b ≠ 0) (position : ℕ) :
    ∃ x, apply .divide (.integer a) b position = .ok (.real x)
      ∧ (Binary64.IsNearest ((a.toInt : ℚ) / b.toInt) x
        ↔ ¬ Binary64.Misrounded ((a.toInt : ℚ) / b.toInt))
      ∧ (b.toInt.natAbs < 2 ^ 11 → ¬ Binary64.Misrounded ((a.toInt : ℚ) / b.toInt)) := by
  obtain ⟨x, hquotient, hcombine⟩ := combine_divide_integer (a := a) hb
  refine ⟨x, by rw [apply, if_neg fun h => hb h.2, hcombine], ?_,
    Binary64.not_misrounded_of_natAbs_lt (Word.natAbs_toInt_le a)⟩
  have hrange := Word.abs_div_le a hb
  rcases Word.exists_run_quotient a hb with ⟨n, zeroSign, hn, hx⟩ | hx
  · rw [hquotient, Except.ok.injEq] at hx
    rw [hx, hn]
    rw [hn] at hrange
    obtain ⟨u, -, -, hnearest⟩ := Binary64.exists_round_of_abs_le_word hrange zeroSign
    exact iff_of_true hnearest (Binary64.not_misrounded_of_integer hrange)
  · rw [hquotient, Except.ok.injEq] at hx
    rw [hx]
    exact Binary64.isNearest_round_extended_iff false (hrange.trans_lt Binary64.word_lt_overflow)

/-- One third is rounded to the nearest double. -/
theorem apply_divide_integer_third :
    (3 : Int64) ≠ 0 ∧ ∃ x, apply .divide (.integer 1) 3 2 = .ok (.real x)
      ∧ Binary64.IsNearest (1 / 3) x := by
  have hthree : (3 : Int64) ≠ 0 := by decide
  obtain ⟨x, hx, hnearest, hsmall⟩ := apply_divide_integer 1 hthree 2
  have hone : (((1 : Int64).toInt : ℤ) : ℚ) = 1 := by
    rw [show (1 : Int64).toInt = 1 from rfl, Int.cast_one]
  have hthird : (((3 : Int64).toInt : ℤ) : ℚ) = 3 := by
    rw [show (3 : Int64).toInt = 3 from rfl, Int.cast_ofNat]
  rw [hone, hthird] at hnearest hsmall
  exact ⟨hthree, x, hx, hnearest.2 (hsmall (by decide))⟩

/-- The quotient of `41` by `2067` is misrounded: the next double is nearer. -/
theorem apply_divide_41_2067 :
    ∃ x, apply .divide (.integer 41) 2067 0 = .ok (.real x)
      ∧ ¬ Binary64.IsNearest (41 / 2067) x := by
  refine ⟨Binary64.ofBits 0x3f944fc291e57ef2, by decide +kernel, ?_⟩
  rintro ⟨v, hv, hall⟩
  have hle := (hall (Binary64.ofBits 0x3f944fc291e57ef3) _ rfl).1
  obtain rfl := Option.some.inj hv
  exact absurd hle (by decide +kernel)

end Number

end ChainCalc
