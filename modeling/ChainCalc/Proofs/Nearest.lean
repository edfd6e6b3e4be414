import ChainCalc.Proofs.Rounding

namespace ChainCalc

/-!
# Nearest — rounding goes to the nearest value, from half-way to the even one

Rounding is defined by a quotient and its remainder.  This file says what that comes to: of all
magnitudes of the format the nearest is taken, and of two that are equally near the one of even
rank, whose significand is even.

* `Format.magnitude_strictMono` — ranks are in the order of their magnitudes.
* `Format.Between`, `Format.middle` — two neighbouring magnitudes around a rational, and
  half-way between them; `Format.rank_of_lt_middle` and its companions say where rounding goes.
* `Format.IsNearest`, `Format.isNearest_iff` — rounding is described by nearness alone.
* `Format.rank_le_rank` — rounding keeps the order of magnitudes.
* `Binary64.IsNearest`, `Binary64.isNearest_round` — the same for doubles, up to the largest.
-/

/-- The rounded quotient is one of the two integers around the quotient, as the remainder
    says. -/
theorem roundQuotient_cases (n d : ℕ) :
    2 * (n % d) < d ∧ roundQuotient n d = n / d
      ∨ d < 2 * (n % d) ∧ roundQuotient n d = n / d + 1
      ∨ 2 * (n % d) = d ∧ roundQuotient n d = n / d + n / d % 2 := by
  unfold roundQuotient
  dsimp only
  split
  · next h => exact .inl ⟨h, rfl⟩
  · split
    · next h => exact .inr (.inl ⟨h, rfl⟩)
    · exact .inr (.inr ⟨by omega, rfl⟩)

namespace Format

/-! ### The order of magnitudes -/

/-- Behind the first block, or if there is no block in between, the magnitude of a rank is a
    significand scaled by the number of blocks in between; the end of a block counts as the
    beginning of the next one, too. -/
theorem units_mul_block_add_of_le {f : Format} {k m : ℕ} (hlow : k = 0 ∨ f.block ≤ m)
    (hhigh : m ≤ 2 * f.block) : f.units (k * f.block + m) = m * 2 ^ k := by
  have hblock := f.block_pos
  rcases Nat.lt_or_ge m f.block with hlt | hge
  · obtain rfl := hlow.resolve_right (Nat.not_le.2 hlt)
    rw [zero_mul, zero_add, pow_zero, mul_one, units_of_lt_block hlt]
  · rcases hhigh.lt_or_eq with hlt | rfl
    · exact units_mul_block_add k hge hlt
    · have hnext : k * f.block + 2 * f.block = (k + 1) * f.block + f.block := by ring
      rw [hnext, units_mul_block_add (k + 1) le_rfl (by omega)]
      ring

/-- The spacing of magnitudes: a rank is a significand behind some blocks, and the next
    magnitude is one more of the same. -/
theorem units_succ {f : Format} {k m : ℕ} (hlow : k = 0 ∨ f.block ≤ m) (hhigh : m < 2 * f.block) :
    f.units (k * f.block + m + 1) = f.units (k * f.block + m) + 2 ^ k := by
  rw [add_assoc, units_mul_block_add_of_le (hlow.imp_right Nat.le_succ_of_le) hhigh,
    units_mul_block_add_of_le hlow hhigh.le, Nat.succ_mul]

/-- Every rank is such a significand. -/
theorem exists_eq_mul_block_add (f : Format) (r : ℕ) :
    ∃ k m, (k = 0 ∨ f.block ≤ m) ∧ m < 2 * f.block ∧ r = k * f.block + m := by
  rcases f.lt_block_or_exists r with h | ⟨k, m, hlow, hhigh, hr⟩
  · exact ⟨0, r, .inl rfl, by omega, by omega⟩
  · exact ⟨k, m, .inr hlow, hhigh, hr⟩

/-- Ranks are in the order of their magnitudes. -/
theorem magnitude_strictMono (f : Format) : StrictMono f.magnitude := by
  refine strictMono_nat_of_lt_succ fun r => ?_
  obtain ⟨k, m, hlow, hhigh, rfl⟩ := f.exists_eq_mul_block_add r
  have hunits : f.units (k * f.block + m) < f.units (k * f.block + m + 1) := by
    rw [units_succ hlow hhigh]
    exact Nat.lt_add_of_pos_right (Nat.two_pow_pos k)
  rw [magnitude_eq, magnitude_eq]
  gcongr

@[simp] theorem magnitude_zero (f : Format) : f.magnitude 0 = 0 := by
  rw [magnitude_eq, units_of_lt_block f.block_pos]
  simp

/-! ### Between two neighbours -/

/-- A rational whose magnitude is from that of a rank up to below the next one. -/
structure Between (f : Format) (q : ℚ) (r : ℕ) : Prop where
  le : f.magnitude r ≤ |q|
  lt : |q| < f.magnitude (r + 1)

/-- Half-way from the magnitude of a rank to the next one. -/
def middle (f : Format) (r : ℕ) : ℚ := (f.magnitude r + f.magnitude (r + 1)) / 2

theorem magnitude_lt_middle (f : Format) (r : ℕ) : f.magnitude r < f.middle r := by
  have hlt := f.magnitude_strictMono (Nat.lt_succ_self r)
  unfold middle
  linarith

theorem middle_lt_magnitude (f : Format) (r : ℕ) : f.middle r < f.magnitude (r + 1) := by
  have hlt := f.magnitude_strictMono (Nat.lt_succ_self r)
  unfold middle
  linarith

variable {f : Format} {q : ℚ} {r : ℕ}

/-- A rational is between two neighbours only. -/
theorem Between.unique {s : ℕ} (h : f.Between q r) (h' : f.Between q s) : r = s := by
  have hrs : r < s + 1 := f.magnitude_strictMono.lt_iff_lt.1 (h.le.trans_lt h'.lt)
  have hsr : s < r + 1 := f.magnitude_strictMono.lt_iff_lt.1 (h'.le.trans_lt h.lt)
  omega

/-- The blocks in front of a rational are chosen so that what is left is a significand of full
    length, if there are any. -/
theorem significand_bounds (f : Format) (t : ℕ) :
    let e := t.log2 - (f.precision - 1)
    (e = 0 ∨ f.block ≤ t / 2 ^ e) ∧ t / 2 ^ e < 2 * f.block := by
  intro e
  rw [f.block_eq, ← pow_succ']
  have hlt : t < 2 ^ (t.log2 + 1) := Nat.lt_log2_self
  rcases Nat.eq_zero_or_pos e with he | he
  · refine ⟨.inl he, ?_⟩
    rw [he, pow_zero, Nat.div_one]
    exact hlt.trans_le (Nat.pow_le_pow_right (by decide) (by omega))
  · have hne : t ≠ 0 := by
      rintro rfl
      simp [e] at he
    have hlog : t.log2 = f.precision - 1 + e := by omega
    refine ⟨.inr ?_, ?_⟩
    · rw [Nat.le_div_iff_mul_le (Nat.two_pow_pos e), ← pow_add, ← hlog]
      exact Nat.log2_self_le hne
    · rw [Nat.div_lt_iff_lt_mul (Nat.two_pow_pos e), ← pow_add]
      rwa [hlog, Nat.add_right_comm] at hlt

/-- How rounding is computed: the gap around a rational is divided into equal parts, so many of
    them are past the lower neighbour, and rounding goes by whether that is less than half. -/
theorem exists_parts (heven : 2 ∣ f.block) (q : ℚ) :
    ∃ (r past parts : ℕ) (part : ℚ), 0 < part ∧ past < parts
      ∧ |q| = f.magnitude r + past * part ∧ f.magnitude (r + 1) = f.magnitude r + parts * part
      ∧ (2 * past < parts ∧ f.rank q = r
        ∨ parts < 2 * past ∧ f.rank q = r + 1
        ∨ 2 * past = parts ∧ f.rank q = r + r % 2) := by
  -- In units, `|q|` is `n / d`, and the spacing around it is `2 ^ e`.
  let n := q.num.natAbs * 2 ^ f.scale
  let d := q.den
  let e := (n / d).log2 - (f.precision - 1)
  let m := n / (d * 2 ^ e)
  have hd : 0 < d := q.den_pos
  obtain ⟨hlow, hhigh⟩ := f.significand_bounds (n / d)
  rw [show n / d / 2 ^ e = m from Nat.div_div_eq_div_mul n d (2 ^ e)] at hlow hhigh
  refine ⟨e * f.block + m, n % (d * 2 ^ e), d * 2 ^ e, 1 / (d * 2 ^ f.scale), by positivity,
    Nat.mod_lt n (by positivity), ?_, ?_, ?_⟩
  · have habs : |q| = (q.num.natAbs : ℚ) / d := by
      rw [Rat.abs_def, Rat.divInt_eq_div]
      simp [d]
    have hn : d * 2 ^ e * m + n % (d * 2 ^ e) = q.num.natAbs * 2 ^ f.scale := Nat.div_add_mod _ _
    have hnq : (d : ℚ) * 2 ^ e * m + (n % (d * 2 ^ e) : ℕ) = q.num.natAbs * 2 ^ f.scale := by
      exact_mod_cast hn
    rw [habs, magnitude_eq, units_mul_block_add_of_le hlow hhigh.le]
    field_simp
    push_cast
    linarith
  · rw [magnitude_eq, magnitude_eq, units_succ hlow hhigh]
    push_cast
    field_simp
    rfl
  · have hrank : f.rank q = roundQuotient n (d * 2 ^ e) + e * f.block := by
      simp only [rank, Nat.shiftLeft_eq, n, d, e]
    -- The blocks in front do not change the parity.
    obtain ⟨j, hj⟩ := heven
    have hparity : (e * f.block + m) % 2 = m % 2 := by
      rw [hj, show e * (2 * j) + m = m + 2 * (e * j) by ring, Nat.add_mul_mod_self_left]
    rw [hrank, hparity]
    rcases roundQuotient_cases n (d * 2 ^ e) with ⟨h, hround⟩ | ⟨h, hround⟩ | ⟨h, hround⟩
    · exact .inl ⟨h, by rw [hround]; omega⟩
    · exact .inr (.inl ⟨h, by rw [hround]; omega⟩)
    · exact .inr (.inr ⟨h, by rw [hround]; omega⟩)

/-- Every rational is between two neighbours, and rounding goes to one of them: to the nearer
    one, and from half-way to the one of even rank. -/
theorem exists_between (heven : 2 ∣ f.block) (q : ℚ) :
    ∃ r, f.Between q r ∧
      (|q| < f.middle r ∧ f.rank q = r
        ∨ f.middle r < |q| ∧ f.rank q = r + 1
        ∨ |q| = f.middle r ∧ f.rank q = r + r % 2) := by
  obtain ⟨r, past, parts, part, hpart, hlt, habs, hnext, hrank⟩ := exists_parts heven q
  have hmiddle : f.middle r = f.magnitude r + parts / 2 * part := by
    rw [middle, hnext]
    ring
  have hlt' : (past : ℚ) < parts := by exact_mod_cast hlt
  refine ⟨r, ⟨?_, ?_⟩, ?_⟩
  · rw [habs]
    exact le_add_of_nonneg_right (by positivity)
  · rw [habs, hnext]
    gcongr
  · rw [hmiddle, habs]
    rcases hrank with ⟨h, hr⟩ | ⟨h, hr⟩ | ⟨h, hr⟩
    · have hhalf : (past : ℚ) < parts / 2 := by
        rw [lt_div_iff₀ two_pos, mul_comm]
        exact_mod_cast h
      exact .inl ⟨by gcongr, hr⟩
    · have hhalf : (parts : ℚ) / 2 < past := by
        rw [div_lt_iff₀ two_pos, mul_comm]
        exact_mod_cast h
      exact .inr (.inl ⟨by gcongr, hr⟩)
    · have hhalf : (past : ℚ) = parts / 2 := by
        rw [eq_div_iff two_ne_zero, mul_comm]
        exact_mod_cast h
      exact .inr (.inr ⟨by rw [hhalf], hr⟩)

/-- Where rounding goes from between two neighbours. -/
theorem Between.rank_cases (heven : 2 ∣ f.block) (h : f.Between q r) :
    |q| < f.middle r ∧ f.rank q = r
      ∨ f.middle r < |q| ∧ f.rank q = r + 1
      ∨ |q| = f.middle r ∧ f.rank q = r + r % 2 := by
  obtain ⟨s, hs, hrank⟩ := exists_between heven q
  obtain rfl := h.unique hs
  exact hrank

section

variable (heven : 2 ∣ f.block) (h : f.Between q r)

include heven h

theorem Between.rank_of_lt_middle (hq : |q| < f.middle r) : f.rank q = r := by
  rcases h.rank_cases heven with ⟨-, hrank⟩ | ⟨hgt, -⟩ | ⟨heq, -⟩
  · exact hrank
  · exact absurd hq hgt.not_gt
  · exact absurd hq heq.not_lt

theorem Between.rank_of_middle_lt (hq : f.middle r < |q|) : f.rank q = r + 1 := by
  rcases h.rank_cases heven with ⟨hlt, -⟩ | ⟨-, hrank⟩ | ⟨heq, -⟩
  · exact absurd hq hlt.not_gt
  · exact hrank
  · exact absurd hq heq.not_gt

theorem Between.rank_of_eq_middle (hq : |q| = f.middle r) : f.rank q = r + r % 2 := by
  rcases h.rank_cases heven with ⟨hlt, -⟩ | ⟨hgt, -⟩ | ⟨-, hrank⟩
  · exact absurd hq hlt.ne
  · exact absurd hq hgt.ne'
  · exact hrank

end

/-! ### Nearness -/

/-- The rank `r` is nearest to `q`: no magnitude is nearer to that of `q`, and if another one is
    as near, then `r` is even. -/
structure IsNearest (f : Format) (q : ℚ) (r : ℕ) : Prop where
  le : ∀ s, |(|q| - f.magnitude r)| ≤ |(|q| - f.magnitude s)|
  even : ∀ s, s ≠ r → |(|q| - f.magnitude r)| = |(|q| - f.magnitude s)| → r % 2 = 0

theorem Between.abs_sub_lower (h : f.Between q r) :
    |(|q| - f.magnitude r)| = |q| - f.magnitude r :=
  abs_of_nonneg (sub_nonneg.2 h.le)

theorem Between.abs_sub_upper (h : f.Between q r) :
    |(|q| - f.magnitude (r + 1))| = f.magnitude (r + 1) - |q| := by
  rw [abs_of_neg (sub_neg.2 h.lt), neg_sub]

/-- Any magnitude but the two neighbours is farther than the neighbour on its side. -/
theorem Between.neighbour_or_lt (h : f.Between q r) (s : ℕ) :
    s = r ∨ s = r + 1
      ∨ |(|q| - f.magnitude r)| < |(|q| - f.magnitude s)|
      ∨ |(|q| - f.magnitude (r + 1))| < |(|q| - f.magnitude s)| := by
  rcases lt_trichotomy s r with hs | hs | hs
  · have hmagnitude := f.magnitude_strictMono hs
    refine .inr (.inr (.inl ?_))
    rw [h.abs_sub_lower, abs_of_nonneg (sub_nonneg.2 (hmagnitude.le.trans h.le))]
    linarith
  · exact .inl hs
  · rcases (Nat.succ_le_of_lt hs).eq_or_lt with hs | hs
    · exact .inr (.inl hs.symm)
    · have hmagnitude := f.magnitude_strictMono hs
      refine .inr (.inr (.inr ?_))
      rw [h.abs_sub_upper, abs_of_neg (sub_neg.2 (h.lt.trans hmagnitude)), neg_sub]
      linarith

/-- Of two neighbours, the one that is not farther is nearest, if it is even or not as far. -/
theorem Between.isNearest {s t : ℕ} (h : f.Between q r)
    (hst : s = r ∧ t = r + 1 ∨ s = r + 1 ∧ t = r)
    (hle : |(|q| - f.magnitude s)| ≤ |(|q| - f.magnitude t)|)
    (heven : |(|q| - f.magnitude s)| = |(|q| - f.magnitude t)| → s % 2 = 0) :
    f.IsNearest q s := by
  have hall : ∀ u, u = s ∨ u = t ∨ |(|q| - f.magnitude s)| < |(|q| - f.magnitude u)| := by
    intro u
    rcases hst with ⟨rfl, rfl⟩ | ⟨rfl, rfl⟩
    · rcases h.neighbour_or_lt u with hu | hu | hu | hu
      · exact .inl hu
      · exact .inr (.inl hu)
      · exact .inr (.inr hu)
      · exact .inr (.inr (hle.trans_lt hu))
    · rcases h.neighbour_or_lt u with hu | hu | hu | hu
      · exact .inr (.inl hu)
      · exact .inl hu
      · exact .inr (.inr (hle.trans_lt hu))
      · exact .inr (.inr hu)
  refine ⟨fun u => ?_, fun u hne heq => ?_⟩
  · rcases hall u with rfl | rfl | hu
    · exact le_rfl
    · exact hle
    · exact hu.le
  · rcases hall u with rfl | rfl | hu
    · exact absurd rfl hne
    · exact heven heq
    · exact absurd heq hu.ne

/-- **Rounding goes to the nearest magnitude, from half-way to the one of even rank.** -/
theorem isNearest_rank (heven : 2 ∣ f.block) (q : ℚ) : f.IsNearest q (f.rank q) := by
  obtain ⟨r, h, hrank⟩ := exists_between heven q
  have hlower := h.abs_sub_lower
  have hupper := h.abs_sub_upper
  unfold middle at hrank
  rcases hrank with ⟨hq, hr⟩ | ⟨hq, hr⟩ | ⟨hq, hr⟩
  · rw [hr]
    refine h.isNearest (.inl ⟨rfl, rfl⟩) ?_ fun heq => ?_
    · linarith
    · linarith
  · rw [hr]
    refine h.isNearest (.inr ⟨rfl, rfl⟩) ?_ fun heq => ?_
    · linarith
    · linarith
  · rcases Nat.mod_two_eq_zero_or_one r with hparity | hparity
    · rw [hr, hparity, add_zero]
      exact h.isNearest (.inl ⟨rfl, rfl⟩) (by linarith) fun _ => hparity
    · rw [hr, hparity]
      exact h.isNearest (.inr ⟨rfl, rfl⟩) (by linarith) fun _ => by omega

/-- There is one nearest rank only: between two even ones there is another one, which would be
    nearer than both. -/
theorem IsNearest.unique {r s : ℕ} (hr : f.IsNearest q r) (hs : f.IsNearest q s) : r = s := by
  by_contra hne
  wlog hlt : r < s generalizing r s
  · exact this hs hr (Ne.symm hne) (by omega)
  have heq := le_antisymm (hr.le s) (hs.le r)
  have hreven := hr.even s (Ne.symm hne) heq
  have hseven := hs.even r hne heq.symm
  have hbelow := f.magnitude_strictMono (Nat.lt_succ_self r)
  have habove : f.magnitude (r + 1) < f.magnitude s := f.magnitude_strictMono (by omega)
  have hmiddle : |q| - f.magnitude r = f.magnitude s - |q| := by
    rcases abs_eq_abs.1 heq with h | h <;> linarith
  have hself : |(|q| - f.magnitude r)| = |q| - f.magnitude r := abs_of_nonneg (by linarith)
  have hnearer : |(|q| - f.magnitude (r + 1))| < |q| - f.magnitude r :=
    abs_lt.2 ⟨by linarith, by linarith⟩
  have hle := hr.le (r + 1)
  rw [hself] at hle
  exact hle.not_gt hnearer

/-- Rounding is described by nearness alone. -/
theorem isNearest_iff (heven : 2 ∣ f.block) : f.IsNearest q r ↔ f.rank q = r :=
  ⟨fun h => (isNearest_rank heven q).unique h, fun h => h ▸ isNearest_rank heven q⟩

/-- If `x` is not farther from `b` than from `a` below it, then it is above half-way. -/
theorem add_le_two_mul_of_abs_sub_le {a b x : ℚ} (hab : a < b) (h : |x - b| ≤ |x - a|) :
    a + b ≤ 2 * x := by
  by_contra hx
  have hnearer : |x - a| < b - x := abs_lt.2 ⟨by linarith, by linarith⟩
  rw [abs_of_neg (by linarith : x - b < 0)] at h
  linarith

/-- If `x` is not farther from `a` than from `b` above it, then it is below half-way. -/
theorem two_mul_le_add_of_abs_sub_le {a b x : ℚ} (hab : a < b) (h : |x - a| ≤ |x - b|) :
    2 * x ≤ a + b := by
  by_contra hx
  have hnearer : |x - b| < x - a := abs_lt.2 ⟨by linarith, by linarith⟩
  rw [abs_of_pos (by linarith : 0 < x - a)] at h
  linarith

/-- **Rounding keeps the order of magnitudes.** -/
theorem rank_le_rank (heven : 2 ∣ f.block) {p q : ℚ} (h : |p| ≤ |q|) : f.rank p ≤ f.rank q := by
  by_contra hlt
  have hmagnitude := f.magnitude_strictMono (not_le.1 hlt)
  have hp := isNearest_rank heven p
  have hq := isNearest_rank heven q
  -- What is rounded up is above half-way, and what is rounded down is below.
  have hpq := add_le_two_mul_of_abs_sub_le hmagnitude (hp.le (f.rank q))
  have hle := two_mul_le_add_of_abs_sub_le hmagnitude (hq.le (f.rank p))
  have heq : |p| = |q| := by linarith
  have hp' : f.IsNearest q (f.rank p) := ⟨heq ▸ hp.le, heq ▸ hp.even⟩
  exact hlt (hp'.unique hq).le

end Format

/-! ### Doubles -/

namespace Binary64

/-- The double `x` is nearest to `q`: it stands for a number, no double stands for a number that
    is nearer to `q`, and if another number is as near, then the significand of `x` is even, so
    that its encoding ends in a zero bit. -/
def IsNearest (q : ℚ) (x : Binary64) : Prop :=
  ∃ v, x.toRat? = some v ∧ ∀ (y : Binary64) (w : ℚ), y.toRat? = some w →
    |q - v| ≤ |q - w| ∧ (w ≠ v → |q - v| = |q - w| → x.toBits.toNat % 2 = 0)

theorem two_dvd_block : 2 ∣ Format.binary64.block := by decide

/-- The last bit of an encoding is the parity of the rank. -/
theorem toBits_finite_mod_two (negative : Bool) (r : Fin finiteRanks) :
    (finite negative r).toBits.toNat % 2 = r % 2 := by
  have hr := r.isLt
  unfold finiteRanks at hr
  rw [toBits, UInt64.toNat_ofNat']
  cases negative <;> simp only [signBit] <;> omega

theorem abs_signed (negative : Bool) {m : ℚ} (hm : 0 ≤ m) : |signed negative m| = m := by
  cases negative <;> simp [signed, abs_of_nonneg hm]

/-- Numbers are not nearer to each other than their magnitudes are. -/
theorem abs_sub_signed_ge (q : ℚ) (negative : Bool) {m : ℚ} (hm : 0 ≤ m) :
    |(|q| - m)| ≤ |q - signed negative m| := by
  have hle := abs_abs_sub_abs_le q (signed negative m)
  rwa [abs_signed negative hm] at hle

/-- A number is as far from a double of its sign as their magnitudes are from each other. -/
theorem abs_sub_signed (zeroSign : Bool) (q m : ℚ) :
    |q - signed (if q = 0 then zeroSign else decide (q < 0)) m| = |(|q| - m)| := by
  have hq := signed_abs zeroSign q
  generalize (if q = 0 then zeroSign else decide (q < 0)) = negative at hq ⊢
  conv_lhs => rw [← hq]
  cases negative
  · rfl
  · rw [signed, signed, if_pos rfl, if_pos rfl, neg_sub_neg, abs_sub_comm]

/-- Of two numbers that differ in the sign only, the one with the sign of `q` is nearer to it. -/
theorem signed_eq_of_abs_sub_eq {q m : ℚ} (hm : q = 0 → m = 0) (s t : Bool)
    (h : |q - signed s m| = |q - signed t m|) : signed s m = signed t m := by
  have hzero : |q - m| = |q - -m| → m = 0 := by
    intro heq
    rcases abs_eq_abs.1 heq with hsub | hsub
    · linarith
    · exact hm (by linarith)
  cases s <;> cases t
  · rfl
  · simp [signed, hzero h]
  · simp [signed, hzero h.symm]
  · rfl

/-- **Rounding gives the nearest double**, of the magnitudes that do not overflow. -/
theorem isNearest_round (zeroSign : Bool) {q : ℚ} (h : Format.binary64.rank q < finiteRanks) :
    IsNearest q (round zeroSign q) := by
  have hnearest := Format.isNearest_rank two_dvd_block q
  have hself := abs_sub_signed zeroSign q (Format.binary64.magnitude (Format.binary64.rank q))
  rw [round_of_rank_lt zeroSign h]
  refine ⟨_, rfl, fun y w hw => ?_⟩
  rw [hself]
  cases y with
  | infinite negative => cases hw
  | nan => cases hw
  | finite negative s =>
    obtain rfl : signed negative (Format.binary64.magnitude s) = w := Option.some.inj hw
    have hmagnitudes := abs_sub_signed_ge q negative (Format.binary64.magnitude_nonneg s)
    refine ⟨(hnearest.le s).trans hmagnitudes, fun hne heq => ?_⟩
    rw [toBits_finite_mod_two]
    refine hnearest.even s (fun hs => hne ?_) (le_antisymm (hnearest.le s) (heq ▸ hmagnitudes))
    rw [hs] at heq ⊢
    refine (signed_eq_of_abs_sub_eq (fun hq => ?_) _ _ (hself.trans heq)).symm
    rw [hq, Format.rank_zero, Format.magnitude_zero]

/-- A nearest double has the rank that rounding gives. -/
theorem IsNearest.rank_eq {q : ℚ} {negative : Bool} {r : Fin finiteRanks}
    (h : IsNearest q (finite negative r)) (hq : Format.binary64.rank q < finiteRanks) :
    r = Format.binary64.rank q := by
  have hnearest := Format.isNearest_rank two_dvd_block q
  obtain ⟨v, hv, hall⟩ := h
  obtain rfl : signed negative (Format.binary64.magnitude r) = v := Option.some.inj hv
  have hround := round_of_rank_lt false hq
  obtain ⟨hle, heven⟩ := hall (round false q) _ (by rw [hround]; rfl)
  have hself := abs_sub_signed false q (Format.binary64.magnitude (Format.binary64.rank q))
  have hmagnitudes := abs_sub_signed_ge q negative (Format.binary64.magnitude_nonneg r)
  rw [hself] at hle heven
  have heq := le_antisymm (hnearest.le r) (hmagnitudes.trans hle)
  by_contra hne
  -- Both are as near as the other, so both are even.
  have hdistinct : signed (if q = 0 then false else decide (q < 0))
      (Format.binary64.magnitude (Format.binary64.rank q))
      ≠ signed negative (Format.binary64.magnitude r) := by
    intro hsigned
    have habs := congrArg abs hsigned
    rw [abs_signed _ (Format.binary64.magnitude_nonneg _),
      abs_signed _ (Format.binary64.magnitude_nonneg _)] at habs
    exact hne (Format.binary64.magnitude_strictMono.injective habs).symm
  have hparity := heven hdistinct (le_antisymm hle (heq ▸ hmagnitudes))
  rw [toBits_finite_mod_two] at hparity
  have hr : Format.binary64.IsNearest q r := ⟨fun s => heq ▸ hnearest.le s, fun _ _ _ => hparity⟩
  exact hne ((Format.isNearest_iff two_dvd_block).1 hr).symm

/-- The largest double is below the end of the range, which is half-way from it to the next power
    of two. -/
theorem middle_pred_finiteRanks :
    Format.binary64.middle (finiteRanks - 1) = 2 ^ 1024 - 2 ^ 970 := by
  have hlast : finiteRanks - 1 = 2045 * Format.binary64.block + (2 ^ 53 - 1) := by decide
  have hend : finiteRanks - 1 + 1 = 2045 * Format.binary64.block + 2 ^ 53 := by decide
  have hlow : 2045 = 0 ∨ Format.binary64.block ≤ 2 ^ 53 - 1 := by decide
  have hscale : Format.binary64.scale = 1074 := rfl
  have hpow : (2 : ℚ) ^ 2045 = 2 ^ 970 * 2 * 2 ^ 1074 := by rw [← pow_succ, ← pow_add]
  have hpow' : (2 : ℚ) ^ 1024 = 2 ^ 970 * 2 ^ 54 := by rw [← pow_add]
  rw [Format.middle, hend, Format.magnitude_eq, Format.magnitude_eq, hlast,
    Format.units_mul_block_add_of_le hlow (by decide),
    Format.units_mul_block_add_of_le (.inr (by decide)) (by decide), hscale, hpow']
  rw [Nat.cast_mul, Nat.cast_mul, Nat.cast_pow 2 2045, Nat.cast_ofNat, hpow]
  field_simp
  norm_num

/-- **Rounding overflows from there on**, and not before. -/
theorem rank_lt_finiteRanks_iff (q : ℚ) :
    Format.binary64.rank q < finiteRanks ↔ |q| < 2 ^ 1024 - 2 ^ 970 := by
  rw [← middle_pred_finiteRanks]
  have hlast : Format.binary64.magnitude (finiteRanks - 1)
      < Format.binary64.magnitude (finiteRanks - 1 + 1) :=
    Format.binary64.magnitude_strictMono (Nat.lt_succ_self _)
  have hnonneg := Format.binary64.magnitude_nonneg (finiteRanks - 1)
  constructor
  · intro hq
    by_contra hle
    -- The end of the range itself goes to the even rank, which is out of it.
    have habs : |Format.binary64.middle (finiteRanks - 1)|
        = Format.binary64.middle (finiteRanks - 1) :=
      abs_of_nonneg (by unfold Format.middle; linarith)
    have hbetween : Format.binary64.Between (Format.binary64.middle (finiteRanks - 1))
        (finiteRanks - 1) := by
      refine ⟨?_, ?_⟩ <;> rw [habs] <;> unfold Format.middle <;> linarith
    have hend : Format.binary64.rank (Format.binary64.middle (finiteRanks - 1)) = finiteRanks := by
      rw [hbetween.rank_of_eq_middle two_dvd_block habs]
      decide
    have hrank := Format.rank_le_rank two_dvd_block (habs.le.trans (not_lt.1 hle))
    omega
  · intro hq
    rcases lt_or_ge |q| (Format.binary64.magnitude (finiteRanks - 1)) with hlt | hge
    · have hrank := Format.rank_le_rank two_dvd_block (hlt.le.trans (le_abs_self _))
      rw [Format.rank_magnitude] at hrank
      exact hrank.trans_lt (by decide)
    · have hbetween : Format.binary64.Between q (finiteRanks - 1) :=
        ⟨hge, by unfold Format.middle at hq; linarith⟩
      rw [hbetween.rank_of_lt_middle two_dvd_block hq]
      decide

end Binary64

end ChainCalc
