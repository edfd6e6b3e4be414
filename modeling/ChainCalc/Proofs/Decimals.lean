import ChainCalc.Decimal.Basic
import Mathlib.Algebra.Order.Field.Rat
import Mathlib.Tactic.Positivity
import Mathlib.Tactic.Ring

namespace ChainCalc

/-!
# Decimals — digits and the numbers that they stand for

* `Numeral.value_append`, `value_lt_pow_length` — digits stand for sums of powers of ten.
* `Decimal.digitCount_le_iff` — counting digits is comparing with a power of ten.
* `Decimal.toRat_trimmed`, `digitCount_trimmed_le` — trailing zeros are trimmed without a change
  of the number.
* `Decimal.ofDigits` — the decimal for digits, by the power of ten that the first one stands for.
-/

namespace Numeral

/-- Digits in front of others count for a power of ten. -/
theorem value_append (t u : Text) : value (t ++ u) = value t * 10 ^ u.length + value u := by
  induction u using List.reverseRecOn with
  | nil => simp
  | append_singleton u b ih =>
    rw [← List.append_assoc, value_append_singleton, value_append_singleton, ih,
      List.length_append, List.length_singleton, pow_succ]
    ring

@[simp] theorem value_zeros (n : ℕ) : value (Decimal.zeros n) = 0 := by
  induction n with
  | zero => rfl
  | succ n ih =>
    have hzero : digitValue 48 = 0 := by decide
    rw [Decimal.zeros] at ih ⊢
    rw [List.replicate_succ', value_append_singleton, ih, hzero]

theorem digitValue_lt {b : Byte} (h : b.isDigit = true) : digitValue b < 10 := by
  simp only [Byte.isDigit, Bool.and_eq_true, decide_eq_true_eq, UInt8.le_iff_toNat_le] at h
  have hnine : b.toNat ≤ 57 := h.2
  unfold digitValue
  omega

/-- A digit byte is made from the digit that it stands for. -/
theorem digit_digitValue {b : Byte} (h : b.isDigit = true) : digit (digitValue b) = b := by
  simp only [Byte.isDigit, Bool.and_eq_true, decide_eq_true_eq, UInt8.le_iff_toNat_le] at h
  have hzero : 48 ≤ b.toNat := h.1
  rw [digit, digitValue, Nat.add_sub_cancel' hzero, UInt8.ofNat_toNat]

/-- So many digits stand for less than that power of ten. -/
theorem value_lt_pow_length {t : Text} (h : ∀ b ∈ t, b.isDigit = true) :
    value t < 10 ^ t.length := by
  induction t using List.reverseRecOn with
  | nil => simp
  | append_singleton t b ih =>
    have hfront := ih fun c hc => h c (List.mem_append_left _ hc)
    have hlast := digitValue_lt (h b (by simp))
    rw [value_append_singleton, List.length_append, List.length_singleton, pow_succ]
    omega

end Numeral

namespace Decimal

/-! ### Counting digits -/

theorem digitCount_pos (n : ℕ) : 0 < digitCount n := by
  rw [digitCount]
  split <;> omega

/-- A number has at most `k` digits if it is below that power of ten. -/
theorem digitCount_le_iff {n k : ℕ} (hk : 0 < k) : digitCount n ≤ k ↔ n < 10 ^ k := by
  induction n using Nat.strongRecOn generalizing k with
  | _ n ih =>
    obtain ⟨k, rfl⟩ := Nat.exists_eq_add_of_le' hk
    have hpow : 0 < 10 ^ k := Nat.pow_pos (by decide)
    rw [digitCount, pow_succ]
    split
    · next hsmall => exact iff_of_true (by omega) (by omega)
    · next hlarge =>
      rcases Nat.eq_zero_or_pos k with rfl | hk'
      · have hpos := digitCount_pos (n / 10)
        exact iff_of_false (by omega) (by omega)
      · rw [Nat.add_le_add_iff_right, ih (n / 10) (by omega) hk',
          Nat.div_lt_iff_lt_mul (by decide)]

/-- A number other than zero is not below the power of ten that it has more digits than. -/
theorem pow_le_of_lt_digitCount {n k : ℕ} (hn : 0 < n) (h : k < digitCount n) : 10 ^ k ≤ n := by
  rcases Nat.eq_zero_or_pos k with rfl | hk
  · exact hn
  · exact not_lt.1 (mt (digitCount_le_iff hk).2 (not_le.2 h))

/-! ### Values -/

theorem toRat_nonneg (d : Decimal) : 0 ≤ d.toRat :=
  mul_nonneg (Nat.cast_nonneg _) (zpow_nonneg (by norm_num) _)

theorem toRat_mono {c c' : ℕ} (h : c ≤ c') (e : ℤ) : toRat ⟨c, e⟩ ≤ toRat ⟨c', e⟩ :=
  mul_le_mul_of_nonneg_right (Nat.cast_le.2 h) (zpow_nonneg (by norm_num) e)

theorem toRat_mono_exponent (c : ℕ) {e e' : ℤ} (h : e ≤ e') : toRat ⟨c, e⟩ ≤ toRat ⟨c, e'⟩ :=
  mul_le_mul_of_nonneg_left (zpow_le_zpow_right₀ (by norm_num) h) (Nat.cast_nonneg c)

/-- Moving zeros between the coefficient and the exponent does not change the number. -/
theorem toRat_mul_pow (c k : ℕ) (e : ℤ) : toRat ⟨c * 10 ^ k, e⟩ = toRat ⟨c, e + k⟩ := by
  rw [toRat, toRat, zpow_add₀ (by norm_num), zpow_natCast]
  push_cast
  ring

/-- Trimming does not change the number. -/
theorem toRat_trimmed (d : Decimal) : d.trimmed.toRat = d.toRat := by
  induction d using trimmed.induct with
  | case1 d hzero =>
    rw [trimmed, if_pos hzero, toRat, toRat, hzero]
    simp
  | case2 d hne hzero ih =>
    rw [trimmed, if_neg hne, if_pos hzero, ih]
    have hc : d.coefficient / 10 * 10 ^ 1 = d.coefficient := by omega
    have hmove := toRat_mul_pow (d.coefficient / 10) 1 d.exponent
    rw [hc] at hmove
    exact hmove.symm
  | case3 d hne hlast => rw [trimmed, if_neg hne, if_neg hlast]

/-- Trimming leaves no more digits than there are. -/
theorem digitCount_trimmed_le (d : Decimal) :
    digitCount d.trimmed.coefficient ≤ digitCount d.coefficient := by
  induction d using trimmed.induct with
  | case1 d hzero => rw [trimmed, if_pos hzero, hzero]
  | case2 d hne hzero ih =>
    rw [trimmed, if_neg hne, if_pos hzero]
    have hlarge : ¬ d.coefficient < 10 := by omega
    rw [digitCount.eq_def d.coefficient, if_neg hlarge]
    exact ih.trans (Nat.le_succ _)
  | case3 d hne hlast => rw [trimmed, if_neg hne, if_neg hlast]

/-- A power of ten has one digit when it is trimmed, and what is below has no more than so
    many. -/
theorem digitCount_trimmed_le_of_le_pow {c k : ℕ} (e : ℤ) (hk : 0 < k) (hc : c ≤ 10 ^ k) :
    digitCount (trimmed ⟨c, e⟩).coefficient ≤ k := by
  rcases hc.lt_or_eq with hlt | rfl
  · exact (digitCount_trimmed_le _).trans ((digitCount_le_iff hk).2 hlt)
  · have hpow : 10 ^ k / 10 = 10 ^ (k - 1) := Nat.pow_div hk (by decide)
    have hmod : 10 ^ k % 10 = 0 := Nat.mod_eq_zero_of_dvd (dvd_pow_self 10 hk.ne')
    have hne : 10 ^ k ≠ 0 := (Nat.pow_pos (by decide)).ne'
    rw [trimmed, if_neg hne, if_pos hmod]
    refine (digitCount_trimmed_le _).trans ((digitCount_le_iff hk).2 ?_)
    rw [hpow]
    exact Nat.pow_lt_pow_right (by decide) (by omega)

/-! ### Digits and the power of ten in front -/

/-- The decimal for digits, of which the first one stands for `10 ^ lead`. -/
def ofDigits (digits : Text) (lead : ℤ) : Decimal :=
  ⟨Numeral.value digits, lead + 1 - digits.length⟩

/-- One more zero at the end does not change what digits stand for. -/
theorem toRat_ofDigits_append_zero (digits : Text) (lead : ℤ) :
    (ofDigits (digits ++ [48]) lead).toRat = (ofDigits digits lead).toRat := by
  have hzero : Numeral.digitValue 48 = 0 := by decide
  have hmove := toRat_mul_pow (Numeral.value digits) 1 (lead + 1 - (digits ++ [48]).length)
  rw [pow_one, Nat.mul_comm] at hmove
  rw [ofDigits, ofDigits, Numeral.value_append_singleton, hzero, Nat.add_zero, hmove,
    List.length_append, List.length_singleton]
  congr 2
  push_cast
  ring

/-- The numeral of a coefficient stands for the decimal. -/
theorem ofDigits_ofNat (d : Decimal) : ofDigits (Numeral.ofNat d.coefficient) d.lead = d := by
  rw [ofDigits, Numeral.value_ofNat, length_ofNat, lead]
  congr 1
  omega

end Decimal

end ChainCalc
