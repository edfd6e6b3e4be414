import ChainCalc.Proofs.Exactness
import ChainCalc.Proofs.Nearest

namespace ChainCalc

/-!
# Widening — integers whose result does not fit are joined as doubles

A sum, difference or product of two words is a word as long as the exact result fits.  Past
that, each word is converted to the nearest double, and the operation is done once more on
these: its exact result is rounded to the nearest double in turn.

* `Binary64.exists_round_of_abs_le` — rounding keeps below a bound that is a double.
* `Binary64.exists_round_of_abs_le_word` — the double for a word.
* `Operator.isNearest_onReals` — an operation on doubles gives the nearest double to its exact
  result.
* `Number.apply_integer` — what joining two words gives.
-/

/-- The magnitude of a word. -/
theorem Word.natAbs_toInt_le (a : Int64) : a.toInt.natAbs ≤ 2 ^ 63 := by
  obtain ⟨hlow, hhigh⟩ := fits_toInt a
  omega

namespace Binary64

/-- A double has the magnitude of its rank. -/
theorem Representable.magnitude_rank {p : ℚ} (h : Representable p) :
    Format.binary64.magnitude (Format.binary64.rank p) = |p| := by
  obtain ⟨r, -, habs⟩ := h.exists_rank
  rw [Format.rank_of_abs_eq habs, habs]

/-- Up to a bound that is a double, rounding gives the nearest double, and no more than the
    bound. -/
theorem exists_round_of_abs_le {p q : ℚ} (hp : Representable p) (h : |q| ≤ |p|)
    (zeroSign : Bool) :
    ∃ u, (round zeroSign q).toRat? = some u ∧ |u| ≤ |p| ∧ IsNearest q (round zeroSign q) := by
  have hrank := Format.rank_le_rank two_dvd_block h
  have hfinite : Format.binary64.rank q < finiteRanks := by
    obtain ⟨r, hr, habs⟩ := hp.exists_rank
    rw [Format.rank_of_abs_eq habs] at hrank
    exact hrank.trans_lt hr
  refine ⟨_, by rw [round_of_rank_lt zeroSign hfinite]; rfl, ?_, isNearest_round zeroSign hfinite⟩
  rw [abs_signed _ (Format.binary64.magnitude_nonneg _), ← hp.magnitude_rank]
  exact Format.binary64.magnitude_strictMono.monotone hrank

theorem representable_two_pow {k : ℕ} (h : k ≤ 971) : Representable (2 ^ k) :=
  ⟨1, k, by decide, by omega, by omega, by rw [Int.cast_one, one_mul, zpow_natCast]⟩

/-- A word is in the range of words, as a rational. -/
theorem abs_word_le (a : Int64) : |(a.toInt : ℚ)| ≤ 2 ^ 63 := by
  rw [← Int.cast_abs, ← Nat.cast_natAbs]
  exact_mod_cast Word.natAbs_toInt_le a

/-- Up to the range of words, rounding gives the nearest double, which is not past it. -/
theorem exists_round_of_abs_le_word {q : ℚ} (h : |q| ≤ 2 ^ 63) (zeroSign : Bool) :
    ∃ u, (round zeroSign q).toRat? = some u ∧ |u| ≤ 2 ^ 63 ∧ IsNearest q (round zeroSign q) := by
  have habs : |(2 ^ 63 : ℚ)| = 2 ^ 63 := abs_of_pos (by norm_num)
  have hround := exists_round_of_abs_le (representable_two_pow (k := 63) (by decide))
    (h.trans_eq habs.symm) zeroSign
  rwa [habs] at hround

end Binary64

namespace Operator

/-- An operation on doubles gives the nearest double to its exact result, if that is not too
    large. -/
theorem isNearest_onReals {op : Operator} {x y : Binary64} {u v p : ℚ} (hop : op ≠ divide)
    (hx : x.toRat? = some u) (hy : y.toRat? = some v) (hp : Binary64.Representable p)
    (h : |op.onRats u v| ≤ |p|) : Binary64.IsNearest (op.onRats u v) (op.onReals x y) := by
  have hround : ∃ zeroSign, op.onReals x y = Binary64.round zeroSign (op.onRats u v) := by
    obtain ⟨s, a, rfl, rfl⟩ := Binary64.exists_finite_of_toRat? hx
    obtain ⟨t, b, rfl, rfl⟩ := Binary64.exists_finite_of_toRat? hy
    cases op with
    | plus => exact ⟨_, rfl⟩
    | minus =>
      refine ⟨s && !t, ?_⟩
      rw [onRats, sub_eq_add_neg, ← Binary64.signed_not]
      rfl
    | times => exact ⟨_, rfl⟩
    | divide => exact absurd rfl hop
  obtain ⟨zeroSign, hround⟩ := hround
  obtain ⟨-, -, -, hnearest⟩ := Binary64.exists_round_of_abs_le hp h zeroSign
  rwa [hround]

/-- Numbers in the range of words have results in the range of products of words. -/
theorem abs_onRats_le {op : Operator} {u v : ℚ} (hop : op ≠ divide) (hu : |u| ≤ 2 ^ 63)
    (hv : |v| ≤ 2 ^ 63) : |op.onRats u v| ≤ |(2 ^ 126 : ℚ)| := by
  rw [abs_of_pos (by norm_num : (0 : ℚ) < 2 ^ 126)]
  cases op with
  | plus => exact (abs_add_le u v).trans (by linarith)
  | minus => exact (abs_sub u v).trans (by linarith)
  | times =>
    rw [onRats, abs_mul]
    calc |u| * |v| ≤ 2 ^ 63 * 2 ^ 63 := mul_le_mul hu hv (abs_nonneg v) (by norm_num)
      _ = 2 ^ 126 := by norm_num
  | divide => exact absurd rfl hop

end Operator

namespace Number

/-- **Joining two words.**  A sum, difference or product of words never fails.  It is an integer
    exactly when the exact result is from `-2 ^ 63` to `2 ^ 63 - 1`, and then it is that result.
    Otherwise it is real: each word is converted to the nearest double, and of the exact result
    for these it is the nearest double, where of two equally near doubles the even one is
    taken. -/
theorem apply_integer {op : Operator} (hop : op ≠ .divide) (a b : Int64) (position : ℕ) :
    let result := op.onInts a.toInt b.toInt
    ∃ n, apply op (.integer a) b position = .ok n
      ∧ (n.isInteger = true ↔ -2 ^ 63 ≤ result ∧ result ≤ 2 ^ 63 - 1)
      ∧ (∀ c, n = .integer c → c.toInt = result)
      ∧ ∀ z, n = .real z → ∃ x y u v,
          Binary64.IsNearest a.toInt x ∧ x.toRat? = some u
            ∧ Binary64.IsNearest b.toInt y ∧ y.toRat? = some v
            ∧ z = op.onReals x y ∧ Binary64.IsNearest (op.onRats u v) z := by
  intro result
  have hrange : Word.Fits result ↔ -2 ^ 63 ≤ result ∧ result ≤ 2 ^ 63 - 1 := by
    unfold Word.Fits
    omega
  refine ⟨combine op (.integer a) b, if_neg fun h => hop h.1, ?_, ?_, ?_⟩
  · rw [isInteger_combine_integer_iff fun h => absurd h hop, hrange]
    exact and_iff_right hop
  · intro c hc
    by_cases hfits : Word.Fits result
    · rw [combine_integer_of_fits hop hfits, integer.injEq] at hc
      rw [← hc, Word.toInt_ofInt hfits]
    · rw [combine_integer_of_not_fits hop hfits] at hc
      cases hc
  · intro z hz
    by_cases hfits : Word.Fits result
    · rw [combine_integer_of_fits hop hfits] at hz
      cases hz
    · rw [combine_integer_of_not_fits hop hfits, real.injEq] at hz
      obtain ⟨u, hu, hule, hx⟩ :=
        Binary64.exists_round_of_abs_le_word (Binary64.abs_word_le a) false
      obtain ⟨v, hv, hvle, hy⟩ :=
        Binary64.exists_round_of_abs_le_word (Binary64.abs_word_le b) false
      refine ⟨_, _, u, v, hx, hu, hy, hv, hz.symm, ?_⟩
      rw [← hz]
      exact Operator.isNearest_onReals hop hu hv (Binary64.representable_two_pow (by decide))
        (Operator.abs_onRats_le hop hule hvle)

/-- One more than the largest word is real. -/
theorem apply_integer_past_largest :
    Operator.plus ≠ .divide ∧ ∃ z x y u v,
      apply .plus (.integer Int64.maxValue) 1 20 = .ok (.real z)
      ∧ Binary64.IsNearest (2 ^ 63 - 1) x ∧ x.toRat? = some u
      ∧ Binary64.IsNearest 1 y ∧ y.toRat? = some v
      ∧ z = x.add y ∧ Binary64.IsNearest (u + v) z := by
  have hop : Operator.plus ≠ .divide := by decide
  have hlargest : ((Int64.maxValue.toInt : ℤ) : ℚ) = 2 ^ 63 - 1 := by
    rw [Int64.toInt_maxValue]
    norm_num
  have hone : (((1 : Int64).toInt : ℤ) : ℚ) = 1 := by
    rw [show (1 : Int64).toInt = 1 from rfl, Int.cast_one]
  obtain ⟨n, hn, hinteger, -, hreal⟩ := apply_integer hop Int64.maxValue 1 20
  cases n with
  | integer c => exact absurd (hinteger.1 rfl) (by decide)
  | real z =>
    obtain ⟨x, y, u, v, hx, hu, hy, hv, hz, hnearest⟩ := hreal z rfl
    rw [hlargest] at hx
    rw [hone] at hy
    exact ⟨hop, z, x, y, u, v, hn, hx, hu, hy, hv, hz, hnearest⟩

end Number

end ChainCalc
