import Mathlib.Data.Int.Log
import Mathlib.Data.Rat.Floor
import ChainCalc.Proofs.TwoRoundings

namespace ChainCalc

/-!
# SignificantBits — rounding to so many bits, and quotients by way of it

A format has a smallest magnitude; the numbers of so many significant bits have none.  Rounding
to significant bits is described here by nearness alone: this leaves one number to round to, and
it keeps order and signs.  A format rounds to the bits of its significands all that is not too
small for it, and no quotient of words is.  So whichever way the quotient of two words is found,
it is the exact quotient rounded to 64 bits and then to 53.

* `Significant`, `IsRounded` — the numbers of so many bits, and the nearest of them.
* `IsRounded.unique`, `IsRounded.mono`, `IsRounded.pos_iff` — one number only, in the order of
  what is rounded, and of its sign.
* `Format.isRounded_nearest` — a format rounds to the bits of its significands.
* `Word.exists_run_quotient_round` — the ways to a quotient agree.
* `Number.apply_divide_words` — what dividing a word by a word gives.
-/

/-- A number of `p` significant bits: an integer of so many bits, scaled by a power of two. -/
def Significant (p : ℕ) (u : ℚ) : Prop := ∃ m e : ℤ, m.natAbs < 2 ^ p ∧ u = m * 2 ^ e

/-- The number `u` is `q` rounded to `p` significant bits: no number of so many bits is nearer
    to `q`, and if another one is as near, then `u` is even, that is, one bit less is enough
    for it. -/
structure IsRounded (p : ℕ) (q u : ℚ) : Prop where
  significant : Significant p u
  le : ∀ w, Significant p w → |q - u| ≤ |q - w|
  even : ∀ w, Significant p w → w ≠ u → |q - u| = |q - w| → Significant (p - 1) u

/-! ### Numbers of so many bits -/

namespace Significant

variable {p : ℕ} {u v : ℚ}

theorem zero (p : ℕ) : Significant p 0 := ⟨0, 0, Nat.two_pow_pos p, by simp⟩

theorem two_zpow (hp : 0 < p) (e : ℤ) : Significant p (2 ^ e) :=
  ⟨1, e, Nat.one_lt_two_pow hp.ne', by rw [Int.cast_one, one_mul]⟩

theorem neg (h : Significant p u) : Significant p (-u) := by
  obtain ⟨m, e, hm, rfl⟩ := h
  exact ⟨-m, e, by rwa [Int.natAbs_neg], by rw [Int.cast_neg, neg_mul]⟩

/-- A number of some bits and a larger multiple of its unit have half a unit between them, which
    takes a bit more. -/
theorem exists_half {m n e : ℤ} (hm : m.natAbs < 2 ^ p) (h : (m : ℚ) * 2 ^ e < n * 2 ^ e) :
    ∃ w, Significant (p + 1) w ∧ (m : ℚ) * 2 ^ e < w ∧ w < n * 2 ^ e := by
  have hunit : (2 : ℚ) ^ e = 2 * 2 ^ (e - 1) := by
    rw [← zpow_one_add₀ two_ne_zero, add_sub_cancel]
  have hhalf : (0 : ℚ) < 2 ^ (e - 1) := zpow_pos two_pos _
  have hlt : m < n := by
    have hcancel := lt_of_mul_lt_mul_right h (zpow_nonneg two_pos.le e)
    exact_mod_cast hcancel
  have hbits : (2 * m + 1).natAbs < 2 ^ (p + 1) := by
    rw [pow_succ]
    omega
  refine ⟨(2 * m + 1 : ℤ) * 2 ^ (e - 1), ⟨_, _, hbits, rfl⟩, ?_, ?_⟩
  · rw [hunit, ← mul_assoc]
    gcongr
    push_cast
    linarith
  · rw [hunit, ← mul_assoc]
    gcongr
    have hle : 2 * m + 1 < n * 2 := by omega
    exact_mod_cast hle

/-- Between two numbers of some bits there is one that has a bit more: half a unit away from the
    one whose unit is the smaller. -/
theorem exists_between (hu : Significant p u) (hv : Significant p v) (h : u < v) :
    ∃ w, Significant (p + 1) w ∧ u < w ∧ w < v := by
  obtain ⟨m, e, hm, rfl⟩ := hu
  obtain ⟨n, d, hn, rfl⟩ := hv
  have hmultiple : ∀ (i j : ℤ) (k : ℕ), (i : ℚ) * 2 ^ (j + k) = (i * 2 ^ k : ℤ) * 2 ^ j := by
    intro i j k
    rw [zpow_add₀ two_ne_zero, zpow_natCast]
    push_cast
    ring
  rcases le_total e d with hed | hde
  · obtain ⟨k, rfl⟩ := Int.le.dest hed
    rw [hmultiple n e k] at h ⊢
    exact exists_half hm h
  · -- From above, the same with the signs changed.
    obtain ⟨k, rfl⟩ := Int.le.dest hde
    rw [hmultiple m d k] at h ⊢
    have hn' : (-n).natAbs < 2 ^ p := by rwa [Int.natAbs_neg]
    have h' : ((-n : ℤ) : ℚ) * 2 ^ d < (-(m * 2 ^ k) : ℤ) * 2 ^ d := by
      rw [Int.cast_neg, Int.cast_neg, neg_mul, neg_mul]
      exact neg_lt_neg h
    obtain ⟨w, hw, hlow, hhigh⟩ := exists_half hn' h'
    rw [Int.cast_neg, neg_mul] at hlow hhigh
    exact ⟨-w, hw.neg, lt_neg_of_lt_neg hhigh, neg_lt_of_neg_lt hlow⟩

end Significant

/-! ### Rounding to so many bits -/

namespace IsRounded

variable {p : ℕ} {q q' u v : ℚ}

/-- A number of so many bits is rounded to itself. -/
theorem self (hu : Significant p u) : IsRounded p u u := by
  have hzero : |u - u| = 0 := by rw [sub_self, abs_zero]
  refine ⟨hu, fun w _ => hzero ▸ abs_nonneg _, fun w _ hne heq => ?_⟩
  rw [hzero, eq_comm, abs_eq_zero, sub_eq_zero] at heq
  exact absurd heq.symm hne

theorem neg (h : IsRounded p q u) : IsRounded p (-q) (-u) := by
  have hdistance : ∀ w, |(-q) - w| = |q - -w| := fun w => by
    rw [← abs_neg, neg_sub', neg_neg]
  refine ⟨h.significant.neg, fun w hw => ?_, fun w hw hne heq => ?_⟩
  · rw [hdistance, hdistance, neg_neg]
    exact h.le _ hw.neg
  · rw [hdistance, hdistance, neg_neg] at heq
    exact (h.even _ hw.neg (fun hw' => hne (neg_eq_iff_eq_neg.1 hw')) heq).neg

/-- **There is one rounded number only.**  Two of them would be even, and so have a number
    between them that is nearer than both. -/
theorem unique (hp : 0 < p) (h : IsRounded p q u) (h' : IsRounded p q v) : u = v := by
  by_contra hne
  wlog hlt : u < v generalizing u v
  · exact this h' h (Ne.symm hne) (lt_of_le_of_ne (not_lt.1 hlt) (Ne.symm hne))
  have heq := le_antisymm (h.le v h'.significant) (h'.le u h.significant)
  have hu := h.even v h'.significant (Ne.symm hne) heq
  have hv := h'.even u h.significant hne heq.symm
  obtain ⟨w, hw, huw, hwv⟩ := hu.exists_between hv hlt
  rw [Nat.sub_add_cancel hp] at hw
  have hmiddle : q - u = v - q := by
    rcases abs_eq_abs.1 heq with hsub | hsub <;> linarith
  have hself : |q - u| = q - u := abs_of_pos (by linarith)
  have hnearer : |q - w| < q - u := abs_lt.2 ⟨by linarith, by linarith⟩
  have hle := h.le w hw
  rw [hself] at hle
  exact hle.not_gt hnearer

/-- **Rounding keeps order.** -/
theorem mono (hp : 0 < p) (h : IsRounded p q u) (h' : IsRounded p q' v) (hle : q ≤ q') :
    u ≤ v := by
  by_contra hlt
  rw [not_le] at hlt
  -- What is rounded up is above half-way, and what is rounded down is below.
  have habove := Format.add_le_two_mul_of_abs_sub_le hlt (h.le v h'.significant)
  have hbelow := Format.two_mul_le_add_of_abs_sub_le hlt (h'.le u h.significant)
  obtain rfl : q = q' := by linarith
  exact hlt.ne' (h.unique hp h')

/-- Rounding keeps the sign: there is a power of two below what is positive, and zero above what
    is not. -/
theorem pos_iff (hp : 0 < p) (h : IsRounded p q u) : 0 < u ↔ 0 < q := by
  constructor
  · intro hu
    by_contra hq
    have hle := h.mono hp (self (.zero p)) (not_lt.1 hq)
    exact hle.not_gt hu
  · intro hq
    have hle := Int.zpow_log_le_self (b := 2) one_lt_two hq
    rw [Nat.cast_ofNat] at hle
    have hlog := (self (Significant.two_zpow hp _)).mono hp h hle
    exact (zpow_pos two_pos _).trans_le hlog

theorem neg_iff (hp : 0 < p) (h : IsRounded p q u) : u < 0 ↔ q < 0 := by
  have hneg := h.neg.pos_iff hp
  rwa [neg_pos, neg_pos] at hneg

theorem eq_zero_iff (hp : 0 < p) (h : IsRounded p q u) : u = 0 ↔ q = 0 := by
  have hpos := h.pos_iff hp
  have hneg := h.neg_iff hp
  constructor
  · rintro rfl
    exact le_antisymm (not_lt.1 fun hq => lt_irrefl _ (hpos.2 hq))
      (not_lt.1 fun hq => lt_irrefl _ (hneg.2 hq))
  · rintro rfl
    exact le_antisymm (not_lt.1 fun hu => lt_irrefl _ (hpos.1 hu))
      (not_lt.1 fun hu => lt_irrefl _ (hneg.1 hu))

end IsRounded

/-! ### Rounding in a format -/

namespace Format

variable {f : Format}

theorem two_mul_block (hf : 2 ≤ f.precision) : 2 * f.block = 2 ^ f.precision := by
  rw [f.block_eq, ← pow_succ', Nat.sub_add_cancel (by omega)]

theorem two_dvd_block (hf : 2 ≤ f.precision) : 2 ∣ f.block := by
  rw [f.block_eq]
  exact dvd_pow_self 2 (by omega)

/-- The magnitude of a rank by its significand, which is as even as the rank. -/
theorem exists_magnitude_eq (hf : 2 ≤ f.precision) (r : ℕ) :
    ∃ (m : ℕ) (e : ℤ), m < 2 ^ f.precision ∧ m % 2 = r % 2 ∧ f.magnitude r = m * 2 ^ e := by
  obtain ⟨k, m, hlow, hhigh, rfl⟩ := f.exists_eq_mul_block_add r
  refine ⟨m, k - f.scale, hhigh.trans_eq (two_mul_block hf), ?_, ?_⟩
  · obtain ⟨j, hj⟩ := two_dvd_block hf
    rw [hj, show k * (2 * j) + m = m + 2 * (k * j) by ring, Nat.add_mul_mod_self_left]
  · rw [magnitude_eq, units_mul_block_add_of_le hlow hhigh.le, zpow_sub₀ two_ne_zero,
      zpow_natCast, zpow_natCast]
    push_cast
    ring

theorem significant_magnitude (hf : 2 ≤ f.precision) (r : ℕ) :
    Significant f.precision (f.magnitude r) := by
  obtain ⟨m, e, hm, -, heq⟩ := exists_magnitude_eq hf r
  exact ⟨m, e, by rwa [Int.natAbs_natCast], by rw [heq, Int.cast_natCast]⟩

/-- An even rank has a magnitude of one bit less. -/
theorem significant_magnitude_of_even (hf : 2 ≤ f.precision) {r : ℕ} (hr : r % 2 = 0) :
    Significant (f.precision - 1) (f.magnitude r) := by
  obtain ⟨m, e, hm, hparity, heq⟩ := exists_magnitude_eq hf r
  obtain ⟨j, rfl⟩ : 2 ∣ m := Nat.dvd_of_mod_eq_zero (hparity.trans hr)
  refine ⟨j, e + 1, ?_, ?_⟩
  · rw [← two_mul_block hf, f.block_eq] at hm
    rw [Int.natAbs_natCast]
    omega
  · rw [heq, zpow_add_one₀ two_ne_zero]
    push_cast
    ring

/-- The magnitude behind the first block, from which on spacings grow with magnitudes. -/
theorem magnitude_block (f : Format) :
    f.magnitude f.block = 2 ^ (f.precision - 1) / 2 ^ f.scale := by
  have hunits := units_mul_block_add_of_le (f := f) (m := f.block) (.inl rfl) (by omega)
  rw [zero_mul, zero_add, pow_zero, mul_one] at hunits
  rw [magnitude_eq, hunits, f.block_eq, Nat.cast_pow, Nat.cast_ofNat]

/-- A number of as many bits as significands have is a value of the format up to its sign, or it
    is too small. -/
theorem exists_rank_or_lt (hf : 2 ≤ f.precision) {w : ℚ} (hw : Significant f.precision w) :
    (∃ s, |w| = f.magnitude s) ∨ |w| < f.magnitude f.block := by
  obtain ⟨m, e, hm, hvalue⟩ := hw
  rcases le_or_gt (-(f.scale : ℤ)) e with he | he
  · rw [← two_mul_block hf] at hm
    obtain ⟨s, -, hs⟩ := f.exists_abs_eq_magnitude hm he hvalue
    exact .inl ⟨s, hs⟩
  · right
    have hpow : (2 : ℚ) ^ e ≤ 2 ^ (-(f.scale : ℤ) - 1) :=
      zpow_le_zpow_right₀ one_le_two (by omega)
    have hm' : |(m : ℚ)| < 2 ^ f.precision := by
      rw [← Int.cast_abs, ← Nat.cast_natAbs]
      exact_mod_cast hm
    have hbits : (2 : ℚ) ^ f.precision = 2 * 2 ^ (f.precision - 1) := by
      rw [← pow_succ', Nat.sub_add_cancel (by omega)]
    rw [magnitude_block, hvalue, abs_mul, abs_of_pos (zpow_pos (two_pos : (0 : ℚ) < 2) e)]
    calc |(m : ℚ)| * 2 ^ e
        ≤ |(m : ℚ)| * 2 ^ (-(f.scale : ℤ) - 1) := by gcongr
      _ < 2 ^ f.precision * 2 ^ (-(f.scale : ℤ) - 1) :=
          mul_lt_mul_of_pos_right hm' (zpow_pos two_pos _)
      _ = 2 ^ (f.precision - 1) / 2 ^ f.scale := by
          rw [hbits, zpow_sub_one₀ two_ne_zero, zpow_neg, zpow_natCast]
          field_simp

/-- A number is as far from what it is rounded to as their magnitudes are from each other. -/
theorem abs_sub_nearest (f : Format) (q : ℚ) :
    |q - f.nearest q| = |(|q| - f.magnitude (f.rank q))| := by
  unfold nearest
  split
  · next hneg => rw [abs_of_neg hneg, sub_neg_eq_add, ← abs_neg, neg_add, ← sub_eq_add_neg]
  · next hnonneg => rw [abs_of_nonneg (not_lt.1 hnonneg)]

/-- Rounding gives a magnitude or its negative. -/
theorem nearest_cases (f : Format) (q : ℚ) :
    f.nearest q = f.magnitude (f.rank q) ∨ f.nearest q = -f.magnitude (f.rank q) := by
  unfold nearest
  split
  · exact .inr rfl
  · exact .inl rfl

@[simp] theorem nearest_zero (f : Format) : f.nearest 0 = 0 := by
  rw [nearest, if_neg (lt_irrefl _), rank_zero, magnitude_zero]

/-- What is too small is farther away than what a number is rounded to, if the number is not too
    small itself: then it is at least as near to the smallest magnitude that is not. -/
theorem abs_sub_nearest_lt (hf : 2 ≤ f.precision) {q w : ℚ} (hq : f.magnitude f.block ≤ |q|)
    (hw : |w| < f.magnitude f.block) : |q - f.nearest q| < |q - w| := by
  have hnearest := isNearest_rank (two_dvd_block hf) q
  have hself : |(|q| - f.magnitude f.block)| = |q| - f.magnitude f.block :=
    abs_of_nonneg (sub_nonneg.2 hq)
  calc |q - f.nearest q|
      = |(|q| - f.magnitude (f.rank q))| := f.abs_sub_nearest q
    _ ≤ |q| - f.magnitude f.block := hself ▸ hnearest.le f.block
    _ < |q| - |w| := by linarith
    _ ≤ |q - w| := abs_sub_abs_le_abs_sub q w

/-- A number other than zero is nearer to what it is rounded to than to its negative. -/
theorem eq_nearest_of_abs_eq {q w : ℚ} (hq : q ≠ 0) (hw : |w| = f.magnitude (f.rank q))
    (heq : |q - f.nearest q| = |q - w|) : w = f.nearest q := by
  by_contra hne
  rw [← f.abs_nearest] at hw
  have hopposite := (abs_eq_abs.1 hw).resolve_left hne
  rw [hopposite] at heq
  rcases abs_eq_abs.1 heq with hsub | hsub
  · exact hne (by linarith)
  · exact hq (by linarith)

/-- **A format rounds to the bits of its significands** all that is not too small for it. -/
theorem isRounded_nearest (hf : 2 ≤ f.precision) {q : ℚ} (hq : f.magnitude f.block ≤ |q|) :
    IsRounded f.precision q (f.nearest q) := by
  have hnearest := isNearest_rank (two_dvd_block hf) q
  have hne : q ≠ 0 := by
    rintro rfl
    rw [abs_zero, magnitude_block] at hq
    exact absurd hq (by positivity : (0 : ℚ) < _ / _).not_ge
  refine ⟨?_, fun w hw => ?_, fun w hw hother heq => ?_⟩
  · rcases f.nearest_cases q with h | h <;> rw [h]
    · exact significant_magnitude hf _
    · exact (significant_magnitude hf _).neg
  · rcases exists_rank_or_lt hf hw with ⟨s, hs⟩ | hlt
    · rw [f.abs_sub_nearest]
      exact (hnearest.le s).trans (hs ▸ abs_abs_sub_abs_le q w)
    · exact (abs_sub_nearest_lt hf hq hlt).le
  · rcases exists_rank_or_lt hf hw with ⟨s, hs⟩ | hlt
    · have hrank : s ≠ f.rank q := by
        rintro rfl
        exact hother (eq_nearest_of_abs_eq hne hs heq)
      have hle : |(|q| - f.magnitude s)| ≤ |q - w| := hs ▸ abs_abs_sub_abs_le q w
      rw [f.abs_sub_nearest] at heq
      have htie := le_antisymm (hnearest.le s) (heq ▸ hle)
      have heven := hnearest.even s hrank htie
      rcases f.nearest_cases q with h | h <;> rw [h]
      · exact significant_magnitude_of_even hf heven
      · exact (significant_magnitude_of_even hf heven).neg
    · exact absurd heq (abs_sub_nearest_lt hf hq hlt).ne

/-- A number is not too small if the format has many more places than bits. -/
theorem isRounded_nearest_of_le (hf : 2 ≤ f.precision) {j : ℕ}
    (hj : f.precision - 1 + j ≤ f.scale) {q : ℚ} (hq : 1 / 2 ^ j ≤ |q|) :
    IsRounded f.precision q (f.nearest q) := by
  refine isRounded_nearest hf (le_trans ?_ hq)
  rw [magnitude_block, div_le_div_iff₀ (by positivity) (by positivity), one_mul, ← pow_add]
  exact pow_le_pow_right₀ one_le_two hj

end Format

/-! ### Quotients of words -/

/-- A finite result of rounding stands for the nearest value, whatever sign a zero has. -/
theorem Binary64.toRat?_round_of_rank_lt (zeroSign : Bool) {q : ℚ}
    (h : Format.binary64.rank q < finiteRanks) :
    (round zeroSign q).toRat? = some (Format.binary64.nearest q) := by
  rw [round_of_rank_lt zeroSign h, toRat?, Option.some.injEq]
  rcases eq_or_ne q 0 with rfl | hq
  · simp [signed]
  · simp [signed, Format.nearest, hq]

namespace Word

variable (a : Int64) {b : Int64} (hb : b ≠ 0)

include hb

/-- **The ways to a quotient agree**: an integer is not changed by extended precision. -/
theorem exists_run_quotient_round :
    ∃ zeroSign, (quotient a b).run
      = .ok (Binary64.round zeroSign (Format.extended.nearest ((a.toInt : ℚ) / b.toInt))) := by
  rcases exists_run_quotient a hb with ⟨n, zeroSign, hn, hquotient⟩ | hquotient
  · have hrange := abs_div_le a hb
    rw [hn] at hrange ⊢
    obtain ⟨s, hs⟩ := Binary64.exists_extended_of_integer hrange
    exact ⟨zeroSign, by rw [Format.nearest_of_abs_eq hs, hquotient]⟩
  · exact ⟨false, hquotient⟩

/-- A quotient that is not zero is not small. -/
theorem le_abs_div (ha : a ≠ 0) : 1 / 2 ^ 63 ≤ |(a.toInt : ℚ) / b.toInt| := by
  have ha' : (1 : ℚ) ≤ |(a.toInt : ℚ)| := by
    rw [← Int.cast_abs]
    exact_mod_cast Int.one_le_abs fun hzero => ha ((eq_zero_iff a).2 hzero)
  have hb' : (0 : ℚ) < |(b.toInt : ℚ)| :=
    abs_pos.2 (Int.cast_ne_zero.2 fun hzero => hb ((eq_zero_iff b).2 hzero))
  rw [abs_div]
  exact div_le_div₀ (abs_nonneg _) ha' hb' (Binary64.abs_word_le b)

/-- A quotient is rounded to 64 bits first, and then to 53. -/
theorem isRounded_nearest_div :
    let q := (a.toInt : ℚ) / b.toInt
    let u := Format.extended.nearest q
    IsRounded 64 q u ∧ IsRounded 53 u (Format.binary64.nearest u) := by
  intro q u
  rcases eq_or_ne a 0 with rfl | ha
  · have hq : q = 0 := by
      show ((0 : Int64).toInt : ℚ) / b.toInt = 0
      rw [Int64.toInt_zero, Int.cast_zero, zero_div]
    have hu : u = 0 := by
      show Format.extended.nearest q = 0
      rw [hq, Format.nearest_zero]
    rw [hu, hq, Format.nearest_zero]
    exact ⟨.self (.zero 64), .self (.zero 53)⟩
  · have hq : 1 / 2 ^ 63 ≤ |q| := le_abs_div a hb ha
    -- Rounding does not go below the bound, which is a power of two.
    obtain ⟨s, hs⟩ := Binary64.exists_extended (m := 1) 0 (j := 63) (by decide) (by decide)
    rw [Nat.cast_one, pow_zero, one_mul] at hs
    have hu : 1 / 2 ^ 63 ≤ |u| := Binary64.le_abs_nearest_extended ⟨s, hs⟩ hq
    exact ⟨Format.isRounded_nearest_of_le (f := .extended) (by decide) (by decide) hq,
      Format.isRounded_nearest_of_le (f := .binary64) (by decide) (by decide) hu⟩

end Word

namespace Number

/-- Dividing a word by a word gives what the exact quotient is rounded to in two steps. -/
theorem exists_apply_divide_eq (a : Int64) {b : Int64} (hb : b ≠ 0) (position : ℕ) :
    ∃ x, apply .divide (.integer a) b position = .ok (.real x)
      ∧ x.toRat? = some (Format.binary64.nearest
          (Format.extended.nearest ((a.toInt : ℚ) / b.toInt))) := by
  obtain ⟨x, hquotient, hcombine⟩ := combine_divide_integer (a := a) hb
  obtain ⟨zeroSign, hround⟩ := Word.exists_run_quotient_round a hb
  obtain rfl := Except.ok.inj (hquotient.symm.trans hround)
  refine ⟨_, by rw [apply, if_neg fun h => hb h.2, hcombine], ?_⟩
  refine Binary64.toRat?_round_of_rank_lt zeroSign ((Binary64.rank_lt_finiteRanks_iff _).2 ?_)
  have hbound : ∃ s, (2 : ℚ) ^ 63 = Format.extended.magnitude s := by
    obtain ⟨s, hs⟩ := Binary64.exists_extended (m := 1) 63 (j := 0) (by decide) (by decide)
    exact ⟨s, by rw [← hs, Nat.cast_one, one_mul, pow_zero, div_one]⟩
  exact (Binary64.abs_nearest_extended_le hbound (Word.abs_div_le a hb)).trans_lt
    Binary64.word_lt_overflow

/-- **Dividing a word by a word, whichever way it is done.**  The result is a finite real, namely
    the exact quotient rounded to 64 significant bits and then to 53, each to the nearest and
    from half-way to the even one.  It is zero for the dividend zero only, has the sign of the
    quotient otherwise, and for a positive divisor it grows with the dividend. -/
theorem apply_divide_words {b : Int64} (hb : b ≠ 0) :
    (∀ (a : Int64) (position : ℕ), ∃ x u v,
        apply .divide (.integer a) b position = .ok (.real x) ∧ x.toRat? = some v
          ∧ IsRounded 64 ((a.toInt : ℚ) / b.toInt) u ∧ IsRounded 53 u v
          ∧ (v = 0 ↔ a = 0)
          ∧ (0 < v ↔ 0 < (a.toInt : ℚ) / b.toInt) ∧ (v < 0 ↔ (a.toInt : ℚ) / b.toInt < 0))
      ∧ (0 < b → ∀ (a a' : Int64) (p p' : ℕ) (x x' : Binary64) (v v' : ℚ), a ≤ a' →
          apply .divide (.integer a) b p = .ok (.real x) → x.toRat? = some v →
          apply .divide (.integer a') b p' = .ok (.real x') → x'.toRat? = some v' →
          v ≤ v') := by
  have hb' : (b.toInt : ℚ) ≠ 0 := Int.cast_ne_zero.2 fun hzero => hb ((Word.eq_zero_iff b).2 hzero)
  refine ⟨fun a position => ?_, fun hpos a a' p p' x x' v v' hle hx hv hx' hv' => ?_⟩
  · obtain ⟨x, hx, hv⟩ := exists_apply_divide_eq a hb position
    obtain ⟨hu, hround⟩ := Word.isRounded_nearest_div a hb
    refine ⟨x, _, _, hx, hv, hu, hround, ?_, ?_, ?_⟩
    · rw [hround.eq_zero_iff (by decide), hu.eq_zero_iff (by decide), div_eq_zero_iff,
        or_iff_left hb', Int.cast_eq_zero, Word.eq_zero_iff]
    · rw [hround.pos_iff (by decide), hu.pos_iff (by decide)]
    · rw [hround.neg_iff (by decide), hu.neg_iff (by decide)]
  · obtain ⟨y, hy, hw⟩ := exists_apply_divide_eq a hb p
    obtain ⟨y', hy', hw'⟩ := exists_apply_divide_eq a' hb p'
    cases hx.symm.trans hy
    cases hx'.symm.trans hy'
    cases hv.symm.trans hw
    cases hv'.symm.trans hw'
    obtain ⟨hu, hround⟩ := Word.isRounded_nearest_div a hb
    obtain ⟨hu', hround'⟩ := Word.isRounded_nearest_div a' hb
    have hquotients : (a.toInt : ℚ) / b.toInt ≤ (a'.toInt : ℚ) / b.toInt := by
      have hb'' : (0 : ℚ) < b.toInt := by exact_mod_cast (Word.pos_iff b).1 hpos
      rw [Int64.le_iff_toInt_le] at hle
      gcongr
    exact hround.mono (by decide) hround' (hu.mono (by decide) hu' hquotients)

/-- An exact quotient of 54 bits, and the next dividend, whose quotient is not exact. -/
theorem apply_divide_words_next :
    (3 : Int64) ≠ 0 ∧ (0 : Int64) < 3 ∧ (27021597764222979 : Int64) ≤ 27021597764222980
      ∧ ∃ x x' u v v', apply .divide (.integer 27021597764222979) 3 0 = .ok (.real x)
        ∧ x.toRat? = some v ∧ IsRounded 64 (2 ^ 53 + 1) u ∧ IsRounded 53 u v
        ∧ apply .divide (.integer 27021597764222980) 3 7 = .ok (.real x') ∧ x'.toRat? = some v'
        ∧ v ≤ v' := by
  have hthree : (3 : Int64) ≠ 0 := by decide
  have hpos : (0 : Int64) < 3 := by decide
  have hle : (27021597764222979 : Int64) ≤ 27021597764222980 := by decide
  obtain ⟨hall, hmono⟩ := apply_divide_words hthree
  obtain ⟨x, u, v, hx, hv, hu, hround, -⟩ := hall 27021597764222979 0
  obtain ⟨x', -, v', hx', hv', -⟩ := hall 27021597764222980 7
  have hquotient : (((27021597764222979 : Int64).toInt : ℤ) : ℚ) / ((3 : Int64).toInt : ℤ)
      = 2 ^ 53 + 1 := by
    rw [show (27021597764222979 : Int64).toInt = 27021597764222979 from rfl,
      show (3 : Int64).toInt = 3 from rfl]
    norm_num
  rw [hquotient] at hu
  exact ⟨hthree, hpos, hle, x, x', u, v, v', hx, hv, hu, hround, hx', hv',
    hmono hpos _ _ _ _ _ _ _ _ hle hx hv hx' hv'⟩

end Number

end ChainCalc
