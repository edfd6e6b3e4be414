import ChainCalc.Decimal.Shortest
import ChainCalc.Proofs.Decimals
import ChainCalc.Proofs.Nearest
import Mathlib.Data.Int.Log
import Mathlib.Data.Rat.Floor

namespace ChainCalc

/-!
# FewestDigits — the shortest decimal reads back, and no shorter one does

The search for the shortest decimal tries the two neighbours of the exact decimal that have so
many digits.  That is enough: no other decimal with so many digits is between them, and what
reads back is an interval.

* `Format.rank_eq_of_le_of_le` — between two numbers of the same rank there are no others.
* `Decimal.le_or_ge_of_digitCount_le` — no decimal with so many digits is between the neighbours.
* `Format.rank_shortest`, `Format.digitCount_shortest_le` — the shortest decimal reads back, and
  has the fewest digits of those that do.
* `Format.rank_eq_of_abs_sub_lt` — what is near enough to a value rounds to it.
* `Binary64.exists_seventeen_digits` — seventeen digits are enough for a double.
-/

namespace Decimal

/-- The decimal below among the neighbours. -/
def lower (d : Decimal) (dropped : ℕ) : Decimal :=
  ⟨d.coefficient / 10 ^ dropped, d.exponent + dropped⟩

/-- The decimal above among the neighbours. -/
def upper (d : Decimal) (dropped : ℕ) : Decimal :=
  ⟨d.coefficient / 10 ^ dropped + 1, d.exponent + dropped⟩

theorem mem_neighbours {d e : Decimal} {k : ℕ} :
    e ∈ d.neighbours k ↔ e = d.lower k ∨ e = d.upper k := by
  show e ∈ (if _ then [d.lower k, d.upper k] else [d.upper k, d.lower k]) ↔ _
  split
  · simp
  · rw [or_comm]
    simp

theorem toRat_lower_le (d : Decimal) (k : ℕ) : (d.lower k).toRat ≤ d.toRat := by
  rw [lower, ← toRat_mul_pow]
  exact toRat_mono (Nat.div_mul_le_self _ _) _

theorem le_toRat_upper (d : Decimal) (k : ℕ) : d.toRat ≤ (d.upper k).toRat := by
  have hpos : 0 < 10 ^ k := Nat.pow_pos (by decide)
  rw [upper, ← toRat_mul_pow]
  refine toRat_mono ?_ _
  rw [Nat.mul_comm]
  exact (Nat.lt_mul_div_succ _ hpos).le

/-- **No decimal with so many digits is between the neighbours.**  One with a large exponent is
    a multiple of their last place; one with a small exponent is below both. -/
theorem le_or_ge_of_digitCount_le {d e : Decimal} {k n : ℕ} (hd : 0 < d.coefficient)
    (hk : digitCount d.coefficient = n + k) (he : digitCount e.coefficient ≤ n) :
    e.toRat ≤ (d.lower k).toRat ∨ (d.upper k).toRat ≤ e.toRat := by
  have hn : 0 < n := (digitCount_pos _).trans_le he
  rcases lt_or_ge e.exponent (d.exponent + k) with hlt | hge
  · left
    have hsmall : e.coefficient ≤ 10 ^ (n - 1) * 10 ^ 1 := by
      rw [← pow_add, Nat.sub_add_cancel hn]
      exact ((digitCount_le_iff hn).1 he).le
    have hlarge : 10 ^ (n - 1) ≤ d.coefficient / 10 ^ k := by
      rw [Nat.le_div_iff_mul_le (Nat.pow_pos (by decide)), ← pow_add]
      exact pow_le_of_lt_digitCount hd (by omega)
    calc e.toRat
        ≤ toRat ⟨10 ^ (n - 1) * 10 ^ 1, e.exponent⟩ := toRat_mono hsmall _
      _ = toRat ⟨10 ^ (n - 1), e.exponent + (1 : ℕ)⟩ := toRat_mul_pow _ _ _
      _ ≤ toRat ⟨10 ^ (n - 1), d.exponent + k⟩ := toRat_mono_exponent _ (by omega)
      _ ≤ (d.lower k).toRat := toRat_mono hlarge _
  · obtain ⟨j, hj⟩ := Int.le.dest hge
    have hmultiple : e.toRat = toRat ⟨e.coefficient * 10 ^ j, d.exponent + k⟩ := by
      rw [toRat_mul_pow, hj]
    rw [hmultiple]
    rcases Nat.lt_or_ge (d.coefficient / 10 ^ k) (e.coefficient * 10 ^ j) with hlt | hge
    · exact .inr (toRat_mono hlt _)
    · exact .inl (toRat_mono hge _)

/-- The neighbours have no more digits than asked for, once they are trimmed. -/
theorem digitCount_trimmed_neighbour_le {d e : Decimal} {k n : ℕ} (hn : 0 < n)
    (hk : digitCount d.coefficient = n + k) (he : e ∈ d.neighbours k) :
    digitCount e.trimmed.coefficient ≤ n := by
  have hlt : d.coefficient / 10 ^ k < 10 ^ n := by
    rw [Nat.div_lt_iff_lt_mul (Nat.pow_pos (by decide)), ← pow_add]
    exact (digitCount_le_iff (by omega)).1 hk.le
  rcases mem_neighbours.1 he with rfl | rfl
  · exact digitCount_trimmed_le_of_le_pow _ hn hlt.le
  · exact digitCount_trimmed_le_of_le_pow _ hn hlt

end Decimal

/-- A search over `0, 1, …` ends at the first index that has a result. -/
theorem exists_of_findSome?_range {α : Type} {g : ℕ → Option α} {n : ℕ} {x : α}
    (h : (List.range n).findSome? g = some x) :
    ∃ i < n, g i = some x ∧ ∀ j < i, g j = none := by
  obtain ⟨front, i, back, hrange, hi, hnone⟩ := List.findSome?_eq_some_iff.1 h
  have hlt : front.length < n := by
    have hlength := congrArg List.length hrange
    rw [List.length_range, List.length_append, List.length_cons] at hlength
    omega
  have hfront : List.range front.length = front := by
    have htake := congrArg (List.take front.length) hrange
    rwa [List.take_range, Nat.min_eq_left hlt.le, List.take_left] at htake
  have hindex : i = front.length := by
    have hget := congrArg (·[front.length]?) hrange
    simpa [hlt] using hget.symm
  subst hindex
  refine ⟨front.length, hlt, hi, fun j hj => hnone j ?_⟩
  rw [← hfront]
  exact List.mem_range.2 hj

namespace Format

variable {f : Format} {r : ℕ}

/-- The exact decimal stands for the magnitude. -/
theorem toRat_decimal (f : Format) (r : ℕ) : (f.decimal r).toRat = f.magnitude r := by
  have hten : (10 : ℚ) ^ f.scale = 5 ^ f.scale * 2 ^ f.scale := by
    rw [← mul_pow]
    norm_num
  show ((f.units r * 5 ^ f.scale : ℕ) : ℚ) * (10 : ℚ) ^ (-(f.scale : ℤ)) = _
  rw [magnitude_eq, zpow_neg, zpow_natCast, hten]
  push_cast
  field_simp

theorem readsBack_iff {d : Decimal} : f.readsBack r d = true ↔ f.rank d.toRat = r := by
  rw [readsBack, beq_iff_eq]

/-- Between two numbers of the same rank there are no others. -/
theorem rank_eq_of_le_of_le (heven : 2 ∣ f.block) {a b q : ℚ} (ha : 0 ≤ a) (haq : a ≤ q)
    (hqb : q ≤ b) (hra : f.rank a = r) (hrb : f.rank b = r) : f.rank q = r := by
  have hq : 0 ≤ q := ha.trans haq
  have hlow := rank_le_rank heven (p := a) (q := q) (by rwa [abs_of_nonneg ha, abs_of_nonneg hq])
  have hhigh := rank_le_rank heven (p := q) (q := b)
    (by rwa [abs_of_nonneg hq, abs_of_nonneg (hq.trans hqb)])
  omega

/-- If a decimal with so many digits reads back, one of the neighbours does. -/
theorem exists_neighbour (heven : 2 ∣ f.block) {d : Decimal} {k n : ℕ} (hn : 0 < n)
    (hk : Decimal.digitCount (f.decimal r).coefficient = n + k)
    (hd : Decimal.digitCount d.coefficient ≤ n) (hr : f.rank d.toRat = r) :
    ∃ e ∈ (f.decimal r).neighbours k, f.readsBack r e = true := by
  have hexact : f.rank (f.decimal r).toRat = r := by rw [toRat_decimal, rank_magnitude]
  have hlower := (f.decimal r).toRat_lower_le k
  have hupper := (f.decimal r).le_toRat_upper k
  rcases Nat.eq_zero_or_pos (f.decimal r).coefficient with hzero | hpos
  · -- Zero has one digit, so the neighbour below is the exact decimal.
    have hk0 : k = 0 := by
      rw [hzero] at hk
      have hone : Decimal.digitCount 0 = 1 := by simp [Decimal.digitCount]
      omega
    subst hk0
    refine ⟨_, Decimal.mem_neighbours.2 (.inl rfl), readsBack_iff.2 ?_⟩
    rwa [Decimal.lower, ← Decimal.toRat_mul_pow, pow_zero, Nat.div_one, mul_one]
  · rcases Decimal.le_or_ge_of_digitCount_le hpos hk hd with hle | hge
    · exact ⟨_, Decimal.mem_neighbours.2 (.inl rfl), readsBack_iff.2
        (rank_eq_of_le_of_le heven d.toRat_nonneg hle hlower hr hexact)⟩
    · exact ⟨_, Decimal.mem_neighbours.2 (.inr rfl), readsBack_iff.2
        (rank_eq_of_le_of_le heven (f.decimal r).toRat_nonneg hupper hge hexact hr)⟩

/-- What the search finds: a neighbour with so many digits that reads back, where no decimal
    with fewer digits does. -/
theorem exists_shortest_eq (heven : 2 ∣ f.block) (r : ℕ) :
    ∃ (d : Decimal) (k n : ℕ), f.shortest r = d.trimmed ∧ 0 < n
      ∧ Decimal.digitCount (f.decimal r).coefficient = n + k
      ∧ d ∈ (f.decimal r).neighbours k ∧ f.rank d.toRat = r
      ∧ ∀ e : Decimal, f.rank e.toRat = r → n ≤ Decimal.digitCount e.coefficient := by
  let exact := f.decimal r
  let digits := Decimal.digitCount exact.coefficient
  let search := fun i => (exact.neighbours (digits - (i + 1))).find? (f.readsBack r)
  have hdigits : 0 < digits := Decimal.digitCount_pos _
  have hsearch : ∀ {e : Decimal} {m : ℕ}, 0 < m → m ≤ digits → f.rank e.toRat = r →
      Decimal.digitCount e.coefficient ≤ m → search (m - 1) ≠ none := by
    intro e m hm hle hr he hnone
    obtain ⟨x, hx, hreads⟩ := exists_neighbour heven hm (Nat.add_sub_cancel' hle).symm he hr
    have hmiss := List.find?_eq_none.1 hnone x
    rw [Nat.sub_add_cancel hm] at hmiss
    exact hmiss hx hreads
  cases hfound : (List.range digits).findSome? search with
  | none =>
    -- The exact decimal has all its digits, so the last step of the search has a result.
    have hexact : f.rank exact.toRat = r := by rw [toRat_decimal, rank_magnitude]
    exact absurd (List.findSome?_eq_none_iff.1 hfound (digits - 1) (List.mem_range.2 (by omega)))
      (hsearch hdigits le_rfl hexact le_rfl)
  | some d =>
    obtain ⟨i, hi, hd, hnone⟩ := exists_of_findSome?_range hfound
    refine ⟨d, digits - (i + 1), i + 1, ?_, Nat.succ_pos i, (Nat.add_sub_cancel' hi).symm,
      List.mem_of_find?_eq_some hd, readsBack_iff.1 (List.find?_some hd), fun e he => ?_⟩
    · show Decimal.trimmed (((List.range digits).findSome? search).getD exact) = d.trimmed
      rw [hfound, Option.getD_some]
    · by_contra hlt
      have hpos := Decimal.digitCount_pos e.coefficient
      exact hsearch hpos (by omega) he le_rfl (hnone _ (by omega))

/-- **The shortest decimal reads back.** -/
theorem rank_shortest (heven : 2 ∣ f.block) (r : ℕ) : f.rank (f.shortest r).toRat = r := by
  obtain ⟨d, k, n, hshortest, -, -, -, hr, -⟩ := exists_shortest_eq heven r
  rw [hshortest, Decimal.toRat_trimmed, hr]

/-- **No decimal that reads back has fewer digits.** -/
theorem digitCount_shortest_le (heven : 2 ∣ f.block) {d : Decimal} (hd : f.rank d.toRat = r) :
    Decimal.digitCount (f.shortest r).coefficient ≤ Decimal.digitCount d.coefficient := by
  obtain ⟨e, k, n, hshortest, hn, hk, he, -, hall⟩ := exists_shortest_eq heven r
  rw [hshortest]
  exact (Decimal.digitCount_trimmed_neighbour_le hn hk he).trans (hall d hd)

/-- Zero is the digit zero, without an exponent. -/
theorem shortest_zero (f : Format) : f.shortest 0 = ⟨0, 0⟩ := by
  have hexact : f.decimal 0 = ⟨0, -(f.scale : ℤ)⟩ := by
    rw [decimal, units_of_lt_block f.block_pos, Nat.zero_mul]
  have hcount : Decimal.digitCount 0 = 1 := by
    rw [Decimal.digitCount, if_pos (by decide)]
  have hreads : f.readsBack 0 ⟨0, -(f.scale : ℤ)⟩ = true := by
    rw [readsBack_iff, Decimal.toRat, Nat.cast_zero, zero_mul, rank_zero]
  have hfirst : (Decimal.neighbours ⟨0, -(f.scale : ℤ)⟩ 0).find? (f.readsBack 0)
      = some ⟨0, -(f.scale : ℤ)⟩ := by
    simp [Decimal.neighbours, hreads]
  have hsearch : (List.range 1).findSome? (fun i =>
      (Decimal.neighbours ⟨0, -(f.scale : ℤ)⟩ (1 - (i + 1))).find? (f.readsBack 0))
      = some ⟨0, -(f.scale : ℤ)⟩ := by
    simp [List.range_succ, hfirst]
  rw [shortest, hexact]
  dsimp only
  rw [hcount, hsearch, Option.getD_some, Decimal.trimmed, if_pos rfl]

/-! ### Enough digits -/

/-- From half-way below to half-way above, rounding goes to the value in the middle. -/
theorem rank_eq_of_middle_lt_of_lt_middle (heven : 2 ∣ f.block) {q : ℚ} (hlow : f.middle r < |q|)
    (hhigh : |q| < f.middle (r + 1)) : f.rank q = r + 1 := by
  rcases lt_or_ge |q| (f.magnitude (r + 1)) with hlt | hge
  · have hbetween : f.Between q r := ⟨((f.magnitude_lt_middle r).trans hlow).le, hlt⟩
    exact hbetween.rank_of_middle_lt heven hlow
  · have hbetween : f.Between q (r + 1) := ⟨hge, hhigh.trans (f.middle_lt_magnitude (r + 1))⟩
    exact hbetween.rank_of_lt_middle heven hhigh

/-- A value is as far from half-way below as its last place allows. -/
theorem magnitude_succ_le (f : Format) (r : ℕ) :
    f.magnitude (r + 1) ≤ 4 * f.block * (f.magnitude (r + 1) - f.middle r) := by
  obtain ⟨k, m, hlow, hhigh, rfl⟩ := f.exists_eq_mul_block_add r
  have hm : (m + 1 : ℚ) ≤ 2 * f.block := by exact_mod_cast hhigh
  have hunit : (0 : ℚ) ≤ 2 ^ k / 2 ^ f.scale := by positivity
  have hnext : f.magnitude (k * f.block + m + 1) = (m + 1) * (2 ^ k / 2 ^ f.scale) := by
    rw [magnitude_eq, units_succ hlow hhigh, units_mul_block_add_of_le hlow hhigh.le]
    push_cast
    ring
  have hself : f.magnitude (k * f.block + m) = m * (2 ^ k / 2 ^ f.scale) := by
    rw [magnitude_eq, units_mul_block_add_of_le hlow hhigh.le]
    push_cast
    ring
  calc f.magnitude (k * f.block + m + 1)
      = (m + 1) * (2 ^ k / 2 ^ f.scale) := hnext
    _ ≤ 2 * f.block * (2 ^ k / 2 ^ f.scale) := mul_le_mul_of_nonneg_right hm hunit
    _ = 4 * f.block * (f.magnitude (k * f.block + m + 1) - f.middle (k * f.block + m)) := by
      rw [middle, hnext, hself]
      ring

/-- What is nearer to a value than its last place allows rounds to it. -/
theorem rank_eq_of_abs_sub_lt (heven : 2 ∣ f.block) {q : ℚ} (hq : 0 ≤ q)
    (h : 4 * f.block * |q - f.magnitude (r + 1)| < f.magnitude (r + 1)) : f.rank q = r + 1 := by
  have hblock : (0 : ℚ) < 4 * f.block := by
    have hpos : (0 : ℚ) < f.block := by exact_mod_cast f.block_pos
    linarith
  have hbelow := h.trans_le (f.magnitude_succ_le r)
  have habove : f.magnitude (r + 1)
      ≤ 4 * f.block * (f.middle (r + 1) - f.magnitude (r + 1)) := by
    have hlt := f.magnitude_strictMono (Nat.lt_succ_self (r + 1))
    have hle := f.magnitude_succ_le (r + 1)
    have hsame : f.magnitude (r + 1 + 1) - f.middle (r + 1)
        = f.middle (r + 1) - f.magnitude (r + 1) := by
      unfold middle
      ring
    rw [hsame] at hle
    exact hlt.le.trans hle
  have hnear := abs_lt.1 ((mul_lt_mul_iff_right₀ hblock).1 (h.trans_le habove))
  have hnear' := abs_lt.1 ((mul_lt_mul_iff_right₀ hblock).1 hbelow)
  refine rank_eq_of_middle_lt_of_lt_middle heven ?_ ?_ <;> rw [abs_of_nonneg hq] <;> linarith

end Format

/-- A positive number has a decimal with so many digits near to it: it is off by half of the last
    place at most. -/
theorem Decimal.exists_near {v : ℚ} (hv : 0 < v) (n : ℕ) :
    ∃ d : Decimal, digitCount d.coefficient ≤ n + 1 ∧ 2 * 10 ^ n * |d.toRat - v| ≤ v := by
  let place : ℚ := (10 : ℚ) ^ (Int.log 10 v - n)
  have hplace : 0 < place := zpow_pos (by norm_num) _
  have hscale : ∀ k : ℕ, 10 ^ k * place = ((10 : ℕ) : ℚ) ^ (Int.log 10 v - n + k) := by
    intro k
    rw [Nat.cast_ofNat, zpow_add₀ (by norm_num), zpow_natCast, mul_comm]
  have hlow : 10 ^ n * place ≤ v := by
    rw [hscale, sub_add_cancel]
    exact Int.zpow_log_le_self (by decide) hv
  have hhigh : v < 10 ^ (n + 1) * place := by
    rw [hscale, Nat.cast_add, ← add_assoc, sub_add_cancel]
    exact Int.lt_zpow_succ_log_self (by decide) v
  let c := ⌊v / place + 1 / 2⌋₊
  have hfloor : (c : ℚ) ≤ v / place + 1 / 2 := Nat.floor_le (by positivity)
  have hceil : v / place + 1 / 2 < c + 1 := Nat.lt_floor_add_one _
  have hc : c ≤ 10 ^ (n + 1) := by
    have hlt : v / place < 10 ^ (n + 1) := (div_lt_iff₀ hplace).2 hhigh
    have hcast : (c : ℚ) < 10 ^ (n + 1) + 1 := by linarith
    exact Nat.lt_succ_iff.1 (by exact_mod_cast hcast)
  have hoff : |c - v / place| ≤ 1 / 2 := abs_le.2 ⟨by linarith, by linarith⟩
  have hplaces : c * place - v = (c - v / place) * place := by
    rw [sub_mul, div_mul_cancel₀ v hplace.ne']
  refine ⟨trimmed ⟨c, Int.log 10 v - n⟩, digitCount_trimmed_le_of_le_pow _ n.succ_pos hc, ?_⟩
  rw [toRat_trimmed]
  calc 2 * 10 ^ n * |c * place - v|
      = 2 * 10 ^ n * (|c - v / place| * place) := by rw [hplaces, abs_mul, abs_of_pos hplace]
    _ ≤ 2 * 10 ^ n * (1 / 2 * place) := by gcongr
    _ = 10 ^ n * place := by ring
    _ ≤ v := hlow

namespace Binary64

theorem abs_lt_of_rank_lt {q : ℚ} (h : Format.binary64.rank q < finiteRanks) : |q| < 2 ^ 1024 :=
  ((rank_lt_finiteRanks_iff q).1 h).trans (sub_lt_self _ (by positivity))

/-- What does not round to zero is above half of the smallest double. -/
theorem lt_abs_of_rank_pos {q : ℚ} (h : 0 < Format.binary64.rank q) : (2 ^ 1075)⁻¹ < |q| := by
  by_contra hle
  have hmiddle : Format.binary64.middle 0 = (2 ^ 1075)⁻¹ := by
    have hscale : Format.binary64.scale = 1074 := rfl
    have hone : Format.binary64.units 1 = 1 := Format.units_of_lt_block (by decide)
    rw [Format.middle, Format.magnitude_zero, zero_add, Format.magnitude_eq, hone, hscale,
      pow_succ (2 : ℚ) 1074, Nat.cast_one, one_div, mul_inv, div_eq_mul_inv]
  rw [← hmiddle] at hle
  have hbetween : Format.binary64.Between q 0 :=
    ⟨by rw [Format.magnitude_zero]; exact abs_nonneg q,
      (not_lt.1 hle).trans_lt (Format.binary64.middle_lt_magnitude 0)⟩
  rcases (not_lt.1 hle).lt_or_eq with hlt | heq
  · exact h.ne' (hbetween.rank_of_lt_middle two_dvd_block hlt)
  · exact h.ne' (hbetween.rank_of_eq_middle two_dvd_block heq)

/-- **Seventeen digits are enough for a double.**  A decimal with so many is off by less than
    half of the last place of the double, since `2 ^ 54` is below `2 * 10 ^ 16`. -/
theorem exists_seventeen_digits (r : ℕ) :
    ∃ d : Decimal, Format.binary64.rank d.toRat = r ∧ Decimal.digitCount d.coefficient ≤ 17 := by
  cases r with
  | zero =>
    refine ⟨⟨0, 0⟩, ?_, (Decimal.digitCount_le_iff (by decide)).2 (by decide)⟩
    rw [Decimal.toRat, Nat.cast_zero, zero_mul, Format.rank_zero]
  | succ r =>
    have hpos : 0 < Format.binary64.magnitude (r + 1) := by
      have hlt := Format.binary64.magnitude_strictMono (Nat.succ_pos r)
      rwa [Format.magnitude_zero] at hlt
    have hblock : (4 * Format.binary64.block : ℚ) = 2 ^ 54 := by
      have hnat : 4 * Format.binary64.block = 2 ^ 54 := by decide
      exact_mod_cast hnat
    obtain ⟨d, hcount, hnear⟩ := Decimal.exists_near hpos 16
    refine ⟨d, Format.rank_eq_of_abs_sub_lt two_dvd_block d.toRat_nonneg ?_, hcount⟩
    rw [hblock]
    rcases (abs_nonneg (d.toRat - Format.binary64.magnitude (r + 1))).eq_or_lt with hzero | hoff
    · rwa [← hzero, mul_zero]
    · linarith

end Binary64

end ChainCalc
