import ChainCalc.Number

namespace ChainCalc

/-!
# Words — the integers that fit, and how overflow is found out

The overflow tests of word arithmetic compare an operand with a bound that is itself
computed in words.  This file says what they come to: no test and no quotient meets a
fault, and a sum, difference or product is had from words exactly when it fits one.

* `Word.Fits`, `Word.fit?` — the integers that a word can hold, and the word for one.
* `Word.run_sumOverflows`, `run_differenceOverflows`, `run_productOverflows` — a test says
  that the exact result does not fit.
* `Word.run_quotient` — the quotient by its three cases.
* `Operator.onInts` — the operations on integers without bound; `Operator.onWords_eq` says
  that words agree with them as far as results fit.
-/

namespace Word

/-! ### Integers that fit -/

/-- An integer that a word can hold, from `-2 ^ 63` to `2 ^ 63 - 1`. -/
def Fits (n : Int) : Prop := -0x8000000000000000 ≤ n ∧ n < 0x8000000000000000

instance (n : Int) : Decidable (Fits n) := inferInstanceAs (Decidable (_ ∧ _))

/-- The word for an integer, if it fits one. -/
def fit? (n : Int) : Option Int64 := if Fits n then some (Int64.ofInt n) else none

theorem fits_toInt (a : Int64) : Fits a.toInt := ⟨a.le_toInt, a.toInt_lt⟩

/-- The word for an integer that fits stands for that integer. -/
theorem toInt_ofInt {n : Int} (h : Fits n) : (Int64.ofInt n).toInt = n :=
  Int64.toInt_ofInt_of_le h.1 h.2

/-- A strict operation has a result if that fits. -/
theorem ofInt_of_fits {n : Int} (h : Fits n) : ofInt n = .ok (Int64.ofInt n) := by
  have hbounds : Int64.minValue.toInt ≤ n ∧ n ≤ Int64.maxValue.toInt := by
    rw [Int64.toInt_minValue, Int64.toInt_maxValue]
    exact ⟨h.1, Int.le_sub_one_of_lt h.2⟩
  rw [ofInt, if_pos hbounds]

theorem fit?_of_fits {n : Int} (h : Fits n) : fit? n = some (Int64.ofInt n) := if_pos h

theorem fit?_of_not_fits {n : Int} (h : ¬ Fits n) : fit? n = none := if_neg h

theorem pos_iff (a : Int64) : 0 < a ↔ 0 < a.toInt := Int64.lt_iff_toInt_lt

theorem neg_iff (a : Int64) : a < 0 ↔ a.toInt < 0 := Int64.lt_iff_toInt_lt

theorem eq_zero_iff (a : Int64) : a = 0 ↔ a.toInt = 0 := Int64.toInt_inj.symm

/-! ### Tests -/

section

variable {a b : Int64} {o : Operation} {bound result : Int}

/-- A test against a bound from above says what the bound was chosen for. -/
theorem bound_lt (ho : o.perform = ofInt bound) (hbound : Fits bound)
    (h : bound < a.toInt ↔ ¬ Fits result) :
    (do return decide ((← Program.of o) < a) : Program Bool).run
      = .ok (decide ¬ Fits result) := by
  have hlt : Int64.ofInt bound < a ↔ ¬ Fits result := by
    rw [Int64.lt_iff_toInt_lt, toInt_ofInt hbound, h]
  rw [Program.run_bind, Program.run_of, ho, ofInt_of_fits hbound]
  show Except.ok (decide (Int64.ofInt bound < a)) = _
  rw [decide_eq_decide.2 hlt]

/-- A test against a bound from below says what the bound was chosen for. -/
theorem lt_bound (ho : o.perform = ofInt bound) (hbound : Fits bound)
    (h : a.toInt < bound ↔ ¬ Fits result) :
    (do return decide (a < (← Program.of o)) : Program Bool).run
      = .ok (decide ¬ Fits result) := by
  have hlt : a < Int64.ofInt bound ↔ ¬ Fits result := by
    rw [Int64.lt_iff_toInt_lt, toInt_ofInt hbound, h]
  rw [Program.run_bind, Program.run_of, ho, ofInt_of_fits hbound]
  show Except.ok (decide (a < Int64.ofInt bound)) = _
  rw [decide_eq_decide.2 hlt]

end

/-- A test that is settled by the signs alone says that the result fits. -/
theorem return_false_of_fits {result : Int} (h : Fits result) :
    (return false : Program Bool).run = .ok (decide ¬ Fits result) := by
  simp only [h, not_true_eq_false, decide_false]
  rfl

/-! ### Bounds by division -/

/-- A quotient of integers that fit fits too, but for the least one by minus one. -/
theorem fits_tdiv {m d : Int} (hm : Fits m) (hd : d ≠ 0)
    (hleast : m = -0x8000000000000000 → d ≠ -1) : Fits (m.tdiv d) := by
  have habs : (m.tdiv d).natAbs = m.natAbs / d.natAbs := Int.natAbs_tdiv m d
  by_cases hone : d.natAbs = 1
  · -- Dividing by one or by minus one keeps the magnitude, or changes the sign.
    rcases Int.natAbs_eq_iff.1 hone with rfl | rfl
    · rwa [Int.natCast_one, Int.tdiv_one]
    · simp only [Fits, Int.natCast_one, Int.tdiv_neg, Int.tdiv_one] at *
      omega
  · -- Any other divisor at least halves the magnitude.
    have hhalf : m.natAbs / d.natAbs ≤ m.natAbs / 2 :=
      Nat.div_le_div_left (by omega) (by decide)
    simp only [Fits] at *
    omega

/-- A remainder of integers that fit fits too. -/
theorem fits_tmod {m d : Int} (hm : Fits m) : Fits (m.tmod d) := by
  have habs : (m.tmod d).natAbs = m.natAbs % d.natAbs := Int.natAbs_tmod m d
  have hle : m.natAbs % d.natAbs ≤ m.natAbs := Nat.mod_le _ _
  -- The remainder has the sign of the dividend.
  have hnonneg : 0 ≤ m → 0 ≤ m.tmod d := fun h => Int.tmod_nonneg d h
  have hnonpos : 0 ≤ -m → 0 ≤ (-m).tmod d := fun h => Int.tmod_nonneg d h
  rw [Int.neg_tmod] at hnonpos
  simp only [Fits] at *
  omega

/-- A bound from above is passed by what passes it as a product. -/
theorem tdiv_lt_iff {m d x : Int} (hm : 0 ≤ m) (hd : 0 < d) : m.tdiv d < x ↔ m < x * d := by
  rw [Int.tdiv_eq_ediv_of_nonneg hm, Int.ediv_lt_iff_lt_mul hd]

/-- The same for a bound from below. -/
theorem lt_tdiv_iff {m d x : Int} (hm : m ≤ 0) (hd : 0 < d) : x < m.tdiv d ↔ x * d < m := by
  have h := tdiv_lt_iff (x := -x) (Int.neg_nonneg_of_nonpos hm) hd
  rw [Int.neg_tdiv, Int.neg_mul] at h
  omega

/-- The same for a bound from above that a negative factor turns into one from below. -/
theorem lt_tdiv_neg_iff {m d x : Int} (hm : 0 ≤ m) (hd : d < 0) : x < m.tdiv d ↔ m < x * d := by
  have h := tdiv_lt_iff (x := -x) hm (Int.neg_pos_of_neg hd)
  rw [Int.tdiv_neg, Int.neg_mul_neg] at h
  omega

/-! ### The three tests -/

variable (a b : Int64)

/-- The test for sums meets no fault, and says that the sum does not fit. -/
theorem run_sumOverflows :
    (sumOverflows a b).run = .ok (decide ¬ Fits (a.toInt + b.toInt)) := by
  have ha := fits_toInt a
  have hb := fits_toInt b
  have hmin := Int64.toInt_minValue
  have hmax := Int64.toInt_maxValue
  unfold sumOverflows
  by_cases hpos : 0 < b
  · rw [if_pos hpos]
    rw [pos_iff] at hpos
    exact bound_lt rfl (by simp only [Fits] at *; omega) (by simp only [Fits] at *; omega)
  · rw [if_neg hpos]
    rw [pos_iff] at hpos
    by_cases hneg : b < 0
    · rw [if_pos hneg]
      rw [neg_iff] at hneg
      exact lt_bound rfl (by simp only [Fits] at *; omega) (by simp only [Fits] at *; omega)
    · rw [if_neg hneg]
      rw [neg_iff] at hneg
      exact return_false_of_fits (by simp only [Fits] at *; omega)

/-- The test for differences meets no fault, and says that the difference does not fit. -/
theorem run_differenceOverflows :
    (differenceOverflows a b).run = .ok (decide ¬ Fits (a.toInt - b.toInt)) := by
  have ha := fits_toInt a
  have hb := fits_toInt b
  have hmin := Int64.toInt_minValue
  have hmax := Int64.toInt_maxValue
  unfold differenceOverflows
  by_cases hneg : b < 0
  · rw [if_pos hneg]
    rw [neg_iff] at hneg
    exact bound_lt rfl (by simp only [Fits] at *; omega) (by simp only [Fits] at *; omega)
  · rw [if_neg hneg]
    rw [neg_iff] at hneg
    by_cases hpos : 0 < b
    · rw [if_pos hpos]
      rw [pos_iff] at hpos
      exact lt_bound rfl (by simp only [Fits] at *; omega) (by simp only [Fits] at *; omega)
    · rw [if_neg hpos]
      rw [pos_iff] at hpos
      exact return_false_of_fits (by simp only [Fits] at *; omega)

/-- A quotient by anything but zero has a result if the exact one, cut towards zero, fits. -/
theorem div_eq_ofInt {m d : Int64} (hd : d ≠ 0) : div m d = ofInt (m.toInt.tdiv d.toInt) :=
  if_neg hd

/-- The test for products meets no fault, and says that the product does not fit. -/
theorem run_productOverflows :
    (productOverflows a b).run = .ok (decide ¬ Fits (a.toInt * b.toInt)) := by
  have hmin := Int64.toInt_minValue
  have hmax := Int64.toInt_maxValue
  have hfits_min := fits_toInt Int64.minValue
  have hfits_max := fits_toInt Int64.maxValue
  have hmax_nonneg : 0 ≤ Int64.maxValue.toInt := by omega
  have hmin_nonpos : Int64.minValue.toInt ≤ 0 := by omega
  unfold productOverflows
  by_cases hzero : a = 0 ∨ b = 0
  · have hproduct : a.toInt * b.toInt = 0 := by
      rwa [Int.mul_eq_zero, ← eq_zero_iff, ← eq_zero_iff]
    rw [if_pos hzero]
    exact return_false_of_fits (by rw [hproduct]; decide)
  · rw [if_neg hzero]
    obtain ⟨ha, hb⟩ := not_or.1 hzero
    have ha' : a.toInt ≠ 0 := fun h => ha ((eq_zero_iff a).2 h)
    have hb' : b.toInt ≠ 0 := fun h => hb ((eq_zero_iff b).2 h)
    -- With the signs known, only one end of the range can be passed, and the bound is for it.
    by_cases hpos : 0 < a
    · rw [if_pos hpos]
      rw [pos_iff] at hpos
      by_cases hpos' : 0 < b
      · rw [if_pos hpos']
        rw [pos_iff] at hpos'
        have hproduct : 0 < a.toInt * b.toInt := Int.mul_pos hpos hpos'
        refine bound_lt (div_eq_ofInt hb) (fits_tdiv hfits_max hb' (by omega)) ?_
        rw [tdiv_lt_iff hmax_nonneg hpos', hmax]
        simp only [Fits]
        omega
      · rw [if_neg hpos']
        rw [pos_iff] at hpos'
        have hproduct : b.toInt * a.toInt < 0 := Int.mul_neg_of_neg_of_pos (by omega) hpos
        refine lt_bound (div_eq_ofInt ha) (fits_tdiv hfits_min ha' (by omega)) ?_
        rw [lt_tdiv_iff hmin_nonpos hpos, hmin, Int.mul_comm a.toInt]
        simp only [Fits]
        omega
    · rw [if_neg hpos]
      rw [pos_iff] at hpos
      by_cases hpos' : 0 < b
      · rw [if_pos hpos']
        rw [pos_iff] at hpos'
        have hproduct : a.toInt * b.toInt < 0 := Int.mul_neg_of_neg_of_pos (by omega) hpos'
        refine lt_bound (div_eq_ofInt hb) (fits_tdiv hfits_min hb' (by omega)) ?_
        rw [lt_tdiv_iff hmin_nonpos hpos', hmin]
        simp only [Fits]
        omega
      · rw [if_neg hpos']
        rw [pos_iff] at hpos'
        have hneg : a.toInt < 0 := by omega
        have hproduct : 0 < b.toInt * a.toInt := Int.mul_pos_of_neg_of_neg (by omega) hneg
        refine lt_bound (div_eq_ofInt ha) (fits_tdiv hfits_max ha' (by omega)) ?_
        rw [lt_tdiv_neg_iff hmax_nonneg hneg, hmax, Int.mul_comm a.toInt]
        simp only [Fits]
        omega

/-! ### Results -/

/-- A result is taken if a test says that it fits. -/
theorem run_unlessOverflows {test : Program Bool} {o : Operation} {n : Int}
    (ho : o.perform = ofInt n) (h : test.run = .ok (decide ¬ Fits n)) :
    (unlessOverflows test o).run = .ok (fit? n) := by
  rw [unlessOverflows, Program.run_bind, h]
  by_cases hn : Fits n
  · rw [fit?_of_fits hn, decide_eq_false (not_not_intro hn)]
    show (Program.of o >>= fun c => pure (some c)).run = _
    rw [Program.run_bind, Program.run_of, ho, ofInt_of_fits hn]
    rfl
  · rw [fit?_of_not_fits hn, decide_eq_true hn]
    rfl

theorem run_sum? : (sum? a b).run = .ok (fit? (a.toInt + b.toInt)) :=
  run_unlessOverflows rfl (run_sumOverflows a b)

theorem run_difference? : (difference? a b).run = .ok (fit? (a.toInt - b.toInt)) :=
  run_unlessOverflows rfl (run_differenceOverflows a b)

theorem run_product? : (product? a b).run = .ok (fit? (a.toInt * b.toInt)) :=
  run_unlessOverflows rfl (run_productOverflows a b)

/-! ### Quotients -/

/-- The quotient by its three cases: by minus one; exact; and neither, where it is rounded
    to extended precision first.  None of them meets a fault. -/
theorem run_quotient (a : Int64) {b : Int64} (hb : b ≠ 0) :
    (quotient a b).run = .ok
      (if b = -1 then (Binary64.ofInt a.toInt).neg
      else if b.toInt ∣ a.toInt then Binary64.ofInt (a.toInt.tdiv b.toInt)
      else Binary64.round false
        (Format.extended.nearest ((a.toInt : Rat) / (b.toInt : Rat)))) := by
  unfold quotient
  by_cases hone : b = -1
  · rw [if_pos hone, if_pos hone]
    rfl
  · rw [if_neg hone, if_neg hone]
    have hb' : b.toInt ≠ 0 := fun h => hb ((eq_zero_iff b).2 h)
    have hone' : b.toInt ≠ -1 := fun h => hone (Int64.toInt_inj.1 h)
    have hdiv := fits_tdiv (fits_toInt a) hb' fun _ => hone'
    have hmod := fits_tmod (d := b.toInt) (fits_toInt a)
    have hquotient : div a b = .ok (Int64.ofInt (a.toInt.tdiv b.toInt)) := by
      rw [div_eq_ofInt hb, ofInt_of_fits hdiv]
    have hrem : rem a b = .ok (Int64.ofInt (a.toInt.tmod b.toInt)) := by
      rw [rem, hquotient]
      exact ofInt_of_fits hmod
    have hexact : Int64.ofInt (a.toInt.tmod b.toInt) = 0 ↔ b.toInt ∣ a.toInt := by
      rw [eq_zero_iff, toInt_ofInt hmod, Int.dvd_iff_tmod_eq_zero]
    rw [Program.run_bind, Program.run_of, Operation.perform, hrem]
    dsimp only [Bind.bind, Except.bind]
    by_cases hdvd : b.toInt ∣ a.toInt
    · rw [if_pos hdvd, if_pos (hexact.2 hdvd)]
      show (Program.of (.div a b) >>= fun c => pure (Binary64.ofInt c.toInt)).run = _
      rw [Program.run_bind, Program.run_of, Operation.perform, hquotient]
      show Except.ok (Binary64.ofInt (Int64.ofInt (a.toInt.tdiv b.toInt)).toInt) = _
      rw [toInt_ofInt hdiv]
    · rw [if_neg hdvd, if_neg (mt hexact.1 hdvd)]
      rfl

end Word

/-! ### Operations on integers without bound -/

namespace Operator

/-- The operation on integers without bound, with quotients cut towards zero. -/
def onInts : Operator → Int → Int → Int
  | plus, m, n => m + n
  | minus, m, n => m - n
  | times, m, n => m * n
  | divide, m, n => m.tdiv n

/-- Words agree with the integers as far as results fit, quotients excepted. -/
theorem onWords_eq {op : Operator} (h : op ≠ divide) (a b : Int64) :
    op.onWords a b = .ok ((Word.fit? (op.onInts a.toInt b.toInt)).map Number.integer) := by
  cases op with
  | plus => rw [onWords, program, Word.Program.run_bind, Word.run_sum?]; rfl
  | minus => rw [onWords, program, Word.Program.run_bind, Word.run_difference?]; rfl
  | times => rw [onWords, program, Word.Program.run_bind, Word.run_product?]; rfl
  | divide => exact absurd rfl h

/-- Words have a quotient for every divisor but zero. -/
theorem onWords_divide {a b : Int64} {x : Binary64} (h : (Word.quotient a b).run = .ok x) :
    divide.onWords a b = .ok (some (.real x)) := by
  rw [onWords, program, Word.Program.run_bind, h]
  rfl

end Operator

end ChainCalc
