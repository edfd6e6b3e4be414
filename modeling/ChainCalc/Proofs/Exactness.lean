import ChainCalc.Proofs.Integers
import ChainCalc.Proofs.Rounding

namespace ChainCalc

/-!
# Exactness — chains whose values are all doubles

If the operands of a chain and its values from left to right, taken as exact rationals, are
doubles exactly, then nothing is lost on the way: whether a value is kept as an integer, is
redone in reals because it does not fit, or is a quotient, it stands for the exact
rational.

* `Binary64.toRat?_add`, `toRat?_sub`, `toRat?_mul`, `toRat?_div` — an operation on doubles
  is exact where its result is a double.
* `Number.toRat?` — the rational that a number stands for.
* `Operator.onRats`, `Chain.rationalValues`, `Chain.rationalValue` — the values of a chain
  from left to right in the rationals.
* `Number.toRat?_combine` — **step lemma**; `Link.toRat?_join` — **run lemma**.
* `toRat?_evaluate` — the lines whose value is exact.
-/

/-! ### Operations on doubles -/

namespace Binary64

variable {x y : Binary64} {u v : ℚ}

/-- A value that stands for a number is finite. -/
theorem exists_finite_of_toRat? (h : x.toRat? = some u) :
    ∃ negative rank, x = finite negative rank
      ∧ signed negative (Format.binary64.magnitude rank) = u := by
  cases x with
  | finite negative rank => exact ⟨negative, rank, rfl, Option.some.inj h⟩
  | infinite negative => cases h
  | nan => cases h

theorem signed_not (negative : Bool) (q : ℚ) : signed (!negative) q = -signed negative q := by
  cases negative <;> simp [signed]

theorem toRat?_neg (h : x.toRat? = some u) : x.neg.toRat? = some (-u) := by
  obtain ⟨negative, rank, rfl, rfl⟩ := exists_finite_of_toRat? h
  rw [neg, toRat?, signed_not]

theorem toRat?_add (hx : x.toRat? = some u) (hy : y.toRat? = some v)
    (h : Representable (u + v)) : (x.add y).toRat? = some (u + v) := by
  obtain ⟨s, a, rfl, rfl⟩ := exists_finite_of_toRat? hx
  obtain ⟨t, b, rfl, rfl⟩ := exists_finite_of_toRat? hy
  exact toRat?_round h _

theorem toRat?_sub (hx : x.toRat? = some u) (hy : y.toRat? = some v)
    (h : Representable (u - v)) : (x.sub y).toRat? = some (u - v) := by
  rw [sub_eq_add_neg] at h ⊢
  exact toRat?_add hx (toRat?_neg hy) h

theorem toRat?_mul (hx : x.toRat? = some u) (hy : y.toRat? = some v)
    (h : Representable (u * v)) : (x.mul y).toRat? = some (u * v) := by
  obtain ⟨s, a, rfl, rfl⟩ := exists_finite_of_toRat? hx
  obtain ⟨t, b, rfl, rfl⟩ := exists_finite_of_toRat? hy
  exact toRat?_round h _

theorem toRat?_div (hx : x.toRat? = some u) (hy : y.toRat? = some v) (hv : v ≠ 0)
    (h : Representable (u / v)) : (x.div y).toRat? = some (u / v) := by
  obtain ⟨s, a, rfl, rfl⟩ := exists_finite_of_toRat? hx
  obtain ⟨t, b, rfl, rfl⟩ := exists_finite_of_toRat? hy
  -- The divisor is not of rank zero, since that is the rank of zeros.
  have hb : b.val ≠ 0 := by
    intro hzero
    have hmagnitude : Format.binary64.magnitude 0 = 0 := by
      rw [Format.magnitude_eq, Format.units_of_lt_block Format.binary64.block_pos]
      simp
    rw [hzero, hmagnitude] at hv
    exact hv (by simp [signed])
  rw [div, if_neg hb]
  exact toRat?_round h _

/-- An integer that is a double exactly is converted to itself. -/
theorem toRat?_ofInt {n : ℤ} (h : Representable n) : (ofInt n).toRat? = some (n : ℚ) :=
  toRat?_round h false

end Binary64

/-! ### One operator -/

namespace Operator

/-- The operation on rationals. -/
def onRats : Operator → ℚ → ℚ → ℚ
  | plus, u, v => u + v
  | minus, u, v => u - v
  | times, u, v => u * v
  | divide, u, v => u / v

/-- Reals agree with the rationals where the result is a double. -/
theorem toRat?_onReals {op : Operator} {x y : Binary64} {u v : ℚ} (hx : x.toRat? = some u)
    (hy : y.toRat? = some v) (hv : op = divide → v ≠ 0)
    (h : Binary64.Representable (op.onRats u v)) :
    (op.onReals x y).toRat? = some (op.onRats u v) := by
  cases op with
  | plus => exact Binary64.toRat?_add hx hy h
  | minus => exact Binary64.toRat?_sub hx hy h
  | times => exact Binary64.toRat?_mul hx hy h
  | divide => exact Binary64.toRat?_div hx hy (hv rfl) h

/-- Integers without bound agree with the rationals, quotients excepted. -/
theorem cast_onInts {op : Operator} (h : op ≠ divide) (m n : ℤ) :
    ((op.onInts m n : ℤ) : ℚ) = op.onRats m n := by
  cases op with
  | plus => exact Int.cast_add m n
  | minus => exact Int.cast_sub m n
  | times => exact Int.cast_mul m n
  | divide => exact absurd rfl h

end Operator

/-- The quotient of words is exact where it is a double. -/
theorem Word.toRat?_quotient {a b : Int64} {x : Binary64} (hx : (quotient a b).run = .ok x)
    (hb : b ≠ 0) (ha : Binary64.Representable a.toInt)
    (h : Binary64.Representable ((a.toInt : ℚ) / b.toInt)) :
    x.toRat? = some ((a.toInt : ℚ) / b.toInt) := by
  have hb' : b.toInt ≠ 0 := fun hzero => hb ((eq_zero_iff b).2 hzero)
  rw [run_quotient a hb, Except.ok.injEq] at hx
  subst hx
  by_cases hone : b = -1
  · -- The sign is changed behind the conversion.
    have hq : (a.toInt : ℚ) / b.toInt = -a.toInt := by
      rw [hone, show (-1 : Int64).toInt = -1 from rfl, Int.cast_neg, Int.cast_one, div_neg,
        div_one]
    rw [if_pos hone, hq]
    exact Binary64.toRat?_neg (Binary64.toRat?_ofInt ha)
  · rw [if_neg hone]
    by_cases hdvd : b.toInt ∣ a.toInt
    · -- The quotient is an integer, and converted as one.
      have hq : (a.toInt : ℚ) / b.toInt = (a.toInt.tdiv b.toInt : ℤ) := by
        obtain ⟨k, hk⟩ := hdvd
        have hbq : (b.toInt : ℚ) ≠ 0 := Int.cast_ne_zero.2 hb'
        rw [hk, Int.mul_tdiv_cancel_left _ hb', Int.cast_mul, mul_div_cancel_left₀ _ hbq]
      rw [if_pos hdvd, hq]
      rw [hq] at h
      exact Binary64.toRat?_ofInt h
    · -- Rounding to extended precision in between changes nothing.
      rw [if_neg hdvd, h.nearest_extended]
      exact Binary64.toRat?_round h false

namespace Number

/-- The rational that a number stands for; infinities and NaN stand for none. -/
def toRat? : Number → Option ℚ
  | integer a => some a.toInt
  | real x => x.toRat?

/-- **Step lemma.**  A number and an operand that are doubles are joined exactly where the
    result is a double, on whichever of the ways. -/
theorem toRat?_combine {op : Operator} {acc : Number} {u : ℚ} {b : Int64}
    (hacc : acc.toRat? = some u) (hu : Binary64.Representable u)
    (hb : Binary64.Representable b.toInt) (hzero : op = .divide → b ≠ 0)
    (h : Binary64.Representable (op.onRats u b.toInt)) :
    (combine op acc b).toRat? = some (op.onRats u b.toInt) := by
  have hrhs : (Binary64.ofInt b.toInt).toRat? = some (b.toInt : ℚ) := Binary64.toRat?_ofInt hb
  have hzero' : op = .divide → (b.toInt : ℚ) ≠ 0 := fun hop =>
    Int.cast_ne_zero.2 fun hz => hzero hop ((Word.eq_zero_iff b).2 hz)
  cases acc with
  | real x => exact Operator.toRat?_onReals hacc hrhs hzero' h
  | integer a =>
    obtain rfl : (a.toInt : ℚ) = u := Option.some.inj hacc
    by_cases hop : op = .divide
    · subst hop
      obtain ⟨x, hx, hcombine⟩ := combine_divide_integer (a := a) (hzero rfl)
      rw [hcombine]
      exact Word.toRat?_quotient hx (hzero rfl) hu h
    · by_cases hfits : Word.Fits (op.onInts a.toInt b.toInt)
      · rw [combine_integer_of_fits hop hfits, toRat?, Word.toInt_ofInt hfits,
          Operator.cast_onInts hop]
      · rw [combine_integer_of_not_fits hop hfits]
        exact Operator.toRat?_onReals (Binary64.toRat?_ofInt hu) hrhs hzero' h

end Number

/-! ### Links, chains and lines -/

namespace Link

/-- The value behind a link in the rationals. -/
def onRats (q : ℚ) (l : Link) : ℚ := l.op.onRats q l.operand.value

/-- **Run lemma.**  Links are joined exactly if their operands and all values on the way are
    doubles.  By induction on the links, the number joined to being free. -/
theorem toRat?_join {acc n : Number} {p : ℕ} {u : ℚ} (links : List Link)
    (h : join acc p links = .ok n) (hacc : acc.toRat? = some u)
    (hoperands : ∀ l ∈ links, Binary64.Representable l.operand.value)
    (hvalues : ∀ q ∈ links.scanl onRats u, Binary64.Representable q) :
    n.toRat? = some (links.foldl onRats u) := by
  induction links generalizing acc p u with
  | nil => cases h; exact hacc
  | cons l links ih =>
    obtain ⟨hdiv, hjoin⟩ := join_of_join_cons h
    rw [List.scanl_cons, List.forall_mem_cons] at hvalues
    obtain ⟨hu, hvalues⟩ := hvalues
    obtain ⟨hoperand, hoperands⟩ := List.forall_mem_cons.1 hoperands
    have hword : ((l.operand.word.toInt : ℤ) : ℚ) = l.operand.value := by
      rw [l.operand.toInt_word, Int.cast_natCast]
    have hnext : Binary64.Representable (onRats u l) :=
      hvalues _ (List.mem_of_head? (List.head?_scanl ..))
    have hstep := Number.toRat?_combine (b := l.operand.word) hacc hu (hword ▸ hoperand)
      hdiv.word_ne_zero (hword ▸ hnext)
    rw [hword] at hstep
    rw [ih hjoin hstep hoperands hvalues, List.foldl_cons]
    rfl

end Link

namespace Chain

/-- The operands of a chain. -/
def operands (c : Chain) : List Literal := c.first :: c.links.map Link.operand

/-- The values of a chain from left to right in the rationals: its literal, then the value
    behind each link. -/
def rationalValues (c : Chain) : List ℚ := c.links.scanl Link.onRats c.first.value

/-- The value of a chain in the rationals. -/
def rationalValue (c : Chain) : ℚ := c.links.foldl Link.onRats c.first.value

end Chain

/-- **Exact evaluation.**  A line that has a value is a chain with blanks behind it.  If all
    operands of the chain and all its values from left to right, taken as rationals, are
    doubles exactly, then the value of the line stands for the rational that the chain comes
    to. -/
theorem toRat?_evaluate {line : Text} {n : Number} (h : evaluate line = .ok n) :
    (∃ (c : Chain) (w : Blanks), line = c.text ++ w.text)
      ∧ ∀ (c : Chain) (w : Blanks), line = c.text ++ w.text →
        (∀ l ∈ c.operands, Binary64.Representable l.value) →
        (∀ q ∈ c.rationalValues, Binary64.Representable q) →
        n.toRat? = some c.rationalValue := by
  obtain ⟨c, w, hline, -⟩ := exists_chain_of_ok h
  refine ⟨⟨c, w, hline⟩, ?_⟩
  rintro c w rfl hoperands hvalues
  have hvalue : c.value = .ok n := (c.evaluate_text_append_blanks w).symm.trans h
  have hfirst : (Number.integer c.first.word).toRat? = some (c.first.value : ℚ) := by
    rw [Number.toRat?, c.first.toInt_word, Int.cast_natCast]
  refine Link.toRat?_join c.links hvalue hfirst (fun l hl => ?_) hvalues
  exact hoperands _ (List.mem_cons_of_mem _ (List.mem_map_of_mem hl))

/-- A product that is too large for a word, and a quotient of it. -/
theorem toRat?_evaluate_large :
    let c : Chain := {
      before := ⟨[], rfl⟩
      first := ⟨⟨ascii "4611686018427387904", by decide, List.all_eq_true.1 rfl⟩, by decide⟩
      links := [
        ⟨⟨[], rfl⟩, .times, ⟨[], rfl⟩,
          ⟨⟨ascii "4", by decide, List.all_eq_true.1 rfl⟩, by decide⟩⟩,
        ⟨⟨[], rfl⟩, .divide, ⟨ascii " ", rfl⟩,
          ⟨⟨ascii "8", by decide, List.all_eq_true.1 rfl⟩, by decide⟩⟩] }
    let n := Number.real (Binary64.ofBits 0x43C0000000000000)
    evaluate (ascii "4611686018427387904*4/ 8") = .ok n
      ∧ (∀ l ∈ c.operands, Binary64.Representable l.value)
      ∧ (∀ q ∈ c.rationalValues, Binary64.Representable q)
      ∧ c.rationalValue = 2 ^ 61 ∧ n.toRat? = some c.rationalValue := by
  intro c n
  have h : evaluate (ascii "4611686018427387904*4/ 8") = .ok n := by decide +kernel
  have hline : ascii "4611686018427387904*4/ 8" = c.text ++ (⟨[], rfl⟩ : Blanks).text := by decide
  have hvalues : c.rationalValues = [2 ^ 62, 2 ^ 64, 2 ^ 61]
      ∧ c.rationalValue = 2 ^ 61 := by
    have hfirst : c.first.value = 2 ^ 62 := by decide
    have hfour : Numeral.value (ascii "4") = 4 := by decide
    have height : Numeral.value (ascii "8") = 8 := by decide
    simp only [Chain.rationalValues, Chain.rationalValue, hfirst]
    simp only [c, List.scanl_cons, List.scanl_nil, List.foldl_cons, List.foldl_nil, Link.onRats,
      Operator.onRats, Digits.value, hfour, height]
    norm_num
  have hpow : ∀ k : ℕ, k ≤ 971 → Binary64.Representable (2 ^ k) := fun k hk =>
    ⟨1, k, by decide, by omega, by omega, by rw [Int.cast_one, one_mul, zpow_natCast]⟩
  have hpowers : ∀ l ∈ c.operands, l.value = 2 ^ 62 ∨ l.value = 2 ^ 2 ∨ l.value = 2 ^ 3 := by
    decide
  have hoperands : ∀ l ∈ c.operands, Binary64.Representable l.value := by
    intro l hl
    rcases hpowers l hl with hk | hk | hk <;> rw [hk, Nat.cast_pow, Nat.cast_ofNat]
    · exact hpow 62 (by decide)
    · exact hpow 2 (by decide)
    · exact hpow 3 (by decide)
  have hrationals : ∀ q ∈ c.rationalValues, Binary64.Representable q := by
    rw [hvalues.1]
    simp only [List.forall_mem_cons, List.not_mem_nil, false_imp_iff, implies_true, and_true]
    exact ⟨hpow 62 (by decide), hpow 64 (by decide), hpow 61 (by decide)⟩
  exact ⟨h, hoperands, hrationals, hvalues.2,
    (toRat?_evaluate h).2 c ⟨[], rfl⟩ hline hoperands hrationals⟩

end ChainCalc
