import ChainCalc.Proofs.SignificantBits

namespace ChainCalc

/-!
# Infinities and NaN — how they arise along a chain, and that they stay

What is joined to a number is a word, and as a double a word is finite, and zero only if it is
zero as a word.  So of the ways to NaN one is left: an infinity times zero.  An infinity arises
from finite reals only, since two words are too small for one; it stays an infinity until it is
multiplied by zero, and what is NaN then stays NaN.

* `Number.isFinite`, `isInfinite`, `isNan` — the three classes of numbers.
* `Number.isNan_combine_iff`, `isInfinite_combine`, `isFinite_combine_integer` — **step lemmas**:
  the class of what one operator gives.
* `Link.isFinite_join_of_not`, `isNan_join_of_infinite`, `exists_infinite_of_isNan_join` —
  **run lemmas**: the class of what some links give.
* `isNan_iff_infinite_times_zero` — all of it, for a step and for a line.
-/

/-! ### Classes of numbers -/

namespace Binary64

/-- Whether a value is an infinity. -/
def isInfinite : Binary64 → Bool
  | infinite _ => true
  | _ => false

/-- Whether a value is not a number. -/
def isNan : Binary64 → Bool
  | nan => true
  | _ => false

end Binary64

namespace Number

/-- Whether a number is finite, as all integers are. -/
def isFinite : Number → Bool
  | integer _ => true
  | real x => x.isFinite

/-- Whether a number is an infinity. -/
def isInfinite : Number → Bool
  | integer _ => false
  | real x => x.isInfinite

/-- Whether a number is NaN. -/
def isNan : Number → Bool
  | integer _ => false
  | real x => x.isNan

variable {n : Number}

/-- What is not finite is an infinity or NaN. -/
theorem isFinite_eq_false_iff :
    n.isFinite = false ↔ n.isInfinite = true ∨ n.isNan = true := by
  cases n with
  | integer a => simp [isFinite, isInfinite, isNan]
  | real x => cases x <;> simp [isFinite, isInfinite, isNan, Binary64.isFinite,
      Binary64.isInfinite, Binary64.isNan]

theorem isNan_of_isFinite (h : n.isFinite = true) : n.isNan = false := by
  cases hnan : n.isNan with
  | false => rfl
  | true =>
    rw [isFinite_eq_false_iff.2 (.inr hnan)] at h
    cases h

theorem isNan_of_isInfinite (h : n.isInfinite = true) : n.isNan = false := by
  cases n with
  | integer a => rfl
  | real x =>
    cases x with
    | finite s r => rfl
    | infinite s => rfl
    | nan => cases h

end Number

/-! ### Operations on doubles -/

namespace Binary64

theorem isFinite_of_toRat? {x : Binary64} {u : ℚ} (h : x.toRat? = some u) : x.isFinite = true := by
  obtain ⟨negative, rank, rfl, -⟩ := exists_finite_of_toRat? h
  rfl

/-- Rounding does not give NaN. -/
theorem isNan_round (zeroSign : Bool) (q : ℚ) : (round zeroSign q).isNan = false := by
  unfold round
  dsimp only
  split <;> rfl

/-- A word is converted to a finite value, of rank zero only for the word zero. -/
theorem exists_ofInt_word (b : Int64) :
    ∃ negative rank, ofInt b.toInt = finite negative rank ∧ (rank.val = 0 ↔ b = 0) := by
  have hfinite : Format.binary64.rank (b.toInt : ℚ) < finiteRanks :=
    (rank_lt_finiteRanks_iff _).2 ((abs_word_le b).trans_lt word_lt_overflow)
  refine ⟨_, _, round_of_rank_lt false hfinite, ?_⟩
  constructor
  · intro hzero
    by_contra hb
    -- The magnitude is one at least, and the rank of one is not zero.
    have hone : |(1 : ℚ)| ≤ |(b.toInt : ℚ)| := by
      rw [abs_one, ← Int.cast_abs]
      exact_mod_cast Int.one_le_abs fun h => hb ((Word.eq_zero_iff b).2 h)
    have hrank := Format.rank_le_rank two_dvd_block hone
    have hpos : 0 < Format.binary64.rank 1 := by decide +kernel
    exact absurd (hpos.trans_le hrank) (by simp only at hzero; omega)
  · rintro rfl
    show Format.binary64.rank ((0 : Int64).toInt : ℚ) = 0
    rw [Int64.toInt_zero, Int.cast_zero, Format.rank_zero]

end Binary64

namespace Operator

variable {op : Operator} {b : Int64}

/-- Whatever is joined to NaN, the result is NaN. -/
theorem onReals_nan (op : Operator) (y : Binary64) : op.onReals .nan y = .nan := by
  cases op <;> rfl

/-- An infinity times zero is NaN. -/
theorem onReals_infinite_zero (s : Bool) :
    times.onReals (.infinite s) (Binary64.ofInt (0 : Int64).toInt) = .nan := by
  obtain ⟨t, r, hr, hzero⟩ := Binary64.exists_ofInt_word 0
  rw [hr]
  exact if_pos (hzero.2 rfl)

/-- Otherwise an infinity stays one. -/
theorem isInfinite_onReals (h : ¬ (op = times ∧ b = 0)) (s : Bool) :
    (op.onReals (.infinite s) (Binary64.ofInt b.toInt)).isInfinite = true := by
  obtain ⟨t, r, hr, hzero⟩ := Binary64.exists_ofInt_word b
  rw [hr]
  cases op with
  | plus => rfl
  | minus => rfl
  | times =>
    have hfactor : r.val ≠ 0 := fun hr => h ⟨rfl, hzero.1 hr⟩
    rw [onReals, Binary64.mul, if_neg hfactor]
    rfl
  | divide => rfl

/-- From a finite value NaN does not arise: that would take zero by zero. -/
theorem isNan_onReals_finite (hb : op = divide → b ≠ 0) (s : Bool)
    (r : Fin Binary64.finiteRanks) :
    (op.onReals (.finite s r) (Binary64.ofInt b.toInt)).isNan = false := by
  obtain ⟨t, r', hr, hzero⟩ := Binary64.exists_ofInt_word b
  rw [hr]
  cases op with
  | plus => exact Binary64.isNan_round _ _
  | minus => exact Binary64.isNan_round _ _
  | times => exact Binary64.isNan_round _ _
  | divide =>
    have hdivisor : r'.val ≠ 0 := fun hr => hb rfl (hzero.1 hr)
    rw [onReals, Binary64.div, if_neg hdivisor]
    exact Binary64.isNan_round _ _

end Operator

/-! ### One operator -/

namespace Number

variable {op : Operator} {x : Number} {b : Int64}

/-- **Step lemma.**  From two words comes a finite number: they are too small for any other. -/
theorem isFinite_combine_integer (hb : op = .divide → b ≠ 0) (a : Int64) :
    (combine op (integer a) b).isFinite = true := by
  by_cases hop : op = .divide
  · obtain ⟨z, hz, hvalue⟩ := exists_apply_divide_eq a (hb hop) 0
    rw [apply, if_neg fun h => hb hop h.2] at hz
    rw [hop, Except.ok.inj hz]
    exact Binary64.isFinite_of_toRat? hvalue
  · by_cases hfits : Word.Fits (op.onInts a.toInt b.toInt)
    · rw [combine_integer_of_fits hop hfits]
      rfl
    · rw [combine_integer_of_not_fits hop hfits]
      obtain ⟨u, hu, hule, -⟩ := Binary64.exists_round_of_abs_le_word (Binary64.abs_word_le a) false
      obtain ⟨v, hv, hvle, -⟩ := Binary64.exists_round_of_abs_le_word (Binary64.abs_word_le b) false
      obtain ⟨w, hw, -⟩ := Operator.isNearest_onReals hop hu hv
        (Binary64.representable_two_pow (by decide)) (Operator.abs_onRats_le hop hule hvle)
      exact Binary64.isFinite_of_toRat? hw

/-- **Step lemma.**  An infinity stays one, unless it is multiplied by zero. -/
theorem isInfinite_combine (hx : x.isInfinite = true) (h : ¬ (op = .times ∧ b = 0)) :
    (combine op x b).isInfinite = true := by
  cases x with
  | integer a => cases hx
  | real x =>
    cases x with
    | finite s r => cases hx
    | infinite s => exact Operator.isInfinite_onReals h s
    | nan => cases hx

/-- **Step lemma.**  NaN comes of NaN, and of an infinity times zero. -/
theorem isNan_combine_iff (hb : op = .divide → b ≠ 0) :
    (combine op x b).isNan = true
      ↔ x.isNan = true ∨ x.isInfinite = true ∧ op = .times ∧ b = 0 := by
  cases x with
  | integer a =>
    rw [isNan_of_isFinite (isFinite_combine_integer hb a)]
    simp [isInfinite, isNan]
  | real x =>
    cases x with
    | finite s r =>
      rw [combine_real, isNan, Operator.isNan_onReals_finite hb]
      simp [isInfinite, isNan, Binary64.isInfinite, Binary64.isNan]
    | infinite s =>
      by_cases hzero : op = .times ∧ b = 0
      · obtain ⟨rfl, rfl⟩ := hzero
        rw [combine_real, Operator.onReals_infinite_zero]
        simp [isInfinite, isNan, Binary64.isInfinite, Binary64.isNan]
      · rw [isNan_of_isInfinite (isInfinite_combine rfl hzero)]
        simp [hzero, isNan, Binary64.isNan]
    | nan =>
      rw [combine_real, Operator.onReals_nan]
      simp [isNan, Binary64.isNan]

/-- **Step lemma.**  What is not finite stays so. -/
theorem isFinite_combine_of_not (hb : op = .divide → b ≠ 0) (hx : x.isFinite = false) :
    (combine op x b).isFinite = false := by
  rw [isFinite_eq_false_iff] at hx ⊢
  rcases hx with hinfinite | hnan
  · by_cases hzero : op = .times ∧ b = 0
    · exact .inr ((isNan_combine_iff hb).2 (.inr ⟨hinfinite, hzero⟩))
    · exact .inl (isInfinite_combine hinfinite hzero)
  · exact .inr ((isNan_combine_iff hb).2 (.inl hnan))

end Number

/-! ### Links -/

namespace Link

variable {acc n : Number} {p : ℕ} {links : List Link}

/-- A link that multiplies by zero. -/
def TimesZero (l : Link) : Prop := l.op = .times ∧ l.operand.value = 0

theorem timesZero_iff (l : Link) : l.TimesZero ↔ l.op = .times ∧ l.operand.word = 0 := by
  rw [TimesZero, l.operand.word_eq_zero_iff]

/-- **Run lemma.**  What is not finite stays so, whatever links are joined to it. -/
theorem isFinite_join_of_not (hacc : acc.isFinite = false) (h : join acc p links = .ok n) :
    n.isFinite = false := by
  refine join_invariant (P := fun n => n.isFinite = false) ?_ hacc h
  intro l m hdiv hm
  exact Number.isFinite_combine_of_not hdiv.word_ne_zero hm

/-- **Run lemma.**  NaN stays NaN. -/
theorem isNan_join (hacc : acc.isNan = true) (h : join acc p links = .ok n) : n.isNan = true := by
  refine join_invariant (P := fun n => n.isNan = true) ?_ hacc h
  intro l m hdiv hm
  exact (Number.isNan_combine_iff hdiv.word_ne_zero).2 (.inl hm)

/-- **Run lemma.**  An infinity becomes NaN by a link that multiplies by zero, wherever that
    stands. -/
theorem isNan_join_of_infinite (hacc : acc.isInfinite = true) (h : join acc p links = .ok n)
    (hzero : ∃ l ∈ links, l.TimesZero) : n.isNan = true := by
  induction links generalizing acc p with
  | nil => simp at hzero
  | cons l links ih =>
    obtain ⟨hdiv, hjoin⟩ := join_of_join_cons h
    by_cases hfirst : l.TimesZero
    · rw [timesZero_iff] at hfirst
      exact isNan_join ((Number.isNan_combine_iff hdiv.word_ne_zero).2 (.inr ⟨hacc, hfirst⟩)) hjoin
    · rw [List.exists_mem_cons_iff, or_iff_right hfirst] at hzero
      rw [timesZero_iff] at hfirst
      exact ih (Number.isInfinite_combine hacc hfirst) hjoin hzero

/-- **Run lemma.**  Where links give NaN there was NaN from the start, or an infinity on the way
    and zero for a factor behind it.  By induction on the links, of which the first makes NaN or
    leaves it to the others. -/
theorem exists_infinite_of_isNan_join (h : join acc p links = .ok n) (hn : n.isNan = true) :
    acc.isNan = true
      ∨ ∃ front more m, links = front ++ more ∧ join acc p front = .ok m
        ∧ m.isInfinite = true ∧ ∃ l ∈ more, l.TimesZero := by
  induction links generalizing acc p with
  | nil => cases h; exact .inl hn
  | cons l links ih =>
    obtain ⟨hdiv, hjoin⟩ := join_of_join_cons h
    rcases ih hjoin with hnext | ⟨front, more, m, rfl, hm, hinfinite, hzero⟩
    · rw [Number.isNan_combine_iff hdiv.word_ne_zero, ← timesZero_iff] at hnext
      rcases hnext with hacc | ⟨hinfinite, hzero⟩
      · exact .inl hacc
      · exact .inr ⟨[], l :: links, acc, rfl, rfl, hinfinite, l, List.mem_cons_self, hzero⟩
    · rw [← join_cons_of_divides hdiv] at hm
      exact .inr ⟨l :: front, more, m, rfl, hm, hinfinite, hzero⟩

/-- Links that are joined after others are joined to the value of those. -/
theorem join_of_join_append {front more : List Link} {m : Number}
    (hm : join acc p front = .ok m) (h : join acc p (front ++ more) = .ok n) :
    ∃ q, join m q more = .ok n := by
  induction front generalizing acc p with
  | nil => cases hm; exact ⟨p, h⟩
  | cons l front ih =>
    obtain ⟨hdiv, hjoin⟩ := join_of_join_cons hm
    rw [List.cons_append, join_cons_of_divides hdiv] at h
    exact ih hjoin h

end Link

/-! ### Chains and lines -/

/-- A chain has a value on the way, with some links still to be joined to it: the value of the
    chain without these. -/
def Chain.Passes (c : Chain) (m : Number) (more : List Link) : Prop :=
  ∃ front, c.links = front ++ more ∧ ({ c with links := front } : Chain).value = .ok m

/-- **Infinities and NaN arise and stay in one way only.**  What an operator gives is NaN exactly
    if there was NaN before, or an infinity is multiplied by zero; it is not finite if what was
    before is not; and it is finite if that was an integer.  So of a line that has a value, this
    is not finite if any value on the way is not; and it is NaN exactly if some value on the way
    is an infinity and a link behind it multiplies by zero. -/
theorem isNan_iff_infinite_times_zero :
    (∀ (op : Operator) (x n : Number) (b : Int64) (position : ℕ),
        x.apply op b position = .ok n →
          (n.isNan = true ↔ x.isNan = true ∨ x.isInfinite = true ∧ op = .times ∧ b = 0)
            ∧ (x.isFinite = false → n.isFinite = false)
            ∧ (x.isInteger = true → n.isFinite = true))
      ∧ ∀ (line : Text) (n : Number), evaluate line = .ok n →
        (∃ (c : Chain) (w : Blanks), line = c.text ++ w.text)
          ∧ ∀ (c : Chain) (w : Blanks), line = c.text ++ w.text →
            (∀ m more, c.Passes m more → m.isFinite = false → n.isFinite = false)
              ∧ (n.isNan = true ↔ ∃ m more, c.Passes m more ∧ m.isInfinite = true
                ∧ ∃ l ∈ more, l.op = .times ∧ l.operand.value = 0) := by
  constructor
  · intro op x n b position h
    rw [Number.apply] at h
    split at h
    · cases h
    · next hdiv =>
      have hb : op = .divide → b ≠ 0 := fun hop hzero => hdiv ⟨hop, hzero⟩
      obtain rfl := Except.ok.inj h
      refine ⟨Number.isNan_combine_iff hb, Number.isFinite_combine_of_not hb, fun hx => ?_⟩
      cases x with
      | integer a => exact Number.isFinite_combine_integer hb a
      | real x => cases hx
  · intro line n h
    obtain ⟨c, w, hline, -⟩ := exists_chain_of_ok h
    refine ⟨⟨c, w, hline⟩, ?_⟩
    rintro c w rfl
    have hvalue : c.value = .ok n := (c.evaluate_text_append_blanks w).symm.trans h
    have hmore : ∀ m more, c.Passes m more → ∃ q, Link.join m q more = .ok n := by
      rintro m more ⟨front, hlinks, hm⟩
      rw [Chain.value, hlinks] at hvalue
      exact Link.join_of_join_append hm hvalue
    refine ⟨fun m more hpasses hm => ?_, ?_, ?_⟩
    · obtain ⟨q, hjoin⟩ := hmore m more hpasses
      exact Link.isFinite_join_of_not hm hjoin
    · intro hn
      -- The first value is an integer, and not NaN.
      rcases Link.exists_infinite_of_isNan_join hvalue hn with
        hfirst | ⟨front, more, m, hlinks, hm, hinfinite, hzero⟩
      · cases hfirst
      · exact ⟨m, more, ⟨front, hlinks, hm⟩, hinfinite, hzero⟩
    · rintro ⟨m, more, hpasses, hinfinite, hzero⟩
      obtain ⟨q, hjoin⟩ := hmore m more hpasses
      exact Link.isNan_join_of_infinite hinfinite hjoin hzero

/-- An infinity times zero, and a product of words that is an infinity and then zero times. -/
theorem isNan_of_infinite_product :
    let x := Number.real (.infinite false)
    let line := (List.replicate 17 (ascii "9223372036854775807*")).flatten ++ ascii "0"
    (∃ n, x.apply .times 0 5 = .ok n ∧ n.isNan = true)
      ∧ evaluate line = .ok (.real .nan)
      ∧ ∃ (c : Chain) (w : Blanks), line = c.text ++ w.text
        ∧ ∃ m more, c.Passes m more ∧ m.isInfinite = true
          ∧ ∃ l ∈ more, l.op = .times ∧ l.operand.value = 0 := by
  intro x line
  obtain ⟨hstep, hlines⟩ := isNan_iff_infinite_times_zero
  have happly : x.apply .times 0 5 = .ok (x.combine .times 0) := rfl
  obtain ⟨hnan, -, -⟩ := hstep .times x _ 0 5 happly
  have hline : evaluate line = .ok (.real .nan) := by decide +kernel
  obtain ⟨⟨c, w, htext⟩, hall⟩ := hlines line _ hline
  obtain ⟨-, hpasses⟩ := hall c w htext
  exact ⟨⟨_, happly, hnan.2 (.inr ⟨rfl, rfl, rfl⟩)⟩, hline, c, w, htext, hpasses.1 rfl⟩

end ChainCalc
