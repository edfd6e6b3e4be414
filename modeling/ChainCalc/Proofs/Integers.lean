import ChainCalc.Proofs.Chain
import ChainCalc.Proofs.Words

namespace ChainCalc

/-!
# Integers — how long the value of a chain stays one

The value of a chain is an integer as long as no operator divides and every value on the
way fits a word, taken without bound.  Then it is that last value.  A value that has
become real stays real, even if it would fit again.

* `Number.combine_integer_of_fits`, `combine_real` — **step lemmas**: what one
  operator makes of an integer and of a real.
* `Link.onInts`, `Chain.integerValues`, `Chain.integerValue` — the values of a chain from
  left to right in the integers without bound.
* `Link.isInteger_join_real`, `Link.isInteger_join_integer_iff` — **run lemmas**.
* `isInteger_evaluate` — which lines have an integer for a value, and which one.
-/

/-! ### One operator -/

namespace Number

variable {op : Operator} {a b : Int64}

/-- Whatever is joined to a real gives a real. -/
theorem combine_real (op : Operator) (x : Binary64) (b : Int64) :
    combine op (real x) b = real (op.onReals x (Binary64.ofInt b.toInt)) := rfl

/-- Integers are joined as integers if that fits. -/
theorem combine_integer_of_fits (hop : op ≠ .divide)
    (h : Word.Fits (op.onInts a.toInt b.toInt)) :
    combine op (integer a) b = integer (Int64.ofInt (op.onInts a.toInt b.toInt)) := by
  simp only [combine, Operator.onWords_eq hop, Word.fit?_of_fits h, Option.map_some]

/-- Integers are joined as reals if that does not fit. -/
theorem combine_integer_of_not_fits (hop : op ≠ .divide)
    (h : ¬ Word.Fits (op.onInts a.toInt b.toInt)) :
    combine op (integer a) b
      = real (op.onReals (Binary64.ofInt a.toInt) (Binary64.ofInt b.toInt)) := by
  simp only [combine, Operator.onWords_eq hop, Word.fit?_of_not_fits h, Option.map_none, toReal]

/-- The quotient of integers is real. -/
theorem combine_divide_integer (hb : b ≠ 0) :
    ∃ x, (Word.quotient a b).run = .ok x ∧ combine .divide (integer a) b = real x := by
  refine ⟨_, Word.run_quotient a hb, ?_⟩
  simp only [combine, Operator.onWords_divide (Word.run_quotient a hb)]

/-- Two integers give an integer exactly when the operator does not divide and the result
    fits. -/
theorem isInteger_combine_integer_iff (hb : op = .divide → b ≠ 0) :
    (combine op (integer a) b).isInteger = true
      ↔ op ≠ .divide ∧ Word.Fits (op.onInts a.toInt b.toInt) := by
  by_cases hop : op = .divide
  · obtain ⟨x, -, hx⟩ := combine_divide_integer (a := a) (hb hop)
    rw [hop, hx]
    simp [isInteger]
  · by_cases h : Word.Fits (op.onInts a.toInt b.toInt)
    · rw [combine_integer_of_fits hop h]
      simp [isInteger, hop, h]
    · rw [combine_integer_of_not_fits hop h]
      simp [isInteger, h]

end Number

/-! ### Links -/

namespace Link

variable {acc n : Number} {p : Nat}

/-- The value behind a link in the integers without bound. -/
def onInts (m : Int) (l : Link) : Int := l.op.onInts m l.operand.value

/-- A link that does not divide by zero has no zero for an operand if it divides. -/
theorem Divides.word_ne_zero {l : Link} (h : l.Divides) (hop : l.op = .divide) :
    l.operand.word ≠ 0 := fun hzero => h hop (l.operand.word_eq_zero_iff.1 hzero)

/-- A link that does not divide by zero leaves the others to be joined to its result. -/
theorem join_cons_of_divides {l : Link} (hdiv : l.Divides) (acc : Number) (p : Nat)
    (links : List Link) :
    join acc p (l :: links) = join (acc.combine l.op l.operand.word) (p + l.text.length) links := by
  have hword : ¬ (l.op = .divide ∧ l.operand.word = 0) := fun hz => hdiv.word_ne_zero hz.1 hz.2
  exact join_cons_of_ok (if_neg hword) links

/-- Links can be joined if the first can, and the others to its result. -/
theorem join_of_join_cons {l : Link} {links : List Link} (h : join acc p (l :: links) = .ok n) :
    l.Divides ∧ join (acc.combine l.op l.operand.word) (p + l.text.length) links = .ok n := by
  by_cases hdiv : l.Divides
  · rw [join_cons_of_divides hdiv] at h
    exact ⟨hdiv, h⟩
  · rw [join_cons_of_error (step_of_not_divides hdiv acc p)] at h
    cases h

/-- What every link that is joined keeps, all links together keep. -/
theorem join_invariant {P : Number → Prop} {links : List Link}
    (hstep : ∀ (l : Link) (m : Number), l.Divides → P m → P (m.combine l.op l.operand.word))
    (hacc : P acc) (h : join acc p links = .ok n) : P n := by
  induction links generalizing acc p with
  | nil => cases h; exact hacc
  | cons l links ih =>
    obtain ⟨hdiv, hjoin⟩ := join_of_join_cons h
    exact ih (hstep l acc hdiv hacc) hjoin

/-- **Run lemma.**  Links that are joined to a real give a real. -/
theorem isInteger_join_real {x : Binary64} (links : List Link)
    (h : join (.real x) p links = .ok n) : n.isInteger = false := by
  refine join_invariant (P := fun n => n.isInteger = false) ?_ rfl h
  intro l m _ hm
  cases m with
  | integer a => cases hm
  | real y => rw [Number.combine_real, Number.isInteger]

/-- **Step lemma.**  What the first of some links makes of an integer: the integer that it
    is without bound, if it does not divide and that fits, and else a real. -/
theorem join_integer_cons_cases {a : Int64} {l : Link} {links : List Link}
    (h : join (.integer a) p (l :: links) = .ok n) :
    (∃ b : Int64, l.op ≠ .divide ∧ b.toInt = onInts a.toInt l
        ∧ join (.integer b) (p + l.text.length) links = .ok n)
      ∨ ∃ x : Binary64, ¬ (l.op ≠ .divide ∧ Word.Fits (onInts a.toInt l))
        ∧ join (.real x) (p + l.text.length) links = .ok n := by
  obtain ⟨hdiv, hjoin⟩ := join_of_join_cons h
  have hword : l.op.onInts a.toInt l.operand.word.toInt = onInts a.toInt l := by
    rw [l.operand.toInt_word]
    rfl
  have hnext := Number.isInteger_combine_integer_iff (a := a) hdiv.word_ne_zero
  rw [hword] at hnext
  by_cases hfits : l.op ≠ .divide ∧ Word.Fits (onInts a.toInt l)
  · rw [← hword] at hfits
    rw [Number.combine_integer_of_fits hfits.1 hfits.2] at hjoin
    exact .inl ⟨_, hfits.1, (Word.toInt_ofInt hfits.2).trans hword, hjoin⟩
  · cases hcombine : Number.combine l.op (.integer a) l.operand.word with
    | integer b =>
      rw [hcombine] at hnext
      exact absurd (hnext.1 rfl) hfits
    | real x =>
      rw [hcombine] at hjoin
      exact .inr ⟨x, hfits, hjoin⟩

/-- **Run lemma.**  Links that are joined to an integer give one exactly when none of them
    divides and every value without bound fits.  By induction on the links; the first of
    them that breaks this makes a real of the value. -/
theorem isInteger_join_integer_iff {a : Int64} (links : List Link)
    (h : join (.integer a) p links = .ok n) :
    n.isInteger = true ↔
      (∀ l ∈ links, l.op ≠ .divide) ∧ ∀ m ∈ links.scanl onInts a.toInt, Word.Fits m := by
  induction links generalizing a p with
  | nil =>
    cases h
    simp [Number.isInteger, Word.fits_toInt]
  | cons l links ih =>
    have ha := Word.fits_toInt a
    rw [List.scanl_cons, List.forall_mem_cons, List.forall_mem_cons]
    rcases join_integer_cons_cases h with ⟨b, hop, hb, hjoin⟩ | ⟨x, hbreak, hjoin⟩
    · rw [ih hjoin, hb]
      simp [ha, hop]
    · have hreal := isInteger_join_real links hjoin
      constructor
      · intro hn
        rw [hreal] at hn
        cases hn
      · rintro ⟨⟨hop, -⟩, -, hfits⟩
        -- The value behind the first link is one of those that fit.
        have hnext : onInts a.toInt l ∈ links.scanl onInts (onInts a.toInt l) :=
          List.mem_of_head? (List.head?_scanl ..)
        exact absurd ⟨hop, hfits _ hnext⟩ hbreak

/-- Links that are joined to an integer and give one give the one without bound. -/
theorem toInt_join_integer {a b : Int64} (links : List Link)
    (h : join (.integer a) p links = .ok (.integer b)) :
    b.toInt = links.foldl onInts a.toInt := by
  induction links generalizing a p with
  | nil => cases h; rfl
  | cons l links ih =>
    rcases join_integer_cons_cases h with ⟨b', -, hb, hjoin⟩ | ⟨x, -, hjoin⟩
    · rw [ih hjoin, hb, List.foldl_cons]
    · cases isInteger_join_real links hjoin

end Link

/-! ### Chains and lines -/

namespace Chain

/-- The values of a chain from left to right in the integers without bound: its literal,
    then the value behind each link. -/
def integerValues (c : Chain) : List Int := c.links.scanl Link.onInts c.first.value

/-- The value of a chain in the integers without bound. -/
def integerValue (c : Chain) : Int := c.links.foldl Link.onInts c.first.value

/-- A chain has an integer for a value exactly when none of its links divides and all its
    values fit. -/
theorem isInteger_value_iff {c : Chain} {n : Number} (h : c.value = .ok n) :
    n.isInteger = true ↔
      (∀ l ∈ c.links, l.op ≠ .divide) ∧ ∀ m ∈ c.integerValues, Word.Fits m := by
  rw [Link.isInteger_join_integer_iff c.links h, c.first.toInt_word]
  rfl

/-- The integer that a chain has for a value is its value without bound. -/
theorem toInt_value {c : Chain} {a : Int64} (h : c.value = .ok (.integer a)) :
    a.toInt = c.integerValue := by
  rw [Link.toInt_join_integer c.links h, c.first.toInt_word]
  rfl

end Chain

/-- Behind a real, evaluation finds no integer. -/
theorem Lexer.isInteger_extend_real {x : Binary64} {t : Text} {p : Nat} {n : Number}
    (ht : t.digitAhead = false) (h : (Lexer.extend (.real x) ⟨t, p⟩).1 = .ok n) :
    n.isInteger = false := by
  obtain ⟨links, t', m, outcome, rfl, ht', hjoin, hend⟩ := Lexer.exists_links (.real x) t p ht
  rw [Lexer.extend_texts_of_ok links ht' hjoin, Lexer.extend_of_ending hend] at h
  subst h
  cases hend with
  | finished w => exact Link.isInteger_join_real links hjoin

/-- **Integers as long as possible.**  A line that has a value is a chain with blanks behind
    it.  Its value is an integer exactly when no operator of the chain divides and every
    value from left to right, taken without bound, fits a word; it is the last of these
    then.  Otherwise it is real, and so is the value of the line with anything behind it
    that does not prolong its last operand. -/
theorem isInteger_evaluate {line : Text} {n : Number} (h : evaluate line = .ok n) :
    (∃ (c : Chain) (w : Blanks), line = c.text ++ w.text)
      ∧ ∀ (c : Chain) (w : Blanks), line = c.text ++ w.text →
        (n.isInteger = true ↔
            (∀ l ∈ c.links, l.op ≠ .divide) ∧ ∀ m ∈ c.integerValues, Word.Fits m)
          ∧ (∀ a, n = .integer a → a.toInt = c.integerValue)
          ∧ (n.isInteger = false →
              ∀ more m, ¬ (line.digitBehind = true ∧ more.digitAhead = true) →
                evaluate (line ++ more) = .ok m → m.isInteger = false) := by
  obtain ⟨c, w, hline, -⟩ := exists_chain_of_ok h
  refine ⟨⟨c, w, hline⟩, ?_⟩
  rintro c w rfl
  have hvalue : c.value = .ok n := (c.evaluate_text_append_blanks w).symm.trans h
  refine ⟨Chain.isInteger_value_iff hvalue, ?_, ?_⟩
  · rintro a rfl
    exact Chain.toInt_value hvalue
  · intro hreal more m hapart hm
    have hahead := c.digitAhead_blanks_append w hapart
    cases n with
    | integer a => cases hreal
    | real x =>
      rw [List.append_assoc, c.evaluate_text_append hvalue hahead] at hm
      exact Lexer.isInteger_extend_real hahead hm

/-- A sum that does not fit a word stays real behind a difference that leads back. -/
theorem isInteger_evaluate_back :
    let line := ascii "9223372036854775807+1"
    let x := Number.real (Binary64.ofBits 0x43E0000000000000)
    evaluate line = .ok x ∧ evaluate (line ++ ascii " - 2") = .ok x ∧ x.isInteger = false := by
  intro line x
  have h : evaluate line = .ok x := by decide +kernel
  have hback : evaluate (line ++ ascii " - 2") = .ok x := by decide +kernel
  obtain ⟨⟨c, w, hline⟩, hall⟩ := isInteger_evaluate h
  obtain ⟨-, -, hstays⟩ := hall c w hline
  have hapart : ¬ (line.digitBehind = true ∧ Text.digitAhead (ascii " - 2") = true) := by decide
  exact ⟨h, hback, hstays rfl _ _ hapart hback⟩

end ChainCalc
