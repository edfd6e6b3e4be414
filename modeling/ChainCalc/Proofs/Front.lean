import ChainCalc.Lexer

namespace ChainCalc

/-!
# What a text begins with

Reading decides by what stands behind the blanks of a line: nothing, a symbol, a run of
digits, or a byte that begins no token.  This file takes a text apart into these four
cases, without a word about lexers.

* `Digits`, `Literal` — a run of digits, and one whose number a word can hold.
* `Front` — the four ways in which a text without leading blanks begins; a run of digits
  is taken as long as it goes.
* `exists_front` — behind its leading blanks, every text begins in one of them.
* `NoToken`, `NoOperand`, `NoOperator` — a text begins with none of these, and the error
  that says so.
-/

/-- A blank is not a digit. -/
theorem Byte.isDigit_eq_false_of_isBlank {b : Byte} (h : b.isBlank = true) :
    b.isDigit = false := by
  cases hd : b.isDigit with
  | false => rfl
  | true => rw [Byte.isBlank_eq_false_of_isDigit hd] at h; cases h

/-! ### Borders of a text -/

namespace Text

/-- Whether a text begins with a digit. -/
def digitAhead (t : Text) : Bool := t.head?.any Byte.isDigit

/-- Whether a text ends with a digit. -/
def digitBehind (t : Text) : Bool := t.getLast?.any Byte.isDigit

/-- Whether a text begins with a blank. -/
def blankAhead (t : Text) : Bool := t.head?.any Byte.isBlank

@[simp] theorem digitAhead_nil : digitAhead [] = false := rfl

@[simp] theorem digitAhead_cons (b : Byte) (t : Text) : digitAhead (b :: t) = b.isDigit := rfl

@[simp] theorem blankAhead_nil : blankAhead [] = false := rfl

@[simp] theorem blankAhead_cons (b : Byte) (t : Text) : blankAhead (b :: t) = b.isBlank := rfl

/-- What is dropped while a property holds ends where it does not, or with the text. -/
theorem any_head?_dropWhile (f : Byte → Bool) (t : Text) :
    (t.dropWhile f).head?.any f = false := by
  have hstop := List.head?_dropWhile_not f t
  cases hrest : t.dropWhile f with
  | nil => rfl
  | cons b rest => simpa [hrest] using hstop

/-- Every byte of a blank text is blank. -/
theorem isBlank_of_mem {w : Text} (hw : w.isBlank = true) : ∀ b ∈ w, b.isBlank = true := by
  simpa [isBlank] using hw

/-- Nothing of a blank text is left without its blanks. -/
theorem filter_eq_nil_of_isBlank {w : Text} (hw : w.isBlank = true) :
    w.filter (fun b => !b.isBlank) = [] := by
  rw [List.filter_eq_nil_iff]
  intro b hb
  have hblank : b.isBlank = true := isBlank_of_mem hw b hb
  simp [hblank]

/-- A text ends with a digit behind its blanks only if it has no blanks there. -/
theorem digitBehind_append_blank (t : Text) {w : Text} (hw : w.isBlank = true)
    (ht : w = [] → t.digitBehind = false) : digitBehind (t ++ w) = false := by
  cases h : w.getLast? with
  | none =>
    rw [List.getLast?_eq_none_iff] at h
    rw [h, List.append_nil]
    exact ht h
  | some b =>
    -- The last byte is a blank, and so no digit.
    have hmem : b ∈ w := List.mem_of_getLast? h
    have hb := Byte.isDigit_eq_false_of_isBlank (isBlank_of_mem hw b hmem)
    simp [digitBehind, List.getLast?_append, h, hb]

/-- No digit comes first behind blanks, unless there are none. -/
theorem digitAhead_blank_append {w : Text} (hw : w.isBlank = true) {t : Text}
    (ht : w = [] → t.digitAhead = false) : digitAhead (w ++ t) = false := by
  cases w with
  | nil => exact ht rfl
  | cons b w =>
    have hb : b.isBlank = true := isBlank_of_mem hw b List.mem_cons_self
    exact Byte.isDigit_eq_false_of_isBlank hb

end Text

/-- A byte that is neither blank nor part of any token. -/
def Byte.isStray (b : Byte) : Bool :=
  !b.isBlank && !b.isDigit && (Operator.ofSymbol? b).isNone

/-! ### Runs of digits -/

/-- A run of digits: at least one of them. -/
structure Digits where
  text : Text
  ne_nil : text ≠ []
  isDigit_of_mem : ∀ b ∈ text, b.isDigit = true

namespace Digits

/-- The number that the digits stand for. -/
def value (r : Digits) : Nat := Numeral.value r.text

/-- The digit in front. -/
def first (r : Digits) : Byte := r.text.head r.ne_nil

/-- A run is its first digit and the others. -/
theorem exists_text_eq_cons (r : Digits) : ∃ more, r.text = r.first :: more :=
  ⟨r.text.tail, (List.cons_head_tail r.ne_nil).symm⟩

/-- The first digit is a digit. -/
theorem isDigit_first (r : Digits) : r.first.isDigit = true :=
  r.isDigit_of_mem _ (List.head_mem r.ne_nil)

/-- Digits are not blank. -/
theorem isBlank_first (r : Digits) : r.first.isBlank = false :=
  Byte.isBlank_eq_false_of_isDigit r.isDigit_first

/-- A run of digits ends with a digit. -/
theorem digitBehind_append_text (t : Text) (r : Digits) :
    Text.digitBehind (t ++ r.text) = true := by
  have hlast := r.isDigit_of_mem _ (List.getLast_mem r.ne_nil)
  simp [Text.digitBehind, List.getLast?_append, List.getLast?_eq_some_getLast r.ne_nil, hlast]

/-- A run of digits that nothing prolongs is all that is taken from its text. -/
theorem takeWhile_append (r : Digits) {t : Text} (ht : t.digitAhead = false) :
    (r.text ++ t).takeWhile Byte.isDigit = r.text := by
  rw [List.takeWhile_append_of_pos r.isDigit_of_mem]
  -- All of the run is taken; what is left to show is that nothing of `t` is.
  cases t with
  | nil => simp
  | cons b t =>
    rw [Text.digitAhead_cons] at ht
    simp [ht]

end Digits

/-- The largest number that a word can hold, which is `2 ^ 63 - 1`. -/
def Literal.limit : Nat := 0x7fffffffffffffff

example : Literal.limit = 2 ^ 63 - 1 := by decide

/-- A literal: digits for a number that a word can hold. -/
structure Literal extends Digits where
  value_le : toDigits.value ≤ Literal.limit

namespace Literal

/-- The word for the number of a literal. -/
def word (l : Literal) : Int64 := Int64.ofNat l.value

/-- The word of a literal is its number. -/
theorem toInt_word (l : Literal) : l.word.toInt = l.value := by
  have hlt : l.value < 0x8000000000000000 := Nat.lt_succ_of_le l.value_le
  rw [word, Int64.toInt_ofNat_of_lt hlt]

/-- Only the literals for zero have the word zero. -/
theorem word_eq_zero_iff (l : Literal) : l.word = 0 ↔ l.value = 0 := by
  -- Words are equal if their numbers are; the number of a literal does not wrap.
  rw [← Int64.toInt_inj, toInt_word]
  simp

end Literal

/-! ### Taking a text apart -/

/-- What a text without leading blanks begins with. -/
inductive Front : Text → Prop where
  /-- With nothing. -/
  | nothing : Front []
  /-- With the symbol of an operator. -/
  | symbol (op : Operator) (t : Text) : Front (op.symbol :: t)
  /-- With a run of digits, which ends where the digits end. -/
  | digits (r : Digits) {t : Text} (ht : t.digitAhead = false) : Front (r.text ++ t)
  /-- With a byte that begins no token. -/
  | stray {b : Byte} (hb : b.isStray = true) (t : Text) : Front (b :: t)

/-- A front is not blank. -/
theorem Front.blankAhead {v : Text} (hv : Front v) : v.blankAhead = false := by
  cases hv with
  | nothing => rfl
  | symbol op => exact op.isBlank_symbol
  | digits r =>
    obtain ⟨more, hcons⟩ := r.exists_text_eq_cons
    rw [hcons]
    exact r.isBlank_first
  | stray hb =>
    simp only [Byte.isStray, Bool.and_eq_true, Bool.not_eq_true'] at hb
    exact hb.1.1

/-- A text that does not begin with a blank has a front. -/
theorem front_of_blankAhead {v : Text} (hv : v.blankAhead = false) : Front v := by
  cases v with
  | nil => exact .nothing
  | cons b t =>
    rw [Text.blankAhead_cons] at hv
    by_cases hd : b.isDigit = true
    · -- The run goes on with the digits of the tail and ends where these end.
      have hall : ∀ c ∈ b :: t.takeWhile Byte.isDigit, c.isDigit = true := by
        intro c hc
        rcases List.mem_cons.1 hc with rfl | hc
        · exact hd
        · exact List.all_eq_true.1 List.all_takeWhile c hc
      have hend : Text.digitAhead (t.dropWhile Byte.isDigit) = false :=
        Text.any_head?_dropWhile Byte.isDigit t
      have hrun := Front.digits ⟨b :: t.takeWhile Byte.isDigit, by simp, hall⟩ hend
      simpa using hrun
    · -- No digit: the byte is a symbol if it reads as one, and stray otherwise.
      cases hop : Operator.ofSymbol? b with
      | some op =>
        rw [Operator.ofSymbol?_eq_some_iff.1 hop]
        exact .symbol op t
      | none =>
        have hstray : b.isStray = true := by simp [Byte.isStray, hv, hd, hop]
        exact .stray hstray t

/-- Behind its leading blanks, every text has a front. -/
theorem exists_front (t : Text) : ∃ w v, t = w ++ v ∧ w.isBlank = true ∧ Front v := by
  have hrest : Text.blankAhead (t.dropWhile Byte.isBlank) = false :=
    Text.any_head?_dropWhile Byte.isBlank t
  exact ⟨t.takeWhile Byte.isBlank, t.dropWhile Byte.isBlank,
    List.takeWhile_append_dropWhile.symm, List.all_takeWhile, front_of_blankAhead hrest⟩

/-! ### Where no operand and no operator stands -/

/-- The text at a position begins with what is no token, and the error says so. -/
inductive NoToken : Text → Nat → Error → Prop where
  /-- A byte begins no token. -/
  | stray {b : Byte} (hb : b.isStray = true) (t : Text) (p : Nat) :
      NoToken (b :: t) p (.lexical .invalidCharacter b p)
  /-- The digits stand for a number above all words. -/
  | oversized (r : Digits) (hr : Literal.limit < r.value) {t : Text}
      (ht : t.digitAhead = false) (p : Nat) :
      NoToken (r.text ++ t) p (.lexical .outOfRange r.first p)

/-- The text at a position begins with no operand, and the error says why. -/
inductive NoOperand : Text → Nat → Error → Prop where
  | noToken {v : Text} {p : Nat} {e : Error} (h : NoToken v p e) : NoOperand v p e
  /-- The text is over. -/
  | nothing (p : Nat) : NoOperand [] p (.unexpected .operand ⟨.endOfInput, p⟩)
  /-- An operator stands there. -/
  | symbol (op : Operator) (t : Text) (p : Nat) :
      NoOperand (op.symbol :: t) p (.unexpected .operand ⟨.operator op, p⟩)

/-- The text at a position begins with no operator though it goes on, and the error says
    why. -/
inductive NoOperator : Text → Nat → Error → Prop where
  | noToken {v : Text} {p : Nat} {e : Error} (h : NoToken v p e) : NoOperator v p e
  /-- An operand stands there. -/
  | literal (l : Literal) {t : Text} (ht : t.digitAhead = false) (p : Nat) :
      NoOperator (l.text ++ t) p (.unexpected .operator ⟨.integer l.word, p⟩)

theorem NoToken.front {v : Text} {p : Nat} {e : Error} (h : NoToken v p e) : Front v := by
  cases h with
  | stray hb t => exact .stray hb t
  | oversized r _ ht => exact .digits r ht

theorem NoOperand.front {v : Text} {p : Nat} {e : Error} (h : NoOperand v p e) : Front v := by
  cases h with
  | noToken h => exact h.front
  | nothing => exact .nothing
  | symbol op t => exact .symbol op t

theorem NoOperator.front {v : Text} {p : Nat} {e : Error} (h : NoOperator v p e) :
    Front v := by
  cases h with
  | noToken h => exact h.front
  | literal l ht => exact .digits l.toDigits ht

/-- A run of digits is a literal, or it is no token. -/
theorem literal_or_noToken (r : Digits) {t : Text} (ht : t.digitAhead = false) (p : Nat) :
    (∃ l : Literal, l.toDigits = r) ∨ ∃ e, NoToken (r.text ++ t) p e := by
  rcases Nat.lt_or_ge Literal.limit r.value with hr | hr
  · exact .inr ⟨_, .oversized r hr ht p⟩
  · exact .inl ⟨⟨r, hr⟩, rfl⟩

/-- A front is an operand, or it is none. -/
theorem Front.literal_or_noOperand {v : Text} (hv : Front v) (p : Nat) :
    (∃ (l : Literal) (t : Text), v = l.text ++ t ∧ t.digitAhead = false)
      ∨ ∃ e, NoOperand v p e := by
  cases hv with
  | nothing => exact .inr ⟨_, .nothing p⟩
  | symbol op t => exact .inr ⟨_, .symbol op t p⟩
  | digits r ht =>
    rcases literal_or_noToken r ht p with ⟨l, rfl⟩ | ⟨e, he⟩
    · exact .inl ⟨l, _, rfl, ht⟩
    · exact .inr ⟨e, .noToken he⟩
  | stray hb t => exact .inr ⟨_, .noToken (.stray hb t p)⟩

/-- A front is the end, an operator, or none. -/
theorem Front.symbol_or_noOperator {v : Text} (hv : Front v) (p : Nat) :
    v = [] ∨ (∃ (op : Operator) (t : Text), v = op.symbol :: t) ∨ ∃ e, NoOperator v p e := by
  cases hv with
  | nothing => exact .inl rfl
  | symbol op t => exact .inr (.inl ⟨op, t, rfl⟩)
  | digits r ht =>
    rcases literal_or_noToken r ht p with ⟨l, rfl⟩ | ⟨e, he⟩
    · exact .inr (.inr ⟨_, .literal l ht p⟩)
    · exact .inr (.inr ⟨e, .noToken he⟩)
  | stray hb t => exact .inr (.inr ⟨_, .noToken (.stray hb t p)⟩)

end ChainCalc
