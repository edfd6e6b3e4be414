import ChainCalc.Evaluation
import ChainCalc.Proofs.Front

namespace ChainCalc

/-!
# Reading — what each step of evaluation does at each front

For every step that reads a line — a token, an operand, a round — there are equations for
what can stand in front of it, and one that says that blanks in front only move the
place.  Nothing else is used of these steps from here on.

* `Lexer.next_append_blanks`, `operand_append_blanks`, `round_append_blanks`,
  `extend_append_blanks` — blanks in front are passed over.
* `Lexer.next_symbol`, `next_digits`, `next_stray` — the token at a front.
* `Lexer.tokens_of_end`, `tokens_of_error`, `tokens_of_token` — all tokens, from one to the next.
* `Lexer.operand_literal`, `operand_of_noOperand` — the operand at a front.
* `Lexer.round_nothing`, `round_symbol_of_ok`, `round_of_noOperator` — the round at a front.
* `Lexer.extend_of_done`, `extend_of_more` — the value, from one round to the next.
-/

/-- How a round ends that joined an operand: an error ends the chain. -/
def Round.ofOutcome : Except Error Number → Round
  | .error e => .done (.error e)
  | .ok next => .more next

namespace Lexer

variable {w v t : Text} {p : Nat} {acc : Number}

/-! ### Tokens -/

/-- A place behind blanks is what skipping them leads to. -/
theorem skipBlanks_append (hw : w.isBlank = true) (v : Text) (p : Nat) :
    skipBlanks ⟨w ++ v, p⟩ = skipBlanks ⟨v, p + w.length⟩ := by
  -- The run of blanks at the front of `w ++ v` is `w` and the run at the front of `v`.
  have htake : (w ++ v).takeWhile Byte.isBlank = w ++ v.takeWhile Byte.isBlank :=
    List.takeWhile_append_of_pos (Text.isBlank_of_mem hw)
  simp only [skipBlanks, advance, htake, List.length_append, List.drop_append,
    Nat.add_sub_cancel_left]
  simp [Nat.add_assoc]

/-- Where no blank stands in front there is nothing to skip. -/
theorem skipBlanks_of_blankAhead (hv : v.blankAhead = false) (p : Nat) :
    skipBlanks ⟨v, p⟩ = ⟨v, p⟩ := by
  cases v with
  | nil => rfl
  | cons b v =>
    rw [Text.blankAhead_cons] at hv
    simp [skipBlanks, advance, hv]

/-- Blanks in front of a token are passed over. -/
theorem next_append_blanks (hw : w.isBlank = true) (v : Text) (p : Nat) :
    next ⟨w ++ v, p⟩ = next ⟨v, p + w.length⟩ := by
  rw [next, skipBlanks_append hw, ← next]

/-- At the end, the end is read. -/
theorem next_nothing (p : Nat) : next ⟨[], p⟩ = (.ok ⟨.endOfInput, p⟩, ⟨[], p⟩) := rfl

/-- A symbol is read as its operator. -/
theorem next_symbol (op : Operator) (t : Text) (p : Nat) :
    next ⟨op.symbol :: t, p⟩ = (.ok ⟨.operator op, p⟩, ⟨t, p + 1⟩) := by
  have hskip : skipBlanks ⟨op.symbol :: t, p⟩ = ⟨op.symbol :: t, p⟩ :=
    skipBlanks_of_blankAhead (v := op.symbol :: t) op.isBlank_symbol p
  simp [next, hskip, advance]

/-- A run of digits is read to its end, and it is a token if a word can hold its number. -/
theorem next_digits (r : Digits) (ht : t.digitAhead = false) (p : Nat) :
    next ⟨r.text ++ t, p⟩ =
      (if r.value ≤ Literal.limit then .ok ⟨.integer (Int64.ofNat r.value), p⟩
        else .error (.lexical .outOfRange r.first p),
        ⟨t, p + r.text.length⟩) := by
  obtain ⟨more, hcons⟩ := r.exists_text_eq_cons
  have hskip : skipBlanks ⟨r.text ++ t, p⟩ = ⟨r.text ++ t, p⟩ := by
    refine skipBlanks_of_blankAhead ?_ p
    rw [hcons]
    exact r.isBlank_first
  have hop : Operator.ofSymbol? r.first = none := by
    cases h : Operator.ofSymbol? r.first with
    | none => rfl
    | some op =>
      have hd := r.isDigit_first
      rw [Operator.ofSymbol?_eq_some_iff.1 h, op.isDigit_symbol] at hd
      cases hd
  have hrun : digits ⟨r.text ++ t, p⟩ = r.text := r.takeWhile_append ht
  have hmax : Int64.maxValue.toInt.toNat = Literal.limit := by decide
  -- The first byte chooses the branch: it is no blank, no symbol and a digit.
  rw [next, hskip]
  simp only [hrun, hmax]
  rw [hcons, List.cons_append]
  simp only [hop, r.isDigit_first, if_true]
  rw [← List.cons_append, ← hcons, ← Digits.value]
  split <;> simp [advance]

/-- A literal is read as its word. -/
theorem next_literal (l : Literal) (ht : t.digitAhead = false) (p : Nat) :
    next ⟨l.text ++ t, p⟩ = (.ok ⟨.integer l.word, p⟩, ⟨t, p + l.text.length⟩) := by
  rw [next_digits l.toDigits ht, if_pos l.value_le, Literal.word]

/-- A stray byte is an error, and stays in front. -/
theorem next_stray {b : Byte} (hb : b.isStray = true) (t : Text) (p : Nat) :
    next ⟨b :: t, p⟩ = (.error (.lexical .invalidCharacter b p), ⟨b :: t, p⟩) := by
  simp only [Byte.isStray, Bool.and_eq_true, Bool.not_eq_true', Option.isNone_iff_eq_none] at hb
  obtain ⟨⟨hblank, hdigit⟩, hop⟩ := hb
  have hskip : skipBlanks ⟨b :: t, p⟩ = ⟨b :: t, p⟩ :=
    skipBlanks_of_blankAhead (v := b :: t) hblank p
  simp [next, hskip, hdigit, hop]

/-- Where no token stands there is the error that says so. -/
theorem next_of_noToken {e : Error} (h : NoToken v p e) :
    ∃ behind, next ⟨v, p⟩ = (.error e, behind) := by
  cases h with
  | stray hb t => exact ⟨_, next_stray hb t p⟩
  | @oversized r hr t ht =>
    have hnext := next_digits r ht p
    rw [if_neg (Nat.not_le.2 hr)] at hnext
    exact ⟨_, hnext⟩

/-! ### From token to token -/

/-- The end is the last token. -/
theorem tokens_of_end {lx behind : Lexer} (h : lx.next = (.ok ⟨.endOfInput, p⟩, behind)) :
    lx.tokens = [.ok ⟨.endOfInput, p⟩] := by
  rw [tokens]
  split <;> simp_all

/-- Behind an error nothing is read. -/
theorem tokens_of_error {lx behind : Lexer} {e : Error} (h : lx.next = (.error e, behind)) :
    lx.tokens = [.error e] := by
  rw [tokens]
  split <;> simp_all

/-- Behind any other token reading goes on. -/
theorem tokens_of_token {lx behind : Lexer} {token : Token} (h : lx.next = (.ok token, behind))
    (htoken : token.lexeme ≠ .endOfInput) : lx.tokens = .ok token :: behind.tokens := by
  rw [tokens]
  split <;> simp_all

/-- Blanks in front of the tokens are passed over. -/
theorem tokens_append_blanks (hw : w.isBlank = true) (v : Text) (p : Nat) :
    tokens ⟨w ++ v, p⟩ = tokens ⟨v, p + w.length⟩ := by
  -- Both places have the same first token, and the others stand behind that.
  have hnext := next_append_blanks hw v p
  rcases h : next ⟨v, p + w.length⟩ with ⟨(e | token), behind⟩
  · rw [tokens_of_error h, tokens_of_error (hnext.trans h)]
  · by_cases htoken : token.lexeme = .endOfInput
    · obtain ⟨lexeme, q⟩ := token
      obtain rfl : lexeme = .endOfInput := htoken
      rw [tokens_of_end h, tokens_of_end (hnext.trans h)]
    · rw [tokens_of_token h htoken, tokens_of_token (hnext.trans h) htoken]

/-! ### Operands -/

/-- Blanks in front of an operand are passed over. -/
theorem operand_append_blanks (hw : w.isBlank = true) (v : Text) (p : Nat) :
    operand ⟨w ++ v, p⟩ = operand ⟨v, p + w.length⟩ := by
  rw [operand, next_append_blanks hw, ← operand]

/-- A literal is an operand. -/
theorem operand_literal (l : Literal) (ht : t.digitAhead = false) (p : Nat) :
    operand ⟨l.text ++ t, p⟩ = (.ok (l.word, p), ⟨t, p + l.text.length⟩) := by
  simp [operand, next_literal l ht]

/-- Where no operand stands there is the error that says so. -/
theorem operand_of_noOperand {e : Error} (h : NoOperand v p e) :
    ∃ behind, operand ⟨v, p⟩ = (.error e, behind) := by
  cases h with
  | noToken h =>
    obtain ⟨behind, hnext⟩ := next_of_noToken h
    exact ⟨behind, by simp [operand, hnext]⟩
  | nothing => exact ⟨⟨[], p⟩, by simp [operand, next_nothing]⟩
  | symbol op t => exact ⟨⟨t, p + 1⟩, by simp [operand, next_symbol]⟩

/-! ### Rounds -/

/-- Blanks in front of a round are passed over. -/
theorem round_append_blanks (hw : w.isBlank = true) (v : Text) (p : Nat) (acc : Number) :
    round acc ⟨w ++ v, p⟩ = round acc ⟨v, p + w.length⟩ := by
  rw [round, next_append_blanks hw, ← round]

/-- At the end, the chain is over. -/
theorem round_nothing (acc : Number) (p : Nat) :
    round acc ⟨[], p⟩ = (.done (.ok acc), ⟨[], p⟩) := by
  simp only [round, next_nothing]

/-- An operator without an operand behind it is an error, namely the operand's. -/
theorem round_symbol_of_error (acc : Number) (op : Operator) {e : Error} {beyond : Lexer}
    (h : operand ⟨t, p + 1⟩ = (.error e, beyond)) :
    round acc ⟨op.symbol :: t, p⟩ = (.done (.error e), beyond) := by
  simp only [round, next_symbol, h]

/-- An operator joins the operand behind it to the value. -/
theorem round_symbol_of_ok (acc : Number) (op : Operator) {rhs : Int64} {q : Nat}
    {beyond : Lexer} (h : operand ⟨t, p + 1⟩ = (.ok (rhs, q), beyond)) :
    round acc ⟨op.symbol :: t, p⟩ = (.ofOutcome (acc.apply op rhs q), beyond) := by
  simp only [round, next_symbol, h]
  cases acc.apply op rhs q <;> rfl

/-- Where no operator stands there is the error that says so. -/
theorem round_of_noOperator {e : Error} (h : NoOperator v p e) (acc : Number) :
    ∃ behind, round acc ⟨v, p⟩ = (.done (.error e), behind) := by
  cases h with
  | noToken h =>
    obtain ⟨behind, hnext⟩ := next_of_noToken h
    exact ⟨behind, by simp [round, hnext]⟩
  | @literal l t ht =>
    exact ⟨⟨t, p + l.text.length⟩, by simp [round, next_literal l ht]⟩

/-! ### From round to round -/

/-- A round that ends the chain gives its value. -/
theorem extend_of_done {lx behind : Lexer} {outcome : Except Error Number}
    (h : lx.round acc = (.done outcome, behind)) : lx.extend acc = (outcome, behind) := by
  rw [extend]
  split <;> simp_all

/-- A round that goes on leaves the value to the rounds behind it. -/
theorem extend_of_more {next : Number} {lx beyond : Lexer}
    (h : lx.round acc = (.more next, beyond)) : lx.extend acc = beyond.extend next := by
  rw [extend]
  split <;> simp_all

/-- Blanks in front of a chain's rest are passed over. -/
theorem extend_append_blanks (hw : w.isBlank = true) (v : Text) (p : Nat) (acc : Number) :
    extend acc ⟨w ++ v, p⟩ = extend acc ⟨v, p + w.length⟩ := by
  -- Both places take the same first round, and the chain goes on behind that round.
  have hround := round_append_blanks hw v p acc
  cases h : round acc ⟨v, p + w.length⟩ with
  | mk outcome behind =>
    rw [h] at hround
    cases outcome with
    | done outcome => rw [extend_of_done h, extend_of_done hround]
    | more next => rw [extend_of_more h, extend_of_more hround]

end Lexer

end ChainCalc
