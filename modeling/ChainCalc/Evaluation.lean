import ChainCalc.Lexer
import ChainCalc.Number

namespace ChainCalc

/-!
# Evaluation — the value of a chain, from left to right

A chain is an operand, then any number of operators each with an operand behind it.
Its value grows from the left, one operator at a time, and no operator binds tighter
than another.  A line is read only as far as its first error: a zero divisor is found
before any fault further right.

* `Lexer.operand` — read one operand.
* `Lexer.round` — read one operator and its operand, or find the end of the chain.
* `Lexer.extend` — go on from a value to the end of the chain, round by round.
* `Lexer.evaluate`, `evaluate` — the value of what is left of a line, and of a line.

A round that goes on takes at least two bytes (`Lexer.length_round_le`), so there are at
most half as many rounds as bytes, and one more.
-/

/-- How one round of a chain ends. -/
inductive Round where
  /-- The chain is over: it has a value or an error. -/
  | done (outcome : Except Error Number)
  /-- The chain goes on from a value. -/
  | more (acc : Number)
  deriving DecidableEq

namespace Lexer

/-- Read an operand: its value and its position.  Any other token is out of place. -/
def operand (lx : Lexer) : Except Error (Int64 × Nat) × Lexer :=
  match lx.next with
  | (.error e, behind) => (.error e, behind)
  | (.ok ⟨.integer value, position⟩, behind) => (.ok (value, position), behind)
  | (.ok token, behind) => (.error (.unexpected .operand token), behind)

/-- Read an operator and its operand and join the operand to `acc`; or find the end, where
    `acc` is the value. -/
def round (acc : Number) (lx : Lexer) : Round × Lexer :=
  match lx.next with
  | (.error e, behind) => (.done (.error e), behind)
  | (.ok ⟨.endOfInput, _⟩, behind) => (.done (.ok acc), behind)
  | (.ok ⟨.integer value, position⟩, behind) =>
    (.done (.error (.unexpected .operator ⟨.integer value, position⟩)), behind)
  | (.ok ⟨.operator op, _⟩, behind) =>
    match behind.operand with
    | (.error e, beyond) => (.done (.error e), beyond)
    | (.ok (rhs, position), beyond) =>
      match acc.apply op rhs position with
      | .error e => (.done (.error e), beyond)
      | .ok next => (.more next, beyond)

/-! ### How far a round moves -/

/-- An operand takes at least one byte. -/
theorem length_operand_lt {lx behind : Lexer} {operand : Int64 × Nat}
    (h : lx.operand = (.ok operand, behind)) : behind.rest.length < lx.rest.length := by
  unfold Lexer.operand at h
  split at h
  · cases h
  · next value position behind' hnext =>
    cases h
    have := @length_next_lt lx ⟨.integer value, position⟩ (by rw [hnext])
      Lexeme.noConfusion
    rwa [hnext] at this
  · cases h

/-- A round that goes on takes at least two bytes: an operator and a digit. -/
theorem length_round_le {acc next : Number} {lx beyond : Lexer}
    (h : lx.round acc = (.more next, beyond)) :
    beyond.rest.length + 2 ≤ lx.rest.length := by
  unfold round at h
  split at h
  · cases h
  · cases h
  · cases h
  · next op position behind hnext =>
    have hop := @length_next_lt lx ⟨.operator op, position⟩ (by rw [hnext])
      Lexeme.noConfusion
    rw [hnext] at hop
    split at h
    · cases h
    · next rhs place beyond' hoperand =>
      have hrhs := length_operand_lt hoperand
      split at h
      · cases h
      · cases h
        simp only at hop
        omega

/-! ### Values -/

/-- The value of a chain that begins with `acc` and goes on in front of the lexer. -/
def extend (acc : Number) (lx : Lexer) : Except Error Number × Lexer :=
  match h : lx.round acc with
  | (.done outcome, behind) => (outcome, behind)
  | (.more next, behind) =>
    have := length_round_le h
    extend next behind
termination_by lx.rest.length

/-- The value of the chain in front of the lexer. -/
def evaluate (lx : Lexer) : Except Error Number × Lexer :=
  match lx.operand with
  | (.error e, behind) => (.error e, behind)
  | (.ok (value, _), behind) => extend (.integer value) behind

end Lexer

/-- The value of a line. -/
def evaluate (line : Text) : Except Error Number := (Lexer.ofLine line).evaluate.1

end ChainCalc
