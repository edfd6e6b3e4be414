import ChainCalc.Error

namespace ChainCalc

/-!
# Lexer — reading a line token by token

A lexer is a place in a line: the bytes still to be read and the position of the
first of them.  `Lexer.next` reads one token and moves on.

* At the end of the line the end token comes again and again.
* A literal above `Int64.maxValue` is an error, and the lexer stands behind it.
* A byte that begins no token is an error, and the lexer stays in front of it, so
  the same error comes again.

`Lexer.length_next_le` and `Lexer.length_next_lt` say how far one step moves; every
loop over a lexer ends by them.
-/

/-- A place in a line: what is left of it, and the position at which that begins. -/
structure Lexer where
  rest : Text
  position : Nat
  deriving DecidableEq

namespace Lexer

/-- The lexer in front of a whole line. -/
def ofLine (line : Text) : Lexer := ⟨line, 0⟩

/-- The lexer `n` bytes further on. -/
def advance (lx : Lexer) (n : Nat) : Lexer := ⟨lx.rest.drop n, lx.position + n⟩

/-- The lexer behind the blanks in front of it. -/
def skipBlanks (lx : Lexer) : Lexer := lx.advance (lx.rest.takeWhile Byte.isBlank).length

/-- The digits in front of the lexer, as many as there are. -/
def digits (lx : Lexer) : Text := lx.rest.takeWhile Byte.isDigit

/-- Read one token, or find out why none can be read. -/
def next (lx : Lexer) : Except Error Token × Lexer :=
  let lx := lx.skipBlanks
  match lx.rest with
  | [] => (.ok ⟨.endOfInput, lx.position⟩, lx)
  | b :: _ =>
    match Operator.ofSymbol? b with
    | some op => (.ok ⟨.operator op, lx.position⟩, lx.advance 1)
    | none =>
      if b.isDigit then
        let value := Numeral.value lx.digits
        let behind := lx.advance lx.digits.length
        if value ≤ Int64.maxValue.toInt.toNat then
          (.ok ⟨.integer (Int64.ofNat value), lx.position⟩, behind)
        else (.error (.lexical .outOfRange b lx.position), behind)
      else (.error (.lexical .invalidCharacter b lx.position), lx)

/-! ### What is in front of the lexer -/

/-- Dropping a run is the same as dropping its length. -/
theorem drop_length_takeWhile (p : Byte → Bool) (t : Text) :
    t.drop (t.takeWhile p).length = t.dropWhile p := by
  induction t with
  | nil => rfl
  | cons b t ih => by_cases h : p b = true <;> simp [h, ih]

/-- Behind the blanks, the line goes on with what is not blank. -/
theorem rest_skipBlanks (lx : Lexer) :
    lx.skipBlanks.rest = lx.rest.dropWhile Byte.isBlank :=
  drop_length_takeWhile _ _

/-- Behind a run of digits, the line goes on with what is no digit. -/
theorem rest_advance_digits (lx : Lexer) :
    (lx.advance lx.digits.length).rest = lx.rest.dropWhile Byte.isDigit :=
  drop_length_takeWhile _ _

/-! ### How far a step moves -/

@[simp] theorem length_advance (lx : Lexer) (n : Nat) :
    (lx.advance n).rest.length = lx.rest.length - n := by
  simp [advance]

/-- Skipping blanks never puts bytes back. -/
theorem length_skipBlanks_le (lx : Lexer) : lx.skipBlanks.rest.length ≤ lx.rest.length := by
  simp [skipBlanks]

/-- Reading a token never puts bytes back. -/
theorem length_next_le (lx : Lexer) : lx.next.2.rest.length ≤ lx.rest.length := by
  have hs := lx.length_skipBlanks_le
  unfold next
  dsimp only
  split
  · exact hs
  · split
    · simp only [length_advance]; omega
    · split
      · split <;> simp only [length_advance] <;> omega
      · exact hs

/-- A token other than the end takes at least one byte. -/
theorem length_next_lt {lx : Lexer} {t : Token} (h : lx.next.1 = .ok t)
    (ht : t.lexeme ≠ .endOfInput) : lx.next.2.rest.length < lx.rest.length := by
  have hs := lx.length_skipBlanks_le
  unfold next at h ⊢
  dsimp only at h ⊢
  split at h
  · cases h
    exact absurd rfl ht
  · next b more hr =>
    have hlen : 0 < lx.skipBlanks.rest.length := by simp [hr]
    split at h
    · simp only [length_advance]; omega
    · next hop =>
      split at h
      · next hd =>
        -- The run of digits holds at least the byte in front of the lexer.
        have hrun : 0 < lx.skipBlanks.digits.length := by simp [digits, hr, hd]
        simp only [hd, if_true] at h ⊢
        split <;> simp only [length_advance] <;> omega
      · cases h

/-! ### The tokens of a line -/

/-- The outcomes of reading on up to the first end token or error, which is the last
    of them. -/
def tokens (lx : Lexer) : List (Except Error Token) :=
  match h : lx.next with
  | (.error e, _) => [.error e]
  | (.ok t, behind) =>
    if ht : t.lexeme = .endOfInput then [.ok t]
    else
      have : behind.rest.length < lx.rest.length := by
        have := @length_next_lt lx t (by rw [h]) ht
        rwa [h] at this
      .ok t :: behind.tokens
termination_by lx.rest.length

end Lexer

end ChainCalc
