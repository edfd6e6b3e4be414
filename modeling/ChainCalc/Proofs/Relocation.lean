import ChainCalc.Proofs.Reading

namespace ChainCalc

/-!
# Relocation — readings that agree but for positions

Two lexers that read the same tokens at different positions come to the same value, or to
the same error at different positions.  Only `next` looks at the line, so it is enough to
know this of `next`; everything above it follows.

* `Token.relocate`, `Error.relocate`, `relocate` — a token, an error and an outcome with
  their positions moved.
* `Lexer.Relocation` — a relation between lexers under which `next` agrees but for
  positions.
* `Lexer.Relocation.operand`, `round`, `extend`, `evaluate` — under such a relation
  everything agrees but for positions.
* `Lexer.Moved` — the same text further on, which is such a relation
  (`Lexer.Moved.relocation`).
-/

/-! ### Moving positions -/

variable {α : Type} (f : Nat → Nat)

/-- A token with its position moved. -/
def Token.relocate (t : Token) : Token := ⟨t.lexeme, f t.position⟩

/-- An error with its position moved. -/
def Error.relocate : Error → Error
  | .lexical fault character position => .lexical fault character (f position)
  | .unexpected expected found => .unexpected expected (found.relocate f)
  | .divisionByZero position => .divisionByZero (f position)
  | .notOperator kind => .notOperator kind

/-- An outcome with its positions moved, where `move` moves those of a result. -/
def relocate (move : α → α) : Except Error α → Except Error α
  | .ok a => .ok (move a)
  | .error e => .error (e.relocate f)

/-- How a round ends, with positions moved. -/
def Round.relocate : Round → Round
  | .done outcome => .done (ChainCalc.relocate f id outcome)
  | .more acc => .more acc

/-- Joining an operand says of a position only where it is. -/
theorem Number.apply_relocate (op : Operator) (acc : Number) (b : Int64) (p : Nat) :
    acc.apply op b (f p) = relocate f id (acc.apply op b p) := by
  unfold Number.apply
  split <;> rfl

namespace Lexer

variable {f}

/-- Lexers that are related read the same token but for its position, and are related
    behind it. -/
structure Relocation (f : Nat → Nat) (R : Lexer → Lexer → Prop) : Prop where
  next : ∀ {lx lx' : Lexer}, R lx lx' →
    ∃ behind, lx'.next = (relocate f (Token.relocate f) lx.next.1, behind) ∧ R lx.next.2 behind

/-! ### What follows for everything above tokens -/

namespace Relocation

variable {R : Lexer → Lexer → Prop} {lx lx' : Lexer}

/-- Related lexers read the same operand but for its position. -/
theorem operand (h : Relocation f R) (hlx : R lx lx') :
    ∃ behind, lx'.operand = (relocate f (fun x => (x.1, f x.2)) lx.operand.1, behind)
      ∧ R lx.operand.2 behind := by
  obtain ⟨behind', hnext', hbehind⟩ := h.next hlx
  rcases hnext : lx.next with ⟨_ | ⟨lexeme, position⟩, behind⟩
  · rw [hnext] at hnext' hbehind
    simp only [Lexer.operand, hnext, hnext', relocate]
    exact ⟨behind', rfl, hbehind⟩
  · rw [hnext] at hnext' hbehind
    -- An integer is an operand, and any other token is out of place at its position.
    cases lexeme <;>
      simp only [Lexer.operand, hnext, hnext', relocate, Token.relocate, Error.relocate] <;>
      exact ⟨behind', rfl, hbehind⟩

/-- Related lexers end a round alike, but for positions. -/
theorem round (h : Relocation f R) (hlx : R lx lx') (acc : Number) :
    ∃ behind, lx'.round acc = ((lx.round acc).1.relocate f, behind)
      ∧ R (lx.round acc).2 behind := by
  obtain ⟨behind', hnext', hbehind⟩ := h.next hlx
  rcases hnext : lx.next with ⟨_ | ⟨lexeme, position⟩, behind⟩
  · rw [hnext] at hnext' hbehind
    simp only [Lexer.round, hnext, hnext', relocate]
    exact ⟨behind', rfl, hbehind⟩
  · rw [hnext] at hnext' hbehind
    cases lexeme with
    | integer value =>
      simp only [Lexer.round, hnext, hnext', relocate, Token.relocate]
      exact ⟨behind', rfl, hbehind⟩
    | endOfInput =>
      simp only [Lexer.round, hnext, hnext', relocate, Token.relocate]
      exact ⟨behind', rfl, hbehind⟩
    | operator op =>
      -- Behind the operator, both go on with the operand.
      obtain ⟨beyond', hoperand', hbeyond⟩ := h.operand hbehind
      rcases hoperand : behind.operand with ⟨_ | ⟨rhs, place⟩, beyond⟩
      · rw [hoperand] at hoperand' hbeyond
        simp only [Lexer.round, hnext, hnext', relocate, Token.relocate, hoperand, hoperand']
        exact ⟨beyond', rfl, hbeyond⟩
      · rw [hoperand] at hoperand' hbeyond
        have happly := Number.apply_relocate f op acc rhs place
        cases hvalue : acc.apply op rhs place with
        | error e =>
          rw [hvalue] at happly
          simp only [Lexer.round, hnext, hnext', relocate, Token.relocate, hoperand, hoperand',
            hvalue, happly]
          exact ⟨beyond', rfl, hbeyond⟩
        | ok value =>
          rw [hvalue] at happly
          simp only [Lexer.round, hnext, hnext', relocate, Token.relocate, hoperand, hoperand',
            hvalue, happly]
          exact ⟨beyond', rfl, hbeyond⟩

/-- Related lexers come to the same value from the same value, but for positions.  By
    strong induction on what is left of the line, of which every round that goes on takes
    some. -/
theorem extend (h : Relocation f R) (hlx : R lx lx') (acc : Number) :
    ∃ behind, lx'.extend acc = (relocate f id (lx.extend acc).1, behind)
      ∧ R (lx.extend acc).2 behind := by
  induction hlen : lx.rest.length using Nat.strongRecOn generalizing lx lx' acc with
  | _ k ih =>
    obtain ⟨beyond', hround', hbeyond⟩ := h.round hlx acc
    rcases hround : lx.round acc with ⟨outcome | next, beyond⟩
    · rw [hround] at hround' hbeyond
      rw [extend_of_done hround, extend_of_done hround']
      exact ⟨beyond', rfl, hbeyond⟩
    · rw [hround] at hround' hbeyond
      rw [extend_of_more hround, extend_of_more hround']
      have hshorter := length_round_le hround
      exact ih beyond.rest.length (by omega) hbeyond next rfl

/-- **Related lexers come to the same value, or to the same error but for its position.** -/
theorem evaluate (h : Relocation f R) (hlx : R lx lx') :
    ∃ behind, lx'.evaluate = (relocate f id lx.evaluate.1, behind)
      ∧ R lx.evaluate.2 behind := by
  obtain ⟨behind', hoperand', hbehind⟩ := h.operand hlx
  rcases hoperand : lx.operand with ⟨_ | ⟨value, position⟩, behind⟩
  · rw [hoperand] at hoperand' hbehind
    simp only [Lexer.evaluate, hoperand, hoperand', relocate]
    exact ⟨behind', rfl, hbehind⟩
  · rw [hoperand] at hoperand' hbehind
    simp only [Lexer.evaluate, hoperand, hoperand', relocate]
    exact h.extend hbehind (.integer value)

end Relocation

/-! ### The same text further on -/

/-- A lexer and one in front of the same text at the position that `f` moves it to, where
    `f` moves all positions from there on alike. -/
structure Moved (f : Nat → Nat) (lx lx' : Lexer) : Prop where
  eq : lx' = ⟨lx.rest, f lx.position⟩
  move : ∀ n, f (lx.position + n) = f lx.position + n

/-- From some bytes further on, the text is moved alike. -/
theorem Moved.advance {p : Nat} (hf : ∀ n, f (p + n) = f p + n) (t : Text) (k : Nat) :
    Moved f ⟨t, p + k⟩ ⟨t, f p + k⟩ where
  eq := by rw [hf]
  move n := by rw [Nat.add_assoc, hf, hf, Nat.add_assoc]

/-- At the same text further on, the same tokens are read. -/
theorem Moved.relocation (f : Nat → Nat) : Relocation f (Moved f) where
  next := by
    rintro ⟨t, p⟩ lx' ⟨rfl, hf⟩
    obtain ⟨w, v, rfl, hw, hv⟩ := exists_front t
    have hp := hf w.length
    have hf' : ∀ n, f (p + w.length + n) = f p + w.length + n := fun n => by
      rw [Nat.add_assoc, hf, Nat.add_assoc]
    have hmoved : ∀ (t : Text) (k : Nat),
        Moved f ⟨t, p + w.length + k⟩ ⟨t, f p + w.length + k⟩ := fun t k => by
      rw [Nat.add_assoc, Nat.add_assoc]
      exact .advance hf t _
    simp only [next_append_blanks hw]
    cases hv with
    | nothing =>
      refine ⟨⟨[], f p + w.length⟩, ?_, hmoved [] 0⟩
      simp only [next_nothing, relocate, Token.relocate, hp]
    | symbol op t =>
      refine ⟨⟨t, f p + w.length + 1⟩, ?_, ?_⟩
      · simp only [next_symbol, relocate, Token.relocate, hp]
      · simp only [next_symbol]
        exact hmoved t 1
    | @digits r t ht =>
      refine ⟨⟨t, f p + w.length + r.text.length⟩, ?_, ?_⟩
      · simp only [next_digits r ht]
        split <;> simp only [relocate, Token.relocate, Error.relocate, hp]
      · simp only [next_digits r ht]
        exact hmoved t _
    | @stray b hb t =>
      refine ⟨⟨b :: t, f p + w.length⟩, ?_, ?_⟩
      · simp only [next_stray hb, relocate, Error.relocate, hp]
      · simp only [next_stray hb]
        exact hmoved (b :: t) 0

end Lexer

end ChainCalc
