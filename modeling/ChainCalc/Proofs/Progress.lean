import ChainCalc.Proofs.Cursor

namespace ChainCalc

/-!
# Progress — reading a line comes to an end

Reading a token never moves back and never out of the line, and it moves on unless it finds the
end or a byte that begins no token.  That is why the rounds of a chain end, though nothing counts
them, and so do calls for one token after the other.

* `Lexer.Move` — how reading a token moves the cursor, by its outcome; `Lexer.move_next` says so
  of every position (**step lemma**).
* `Lexer.Rounds`, `Lexer.Evaluates` — how many rounds a chain takes; `Lexer.exists_rounds` says
  that it takes at most half as many as bytes are left, and one more (**run lemma**).
* `Lexer.Calls` — calls for tokens up to the first that is the last; `Lexer.calls_tokens` says
  that `Lexer.tokens` are these, at most as many as bytes are left, and one more (**run lemma**).
* `Lexer.reading_ends` — all of this for the positions of a line.
-/

namespace Lexer

variable {line : Text} {i : Nat} {acc : Number} {lx : Lexer}

/-! ### One token -/

/-- How reading a token at position `i` of a line moves the cursor to another: to the end of the
    line, past a token, past digits that are no token, or to a byte that begins none. -/
inductive Move (line : Text) (i : Nat) : Except Error Token → Nat → Prop where
  | endOfInput : Move line i (.ok ⟨.endOfInput, line.length⟩) line.length
  | token {t : Token} {j : Nat} (ht : t.lexeme ≠ .endOfInput) (hi : i ≤ t.position)
      (hj : t.position < j) : Move line i (.ok t) j
  | outOfRange {b : Byte} {p j : Nat} (hi : i ≤ p) (hj : p < j) :
      Move line i (.error (.lexical .outOfRange b p)) j
  | invalidCharacter {b : Byte} {p : Nat} (hi : i ≤ p) (hb : (line.drop p).head? = some b) :
      Move line i (.error (.lexical .invalidCharacter b p)) p

/-- The byte that begins no token is the one at the position where this is found. -/
theorem head?_drop_of_invalidCharacter (hi : i ≤ line.length) {b : Byte} {p : Nat}
    (h : (within line i).next.1 = .error (.lexical .invalidCharacter b p)) :
    (line.drop p).head? = some b := by
  obtain ⟨w, hw, -, hblanks, hfront⟩ := exists_front_within hi
  rw [hblanks, next_append_blanks hw] at h
  generalize hv : line.drop (i + w.length) = v at h hfront
  -- Only a stray byte in front gives this error, and it names that byte.
  cases hfront with
  | nothing => cases h
  | symbol op t =>
    rw [next_symbol] at h
    cases h
  | digits r ht =>
    rw [next_digits r ht] at h
    dsimp only at h
    split at h <;> cases h
  | stray hb t =>
    rw [next_stray hb] at h
    cases h
    rw [hv, List.head?_cons]

/-- **Step lemma.**  Reading a token at a position of a line stays in the line and never goes
    back. -/
theorem move_next (hi : i ≤ line.length) :
    ∃ j, i ≤ j ∧ j ≤ line.length ∧ (within line i).next.2 = within line j
      ∧ Move line i (within line i).next.1 j := by
  obtain ⟨fetch, hfetch, hnext⟩ := fetch_next hi
  refine ⟨stop line fetch, hfetch.le_stop, hfetch.stop_le, by rw [hnext], ?_⟩
  have hbyte := fun b p => head?_drop_of_invalidCharacter hi (b := b) (p := p)
  rw [hnext] at hbyte ⊢
  cases hfetch with
  | endOfInput _ => exact .endOfInput
  | operator op hip _ => exact .token Lexeme.noConfusion hip (Nat.lt_succ_self _)
  | integer value hip _ hrun => exact .token Lexeme.noConfusion hip hrun
  | outOfRange _ hip _ hrun => exact .outOfRange hip hrun
  | invalidCharacter _ hip _ _ => exact .invalidCharacter hip (hbyte _ _ rfl)

/-! ### The rounds of a chain -/

/-- From a value on, a chain takes so many rounds, of which the last one ends it, and this is its
    outcome and the lexer behind it. -/
inductive Rounds : Number → Lexer → Nat → Except Error Number × Lexer → Prop where
  | last {acc : Number} {lx behind : Lexer} {outcome : Except Error Number}
      (h : lx.round acc = (.done outcome, behind)) : Rounds acc lx 1 (outcome, behind)
  | more {acc next : Number} {lx beyond : Lexer} {n : Nat} {result : Except Error Number × Lexer}
      (h : lx.round acc = (.more next, beyond)) (hmore : Rounds next beyond n result) :
      Rounds acc lx (n + 1) result

/-- A chain takes so many rounds, none if it has no first operand. -/
inductive Evaluates (lx : Lexer) : Nat → Except Error Number × Lexer → Prop where
  | refused {e : Error} {behind : Lexer} (h : lx.operand = (.error e, behind)) :
      Evaluates lx 0 (.error e, behind)
  | chain {value : Int64} {p n : Nat} {behind : Lexer} {result : Except Error Number × Lexer}
      (h : lx.operand = (.ok (value, p), behind))
      (hrounds : Rounds (.integer value) behind n result) : Evaluates lx n result

/-- **Run lemma.**  The rounds of a chain end, after at most half as many as bytes are left, and
    one more.  By strong induction on the bytes left, of which each round that goes on takes two. -/
theorem exists_rounds (acc : Number) (lx : Lexer) :
    ∃ n, n ≤ lx.rest.length / 2 + 1 ∧ Rounds acc lx n (lx.extend acc) := by
  induction hleft : lx.rest.length using Nat.strongRecOn generalizing acc lx with
  | _ left ih =>
    rcases hround : lx.round acc with ⟨outcome | next, behind⟩
    · rw [extend_of_done hround]
      exact ⟨1, by omega, .last hround⟩
    · -- Both the operator and the operand of this round come off the bytes left.
      have htaken := length_round_le hround
      obtain ⟨n, hn, hrounds⟩ := ih behind.rest.length (by omega) next behind rfl
      rw [extend_of_more hround]
      exact ⟨n + 1, by omega, .more hround hrounds⟩

/-- So does a whole chain, which has an operand in front of its rounds. -/
theorem exists_evaluates (lx : Lexer) :
    ∃ n, n ≤ lx.rest.length / 2 + 1 ∧ Evaluates lx n lx.evaluate := by
  rcases hoperand : lx.operand with ⟨e | ⟨value, p⟩, behind⟩
  · refine ⟨0, by omega, ?_⟩
    rw [Lexer.evaluate, hoperand]
    exact .refused hoperand
  · have htaken := length_operand_lt hoperand
    obtain ⟨n, hn, hrounds⟩ := exists_rounds (.integer value) behind
    refine ⟨n, by omega, ?_⟩
    rw [Lexer.evaluate, hoperand]
    exact .chain hoperand hrounds

/-! ### Calls for tokens -/

/-- Calls for one token after the other up to the first that gives the end or an error, and what
    they give. -/
inductive Calls : Lexer → List (Except Error Token) → Prop where
  | endOfInput {lx behind : Lexer} {p : Nat} (h : lx.next = (.ok ⟨.endOfInput, p⟩, behind)) :
      Calls lx [.ok ⟨.endOfInput, p⟩]
  | error {lx behind : Lexer} {e : Error} (h : lx.next = (.error e, behind)) : Calls lx [.error e]
  | token {lx behind : Lexer} {t : Token} {more : List (Except Error Token)}
      (h : lx.next = (.ok t, behind)) (ht : t.lexeme ≠ .endOfInput) (hmore : Calls behind more) :
      Calls lx (.ok t :: more)

/-- **Run lemma.**  Calls for tokens end, after at most as many as bytes are left, and one more.
    By strong induction on the bytes left, of which each token but the end takes one. -/
theorem calls_tokens (lx : Lexer) :
    Calls lx lx.tokens ∧ lx.tokens.length ≤ lx.rest.length + 1 := by
  induction hleft : lx.rest.length using Nat.strongRecOn generalizing lx with
  | _ left ih =>
    rcases hnext : lx.next with ⟨e | t, behind⟩
    · rw [tokens_of_error hnext]
      exact ⟨.error hnext, by simp⟩
    · by_cases ht : t.lexeme = .endOfInput
      · obtain ⟨lexeme, p⟩ := t
        obtain rfl : lexeme = .endOfInput := ht
        rw [tokens_of_end hnext]
        exact ⟨.endOfInput hnext, by simp⟩
      · have htaken : behind.rest.length < lx.rest.length := by
          have hlt := length_next_lt (congrArg Prod.fst hnext) ht
          rwa [hnext] at hlt
        obtain ⟨hcalls, hlength⟩ := ih behind.rest.length (by omega) behind rfl
        rw [tokens_of_token hnext ht, List.length_cons]
        exact ⟨.token hnext ht hcalls, by omega⟩

/-! ### Lines -/

/-- **Reading comes to an end.**  At every position of a line, reading a token stays in the line
    and never goes back: past a token, and past digits that are no token, it stands further on;
    behind the end it stands at the end of the line, and at a byte that begins no token before
    that byte.  So evaluation from a position ends, after at most half as many rounds as bytes
    are left, and one more; and so do calls for the tokens of a line, after at most one for each
    byte, and one more. -/
theorem reading_ends (line : Text) :
    (∀ i, i ≤ line.length →
      (∃ j, i ≤ j ∧ j ≤ line.length ∧ (within line i).next.2 = within line j
          ∧ Move line i (within line i).next.1 j)
        ∧ ∃ n, n ≤ (line.length - i) / 2 + 1
          ∧ Evaluates (within line i) n (within line i).evaluate)
      ∧ Calls (ofLine line) (ofLine line).tokens
      ∧ (ofLine line).tokens.length ≤ line.length + 1 := by
  refine ⟨fun i hi => ⟨move_next hi, ?_⟩, calls_tokens (ofLine line)⟩
  have hrounds := exists_evaluates (within line i)
  rwa [within, List.length_drop] at hrounds

/-- From the blank on, the chain takes one round, which finds a byte that begins no token. -/
theorem reading_ends_stray :
    let line := ascii "7+ 5@"
    2 ≤ line.length
      ∧ (∃ j, 2 ≤ j ∧ j ≤ line.length ∧ (within line 2).next.2 = within line j
          ∧ Move line 2 (.ok ⟨.integer 5, 3⟩) j)
      ∧ ∃ n, n ≤ 2 ∧ Evaluates (within line 2) n
          (.error (.lexical .invalidCharacter 64 4), within line 4) := by
  intro line
  have hi : 2 ≤ line.length := by decide
  obtain ⟨hmove, hrounds⟩ := (reading_ends line).1 2 hi
  have hnext : (within line 2).next.1 = .ok ⟨.integer 5, 3⟩ := by decide +kernel
  have hevaluate : (within line 2).evaluate
      = (.error (.lexical .invalidCharacter 64 4), within line 4) := by decide +kernel
  have hbound : (line.length - 2) / 2 + 1 = 2 := by decide
  rw [hnext] at hmove
  rw [hevaluate, hbound] at hrounds
  exact ⟨hi, hmove, hrounds⟩

end Lexer

end ChainCalc
