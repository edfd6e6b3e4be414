import Mathlib.Logic.Relation
import ChainCalc.Session
import ChainCalc.Proofs.Wording

namespace ChainCalc

/-!
# Cursors — where reading stands in a line

Reading a line moves one cursor through it, and the lexer at a cursor has the rest of the
line in front of it.  The token that was read last, or the error, says where the cursor
stands behind it: at the end of the token or of the digits, or still at the byte that
begins no token.  A request reads some tokens, and its reply tells the last of them.

* `Lexer.within` — the lexer at a position of a line.
* `Lexer.Fetch`, `Lexer.stop` — what reading a token can give, and where it leaves the
  cursor; `Lexer.fetch_next` says so of every position (**step lemma**).
* `Reply.lastFetch` — what was read last for a reply.
* `Lexer.EndsWith` — reading on from a position ends with a token or an error.
* `Lexer.extend_endsWith`, `Lexer.serve_endsWith` — **run lemmas**: the rounds of a chain,
  and every request, end with what their outcome tells.
-/

/-! ### Places in a line -/

/-- The position behind the digits that begin at a position of a text. -/
def Text.digitsEnd (t : Text) (p : Nat) : Nat :=
  p + ((t.drop p).takeWhile Byte.isDigit).length

/-- The digits of a text end in it. -/
theorem Text.digitsEnd_le (t : Text) {p : Nat} (hp : p ≤ t.length) :
    t.digitsEnd p ≤ t.length := by
  have hrun := (List.takeWhile_prefix Byte.isDigit (l := t.drop p)).length_le
  rw [List.length_drop] at hrun
  rw [digitsEnd]
  omega

namespace Lexer

/-- The lexer at a position of a line. -/
def within (line : Text) (p : Nat) : Lexer := ⟨line.drop p, p⟩

/-- Past some bytes of what is in front of a lexer, it stands further on in the line. -/
theorem within_add {line t u : Text} {p : Nat} (h : line.drop p = t ++ u) :
    within line (p + t.length) = ⟨u, p + t.length⟩ := by
  rw [within, ← List.drop_drop, h, List.drop_left]

/-- At the end of a line, nothing is left of it. -/
theorem within_length (line : Text) : within line line.length = ⟨[], line.length⟩ := by
  rw [within, List.drop_length]

/-- Behind the blanks at a position of a line stands a front. -/
theorem exists_front_within {line : Text} {i : Nat} (hi : i ≤ line.length) :
    ∃ w : Text, w.isBlank = true ∧ i + w.length ≤ line.length
      ∧ within line i = ⟨w ++ line.drop (i + w.length), i⟩
      ∧ Front (line.drop (i + w.length)) := by
  obtain ⟨w, v, hsplit, hw, hv⟩ := exists_front (line.drop i)
  have hrest : line.drop (i + w.length) = v := congrArg Lexer.rest (within_add hsplit)
  have hlen := congrArg List.length hsplit
  rw [List.length_drop, List.length_append] at hlen
  exact ⟨w, hw, by omega, by rw [within, hrest, hsplit], hrest ▸ hv⟩

/-! ### Reading one token -/

/-- Where reading stands behind a token or an error.  A byte that begins no token is not
    passed. -/
def stop (line : Text) : Except Error Token → Nat
  | .ok ⟨.integer _, p⟩ => line.digitsEnd p
  | .ok ⟨.operator _, p⟩ => p + 1
  | .ok ⟨.endOfInput, _⟩ => line.length
  | .error (.lexical .outOfRange _ p) => line.digitsEnd p
  | .error e => e.position?.getD 0

/-- The position of a token, or of the error in its place. -/
def fetchPosition? : Except Error Token → Option Nat
  | .ok t => some t.position
  | .error e => e.position?

/-- What reading a token at position `i` of a line can give: a token or an error further on,
    or the end. -/
inductive Fetch (line : Text) (i : Nat) : Except Error Token → Prop where
  | endOfInput (hi : i ≤ line.length) : Fetch line i (.ok ⟨.endOfInput, line.length⟩)
  | operator (op : Operator) {p : Nat} (hi : i ≤ p) (hp : p < line.length) :
      Fetch line i (.ok ⟨.operator op, p⟩)
  | integer (value : Int64) {p : Nat} (hi : i ≤ p) (hp : p ≤ line.length)
      (hrun : p < line.digitsEnd p) : Fetch line i (.ok ⟨.integer value, p⟩)
  /-- The digits are passed though they are no token. -/
  | outOfRange {b : Byte} (hb : b.isDigit = true) {p : Nat} (hi : i ≤ p)
      (hp : p ≤ line.length) (hrun : p < line.digitsEnd p) :
      Fetch line i (.error (.lexical .outOfRange b p))
  /-- The byte stays in front, so it is found again. -/
  | invalidCharacter {b : Byte} (hb : b.isStray = true) {p : Nat} (hi : i ≤ p)
      (hp : p < line.length)
      (hstay : next (within line p) = (.error (.lexical .invalidCharacter b p), within line p)) :
      Fetch line i (.error (.lexical .invalidCharacter b p))

/-- **Step lemma.**  Reading a token at a position of a line gives a token or an error from
    there on, and this says where the lexer stands behind it. -/
theorem fetch_next {line : Text} {i : Nat} (hi : i ≤ line.length) :
    ∃ fetch, Fetch line i fetch
      ∧ (within line i).next = (fetch, within line (stop line fetch)) := by
  obtain ⟨w, hw, hp, hblanks, hfront⟩ := exists_front_within hi
  have hnext : next (within line i) = next (within line (i + w.length)) := by
    rw [hblanks, next_append_blanks hw, ← within]
  have hip := Nat.le_add_right i w.length
  rw [hnext]
  generalize i + w.length = p at hip hp hfront
  generalize hv : line.drop p = v at hfront
  have hplace : within line p = ⟨v, p⟩ := by rw [within, hv]
  have hlen : v.length = line.length - p := by rw [← hv, List.length_drop]
  cases hfront with
  | nothing =>
    obtain rfl : p = line.length := by
      rw [List.length_nil] at hlen
      omega
    refine ⟨_, .endOfInput hi, ?_⟩
    rw [hplace, next_nothing]
    rw [stop, hplace]
  | symbol op t =>
    rw [List.length_cons] at hlen
    have hbehind : within line (p + 1) = ⟨t, p + 1⟩ := within_add (t := [op.symbol]) hv
    refine ⟨_, .operator op hip (by omega), ?_⟩
    rw [hplace, next_symbol, stop, hbehind]
  | @digits r t ht =>
    have hend : line.digitsEnd p = p + r.text.length := by
      rw [Text.digitsEnd, hv, r.takeWhile_append ht]
    have hrun : p < line.digitsEnd p := by
      have hpos := List.length_pos_iff.2 r.ne_nil
      omega
    have hbehind : within line (line.digitsEnd p) = ⟨t, p + r.text.length⟩ := by
      rw [hend]
      exact within_add hv
    have hread := next_digits r ht p
    rw [← hplace, ← hbehind] at hread
    -- The digits are a token or not, and are passed in either case.
    split at hread
    · exact ⟨_, .integer _ hip hp hrun, hread⟩
    · exact ⟨_, .outOfRange r.isDigit_first hip hp hrun, hread⟩
  | @stray b hb t =>
    rw [List.length_cons] at hlen
    have hstay := next_stray hb t p
    rw [← hplace] at hstay
    exact ⟨_, .invalidCharacter hb hip (by omega) hstay, hstay⟩

namespace Fetch

variable {line : Text} {i : Nat} {fetch : Except Error Token}

/-- Reading a token never goes back. -/
theorem le_stop (h : Fetch line i fetch) : i ≤ stop line fetch := by
  cases h with
  | endOfInput hi => exact hi
  | operator op hi hp => exact Nat.le_succ_of_le hi
  | integer value hi hp hrun => exact Nat.le_of_lt (Nat.lt_of_le_of_lt hi hrun)
  | outOfRange hb hi hp hrun => exact Nat.le_of_lt (Nat.lt_of_le_of_lt hi hrun)
  | invalidCharacter hb hi hp hstay => exact hi

/-- Reading a token never leaves the line. -/
theorem stop_le (h : Fetch line i fetch) : stop line fetch ≤ line.length := by
  cases h with
  | endOfInput hi => exact Nat.le_refl _
  | operator op hi hp => exact hp
  | integer value hi hp hrun => exact line.digitsEnd_le hp
  | outOfRange hb hi hp hrun => exact line.digitsEnd_le hp
  | invalidCharacter hb hi hp hstay => exact Nat.le_of_lt hp

/-- Reading a token gives the end, or a byte that begins no token and stays in front, or it
    passes the position that it points at. -/
theorem position_cases (h : Fetch line i fetch) :
    ∃ p, fetchPosition? fetch = some p ∧ i ≤ p
      ∧ (fetch = .ok ⟨.endOfInput, line.length⟩
        ∨ (∃ b, b.isStray = true ∧ fetch = .error (.lexical .invalidCharacter b p))
        ∨ p < stop line fetch) := by
  cases h with
  | endOfInput hi => exact ⟨_, rfl, hi, .inl rfl⟩
  | operator op hi hp => exact ⟨_, rfl, hi, .inr (.inr (Nat.lt_succ_self _))⟩
  | integer value hi hp hrun => exact ⟨_, rfl, hi, .inr (.inr hrun)⟩
  | outOfRange hb hi hp hrun => exact ⟨_, rfl, hi, .inr (.inr hrun)⟩
  | @invalidCharacter b hb p hi hp hstay => exact ⟨p, rfl, hi, .inr (.inl ⟨b, hb, rfl⟩)⟩

/-- An error that reading a token gives arises at a position. -/
theorem exists_arisesAt {e : Error} (h : Fetch line i (.error e)) : ∃ p, e.ArisesAt p := by
  cases h with
  | outOfRange hb hi hp hrun => exact ⟨_, .outOfRange _ _⟩
  | invalidCharacter hb hi hp hstay => exact ⟨_, .invalidCharacter _ _⟩

end Fetch

/-! ### Reading several tokens -/

/-- Reading tokens one after the other leads from a lexer to another. -/
abbrev Reads : Lexer → Lexer → Prop := Relation.ReflTransGen fun lx lx' => lx.next.2 = lx'

/-- Reading on from position `i` of a line ends with a token or an error, and stands
    `behind` it then. -/
def EndsWith (line : Text) (i : Nat) (fetch : Except Error Token) (behind : Lexer) : Prop :=
  ∃ k, i ≤ k ∧ k ≤ line.length ∧ Reads (within line i) (within line k)
    ∧ (within line k).next = (fetch, behind)

namespace EndsWith

variable {line : Text} {i : Nat} {fetch : Except Error Token} {behind : Lexer}

/-- Reading may end with the first token. -/
theorem here (hi : i ≤ line.length) (h : (within line i).next = (fetch, behind)) :
    EndsWith line i fetch behind :=
  ⟨i, Nat.le_refl i, hi, .refl, h⟩

/-- Or it goes on from where the first tokens lead. -/
theorem of_reads {j : Nat} (hreads : Reads (within line i) (within line j)) (hij : i ≤ j)
    (h : EndsWith line j fetch behind) : EndsWith line i fetch behind := by
  obtain ⟨k, hjk, hk, hmore, hnext⟩ := h
  exact ⟨k, Nat.le_trans hij hjk, hk, hreads.trans hmore, hnext⟩

/-- Reading leads to where it ends. -/
theorem reads (h : EndsWith line i fetch behind) : Reads (within line i) behind := by
  obtain ⟨k, -, -, hreads, hnext⟩ := h
  exact hreads.tail (congrArg Prod.snd hnext)

/-- What reading ends with can be read at a position from there on. -/
theorem exists_fetch (h : EndsWith line i fetch behind) : ∃ k, i ≤ k ∧ Fetch line k fetch := by
  obtain ⟨k, hik, hk, -, hnext⟩ := h
  obtain ⟨fetch', hfetch, hnext'⟩ := fetch_next hk
  obtain ⟨rfl, -⟩ := Prod.mk.inj (hnext.symm.trans hnext')
  exact ⟨k, hik, hfetch⟩

/-- What reading ends with says where the lexer stands behind it. -/
theorem behind_eq (h : EndsWith line i fetch behind) : behind = within line (stop line fetch) := by
  obtain ⟨k, -, hk, -, hnext⟩ := h
  obtain ⟨fetch', -, hnext'⟩ := fetch_next hk
  obtain ⟨rfl, hbehind⟩ := Prod.mk.inj (hnext.symm.trans hnext')
  exact hbehind

/-- Reading stops in the line, from where it began on. -/
theorem stop_bounds (h : EndsWith line i fetch behind) :
    i ≤ stop line fetch ∧ stop line fetch ≤ line.length := by
  obtain ⟨k, hik, hfetch⟩ := h.exists_fetch
  exact ⟨Nat.le_trans hik hfetch.le_stop, hfetch.stop_le⟩

end EndsWith

end Lexer

/-! ### What is read last -/

/-- What was read last for an error: the token that is out of place or the zero, or no
    token. -/
def Error.lastFetch : Error → Except Error Token
  | .unexpected _ found => .ok found
  | .divisionByZero p => .ok ⟨.integer 0, p⟩
  | e => .error e

/-- What was read last of a line for the outcome of a chain: the end of the line, if the
    chain has a value. -/
def outcomeFetch (line : Text) : Except Error Number → Except Error Token
  | .ok _ => .ok ⟨.endOfInput, line.length⟩
  | .error e => e.lastFetch

/-- What was read last of a line for a reply. -/
def Reply.lastFetch (line : Text) : Reply → Except Error Token
  | .token outcome => outcome
  | .value outcome => outcomeFetch line outcome

namespace Lexer

variable {line : Text} {i : Nat}

/-- An operand is the token that was read for it; an error tells what was read instead. -/
theorem operand_endsWith (hi : i ≤ line.length) :
    (∃ value p j, i < j ∧ j ≤ line.length
        ∧ (within line i).next = (.ok ⟨.integer value, p⟩, within line j)
        ∧ (within line i).operand = (.ok (value, p), within line j))
      ∨ ∃ e behind, (within line i).operand = (.error e, behind)
        ∧ EndsWith line i e.lastFetch behind := by
  obtain ⟨fetch, hfetch, hnext⟩ := fetch_next hi
  have hhere := EndsWith.here hi hnext
  cases hfetch with
  | integer value hip hp hrun =>
    refine .inl ⟨value, _, _, Nat.lt_of_le_of_lt hip hrun, line.digitsEnd_le hp, hnext, ?_⟩
    simp only [operand, hnext]
    rfl
  | endOfInput _ =>
    refine .inr ⟨.unexpected .operand ⟨.endOfInput, line.length⟩, _, ?_, hhere⟩
    simp only [operand, hnext]
  | @operator op p _ _ =>
    refine .inr ⟨.unexpected .operand ⟨.operator op, p⟩, _, ?_, hhere⟩
    simp only [operand, hnext]
  | @outOfRange b _ p _ _ _ =>
    refine .inr ⟨.lexical .outOfRange b p, _, ?_, hhere⟩
    simp only [operand, hnext]
  | @invalidCharacter b _ p _ _ _ =>
    refine .inr ⟨.lexical .invalidCharacter b p, _, ?_, hhere⟩
    simp only [operand, hnext]

/-- A round that ends the chain ends with what the outcome tells; a round that goes on
    stands further on in the line. -/
theorem round_endsWith (hi : i ≤ line.length) (acc : Number) :
    (∃ next j, i < j ∧ j ≤ line.length ∧ Reads (within line i) (within line j)
        ∧ (within line i).round acc = (.more next, within line j))
      ∨ ∃ outcome behind, (within line i).round acc = (.done outcome, behind)
        ∧ EndsWith line i (outcomeFetch line outcome) behind := by
  obtain ⟨fetch, hfetch, hnext⟩ := fetch_next hi
  have hhere := EndsWith.here hi hnext
  cases hfetch with
  | endOfInput _ =>
    refine .inr ⟨.ok acc, _, ?_, hhere⟩
    simp only [round, hnext]
  | @integer value p _ _ _ =>
    refine .inr ⟨.error (.unexpected .operator ⟨.integer value, p⟩), _, ?_, hhere⟩
    simp only [round, hnext]
  | @outOfRange b _ p _ _ _ =>
    refine .inr ⟨.error (.lexical .outOfRange b p), _, ?_, hhere⟩
    simp only [round, hnext]
  | @invalidCharacter b _ p _ _ _ =>
    refine .inr ⟨.error (.lexical .invalidCharacter b p), _, ?_, hhere⟩
    simp only [round, hnext]
  | @operator op p hip hp =>
    -- Behind the operator, the round reads an operand and joins it.
    have hlt : i ≤ p + 1 := Nat.le_succ_of_le hip
    have hbehind : p + 1 ≤ line.length := hp
    rw [stop] at hnext
    have hfirst : Reads (within line i) (within line (p + 1)) := .single (congrArg Prod.snd hnext)
    rcases operand_endsWith hbehind with
      ⟨rhs, q, j, hj, hjlen, hread, hoperand⟩ | ⟨e, behind, hoperand, hend⟩
    · cases happly : acc.apply op rhs q with
      | ok value =>
        refine .inl ⟨value, j, by omega, hjlen, ?_, ?_⟩
        · exact hfirst.tail (congrArg Prod.snd hread)
        · simp only [round, hnext, hoperand, happly]
      | error e =>
        have hzero : e = .divisionByZero q ∧ rhs = 0 := by
          unfold Number.apply at happly
          split at happly
          · next hdiv => exact ⟨(Except.error.inj happly).symm, hdiv.2⟩
          · cases happly
        obtain ⟨rfl, rfl⟩ := hzero
        refine .inr ⟨.error (.divisionByZero q), _, ?_, .of_reads hfirst hlt (.here hbehind hread)⟩
        simp only [round, hnext, hoperand, happly]
    · refine .inr ⟨.error e, behind, ?_, .of_reads hfirst hlt hend⟩
      simp only [round, hnext, hoperand]

/-- **Run lemma.**  The rounds of a chain end with what their outcome tells.  By strong
    induction on what is left of the line, of which every round that goes on takes some. -/
theorem extend_endsWith (hi : i ≤ line.length) (acc : Number) :
    EndsWith line i (outcomeFetch line ((within line i).extend acc).1)
      ((within line i).extend acc).2 := by
  induction hleft : line.length - i using Nat.strongRecOn generalizing i acc with
  | _ n ih =>
    rcases round_endsWith hi acc with
      ⟨next, j, hij, hj, hreads, hround⟩ | ⟨outcome, behind, hround, hend⟩
    · rw [extend_of_more hround]
      exact .of_reads hreads (Nat.le_of_lt hij) (ih (line.length - j) (by omega) hj next rfl)
    · rw [extend_of_done hround]
      exact hend

/-- So does a whole chain. -/
theorem evaluate_endsWith (hi : i ≤ line.length) :
    EndsWith line i (outcomeFetch line (within line i).evaluate.1) (within line i).evaluate.2 := by
  rcases operand_endsWith hi with
    ⟨value, p, j, hij, hj, hread, hoperand⟩ | ⟨e, behind, hoperand, hend⟩
  · simp only [Lexer.evaluate, hoperand]
    have hfirst : Reads (within line i) (within line j) := .single (congrArg Prod.snd hread)
    exact .of_reads hfirst (Nat.le_of_lt hij) (extend_endsWith hj _)
  · simp only [Lexer.evaluate, hoperand]
    exact hend

/-- **Every request ends with what its reply tells.** -/
theorem serve_endsWith (hi : i ≤ line.length) (request : Request) :
    EndsWith line i (((within line i).serve request).1.lastFetch line)
      ((within line i).serve request).2 := by
  cases request with
  | token => exact .here hi rfl
  | value => exact evaluate_endsWith hi

end Lexer

end ChainCalc
