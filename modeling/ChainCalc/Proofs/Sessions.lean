import Mathlib.Data.List.Induction
import ChainCalc.Proofs.Cursor

namespace ChainCalc

/-!
# Sessions — requests that share one line

Whatever has been asked before, a request is answered from the cursor on, and by nothing
else: the replies that follow are those for the rest of the line, further on by what has
been read.  At the end of a line and at a byte that begins no token the cursor stays, and
so do the replies; everywhere else it moves on.

* `Lexer.cursor` — where a session stands, by its last reply; `Lexer.spans` — what each of
  its requests read.
* `Lexer.after_ofLine` — the lexer behind a session is the one at the cursor.
* `Lexer.Relocation.session` — **run lemma**: related lexers give the same replies but for
  positions.
* `Lexer.session_resumed` — a session goes on as a session of the rest of the line.
* `Lexer.session_settled` — which replies recur, and that no other comes twice at one place.
-/

/-! ### Replies -/

namespace Reply

/-- A reply with its positions moved. -/
def relocate (f : Nat → Nat) : Reply → Reply
  | token outcome => token (ChainCalc.relocate f (Token.relocate f) outcome)
  | value outcome => value (ChainCalc.relocate f id outcome)

/-- The error of a reply, if it has one. -/
def error? : Reply → Option Error
  | token (.error e) => some e
  | value (.error e) => some e
  | _ => none

/-- The position that a reply points at; a value points at none. -/
def position? : Reply → Option Nat
  | token (.ok t) => some t.position
  | token (.error e) => e.position?
  | value (.ok _) => none
  | value (.error e) => e.position?

/-- A reply that comes from the end of its line: the end itself, a value, or an error that
    found the end. -/
inductive AtEnd : Reply → Prop where
  | token (p : Nat) : AtEnd (.token (.ok ⟨.endOfInput, p⟩))
  | value (n : Number) : AtEnd (.value (.ok n))
  | unexpected (expected : Role) (p : Nat) :
      AtEnd (.value (.error (.unexpected expected ⟨.endOfInput, p⟩)))

end Reply

/-- What a request is answered with at the end of a line. -/
def Request.replyAtEnd (p : Nat) : Request → Reply
  | token => .token (.ok ⟨.endOfInput, p⟩)
  | value => .value (.error (.unexpected .operand ⟨.endOfInput, p⟩))

/-- What a request is answered with where no token can be read. -/
def Request.refusal (e : Error) : Request → Reply
  | token => .token (.error e)
  | value => .value (.error e)

namespace Reply

variable {line : Text} {reply : Reply}

/-- A reply that points at a position points at what was read last. -/
theorem fetchPosition?_lastFetch {p : Nat} (h : reply.position? = some p) :
    Lexer.fetchPosition? (reply.lastFetch line) = some p := by
  rcases reply with (_ | _) | (e | _)
  · exact h
  · exact h
  · cases e <;> exact h
  · cases h

/-- A reply that does not come from the end points at what was read last. -/
theorem position?_eq (h : ¬ reply.AtEnd) :
    reply.position? = Lexer.fetchPosition? (reply.lastFetch line) := by
  rcases reply with (_ | _) | (e | n)
  · rfl
  · rfl
  · cases e <;> rfl
  · exact absurd (.value n) h

/-- A reply comes from the end of its line exactly when the end was read last. -/
theorem atEnd_iff : reply.AtEnd ↔ ∃ p, reply.lastFetch line = .ok ⟨.endOfInput, p⟩ := by
  constructor
  · rintro (p | n | ⟨role, p⟩)
    · exact ⟨p, rfl⟩
    · exact ⟨line.length, rfl⟩
    · exact ⟨p, rfl⟩
  · rintro ⟨p, h⟩
    rcases reply with (_ | _) | (e | n)
    · cases h
    · cases h
      exact .token p
    · cases e <;> cases h
      exact .unexpected _ p
    · exact .value n

/-- A reply is the error that no token can be read exactly when this was found last. -/
theorem lastFetch_eq_lexical_iff {fault : LexicalFault} {b : Byte} {p : Nat} :
    reply.lastFetch line = .error (.lexical fault b p)
      ↔ reply.error? = some (.lexical fault b p) := by
  rcases reply with (_ | _) | (e | _)
  · simp [lastFetch, error?]
  · simp [lastFetch, error?]
  · cases e <;> simp [lastFetch, outcomeFetch, Error.lastFetch, error?]
  · simp [lastFetch, outcomeFetch, error?]

end Reply

namespace Lexer

/-! ### Sessions as a whole -/

/-- The lexer behind a list of requests. -/
def after (lx : Lexer) (requests : List Request) : Lexer :=
  requests.foldl (fun lx request => (lx.serve request).2) lx

theorem after_append (lx : Lexer) (before more : List Request) :
    lx.after (before ++ more) = (lx.after before).after more := List.foldl_append

/-- A session goes on behind its first requests. -/
theorem session_append (lx : Lexer) (before more : List Request) :
    lx.session (before ++ more) = lx.session before ++ (lx.after before).session more := by
  induction before generalizing lx with
  | nil => rfl
  | cons request before ih =>
    rw [List.cons_append, session, session, ih, List.cons_append]
    rfl

/-- Where a session of a line stands: at the start, or where its last reply says that
    reading stopped. -/
def cursor (line : Text) (requests : List Request) : Nat :=
  match ((ofLine line).session requests).getLast? with
  | none => 0
  | some reply => stop line (reply.lastFetch line)

/-- What each request of a session reads of the line, from a cursor to the next. -/
def spans (line : Text) (requests : List Request) : List (Nat × Nat) :=
  (List.range requests.length).map fun k =>
    (cursor line (requests.take k), cursor line (requests.take (k + 1)))

theorem cursor_append_singleton (line : Text) (before : List Request) (request : Request) :
    cursor line (before ++ [request])
      = stop line ((((ofLine line).after before).serve request).1.lastFetch line) := by
  simp [cursor, session_append, session]

/-- **A session leaves the lexer at its cursor**, which is in the line.  By induction on the
    requests from the last one back. -/
theorem after_ofLine (line : Text) (requests : List Request) :
    (ofLine line).after requests = within line (cursor line requests)
      ∧ cursor line requests ≤ line.length
      ∧ Reads (ofLine line) (within line (cursor line requests)) := by
  induction requests using List.reverseRecOn with
  | nil => exact ⟨rfl, Nat.zero_le _, .refl⟩
  | append_singleton before request ih =>
    obtain ⟨hbefore, hcursor, hreads⟩ := ih
    have hend := serve_endsWith hcursor request
    rw [cursor_append_singleton, after_append, hbefore, ← hend.behind_eq]
    exact ⟨rfl, hend.stop_bounds.2, hreads.trans hend.reads⟩

/-- The last reply of a session tells what was read last in it. -/
theorem endsWith_of_getLast? {line : Text} {requests : List Request} {reply : Reply}
    (h : ((ofLine line).session requests).getLast? = some reply) :
    EndsWith line 0 (reply.lastFetch line) ((ofLine line).after requests) := by
  cases requests using List.reverseRecOn with
  | nil => cases h
  | append_singleton before request =>
    obtain ⟨hbefore, hcursor, hreads⟩ := after_ofLine line before
    have hend := serve_endsWith hcursor request
    simp only [session_append, session, List.getLast?_concat, Option.some.injEq, hbefore] at h
    rw [after_append, hbefore, ← h]
    exact .of_reads hreads (Nat.zero_le _) hend

/-- More requests never move the cursor back. -/
theorem cursor_le_append (line : Text) (before more : List Request) :
    cursor line before ≤ cursor line (before ++ more) := by
  induction more using List.reverseRecOn with
  | nil => simp
  | append_singleton more request ih =>
    obtain ⟨hlexer, hcursor, -⟩ := after_ofLine line (before ++ more)
    have hend := serve_endsWith hcursor request
    rw [← List.append_assoc, cursor_append_singleton, hlexer]
    exact Nat.le_trans ih hend.stop_bounds.1

/-- What requests read follows one upon the other, and stays in the line. -/
theorem spans_ordered (line : Text) (requests : List Request) :
    (spans line requests).Pairwise (fun s t => s.2 ≤ t.1)
      ∧ ∀ s ∈ spans line requests, s.1 ≤ s.2 ∧ s.2 ≤ line.length := by
  have hmono : ∀ {j k : Nat}, j ≤ k →
      cursor line (requests.take j) ≤ cursor line (requests.take k) := by
    intro j k hjk
    obtain ⟨more, hmore⟩ := List.take_prefix_take_left (l := requests) hjk
    rw [← hmore]
    exact cursor_le_append line _ more
  constructor
  · rw [spans, List.pairwise_map]
    exact List.pairwise_lt_range.imp hmono
  · intro s hs
    obtain ⟨k, -, rfl⟩ := List.mem_map.1 hs
    exact ⟨hmono (Nat.le_succ k), (after_ofLine line _).2.1⟩

/-- Every reply of a session tells what was read for it, from the start of the session on. -/
theorem exists_fetch_of_mem_session {line : Text} {i : Nat} (hi : i ≤ line.length)
    {requests : List Request} {reply : Reply}
    (h : reply ∈ (within line i).session requests) :
    ∃ k, i ≤ k ∧ Fetch line k (reply.lastFetch line) := by
  induction requests generalizing i with
  | nil => cases h
  | cons request more ih =>
    have hend := serve_endsWith hi request
    rcases List.mem_cons.1 h with rfl | hmore
    · exact hend.exists_fetch
    · rw [hend.behind_eq] at hmore
      obtain ⟨k, hk, hfetch⟩ := ih hend.stop_bounds.2 hmore
      exact ⟨k, Nat.le_trans hend.stop_bounds.1 hk, hfetch⟩

/-! ### The rest of a line -/

namespace Relocation

variable {f : Nat → Nat} {R : Lexer → Lexer → Prop} {lx lx' : Lexer}

/-- Related lexers answer a request alike but for positions, and are related behind it. -/
theorem serve (h : Relocation f R) (hlx : R lx lx') (request : Request) :
    ∃ behind, lx'.serve request = ((lx.serve request).1.relocate f, behind)
      ∧ R (lx.serve request).2 behind := by
  cases request with
  | token =>
    obtain ⟨behind, hnext, hbehind⟩ := h.next hlx
    exact ⟨behind, by rw [Lexer.serve, hnext]; rfl, hbehind⟩
  | value =>
    obtain ⟨behind, hevaluate, hbehind⟩ := h.evaluate hlx
    exact ⟨behind, by rw [Lexer.serve, hevaluate]; rfl, hbehind⟩

/-- **Run lemma.**  Related lexers answer all requests alike but for positions. -/
theorem session (h : Relocation f R) (hlx : R lx lx') (requests : List Request) :
    lx'.session requests = (lx.session requests).map (Reply.relocate f) := by
  induction requests generalizing lx lx' with
  | nil => rfl
  | cons request more ih =>
    obtain ⟨behind, hserve, hbehind⟩ := h.serve hlx request
    rw [Lexer.session, hserve, ih hbehind]
    rfl

end Relocation

/-- From a position of a line on, requests are answered as for the rest of the line alone,
    that much further on. -/
theorem session_within (line : Text) (i : Nat) (requests : List Request) :
    (within line i).session requests
      = ((ofLine (line.drop i)).session requests).map (Reply.relocate (· + i)) := by
  have hmoved : Moved (· + i) (ofLine (line.drop i)) (within line i) :=
    ⟨by simp [within, ofLine], fun n => by simp [ofLine, Nat.add_comm]⟩
  exact (Moved.relocation (· + i)).session hmoved requests

/-- The error of a reply arises at a position. -/
theorem exists_arisesAt_of_error? {line : Text} {k : Nat} {reply : Reply} {e : Error}
    (h : Fetch line k (reply.lastFetch line)) (he : reply.error? = some e) :
    ∃ p, e.ArisesAt p := by
  rcases reply with (e' | _) | (e' | _) <;> cases he
  · exact h.exists_arisesAt
  · cases e with
    | unexpected role found => exact ⟨_, .unexpected role found⟩
    | divisionByZero p => exact ⟨p, .divisionByZero p⟩
    | lexical fault b p => exact h.exists_arisesAt
    | notOperator kind => exact h.exists_arisesAt

/-- **A session never goes back and never skips.**  Behind its first requests, the lexer
    stands at the cursor, where the last of them stopped reading.  The requests that follow
    are answered as for the rest of the line alone, further on by what has been read: so are
    their errors, and the messages about these.  What the requests read follows one upon
    the other. -/
theorem session_resumed (line : Text) (before more : List Request) :
    let i := cursor line before
    let fresh := (ofLine (line.drop i)).session more
    (ofLine line).session (before ++ more)
        = (ofLine line).session before ++ fresh.map (Reply.relocate (· + i))
      ∧ (∀ reply ∈ fresh, ∀ e, reply.error? = some e →
        ∃ p, e.position? = some p ∧ e.message = e.complaint ++ Error.place p
          ∧ (e.relocate (· + i)).position? = some (p + i)
          ∧ (e.relocate (· + i)).message = e.complaint ++ Error.place (p + i))
      ∧ (ofLine line).after before = within line i
      ∧ (∀ reply, ((ofLine line).session before).getLast? = some reply →
        EndsWith line 0 (reply.lastFetch line) (within line i))
      ∧ (spans line (before ++ more)).Pairwise (fun s t => s.2 ≤ t.1)
      ∧ ∀ s ∈ spans line (before ++ more), s.1 ≤ s.2 ∧ s.2 ≤ line.length := by
  intro i fresh
  obtain ⟨hafter, -, -⟩ := after_ofLine line before
  refine ⟨?_, ?_, hafter, ?_, spans_ordered line (before ++ more)⟩
  · rw [session_append, hafter, session_within]
  · intro reply hreply e he
    obtain ⟨k, -, hfetch⟩ := exists_fetch_of_mem_session (Nat.zero_le _) hreply
    obtain ⟨p, hp⟩ := exists_arisesAt_of_error? hfetch he
    have hmoved := hp.relocate (· + i)
    have hmessage := hmoved.message_eq
    rw [Error.complaint_relocate] at hmessage
    exact ⟨p, hp.position?_eq, hp.message_eq, hmoved.position?_eq, hmessage⟩
  · intro reply hlast
    rw [← hafter]
    exact endsWith_of_getLast? hlast

/-- A session goes on behind a zero divisor, which is read, and finds what follows it. -/
theorem session_resumed_behind_zero :
    let line := ascii "1/0 *2"
    let e : Error := .unexpected .operand ⟨.operator .times, 1⟩
    cursor line [.value] = 3
      ∧ (ofLine line).session [.value] = [.value (.error (.divisionByZero 2))]
      ∧ EndsWith line 0 (.ok ⟨.integer 0, 2⟩) (within line 3)
      ∧ (ofLine line).session [.value, .value, .token]
        = [.value (.error (.divisionByZero 2)), .value (.error (e.relocate (· + 3))),
          .token (.ok ⟨.integer 2, 5⟩)]
      ∧ (e.relocate (· + 3)).message = ascii "expected operand but found '*' at position 4" := by
  intro line e
  have hcursor : cursor line [.value] = 3 := by decide +kernel
  have hbefore : (ofLine line).session [.value] = [.value (.error (.divisionByZero 2))] := by
    decide +kernel
  have hfresh : (ofLine (line.drop 3)).session [.value, .token]
      = [.value (.error e), .token (.ok ⟨.integer 2, 2⟩)] := by decide +kernel
  obtain ⟨hsession, herror, -, hlast, -, -⟩ := session_resumed line [.value] [.value, .token]
  rw [hcursor] at hsession herror hlast
  rw [hfresh] at hsession herror
  obtain ⟨p, hp, -, -, hmessage⟩ := herror (.value (.error e)) (by simp) e rfl
  cases hp
  refine ⟨hcursor, hbefore, ?_, ?_, ?_⟩
  · exact hlast (.value (.error (.divisionByZero 2))) (by rw [hbefore]; rfl)
  · exact hsession.trans (by rw [hbefore]; rfl)
  · exact hmessage.trans (by decide +kernel)

/-! ### Replies that recur -/

/-- At the end of a line, every request finds the end. -/
theorem session_of_nothing (p : Nat) (requests : List Request) :
    session ⟨[], p⟩ requests = requests.map (Request.replyAtEnd p) := by
  induction requests with
  | nil => rfl
  | cons request more ih =>
    have hserve : serve ⟨[], p⟩ request = (request.replyAtEnd p, ⟨[], p⟩) := by
      cases request with
      | token => rfl
      | value => simp [serve, Lexer.evaluate, operand, next_nothing, Request.replyAtEnd]
    rw [session, hserve, ih, List.map_cons]

/-- Where reading a token fails and the lexer stays, every request fails alike. -/
theorem session_of_stuck {lx : Lexer} {e : Error} (h : lx.next = (.error e, lx))
    (requests : List Request) : lx.session requests = requests.map (Request.refusal e) := by
  induction requests with
  | nil => rfl
  | cons request more ih =>
    have hserve : lx.serve request = (request.refusal e, lx) := by
      cases request with
      | token => simp [serve, h, Request.refusal]
      | value => simp [serve, Lexer.evaluate, operand, h, Request.refusal]
    rw [session, hserve, ih, List.map_cons]

namespace EndsWith

variable {line : Text} {i : Nat} {reply : Reply} {behind : Lexer}

/-- A reply that comes from the end leaves nothing of the line. -/
theorem eq_of_atEnd (h : EndsWith line i (reply.lastFetch line) behind) (hreply : reply.AtEnd) :
    behind = ⟨[], line.length⟩ := by
  obtain ⟨p, hlast⟩ := Reply.atEnd_iff.1 hreply
  have hbehind := h.behind_eq
  rw [hlast] at hbehind
  exact hbehind.trans (within_length line)

/-- A byte that begins no token is found again. -/
theorem next_of_isStray (h : EndsWith line i (reply.lastFetch line) behind)
    {fault : LexicalFault} {b : Byte} {p : Nat}
    (he : reply.error? = some (.lexical fault b p)) (hb : b.isStray = true) :
    behind.next = (.error (.lexical fault b p), behind) := by
  rw [Reply.lastFetch_eq_lexical_iff.2 he] at h
  obtain ⟨k, -, hfetch⟩ := h.exists_fetch
  rw [h.behind_eq]
  cases hfetch with
  | outOfRange hdigit => simp [Byte.isStray, hdigit] at hb
  | invalidCharacter _ _ _ hstay => exact hstay

/-- Any other reply passes the position that it points at. -/
theorem exists_position_lt (h : EndsWith line i (reply.lastFetch line) behind)
    (hreply : ¬ reply.AtEnd)
    (hstray : ∀ fault b p, reply.error? = some (.lexical fault b p) → b.isStray = false) :
    ∃ p j, reply.position? = some p ∧ p < j ∧ j ≤ line.length ∧ behind = within line j := by
  obtain ⟨k, -, hfetch⟩ := h.exists_fetch
  obtain ⟨p, hp, -, hlast | ⟨b, hb, hlast⟩ | hpass⟩ := hfetch.position_cases
  · exact absurd (Reply.atEnd_iff.2 ⟨_, hlast⟩) hreply
  · have hno := hstray _ _ _ (Reply.lastFetch_eq_lexical_iff.1 hlast)
    rw [hb] at hno
    cases hno
  · rw [← Reply.position?_eq hreply] at hp
    exact ⟨p, _, hp, hpass, h.stop_bounds.2, h.behind_eq⟩

end EndsWith

/-- A reply of a session that starts at a position points at no position in front of it. -/
theorem le_position_of_mem_session {line : Text} {i : Nat} (hi : i ≤ line.length)
    {requests : List Request} {reply : Reply} {q : Nat}
    (h : reply ∈ (within line i).session requests) (hq : reply.position? = some q) : i ≤ q := by
  obtain ⟨k, hk, hfetch⟩ := exists_fetch_of_mem_session hi h
  obtain ⟨p, hp, hkp, -⟩ := hfetch.position_cases
  rw [Reply.fetchPosition?_lastFetch hq] at hp
  cases hp
  exact Nat.le_trans hk hkp

/-- **What recurs in a session, and what does not.**  Once a reply comes from the end of
    the line, every request finds the end, and once a byte is found that begins no token,
    every request gives the same error.  Any other reply points at a position in front of
    all that later replies point at. -/
theorem session_settled (line : Text) (before after : List Request) (request : Request) :
    ∃ reply later,
      (ofLine line).session (before ++ request :: after)
          = (ofLine line).session before ++ reply :: later
        ∧ (reply.AtEnd → later = after.map (Request.replyAtEnd line.length))
        ∧ (∀ fault b p, reply.error? = some (.lexical fault b p) → b.isStray = true →
          later = after.map (Request.refusal (.lexical fault b p)))
        ∧ (¬ reply.AtEnd →
          (∀ fault b p, reply.error? = some (.lexical fault b p) → b.isStray = false) →
          ∃ p, reply.position? = some p
            ∧ ∀ reply' ∈ later, ∀ q, reply'.position? = some q → p < q) := by
  obtain ⟨hafter, hi, -⟩ := after_ofLine line before
  rcases hserve : (within line (cursor line before)).serve request with ⟨reply, behind⟩
  have hend : EndsWith line (cursor line before) (reply.lastFetch line) behind := by
    have hend := serve_endsWith hi request
    rwa [hserve] at hend
  refine ⟨reply, behind.session after, ?_, ?_, ?_, ?_⟩
  · rw [session_append, hafter, session, hserve]
  · intro hreply
    rw [hend.eq_of_atEnd hreply, session_of_nothing]
  · intro fault b p he hb
    exact session_of_stuck (hend.next_of_isStray he hb) after
  · intro hreply hstray
    obtain ⟨p, j, hp, hpj, hj, hbehind⟩ := hend.exists_position_lt hreply hstray
    refine ⟨p, hp, fun reply' hmem q hq => ?_⟩
    rw [hbehind] at hmem
    exact Nat.lt_of_lt_of_le hpj (le_position_of_mem_session hj hmem hq)

/-- A zero divisor is passed, the byte behind it stays, and so does the end of a line that
    has a value. -/
theorem session_settled_zero_stray :
    let e : Error := .lexical .invalidCharacter 64 3
    let replies : List Reply := [.token (.error e), .value (.error e)]
    (ofLine (ascii "1/0@")).session [.value, .token, .value]
        = .value (.error (.divisionByZero 2)) :: replies
      ∧ (∀ reply ∈ replies, ∀ q, reply.position? = some q → 2 < q)
      ∧ (ofLine (ascii "1/0@")).session [.value, .token, .value, .token]
        = .value (.error (.divisionByZero 2)) :: .token (.error e)
          :: [Request.value, .token].map (Request.refusal e)
      ∧ (ofLine (ascii "7")).session [.value, .token, .value]
        = .value (.ok (.integer 7)) :: [Request.token, .value].map (Request.replyAtEnd 1) := by
  intro e replies
  refine ⟨by decide +kernel, ?_, ?_, ?_⟩
  · obtain ⟨reply, later, hsession, -, -, hpass⟩ :=
      session_settled (ascii "1/0@") [] [.token, .value] .value
    have hreplies : (ofLine (ascii "1/0@")).session ([] ++ [.value, .token, .value])
        = .value (.error (.divisionByZero 2)) :: replies := by decide +kernel
    obtain ⟨rfl, rfl⟩ := List.cons.inj (hsession.symm.trans hreplies)
    obtain ⟨p, hp, hlater⟩ := hpass nofun nofun
    cases hp
    exact hlater
  · obtain ⟨reply, later, hsession, -, hstray, -⟩ :=
      session_settled (ascii "1/0@") [.value] [.value, .token] .token
    have hreplies : (ofLine (ascii "1/0@")).session ([.value] ++ [.token, .value, .token])
        = [.value (.error (.divisionByZero 2)), .token (.error e), .value (.error e),
          .token (.error e)] := by decide +kernel
    have hbefore : (ofLine (ascii "1/0@")).session [.value]
        = [.value (.error (.divisionByZero 2))] := by decide +kernel
    have htail := hsession.symm.trans hreplies
    rw [hbefore] at htail hsession
    obtain ⟨rfl, -⟩ := List.cons.inj (List.cons.inj htail).2
    rw [hstray .invalidCharacter 64 3 rfl (by decide)] at hsession
    exact hsession
  · obtain ⟨reply, later, hsession, hend, -, -⟩ :=
      session_settled (ascii "7") [] [.token, .value] .value
    have hreplies : (ofLine (ascii "7")).session ([] ++ [.value, .token, .value])
        = [.value (.ok (.integer 7)), .token (.ok ⟨.endOfInput, 1⟩),
          .value (.error (.unexpected .operand ⟨.endOfInput, 1⟩))] := by decide +kernel
    obtain ⟨rfl, -⟩ := List.cons.inj (hsession.symm.trans hreplies)
    rw [hend (.value _)] at hsession
    exact hsession

end Lexer

end ChainCalc
