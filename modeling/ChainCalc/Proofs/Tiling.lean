import ChainCalc.Proofs.Cursor

namespace ChainCalc

/-!
# Tiling — the tokens of a line cover all of it but blanks

Reading a line token by token loses nothing and takes nothing twice: the tokens stand in order,
an operator on its symbol and an integer on a run of digits as long as it goes, and between them
are blanks only.  Reading ends with the line, or at the first place from which no token can be
read, be it a byte that begins none or digits for a number above all words.

* `Text.Run` — a run of digits that is not part of a longer one.
* `Token.Covers` — the bytes that a token stands for.
* `Text.UnreadableAt`, `Text.Readable` — where no token can be read, and lines without such a
  place.
* `Lexer.Tiles` — tokens with blanks in front of each, one after the other; `Lexer.exists_tiles`
  says so of the tokens of a line (**run lemma**).
* `Tiling`, `Lexer.tokens_tile` — the tokens of a line, by positions.
-/

/-! ### Bytes at positions -/

namespace Text

/-- Whether the byte at a position has a property; behind the end, none has. -/
def has (t : Text) (f : Byte → Bool) (k : Nat) : Bool := t[k]?.any f

/-- A run of digits from a position to another that no digit prolongs. -/
structure Run (t : Text) (p q : Nat) : Prop where
  lt : p < q
  digits : ∀ k, p ≤ k → k < q → t.has Byte.isDigit k = true
  before : ∀ k, k + 1 = p → t.has Byte.isDigit k = false
  behind : t.has Byte.isDigit q = false

/-- From a position to another there are blanks only. -/
def Gap (t : Text) (p q : Nat) : Prop := ∀ k, p ≤ k → k < q → t.has Byte.isBlank k = true

/-- No run of digits goes on across a position. -/
def Border (t : Text) (p : Nat) : Prop :=
  t.has Byte.isDigit p = true → ∀ k, k + 1 = p → t.has Byte.isDigit k = false

/-- From a position no token can be read, because of the byte that stands there. -/
inductive UnreadableAt (t : Text) : LexicalFault → Byte → Nat → Prop where
  /-- The byte is neither blank nor part of any token. -/
  | stray {b : Byte} {p : Nat} (hb : t[p]? = some b) (hstray : b.isStray = true) :
      UnreadableAt t .invalidCharacter b p
  /-- A run of digits for a number above all words begins with the byte. -/
  | oversized {b : Byte} {p q : Nat} (hb : t[p]? = some b) (hrun : t.Run p q)
      (hvalue : Literal.limit < Numeral.value (t.extract p q)) : UnreadableAt t .outOfRange b p

/-- A text of blanks, digits and symbols in which all runs of digits are for words. -/
structure Readable (t : Text) : Prop where
  known : ∀ b ∈ t, b.isBlank = true ∨ b.isDigit = true ∨ ∃ op : Operator, b = op.symbol
  fits : ∀ p q, t.Run p q → Numeral.value (t.extract p q) ≤ Literal.limit

variable {t u v : Text} {f g : Byte → Bool} {k p q : Nat}

/-- What has two properties that exclude each other is not there. -/
theorem has_eq_false_of_has (hfg : ∀ b, f b = true → g b = false) (h : t.has f k = true) :
    t.has g k = false := by
  unfold has at h ⊢
  cases hb : t[k]? with
  | none => rfl
  | some b =>
    rw [hb] at h
    exact hfg b h

theorem exists_getElem?_of_has (h : t.has f k = true) : ∃ b, t[k]? = some b ∧ f b = true := by
  unfold has at h
  cases hb : t[k]? with
  | none =>
    rw [hb] at h
    cases h
  | some b =>
    rw [hb] at h
    exact ⟨b, rfl, h⟩

theorem lt_length_of_has (h : t.has f k = true) : k < t.length := by
  obtain ⟨b, hb, -⟩ := exists_getElem?_of_has h
  exact (List.getElem?_eq_some_iff.1 hb).1

/-- What stands at a position is the first byte of what is left from there. -/
theorem getElem?_of_drop (h : t.drop k = v) : t[k]? = v.head? := by
  rw [← h, List.head?_drop]

/-- What all bytes of a part have, the whole has in its place. -/
theorem has_of_drop (h : t.drop p = u ++ v) (hu : ∀ b ∈ u, f b = true) (hk : p ≤ k)
    (hlt : k < p + u.length) : t.has f k = true := by
  obtain ⟨j, rfl⟩ := Nat.exists_eq_add_of_le hk
  have hj : j < u.length := by omega
  rw [has, ← List.getElem?_drop, h, List.getElem?_append_left hj, List.getElem?_eq_getElem hj]
  exact hu _ (List.getElem_mem hj)

/-- Behind a part the whole goes on with what follows it. -/
theorem has_behind_drop (h : t.drop p = u ++ v) (f : Byte → Bool) :
    t.has f (p + u.length) = v.head?.any f := by
  have hdrop : t.drop (p + u.length) = v := by rw [← List.drop_drop, h, List.drop_left]
  rw [has, getElem?_of_drop hdrop]

theorem extract_of_drop (h : t.drop p = u ++ v) : t.extract p (p + u.length) = u := by
  rw [List.extract_eq_take_drop, h, Nat.add_sub_cancel_left, List.take_left]

/-! ### Runs of digits -/

namespace Run

theorem le_length (h : t.Run p q) : q ≤ t.length := by
  have hlt := h.lt
  have hlast := lt_length_of_has (h.digits (q - 1) (by omega) (by omega))
  omega

/-- A run that begins inside of another one is that one. -/
theorem eq_of_le_of_lt {p' q' : Nat} (h : t.Run p q) (h' : t.Run p' q') (hle : p ≤ p')
    (hlt : p' < q) : p' = p ∧ q' = q := by
  have hbegin : p' = p := by
    rcases Nat.eq_or_lt_of_le hle with heq | hlt'
    · exact heq.symm
    · have hdigit := h.digits (p' - 1) (by omega) (by omega)
      rw [h'.before (p' - 1) (by omega)] at hdigit
      cases hdigit
  refine ⟨hbegin, ?_⟩
  have hlt' := h'.lt
  rcases Nat.lt_trichotomy q q' with hq | hq | hq
  · have hdigit := h'.digits q (by omega) hq
    rw [h.behind] at hdigit
    cases hdigit
  · exact hq.symm
  · have hdigit := h.digits q' (by omega) hq
    rw [h'.behind] at hdigit
    cases hdigit

end Run

/-- The digits that a part consists of are a run, if nothing prolongs them. -/
theorem run_of_drop {r : Digits} (h : t.drop p = r.text ++ v) (hv : v.digitAhead = false)
    (hborder : t.Border p) : t.Run p (p + r.text.length) := by
  have hpos : 0 < r.text.length := List.length_pos_iff.2 r.ne_nil
  have hdigits : ∀ k, p ≤ k → k < p + r.text.length → t.has Byte.isDigit k = true :=
    fun k hk hlt => has_of_drop h r.isDigit_of_mem hk hlt
  exact {
    lt := by omega
    digits := hdigits
    before := hborder (hdigits p (Nat.le_refl p) (by omega))
    behind := (has_behind_drop h _).trans hv }

/-- Behind blanks no run of digits goes on. -/
theorem Border.behind_gap {i : Nat} (hborder : t.Border i) (hi : i ≤ p) (hgap : t.Gap i p) :
    t.Border p := by
  intro hdigit k hk
  rcases Nat.lt_or_ge k i with hlt | hge
  · obtain rfl : i = p := by omega
    exact hborder hdigit k hk
  · exact has_eq_false_of_has (fun _ => Byte.isDigit_eq_false_of_isBlank) (hgap k hge (by omega))

end Text

/-! ### Tokens in their places -/

/-- A token covers the bytes of a text from its position to another: an operator its symbol, an
    integer the run of digits that it is the value of. -/
inductive Token.Covers (t : Text) : Token → Nat → Prop where
  | operator {op : Operator} {p : Nat} (hb : t[p]? = some op.symbol) :
      Covers t ⟨.operator op, p⟩ (p + 1)
  | integer {value : Int64} {p q : Nat} (hrun : t.Run p q)
      (hvalue : value.toInt = Numeral.value (t.extract p q)) :
      Covers t ⟨.integer value, p⟩ q

namespace Token.Covers

variable {line : Text} {t : Token} {q : Nat}

theorem position_lt (h : t.Covers line q) : t.position < q := by
  cases h with
  | operator hb => exact Nat.lt_succ_self _
  | integer hrun hvalue => exact hrun.lt

theorem le_length (h : t.Covers line q) : q ≤ line.length := by
  cases h with
  | operator hb => exact (List.getElem?_eq_some_iff.1 hb).1
  | integer hrun hvalue => exact hrun.le_length

/-- No run of digits goes on behind a token. -/
theorem border (h : t.Covers line q) : line.Border q := by
  cases h with
  | @operator op p hb =>
    intro _ k hk
    obtain rfl : k = p := by omega
    rw [Text.has, hb]
    exact op.isDigit_symbol
  | integer hrun hvalue =>
    intro hdigit
    rw [hrun.behind] at hdigit
    cases hdigit

/-- Where a token ends is for the line to say. -/
theorem unique {q' : Nat} (h : t.Covers line q) (h' : t.Covers line q') : q = q' := by
  cases h with
  | operator hb =>
    cases h' with
    | operator hb' => rfl
  | integer hrun hvalue =>
    cases h' with
    | integer hrun' hvalue' =>
      exact (hrun.eq_of_le_of_lt hrun' (Nat.le_refl _) hrun.lt).2.symm

end Token.Covers

namespace Lexer

/-- Tokens in order, from a position of a line to another: each covers the bytes behind the
    blanks that follow the token before, and the last is followed by blanks only. -/
inductive Tiles (line : Text) : Nat → List Token → Nat → Prop where
  | nil {i stop : Nat} (hi : i ≤ stop) (hgap : line.Gap i stop) : Tiles line i [] stop
  | cons {i q stop : Nat} {t : Token} {tokens : List Token} (hi : i ≤ t.position)
      (hgap : line.Gap i t.position) (ht : t.Covers line q) (hmore : Tiles line q tokens stop) :
      Tiles line i (t :: tokens) stop

/-- How reading a line to its end can end at a position: there the line is over, or no token can
    be read. -/
inductive Stops (line : Text) : Nat → Except Error Token → Prop where
  | endOfInput : Stops line line.length (.ok ⟨.endOfInput, line.length⟩)
  | unreadable {fault : LexicalFault} {b : Byte} {p : Nat} (h : line.UnreadableAt fault b p) :
      Stops line p (.error (.lexical fault b p))

variable {line : Text} {i : Nat}

/-- Behind the blanks at a border stands a front, at a border again. -/
theorem exists_front_behind_gap (hi : i ≤ line.length) (hborder : line.Border i) :
    ∃ p, i ≤ p ∧ p ≤ line.length ∧ line.Gap i p ∧ line.Border p ∧ Front (line.drop p)
      ∧ (within line i).tokens = (within line p).tokens := by
  obtain ⟨w, hw, hp, hblanks, hfront⟩ := exists_front_within hi
  have hsplit : line.drop i = w ++ line.drop (i + w.length) := congrArg Lexer.rest hblanks
  have hip := Nat.le_add_right i w.length
  have hgap : line.Gap i (i + w.length) := fun k hk hlt =>
    Text.has_of_drop hsplit (Text.isBlank_of_mem hw) hk hlt
  refine ⟨i + w.length, hip, hp, hgap, hborder.behind_gap hip hgap, hfront, ?_⟩
  rw [hblanks, tokens_append_blanks hw, ← within]

/-- **Step lemma.**  At a front that no run of digits goes on across, reading stops, or a token
    that covers the bytes from there on is read. -/
theorem stop_or_covers {p : Nat} (hp : p ≤ line.length) (hborder : line.Border p)
    (hfront : Front (line.drop p)) :
    (∃ last, (within line p).tokens = [last] ∧ Stops line p last)
      ∨ ∃ t q, (within line p).tokens = .ok t :: (within line q).tokens ∧ t.position = p
        ∧ t.Covers line q := by
  generalize hv : line.drop p = v at hfront
  have hplace : within line p = ⟨v, p⟩ := by rw [within, hv]
  have hhead := Text.getElem?_of_drop hv
  cases hfront with
  | nothing =>
    obtain rfl : p = line.length := Nat.le_antisymm hp (List.drop_eq_nil_iff.1 hv)
    exact .inl ⟨_, by rw [hplace, tokens_of_end (next_nothing _)], .endOfInput⟩
  | symbol op t =>
    have hbehind : within line (p + 1) = ⟨t, p + 1⟩ := within_add (t := [op.symbol]) hv
    have hread := next_symbol op t p
    rw [← hplace, ← hbehind] at hread
    exact .inr ⟨_, _, tokens_of_token hread Lexeme.noConfusion, rfl, .operator hhead⟩
  | @digits r t ht =>
    have hrun := Text.run_of_drop hv ht hborder
    have hdigits : line.extract p (p + r.text.length) = r.text := Text.extract_of_drop hv
    have hbehind : within line (p + r.text.length) = ⟨t, p + r.text.length⟩ := within_add hv
    have hread := next_digits r ht p
    rw [← hplace, ← hbehind] at hread
    -- The digits are a token if a word can hold their number.
    by_cases hle : r.value ≤ Literal.limit
    · rw [if_pos hle] at hread
      have hvalue : (Int64.ofNat r.value).toInt
          = Numeral.value (line.extract p (p + r.text.length)) := by
        rw [hdigits]
        exact Literal.toInt_word ⟨r, hle⟩
      exact .inr ⟨_, _, tokens_of_token hread Lexeme.noConfusion, rfl, .integer hrun hvalue⟩
    · rw [if_neg hle] at hread
      obtain ⟨more, hcons⟩ := r.exists_text_eq_cons
      rw [hcons, List.cons_append, List.head?_cons] at hhead
      have hvalue : Literal.limit < Numeral.value (line.extract p (p + r.text.length)) := by
        rw [hdigits]
        exact Nat.not_le.1 hle
      exact .inl ⟨_, tokens_of_error hread, .unreadable (.oversized hhead hrun hvalue)⟩
  | @stray b hstray t =>
    exact .inl ⟨_, by rw [hplace, tokens_of_error (next_stray hstray t p)],
      .unreadable (.stray hhead hstray)⟩

/-- **Run lemma.**  The tokens from a border on are tiles, up to where reading stops.  By strong
    induction on what is left of the line, of which each token takes some. -/
theorem exists_tiles (hi : i ≤ line.length) (hborder : line.Border i) :
    ∃ tokens last stop, (within line i).tokens = tokens.map .ok ++ [last]
      ∧ Tiles line i tokens stop ∧ Stops line stop last := by
  induction hleft : line.length - i using Nat.strongRecOn generalizing i with
  | _ n ih =>
    obtain ⟨p, hip, hp, hgap, hborder', hfront, htokens⟩ := exists_front_behind_gap hi hborder
    rw [htokens]
    rcases stop_or_covers hp hborder' hfront with ⟨last, hlast, hstops⟩ | ⟨t, q, hread, rfl, ht⟩
    · exact ⟨[], last, p, hlast, .nil hip hgap, hstops⟩
    · have hlt := ht.position_lt
      have hq := ht.le_length
      obtain ⟨tokens, last, stop, hmore, htiles, hstops⟩ :=
        ih (line.length - q) (by omega) hq ht.border rfl
      refine ⟨t :: tokens, last, stop, ?_, .cons hip hgap ht htiles, hstops⟩
      rw [hread, hmore]
      rfl

end Lexer

/-! ### Tiles by positions -/

namespace Text.UnreadableAt

variable {line : Text} {fault : LexicalFault} {b : Byte} {k : Nat}

/-- No blank is unreadable. -/
theorem not_blank (h : line.UnreadableAt fault b k) : line.has Byte.isBlank k = false := by
  cases h with
  | stray hb hstray =>
    simp only [Byte.isStray, Bool.and_eq_true, Bool.not_eq_true'] at hstray
    rw [has, hb]
    exact hstray.1.1
  | oversized hb hrun hvalue =>
    exact has_eq_false_of_has (fun _ => Byte.isBlank_eq_false_of_isDigit)
      (hrun.digits k (Nat.le_refl k) hrun.lt)

/-- No token covers what is unreadable. -/
theorem not_covered (h : line.UnreadableAt fault b k) {t : Token} {q : Nat}
    (ht : t.Covers line q) (hk : t.position ≤ k) : q ≤ k := by
  rcases Nat.lt_or_ge k q with hlt | hge
  · exfalso
    cases ht with
    | @operator op p hb =>
      obtain rfl : k = p := by
        simp only at hk
        omega
      cases h with
      | stray hb' hstray =>
        obtain rfl := Option.some.inj (hb.symm.trans hb')
        simp [Byte.isStray] at hstray
      | oversized hb' hrun hvalue =>
        have hdigit := hrun.digits k (Nat.le_refl k) hrun.lt
        rw [has, hb, Option.any_some, op.isDigit_symbol] at hdigit
        cases hdigit
    | @integer value p q hrun hvalue =>
      cases h with
      | stray hb' hstray =>
        have hdigit := hrun.digits k hk hlt
        rw [has, hb', Option.any_some] at hdigit
        simp [Byte.isStray, hdigit] at hstray
      | oversized hb' hrun' hvalue' =>
        obtain ⟨rfl, rfl⟩ := hrun.eq_of_le_of_lt hrun' hk hlt
        have hword := value.toInt_lt
        unfold Literal.limit at hvalue'
        omega
  · exact hge

end Text.UnreadableAt

/-- Tokens lie in a line in order, up to a position: each covers some bytes of the line, and what
    none of them covers is blank. -/
structure Tiling (line : Text) (tokens : List Token) (stop : Nat) : Prop where
  covers : ∀ t ∈ tokens, ∃ q, t.Covers line q ∧ q ≤ stop
  increasing : tokens.Pairwise fun s t => s.position < t.position
  apart : tokens.Pairwise fun s t => ∀ q, s.Covers line q → q ≤ t.position
  blank : ∀ k < stop, line.has Byte.isBlank k = true
    ∨ ∃ t ∈ tokens, ∃ q, t.Covers line q ∧ t.position ≤ k ∧ k < q

namespace Lexer.Tiles

variable {line : Text} {i stop : Nat} {tokens : List Token}

theorem le_stop (h : Tiles line i tokens stop) : i ≤ stop := by
  induction h with
  | nil hi hgap => exact hi
  | cons hi hgap ht hmore ih => exact Nat.le_trans hi (Nat.le_trans (Nat.le_of_lt ht.position_lt) ih)

theorem le_position (h : Tiles line i tokens stop) : ∀ t ∈ tokens, i ≤ t.position := by
  induction h with
  | nil hi hgap => simp
  | cons hi hgap ht hmore ih =>
    rw [List.forall_mem_cons]
    exact ⟨hi, fun s hs =>
      Nat.le_trans hi (Nat.le_trans (Nat.le_of_lt ht.position_lt) (ih s hs))⟩

/-- Each byte from where tiles begin to where they stop is blank, or one of them covers it. -/
theorem blank_or_covered (h : Tiles line i tokens stop) :
    ∀ k, i ≤ k → k < stop → line.has Byte.isBlank k = true
      ∨ ∃ t ∈ tokens, ∃ q, t.Covers line q ∧ t.position ≤ k ∧ k < q := by
  induction h with
  | nil hi hgap => exact fun k hk hlt => .inl (hgap k hk hlt)
  | @cons i q stop t tokens hi hgap ht hmore ih =>
    intro k hk hlt
    rcases Nat.lt_or_ge k t.position with hkt | hkt
    · exact .inl (hgap k hk hkt)
    · rcases Nat.lt_or_ge k q with hkq | hkq
      · exact .inr ⟨t, List.mem_cons_self, q, ht, hkt, hkq⟩
      · rcases ih k hkq hlt with hblank | ⟨s, hs, hcovered⟩
        · exact .inl hblank
        · exact .inr ⟨s, List.mem_cons_of_mem t hs, hcovered⟩

theorem covers (h : Tiles line i tokens stop) : ∀ t ∈ tokens, ∃ q, t.Covers line q ∧ q ≤ stop := by
  induction h with
  | nil hi hgap => simp
  | cons hi hgap ht hmore ih => exact List.forall_mem_cons.2 ⟨⟨_, ht, hmore.le_stop⟩, ih⟩

/-- A tile ends before the next one begins. -/
theorem apart (h : Tiles line i tokens stop) :
    tokens.Pairwise fun s t => ∀ q, s.Covers line q → q ≤ t.position := by
  induction h with
  | nil hi hgap => exact .nil
  | cons hi hgap ht hmore ih =>
    refine .cons (fun s hs q hq => ?_) ih
    rw [hq.unique ht]
    exact hmore.le_position s hs

/-- Tiles from the start of a line on are a tiling. -/
theorem tiling (h : Tiles line 0 tokens stop) : Tiling line tokens stop where
  covers := h.covers
  increasing := by
    refine h.apart.imp_of_mem fun hs _ hq => ?_
    obtain ⟨q, hcovers, -⟩ := h.covers _ hs
    exact Nat.lt_of_lt_of_le hcovers.position_lt (hq q hcovers)
  apart := h.apart
  blank := fun k hk => h.blank_or_covered k (Nat.zero_le k) hk

/-- Tiles leave out nothing that is unreadable. -/
theorem not_unreadableAt (h : Tiles line i tokens stop) {k : Nat} (hk : i ≤ k) (hlt : k < stop)
    (fault : LexicalFault) (b : Byte) : ¬ line.UnreadableAt fault b k := by
  intro hunreadable
  rcases h.blank_or_covered k hk hlt with hblank | ⟨t, -, q, ht, hkt, hkq⟩
  · rw [hunreadable.not_blank] at hblank
    cases hblank
  · exact Nat.not_lt.2 (hunreadable.not_covered ht hkt) hkq

end Lexer.Tiles

/-! ### Lines that can be read -/

namespace Text

variable {line : Text}

theorem UnreadableAt.lt_length {fault : LexicalFault} {b : Byte} {p : Nat}
    (h : line.UnreadableAt fault b p) : p < line.length := by
  cases h with
  | stray hb hstray => exact (List.getElem?_eq_some_iff.1 hb).1
  | oversized hb hrun hvalue => exact (List.getElem?_eq_some_iff.1 hb).1

/-- A line can be read exactly if no place of it is unreadable. -/
theorem readable_iff : line.Readable ↔ ∀ fault b p, ¬ line.UnreadableAt fault b p := by
  constructor
  · rintro h fault b p (⟨hb, hstray⟩ | ⟨hb, hrun, hvalue⟩)
    · rcases h.known b (List.mem_of_getElem? hb) with hblank | hdigit | ⟨op, rfl⟩
      · simp [Byte.isStray, hblank] at hstray
      · simp [Byte.isStray, hdigit] at hstray
      · simp [Byte.isStray] at hstray
    · exact Nat.not_lt.2 (h.fits _ _ hrun) hvalue
  · intro h
    refine ⟨fun b hb => ?_, fun p q hrun => ?_⟩
    · obtain ⟨p, hp⟩ := List.mem_iff_getElem?.1 hb
      have hknown : ¬ b.isStray = true := fun hstray => h _ _ _ (.stray hp hstray)
      simp only [Byte.isStray, Bool.and_eq_true, Bool.not_eq_true', Option.isNone_iff_eq_none,
        not_and] at hknown
      cases hblank : b.isBlank with
      | true => exact .inl rfl
      | false =>
        cases hdigit : b.isDigit with
        | true => exact .inr (.inl rfl)
        | false =>
          obtain ⟨op, hop⟩ := Option.ne_none_iff_exists'.1 (hknown ⟨hblank, hdigit⟩)
          exact .inr (.inr ⟨op, Operator.ofSymbol?_eq_some_iff.1 hop⟩)
    · obtain ⟨b, hb, -⟩ := exists_getElem?_of_has (hrun.digits p (Nat.le_refl p) hrun.lt)
      exact Nat.not_lt.1 fun hvalue => h _ _ _ (.oversized hb hrun hvalue)

end Text

/-- **The tokens of a line tile it.**  They stand at increasing positions, each on its own bytes:
    an operator on its symbol, an integer on a run of digits that no digit prolongs, of which it
    is the value; and what they leave free is blank.  If the line holds nothing but blanks, digits
    and symbols and no run of digits is for a number above all words, then they end with the
    end of the line.  Otherwise they end with the error for the first place where it is not so,
    which names the byte there. -/
theorem Lexer.tokens_tile (line : Text) :
    ∃ tokens last stop, (ofLine line).tokens = tokens.map .ok ++ [last]
      ∧ Tiling line tokens stop
      ∧ (line.Readable ∧ stop = line.length ∧ last = .ok ⟨.endOfInput, line.length⟩
        ∨ ¬ line.Readable ∧ ∃ fault b, line.UnreadableAt fault b stop
          ∧ (∀ k < stop, ∀ fault' b', ¬ line.UnreadableAt fault' b' k)
          ∧ last = .error (.lexical fault b stop)) := by
  have hborder : line.Border 0 := fun _ _ hk => absurd hk (Nat.succ_ne_zero _)
  obtain ⟨tokens, last, stop, htokens, htiles, hstops⟩ :=
    exists_tiles (Nat.zero_le line.length) hborder
  have hbefore : ∀ k < stop, ∀ fault b, ¬ line.UnreadableAt fault b k := fun k hk =>
    htiles.not_unreadableAt (Nat.zero_le k) hk
  refine ⟨tokens, last, stop, htokens, htiles.tiling, ?_⟩
  cases hstops with
  | endOfInput =>
    have hreadable := Text.readable_iff.2 fun fault b p h => hbefore p h.lt_length fault b h
    exact .inl ⟨hreadable, rfl, rfl⟩
  | @unreadable fault b p h =>
    have hnot : ¬ line.Readable := fun hreadable => Text.readable_iff.1 hreadable _ _ _ h
    exact .inr ⟨hnot, fault, b, h, hbefore, rfl⟩

/-- Two runs of digits, one of them with zeros in front, an operator on its symbol, and the byte at
    which the tokens end. -/
example : (Lexer.ofLine (ascii "007 +\t12@3")).tokens
    = [.ok ⟨.integer 7, 0⟩, .ok ⟨.operator .plus, 4⟩, .ok ⟨.integer 12, 6⟩,
      .error (.lexical .invalidCharacter 64 8)] := by decide +kernel

end ChainCalc
