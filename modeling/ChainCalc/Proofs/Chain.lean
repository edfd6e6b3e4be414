import ChainCalc.Proofs.Reading

namespace ChainCalc

/-!
# Chains — the lines that have a value

A chain is a literal and any number of links, an operator and a literal each, with blanks
in front of all of these.  Evaluation reads the literals and operators of a chain back
from its text and joins them from the left.

* `Link`, `Chain` — chains by their parts; `Chain.text` is how a chain is written and
  `Chain.value` the left fold over its links.
* `Ending` — where a chain can go no further: over, out of place, or by a zero divisor.
* `exists_links` — every text is as many links as can be joined, and an ending.
* `Lexer.extend_texts_of_ok`, `Chain.evaluate_text_append` — **run lemmas**: evaluation
  joins the links of a chain and goes on behind them.
* `evaluate_chain` — the lines that have a value are the chains without a zero divisor,
  with blanks behind them, and the value is the left fold.
-/

/-! ### Chains by their parts -/

/-- A run of blanks, which may be empty. -/
structure Blanks where
  text : Text
  isBlank : text.isBlank = true

/-- An operator and the literal behind it, with the blanks in front of each. -/
structure Link where
  before : Blanks
  op : Operator
  between : Blanks
  operand : Literal

/-- A literal and the links behind it, with the blanks in front. -/
structure Chain where
  before : Blanks
  first : Literal
  links : List Link

namespace Link

/-- How a link is written. -/
def text (l : Link) : Text :=
  l.before.text ++ l.op.symbol :: (l.between.text ++ l.operand.text)

/-- How links are written. -/
def texts (links : List Link) : Text := links.flatMap text

@[simp] theorem texts_nil : texts [] = [] := rfl

@[simp] theorem texts_cons (l : Link) (links : List Link) :
    texts (l :: links) = l.text ++ texts links := rfl

/-- The step that a link at an offset stands for: its operator joins the number of its
    literal, which begins behind the operator and the blanks. -/
def step (offset : Nat) (l : Link) : Number.Step where
  kind := .operator l.op
  operand := l.operand.word
  position := offset + l.before.text.length + 1 + l.between.text.length

/-- The steps of links of which the first begins at an offset. -/
def steps (offset : Nat) : List Link → List Number.Step
  | [] => []
  | l :: more => l.step offset :: steps (offset + l.text.length) more

/-- Links of which the first begins at an offset are joined to a number from the left. -/
def join (acc : Number) (offset : Nat) (links : List Link) : Except Error Number :=
  (steps offset links).foldlM Number.step acc

/-- A link does not divide by zero. -/
def Divides (l : Link) : Prop := l.op = .divide → l.operand.value ≠ 0

/-- No digit comes first in a link, so a literal in front of it keeps its end. -/
theorem digitAhead_text_append (l : Link) (t : Text) :
    Text.digitAhead (l.text ++ t) = false := by
  rw [text, List.append_assoc]
  exact Text.digitAhead_blank_append l.before.isBlank fun _ => l.op.isDigit_symbol

theorem digitAhead_texts_append (links : List Link) {t : Text} (ht : t.digitAhead = false) :
    Text.digitAhead (texts links ++ t) = false := by
  cases links with
  | nil => exact ht
  | cons l links =>
    rw [texts_cons, List.append_assoc]
    exact l.digitAhead_text_append _

/-- A link ends with a digit. -/
theorem digitBehind_append_text (t : Text) (l : Link) :
    Text.digitBehind (t ++ l.text) = true := by
  have hsplit : t ++ l.text
      = (t ++ l.before.text ++ l.op.symbol :: l.between.text) ++ l.operand.text := by
    simp [text]
  rw [hsplit]
  exact l.operand.digitBehind_append_text _

/-- A link that does not divide by zero can be joined to every number. -/
theorem exists_step_of_divides {l : Link} (h : l.Divides) (acc : Number) (offset : Nat) :
    ∃ n, acc.step (l.step offset) = .ok n := by
  -- A step looks at nothing but the operator and whether the operand is zero.
  have hdiv : ¬ (l.op = .divide ∧ l.operand.word = 0) := fun hz =>
    h hz.1 (l.operand.word_eq_zero_iff.1 hz.2)
  exact ⟨_, if_neg hdiv⟩

/-- A link that divides by zero fails at its literal. -/
theorem step_of_not_divides {l : Link} (h : ¬ l.Divides) (acc : Number) (offset : Nat) :
    acc.step (l.step offset) = .error (.divisionByZero (l.step offset).position) := by
  rw [Divides, Classical.not_imp, Classical.not_not, ← l.operand.word_eq_zero_iff] at h
  exact if_pos h

@[simp] theorem join_nil (acc : Number) (offset : Nat) : join acc offset [] = .ok acc := rfl

/-- A link that can be joined leaves the others to be joined to its result. -/
theorem join_cons_of_ok {l : Link} {acc next : Number} {offset : Nat}
    (h : acc.step (l.step offset) = .ok next) (links : List Link) :
    join acc offset (l :: links) = join next (offset + l.text.length) links := by
  rw [join, steps, List.foldlM_cons, h]
  rfl

/-- A link that cannot be joined is an error whatever follows. -/
theorem join_cons_of_error {l : Link} {acc : Number} {offset : Nat} {e : Error}
    (h : acc.step (l.step offset) = .error e) (links : List Link) :
    join acc offset (l :: links) = .error e := by
  rw [join, steps, List.foldlM_cons, h]
  rfl

/-- Links can be joined exactly when none of them divides by zero. -/
theorem exists_join_iff (links : List Link) (acc : Number) (offset : Nat) :
    (∃ n, join acc offset links = .ok n) ↔ ∀ l ∈ links, l.Divides := by
  induction links generalizing acc offset with
  | nil => simp
  | cons l links ih =>
    by_cases h : l.Divides
    · obtain ⟨next, hnext⟩ := exists_step_of_divides h acc offset
      rw [join_cons_of_ok hnext, ih]
      simp [h]
    · rw [join_cons_of_error (step_of_not_divides h acc offset)]
      simp [h]

end Link

namespace Chain

/-- How a chain is written. -/
def text (c : Chain) : Text := c.before.text ++ (c.first.text ++ Link.texts c.links)

/-- The value of a chain: its links are joined to its literal from the left. -/
def value (c : Chain) : Except Error Number :=
  Link.join (.integer c.first.word) (c.before.text.length + c.first.text.length) c.links

/-- A chain has a value exactly when none of its links divides by zero. -/
theorem exists_value_iff (c : Chain) :
    (∃ n, c.value = .ok n) ↔ ∀ l ∈ c.links, l.Divides :=
  Link.exists_join_iff _ _ _

end Chain

/-! ### Reading links -/

namespace Lexer

variable {acc n : Number} {p : Nat} {t v : Text}

/-- A round reads one link and joins it. -/
theorem round_link (l : Link) (ht : t.digitAhead = false) (acc : Number) (p : Nat) :
    round acc ⟨l.text ++ t, p⟩
      = (.ofOutcome (acc.step (l.step p)), ⟨t, p + l.text.length⟩) := by
  have hlen : p + l.text.length
      = p + l.before.text.length + 1 + l.between.text.length + l.operand.text.length := by
    simp only [Link.text, List.length_append, List.length_cons]
    omega
  -- The literal ends where `t` begins, since `t` does not prolong it.
  have hoperand : operand ⟨l.between.text ++ (l.operand.text ++ t),
      p + l.before.text.length + 1⟩
      = (.ok (l.operand.word, (l.step p).position), ⟨t, p + l.text.length⟩) := by
    rw [operand_append_blanks l.between.isBlank, operand_literal _ ht, hlen]
    rfl
  rw [Link.text, List.append_assoc, round_append_blanks l.before.isBlank, List.cons_append,
    List.append_assoc, round_symbol_of_ok _ _ hoperand]
  rfl

/-- **Run lemma.**  Links that can be joined are joined, and the chain goes on behind
    them. -/
theorem extend_texts_of_ok (links : List Link) (ht : t.digitAhead = false)
    (h : Link.join acc p links = .ok n) :
    extend acc ⟨Link.texts links ++ t, p⟩
      = extend n ⟨t, p + (Link.texts links).length⟩ := by
  induction links generalizing acc p with
  | nil => cases h; rfl
  | cons l links ih =>
    -- What follows the first link is another link or `t`, and neither prolongs it.
    have hround := round_link l (Link.digitAhead_texts_append links ht) acc p
    cases hstep : acc.step (l.step p) with
    | error e =>
      rw [Link.join_cons_of_error hstep] at h
      cases h
    | ok next =>
      rw [hstep] at hround
      rw [Link.join_cons_of_ok hstep] at h
      rw [Link.texts_cons, List.append_assoc, extend_of_more hround, ih h,
        List.length_append, Nat.add_assoc]

/-- Links that cannot be joined are an error whatever follows. -/
theorem extend_texts_of_error (links : List Link) (ht : t.digitAhead = false) {e : Error}
    (h : Link.join acc p links = .error e) :
    (extend acc ⟨Link.texts links ++ t, p⟩).1 = .error e := by
  induction links generalizing acc p with
  | nil => cases h
  | cons l links ih =>
    have hround := round_link l (Link.digitAhead_texts_append links ht) acc p
    rw [Link.texts_cons, List.append_assoc]
    cases hstep : acc.step (l.step p) with
    | error d =>
      rw [Link.join_cons_of_error hstep] at h
      rw [hstep] at hround
      rw [extend_of_done hround, h]
    | ok next =>
      rw [Link.join_cons_of_ok hstep] at h
      rw [hstep] at hround
      rw [extend_of_more hround, ih h]

/-- A text behind a value that goes on by no link that can be joined, and the outcome
    that it has. -/
inductive Ending (acc : Number) (p : Nat) : Text → Except Error Number → Prop where
  /-- The chain is over. -/
  | finished (w : Blanks) : Ending acc p w.text (.ok acc)
  /-- No operator stands where one is due. -/
  | operator (w : Blanks) {v : Text} {e : Error}
      (hv : NoOperator v (p + w.text.length) e) : Ending acc p (w.text ++ v) (.error e)
  /-- No operand stands behind an operator. -/
  | operand (w : Blanks) (op : Operator) (w' : Blanks) {v : Text} {e : Error}
      (hv : NoOperand v (p + w.text.length + 1 + w'.text.length) e) :
      Ending acc p (w.text ++ op.symbol :: (w'.text ++ v)) (.error e)
  /-- The divisor is zero. -/
  | divisor (l : Link) (hl : ¬ l.Divides) {t : Text} (ht : t.digitAhead = false) :
      Ending acc p (l.text ++ t) (.error (.divisionByZero (l.step p).position))

/-- An ending has its outcome. -/
theorem extend_of_ending {outcome : Except Error Number} (h : Ending acc p t outcome) :
    (extend acc ⟨t, p⟩).1 = outcome := by
  cases h with
  | finished w =>
    have hblank := extend_append_blanks w.isBlank [] p acc
    rw [List.append_nil] at hblank
    rw [hblank, extend_of_done (round_nothing acc _)]
  | operator w hv =>
    obtain ⟨behind, hround⟩ := round_of_noOperator hv acc
    rw [extend_append_blanks w.isBlank, extend_of_done hround]
  | operand w op w' hv =>
    obtain ⟨behind, hoperand⟩ := operand_of_noOperand hv
    rw [← operand_append_blanks w'.isBlank] at hoperand
    rw [extend_append_blanks w.isBlank,
      extend_of_done (round_symbol_of_error acc op hoperand)]
  | divisor l hl ht =>
    have hround := round_link l ht acc p
    rw [Link.step_of_not_divides hl] at hround
    rw [extend_of_done hround]

/-- Every text behind a value goes on by one link, or it is an ending. -/
theorem exists_link_or_ending (acc : Number) (t : Text) (p : Nat) :
    (∃ (l : Link) (t' : Text), t = l.text ++ t' ∧ t'.digitAhead = false ∧ l.Divides)
      ∨ ∃ outcome, Ending acc p t outcome := by
  obtain ⟨w, v, rfl, hw, hv⟩ := exists_front t
  rcases hv.symbol_or_noOperator (p + w.length) with rfl | ⟨op, u, rfl⟩ | ⟨e, he⟩
  · rw [List.append_nil]
    exact .inr ⟨_, .finished ⟨w, hw⟩⟩
  · obtain ⟨w', v', rfl, hw', hv'⟩ := exists_front u
    rcases hv'.literal_or_noOperand (p + w.length + 1 + w'.length) with ⟨l, t, rfl, ht⟩ | ⟨e, he⟩
    · -- The link is read whole; whether it can be joined is up to its literal.
      let link : Link := ⟨⟨w, hw⟩, op, ⟨w', hw'⟩, l⟩
      have hlink : w ++ op.symbol :: (w' ++ (l.text ++ t)) = link.text ++ t := by
        simp [link, Link.text]
      rw [hlink]
      by_cases hdiv : link.Divides
      · exact .inl ⟨link, t, rfl, ht, hdiv⟩
      · exact .inr ⟨_, .divisor link hdiv ht⟩
    · exact .inr ⟨_, .operand ⟨w, hw⟩ op ⟨w', hw'⟩ he⟩
  · exact .inr ⟨_, .operator ⟨w, hw⟩ he⟩

/-- Every text behind a value is links that can be joined, and an ending.  By strong
    induction on the length of the text, which each link makes shorter. -/
theorem exists_links (acc : Number) (t : Text) (p : Nat) (ht : t.digitAhead = false) :
    ∃ (links : List Link) (t' : Text) (n : Number) (outcome : Except Error Number),
      t = Link.texts links ++ t' ∧ t'.digitAhead = false ∧ Link.join acc p links = .ok n
        ∧ Ending n (p + (Link.texts links).length) t' outcome := by
  induction hlen : t.length using Nat.strongRecOn generalizing acc t p with
  | _ k ih =>
    rcases exists_link_or_ending acc t p with ⟨l, t', rfl, ht', hdiv⟩ | ⟨outcome, hend⟩
    · -- Behind a link that can be joined, the shorter text goes on from its result.
      obtain ⟨next, hnext⟩ := Link.exists_step_of_divides hdiv acc p
      have hshort : t'.length < k := by
        rw [← hlen, List.length_append, Link.text, List.length_append, List.length_cons]
        omega
      obtain ⟨links, t'', n, outcome, rfl, ht'', hjoin, hend⟩ :=
        ih t'.length hshort next t' (p + l.text.length) ht' rfl
      refine ⟨l :: links, t'', n, outcome, by simp, ht'', ?_, ?_⟩
      · rw [Link.join_cons_of_ok hnext, hjoin]
      · rw [Link.texts_cons, List.length_append, ← Nat.add_assoc]
        exact hend
    · exact ⟨[], t, acc, outcome, rfl, ht, rfl, hend⟩

end Lexer

/-! ### Lines -/

/-- A line that begins with a literal has the value of the chain that goes on behind it. -/
theorem evaluate_literal (w : Blanks) (l : Literal) {t : Text} (ht : t.digitAhead = false) :
    evaluate (w.text ++ (l.text ++ t))
      = (Lexer.extend (.integer l.word) ⟨t, w.text.length + l.text.length⟩).1 := by
  have hoperand : Lexer.operand ⟨w.text ++ (l.text ++ t), 0⟩
      = (.ok (l.word, w.text.length), ⟨t, w.text.length + l.text.length⟩) := by
    rw [Lexer.operand_append_blanks w.isBlank, Lexer.operand_literal l ht, Nat.zero_add]
  rw [evaluate, Lexer.ofLine, Lexer.evaluate, hoperand]

/-- A line that begins with no operand has the error that says so. -/
theorem evaluate_of_noOperand (w : Blanks) {v : Text} {e : Error}
    (hv : NoOperand v w.text.length e) : evaluate (w.text ++ v) = .error e := by
  rw [← Nat.zero_add w.text.length] at hv
  obtain ⟨behind, hoperand⟩ := Lexer.operand_of_noOperand hv
  rw [← Lexer.operand_append_blanks w.isBlank] at hoperand
  rw [evaluate, Lexer.ofLine, Lexer.evaluate, hoperand]

namespace Chain

/-- A chain ends with a digit. -/
theorem digitBehind_text (c : Chain) : c.text.digitBehind = true := by
  -- The last literal ends the chain: that of the last link, or the first if there is none.
  have hlinks : ∀ (links : List Link) (t : Text), t.digitBehind = true →
      Text.digitBehind (t ++ Link.texts links) = true := by
    intro links
    induction links with
    | nil => intro t ht; simpa using ht
    | cons l links ih =>
      intro t _
      rw [Link.texts_cons, ← List.append_assoc]
      exact ih _ (l.digitBehind_append_text t)
  rw [text, ← List.append_assoc]
  exact hlinks _ _ (c.first.digitBehind_append_text _)

/-- What does not prolong a line that is a chain and blanks does not prolong the chain. -/
theorem digitAhead_blanks_append (c : Chain) (w : Blanks) {v : Text}
    (hapart : ¬ (Text.digitBehind (c.text ++ w.text) = true ∧ v.digitAhead = true)) :
    Text.digitAhead (w.text ++ v) = false := by
  refine Text.digitAhead_blank_append w.isBlank fun hw => ?_
  rw [hw, List.append_nil] at hapart
  simpa [c.digitBehind_text] using hapart

/-- **Run lemma.**  A chain that has a value is evaluated, and the line goes on behind it. -/
theorem evaluate_text_append (c : Chain) {n : Number} (h : c.value = .ok n) {v : Text}
    (hv : v.digitAhead = false) :
    evaluate (c.text ++ v) = (Lexer.extend n ⟨v, c.text.length⟩).1 := by
  have hlen : c.text.length
      = c.before.text.length + c.first.text.length + (Link.texts c.links).length := by
    rw [text, List.length_append, List.length_append]
    omega
  have hlinks : Text.digitAhead (Link.texts c.links ++ v) = false :=
    Link.digitAhead_texts_append c.links hv
  rw [text, List.append_assoc, List.append_assoc, evaluate_literal _ _ hlinks,
    Lexer.extend_texts_of_ok c.links hv h, ← hlen, text]

/-- A chain with blanks behind it has its value, or the error of its first zero divisor. -/
theorem evaluate_text_append_blanks (c : Chain) (w : Blanks) :
    evaluate (c.text ++ w.text) = c.value := by
  have hw : w.text.digitAhead = false := by
    simpa using Text.digitAhead_blank_append w.isBlank fun _ => Text.digitAhead_nil
  cases h : c.value with
  | ok n => rw [c.evaluate_text_append h hw, Lexer.extend_of_ending (.finished w)]
  | error e =>
    have hlinks : Text.digitAhead (Link.texts c.links ++ w.text) = false :=
      Link.digitAhead_texts_append c.links hw
    rw [text, List.append_assoc, List.append_assoc, evaluate_literal _ _ hlinks,
      Lexer.extend_texts_of_error c.links hw h]

end Chain

/-- Every line begins with no operand, or it is a chain that has a value, and an ending. -/
theorem exists_chain (line : Text) :
    (∃ (w : Blanks) (v : Text) (e : Error), line = w.text ++ v ∧ NoOperand v w.text.length e)
      ∨ ∃ (c : Chain) (n : Number) (t : Text) (outcome : Except Error Number),
        line = c.text ++ t ∧ t.digitAhead = false ∧ c.value = .ok n
          ∧ Lexer.Ending n c.text.length t outcome := by
  obtain ⟨w, v, rfl, hw, hv⟩ := exists_front line
  rcases hv.literal_or_noOperand w.length with ⟨l, t, rfl, ht⟩ | ⟨e, he⟩
  · obtain ⟨links, t', n, outcome, rfl, ht', hjoin, hend⟩ :=
      Lexer.exists_links (.integer l.word) t (w.length + l.text.length) ht
    let c : Chain := ⟨⟨w, hw⟩, l, links⟩
    have htext : w ++ (l.text ++ (Link.texts links ++ t')) = c.text ++ t' := by
      simp [c, Chain.text]
    have hlen : w.length + l.text.length + (Link.texts links).length = c.text.length := by
      show _ = (w ++ (l.text ++ Link.texts links)).length
      rw [List.length_append, List.length_append]
      omega
    rw [hlen] at hend
    exact .inr ⟨c, n, t', outcome, htext, ht', hjoin, hend⟩
  · exact .inl ⟨⟨w, hw⟩, v, e, rfl, he⟩

/-- A text that has a value is a chain with blanks behind it. -/
theorem exists_chain_of_ok {line : Text} {n : Number} (h : evaluate line = .ok n) :
    ∃ (c : Chain) (w : Blanks), line = c.text ++ w.text ∧ c.value = .ok n := by
  rcases exists_chain line with ⟨w, v, e, rfl, he⟩ | ⟨c, m, t, outcome, rfl, ht, hc, hend⟩
  · rw [evaluate_of_noOperand w he] at h
    cases h
  · rw [c.evaluate_text_append hc ht, Lexer.extend_of_ending hend] at h
    subst h
    -- Every other ending is an error.
    cases hend with
    | finished w => exact ⟨c, w, rfl, hc⟩

/-- **The lines that have a value.**  A line has a value exactly when it is a chain without
    a zero divisor, with blanks behind it; and what a chain with blanks behind it
    evaluates to is the left fold over its links. -/
theorem evaluate_chain (line : Text) :
    ((∃ n, evaluate line = .ok n) ↔
      ∃ (c : Chain) (w : Blanks), line = c.text ++ w.text ∧ ∀ l ∈ c.links, l.Divides)
    ∧ ∀ (c : Chain) (w : Blanks), evaluate (c.text ++ w.text) = c.value := by
  refine ⟨⟨?_, ?_⟩, Chain.evaluate_text_append_blanks⟩
  · rintro ⟨n, hn⟩
    obtain ⟨c, w, hline, hvalue⟩ := exists_chain_of_ok hn
    exact ⟨c, w, hline, c.exists_value_iff.1 ⟨n, hvalue⟩⟩
  · rintro ⟨c, w, rfl, hdiv⟩
    obtain ⟨n, hn⟩ := c.exists_value_iff.2 hdiv
    exact ⟨n, (c.evaluate_text_append_blanks w).trans hn⟩

/-- Blanks stand around the operands, one of which begins with zeros; the operators are applied
    from the left. -/
example : evaluate (ascii " 1+ 2\t*003\r") = .ok (.integer 9) := by decide +kernel

end ChainCalc
