import ChainCalc.Proofs.Chain

namespace ChainCalc

/-!
# The leftmost offence — why a line has no value

A line without a value splits into what is sound so far and what offends.  The error of
the line is the offence at that place; nothing further right has a say in it.

* `HasValue`, `OperandDue` — behind such a text an operator may stand, or an operand has to.
* `Cut` — a split that cuts neither blanks off what offends nor a run of digits in two.
* `Offence` — what offends behind a text, and the error for it.
* `evaluate_eq_error_iff` — a line has an error exactly when it splits at an offence with
  that error.
-/

/-- A text has a value. -/
def HasValue (g : Text) : Prop := ∃ n, evaluate g = .ok n

/-- Behind a text an operand is due: it is blank, or a text that has a value, an operator
    and blanks. -/
inductive OperandDue : Text → Prop where
  | start {w : Text} (hw : w.isBlank = true) : OperandDue w
  | behind {g : Text} (hg : HasValue g) (op : Operator) {w : Text} (hw : w.isBlank = true) :
      OperandDue (g ++ op.symbol :: w)

/-- A place to split a line: the second part does not begin with a blank, and no run of
    digits goes from the first part into the second. -/
structure Cut (u v : Text) : Prop where
  blankAhead : v.blankAhead = false
  apart : ¬ (u.digitBehind = true ∧ v.digitAhead = true)

/-- What stands behind a text is an offence, with the error for it. -/
inductive Offence (u : Text) : Text → Error → Prop where
  /-- An operand is due and none stands there. -/
  | operand (hu : OperandDue u) {v : Text} {e : Error} (hv : NoOperand v u.length e) :
      Offence u v e
  /-- A value is there, and what follows is neither the end nor an operator. -/
  | operator (hu : HasValue u) {v : Text} {e : Error} (hv : NoOperator v u.length e) :
      Offence u v e
  /-- The last byte that is not blank asks for a division, and the divisor is zero. -/
  | divisor (hu : OperandDue u)
      (hlast : (u.filter fun b => !b.isBlank).getLast? = some Operator.divide.symbol)
      (l : Literal) (hl : l.value = 0) {t : Text} (ht : t.digitAhead = false) :
      Offence u (l.text ++ t) (.divisionByZero u.length)

/-! ### What a sound text leaves behind it -/

/-- Where the text behind an operator and blanks begins. -/
theorem length_append_symbol (g : Text) (op : Operator) (w : Text) :
    (g ++ op.symbol :: w).length = g.length + 1 + w.length := by
  rw [List.length_append, List.length_cons]
  omega

/-- Behind a text that has a value, evaluation goes on from that value. -/
theorem HasValue.evaluate_append {u : Text} (hu : HasValue u) :
    ∃ n, ∀ v, Cut u v → evaluate (u ++ v) = (Lexer.extend n ⟨v, u.length⟩).1 := by
  obtain ⟨n, hn⟩ := hu
  obtain ⟨c, w, rfl, hvalue⟩ := exists_chain_of_ok hn
  refine ⟨n, fun v hcut => ?_⟩
  have hcn : c.value = .ok n := (c.evaluate_text_append_blanks w).symm.trans hn
  rw [List.append_assoc, c.evaluate_text_append hcn (c.digitAhead_blanks_append w hcut.apart),
    Lexer.extend_append_blanks w.isBlank, List.length_append]

/-- Behind an operator and blanks, evaluation goes on with the operand. -/
theorem HasValue.evaluate_append_operator {g : Text} (hg : HasValue g) (op : Operator)
    (w : Blanks) :
    ∃ n, ∀ v, evaluate (g ++ op.symbol :: (w.text ++ v))
      = (Lexer.extend n ⟨op.symbol :: (w.text ++ v), g.length⟩).1 := by
  obtain ⟨n, hn⟩ := hg.evaluate_append
  refine ⟨n, fun v => hn _ ?_⟩
  -- A symbol is neither a blank nor a digit, so it is behind a cut.
  have hapart : ¬ (g.digitBehind = true
      ∧ Text.digitAhead (op.symbol :: (w.text ++ v)) = true) := by
    simp [op.isDigit_symbol]
  exact ⟨op.isBlank_symbol, hapart⟩

/-- A text behind which an operand is due has the error of what stands there instead. -/
theorem OperandDue.evaluate_append {u v : Text} {e : Error} (hu : OperandDue u)
    (hv : NoOperand v u.length e) : evaluate (u ++ v) = .error e := by
  cases hu with
  | start hw => exact evaluate_of_noOperand ⟨u, hw⟩ hv
  | @behind g hg op w hw =>
    obtain ⟨n, hn⟩ := hg.evaluate_append_operator op ⟨w, hw⟩
    rw [length_append_symbol] at hv
    have hend : Lexer.Ending n g.length ([] ++ op.symbol :: (w ++ v)) (.error e) :=
      .operand ⟨[], rfl⟩ op ⟨w, hw⟩ hv
    rw [List.append_assoc, List.cons_append, hn v]
    exact Lexer.extend_of_ending hend

/-- A symbol is the symbol of one operator only. -/
theorem Operator.symbol_inj {op op' : Operator} (h : op.symbol = op'.symbol) : op = op' := by
  have hread := Operator.ofSymbol?_eq_some_iff.2 h
  rw [Operator.ofSymbol?_symbol] at hread
  exact Option.some.inj hread

/-- The last byte of a text that is not blank is the symbol in front of its last blanks. -/
theorem getLast?_filter_append_symbol (g : Text) (op : Operator) {w : Text}
    (hw : w.isBlank = true) :
    ((g ++ op.symbol :: w).filter fun b => !b.isBlank).getLast? = some op.symbol := by
  simp [op.isBlank_symbol, Text.filter_eq_nil_of_isBlank hw]

/-- A text that asks for a division has the error of the zero behind it. -/
theorem OperandDue.evaluate_append_zero {u t : Text} (hu : OperandDue u)
    (hlast : (u.filter fun b => !b.isBlank).getLast? = some Operator.divide.symbol)
    (l : Literal) (hl : l.value = 0) (ht : t.digitAhead = false) :
    evaluate (u ++ (l.text ++ t)) = .error (.divisionByZero u.length) := by
  cases hu with
  | start hw =>
    rw [Text.filter_eq_nil_of_isBlank hw] at hlast
    cases hlast
  | @behind g hg op w hw =>
    -- The last byte that is not blank is the symbol of the operator, so this divides.
    rw [getLast?_filter_append_symbol g op hw] at hlast
    obtain rfl := Operator.symbol_inj (Option.some.inj hlast)
    obtain ⟨n, hn⟩ := hg.evaluate_append_operator .divide ⟨w, hw⟩
    let link : Link := ⟨⟨[], rfl⟩, .divide, ⟨w, hw⟩, l⟩
    have hzero : ¬ link.Divides := fun h => h rfl hl
    have htext : Operator.divide.symbol :: (w ++ (l.text ++ t)) = link.text ++ t := by
      simp [link, Link.text]
    have hplace : (link.step g.length).position
        = (g ++ Operator.divide.symbol :: w).length := (length_append_symbol _ _ _).symm
    rw [List.append_assoc, List.cons_append, hn, htext, ← hplace]
    exact Lexer.extend_of_ending (.divisor link hzero ht)

/-! ### Offences are the errors -/

/-- An offence behind a cut is the error of the line. -/
theorem Offence.evaluate_append {u v : Text} {e : Error} (hcut : Cut u v)
    (h : Offence u v e) : evaluate (u ++ v) = .error e := by
  cases h with
  | operand hu hv => exact hu.evaluate_append hv
  | operator hu hv =>
    obtain ⟨n, hn⟩ := hu.evaluate_append
    have hplace : NoOperator v (u.length + 0) e := hv
    have hend : Lexer.Ending n u.length ([] ++ v) (.error e) := .operator ⟨[], rfl⟩ hplace
    rw [hn v hcut]
    exact Lexer.extend_of_ending hend
  | divisor hu hlast l hl ht => exact hu.evaluate_append_zero hlast l hl ht

/-- A text behind which an operand is due does not end with a digit. -/
theorem OperandDue.digitBehind {u : Text} (hu : OperandDue u) : u.digitBehind = false := by
  cases hu with
  | start hw => simpa using Text.digitBehind_append_blank [] hw fun _ => rfl
  | @behind g _ op w hw =>
    have hsplit : g ++ op.symbol :: w = (g ++ [op.symbol]) ++ w := by simp
    rw [hsplit]
    refine Text.digitBehind_append_blank _ hw fun _ => ?_
    simp [Text.digitBehind, op.isDigit_symbol]

/-- Where an operand is due, every front is behind a cut. -/
theorem OperandDue.cut {u v : Text} (hu : OperandDue u) (hv : Front v) : Cut u v :=
  ⟨hv.blankAhead, fun h => by simp [hu.digitBehind] at h⟩

/-- Behind a chain and blanks, a front that does not prolong the chain is behind a cut. -/
theorem Chain.cut (c : Chain) (w : Blanks) {v : Text} (hv : Front v)
    (ht : Text.digitAhead (w.text ++ v) = false) : Cut (c.text ++ w.text) v := by
  refine ⟨hv.blankAhead, fun ⟨hu, hahead⟩ => ?_⟩
  -- Blanks in between would leave no digit behind; without them `ht` is about `v`.
  have hw : w.text = [] := by
    cases hw : w.text with
    | nil => rfl
    | cons b more =>
      rw [Text.digitBehind_append_blank _ w.isBlank (by simp [hw])] at hu
      cases hu
  rw [hw, List.nil_append, hahead] at ht
  cases ht

/-- A line that has an error is cut at an offence with that error. -/
theorem exists_offence {line : Text} {e : Error} (h : evaluate line = .error e) :
    ∃ u v, line = u ++ v ∧ Cut u v ∧ Offence u v e := by
  rcases exists_chain line with ⟨w, v, d, rfl, hv⟩ | ⟨c, n, t, outcome, rfl, ht, hc, hend⟩
  · rw [evaluate_of_noOperand w hv] at h
    cases h
    have hdue : OperandDue w.text := .start w.isBlank
    exact ⟨w.text, v, rfl, hdue.cut hv.front, .operand hdue hv⟩
  · rw [c.evaluate_text_append hc ht, Lexer.extend_of_ending hend] at h
    subst h
    have hgood : ∀ w : Blanks, HasValue (c.text ++ w.text) := fun w =>
      ⟨n, (c.evaluate_text_append_blanks w).trans hc⟩
    -- Each ending but the end of the chain is an offence, behind what it leaves sound.
    cases hend with
    | @operator w v _ hv =>
      have hcut : Cut (c.text ++ w.text) v := c.cut w hv.front ht
      rw [← List.length_append] at hv
      exact ⟨_, v, by simp, hcut, .operator (hgood w) hv⟩
    | @operand w op w' v _ hv =>
      have hdue := OperandDue.behind (hgood w) op w'.isBlank
      rw [← List.length_append, ← length_append_symbol _ op] at hv
      exact ⟨_, v, by simp, hdue.cut hv.front, .operand hdue hv⟩
    | @divisor l hl t ht' =>
      obtain ⟨hop, hzero⟩ := Classical.not_imp.1 hl
      have hdue := OperandDue.behind (hgood l.before) l.op l.between.isBlank
      have hlast := getLast?_filter_append_symbol (c.text ++ l.before.text) l.op l.between.isBlank
      rw [hop] at hdue hlast
      have hoffence := Offence.divisor hdue hlast l.operand (Classical.not_not.1 hzero) ht'
      have hplace : (l.step c.text.length).position
          = (c.text ++ l.before.text ++ Operator.divide.symbol :: l.between.text).length := by
        rw [length_append_symbol, List.length_append]
        rfl
      rw [← hplace] at hoffence
      exact ⟨_, l.operand.text ++ t, by simp [Link.text, hop],
        hdue.cut (.digits l.operand.toDigits ht'), hoffence⟩

/-- **The leftmost offence.**  A line has an error exactly when it is cut at an offence
    with that error. -/
theorem evaluate_eq_error_iff (line : Text) (e : Error) :
    evaluate line = .error e ↔ ∃ u v, line = u ++ v ∧ Cut u v ∧ Offence u v e := by
  constructor
  · exact exists_offence
  · rintro ⟨u, v, rfl, hcut, hoffence⟩
    exact hoffence.evaluate_append hcut

end ChainCalc
