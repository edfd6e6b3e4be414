import ChainCalc.Proofs.Offence
import ChainCalc.Proofs.Truncation

namespace ChainCalc

/-!
# Blank lines — what the loop skips is what the lexer finds nothing in

The loop skips a line if all of its bytes are blank, and the lexer passes over blanks in front of
a token.  Both speak of the same lines: the loop never has a line evaluated that holds nothing to
evaluate, and never skips one that holds a token or a byte that begins none.

* `Lexer.atEnd`, `Lexer.atEnd_ofLine` — whether the end is all that is read of a line, which is
  whether the line is blank.
* `isBlank_iff_evaluate` — the error of a blank line, which others have only behind an operator.
* `Repl.Treatment`, `Repl.treatment` — what the loop makes of a line that it reads (**step
  lemma**).
* `Repl.fed`, `Repl.map_evaluations` — the lines that the loop reads, and which of them it
  evaluates.
* `Repl.blank_lines_skipped` — all of this for the runs on an input.
-/

/-! ### Blank lines and the lexer -/

namespace Text

/-- What begins with a front, and so with no blank, is blank only if it is nothing. -/
theorem isBlank_append_front {w v : Text} (hw : w.isBlank = true) (hv : Front v) :
    isBlank (w ++ v) = v.isEmpty := by
  rw [isBlank_append, hw, Bool.true_and]
  cases v with
  | nil => rfl
  | cons b t =>
    have hb : b.isBlank = false := hv.blankAhead
    rw [isBlank_cons, hb]
    rfl

/-- The carriage return at the end of a line is a blank. -/
theorem isBlank_chopReturn (line : Text) : line.chopReturn.isBlank = line.isBlank := by
  unfold chopReturn
  split
  · next h =>
    obtain ⟨before, rfl⟩ := List.getLast?_eq_some_iff.1 h
    have hreturn : isBlank [Byte.carriageReturn] = true := rfl
    rw [List.dropLast_concat, isBlank_append, hreturn, Bool.and_true]
  · rfl

end Text

namespace Lexer

/-- Whether the end is the first that is read from a lexer on: not a token, and no error. -/
def atEnd (lx : Lexer) : Bool :=
  match lx.next.1 with
  | .ok ⟨.endOfInput, _⟩ => true
  | _ => false

theorem atEnd_iff {lx : Lexer} : lx.atEnd = true ↔ ∃ p, lx.next.1 = .ok ⟨.endOfInput, p⟩ := by
  unfold atEnd
  split
  · next p h => exact ⟨fun _ => ⟨p, h⟩, fun _ => rfl⟩
  · next h => exact ⟨nofun, fun ⟨p, hp⟩ => absurd hp (h p)⟩

/-- **The end is all that is read of a line exactly if the line is blank.** -/
theorem atEnd_ofLine (line : Text) : (ofLine line).atEnd = line.isBlank := by
  obtain ⟨w, v, rfl, hw, hv⟩ := exists_front line
  rw [Text.isBlank_append_front hw hv, atEnd, ofLine, next_append_blanks hw]
  cases hv with
  | nothing => rfl
  | symbol op t =>
    rw [next_symbol]
    rfl
  | digits r ht =>
    obtain ⟨more, hcons⟩ := r.exists_text_eq_cons
    rw [next_digits r ht, hcons]
    -- A token or an error, by the number of the digits.
    by_cases hle : r.value ≤ Literal.limit
    · rw [if_pos hle]
      rfl
    · rw [if_neg hle]
      rfl
  | stray hb t =>
    rw [next_stray hb]
    rfl

end Lexer

/-- **The error of a blank line.**  A line is blank exactly if an operand is missing at its end
    and it holds no operator that could ask for one. -/
theorem isBlank_iff_evaluate (line : Text) :
    line.isBlank = true ↔
      evaluate line = .error (.unexpected .operand ⟨.endOfInput, line.length⟩)
        ∧ ∀ op : Operator, op.symbol ∉ line := by
  constructor
  · intro hblank
    have herror := (OperandDue.start hblank).evaluate_append (.nothing line.length)
    rw [List.append_nil] at herror
    refine ⟨herror, fun op hop => ?_⟩
    have hsymbol := Text.isBlank_of_mem hblank _ hop
    rw [op.isBlank_symbol] at hsymbol
    cases hsymbol
  · rintro ⟨herror, hnone⟩
    obtain ⟨u, v, rfl, -, hoffence⟩ := exists_offence herror
    generalize he : Error.unexpected .operand ⟨.endOfInput, (u ++ v).length⟩ = e at hoffence
    -- Of all offences, only the end where an operand is due has this error.
    cases hoffence with
    | operand hu hv =>
      cases hv with
      | noToken h => cases h <;> cases he
      | nothing =>
        cases hu with
        | start hw => rwa [List.append_nil]
        | behind hg op hw => exact absurd (by simp) (hnone op)
      | symbol op t => cases he
    | operator hu hv =>
      cases hv with
      | noToken h => cases h <;> cases he
      | literal l ht => cases he
    | divisor hu hlast l hl ht => cases he

namespace Repl

/-! ### Blank lines and the loop -/

/-- What the loop makes of a line that it reads. -/
inductive Treatment (o : Options) (s : State) (line : Text) : Prop where
  /-- The line is blank, and nothing happens. -/
  | skipped (hline : line.isBlank = true) (hfeed : feed o s line = (.next, s))
  /-- The line holds a token, or a byte that begins none: it is evaluated and counted. -/
  | evaluated (hline : (Lexer.ofLine line).atEnd = false)
      (hconsole : (feed o s line).2.console = (evalLine line.chopReturn s.console).2)
      (hcount : (feed o s line).2.tally.evaluated = s.tally.evaluated + 1)

/-- **Step lemma.**  One of these happens to every line. -/
theorem treatment (o : Options) (s : State) (line : Text) : Treatment o s line := by
  cases hblank : line.isBlank with
  | true => exact .skipped hblank (feed_of_isBlank (by rw [Text.isBlank_chopReturn, hblank]))
  | false =>
    have hchop : line.chopReturn.isBlank = false := by rw [Text.isBlank_chopReturn, hblank]
    refine .evaluated (by rw [Lexer.atEnd_ofLine, hblank]) ?_ (feed_of_not_isBlank hchop).1
    simp only [feed, submit, hchop, Bool.false_eq_true, if_false]
    split <;> rfl

/-- The lines that the loop reads. -/
def fed (o : Options) (s : State) (lines : List Text) : List Text :=
  ((lineLoop o).trace ⟨.offer, s, lines⟩).filterMap Point.line?

/-- The line that is evaluated at a point is the one that is read there, unless it is blank. -/
theorem map_evaluation? (p : Point) :
    p.evaluation?.map Prod.fst
      = (p.line?.filter fun line => !(Lexer.ofLine line).atEnd).map Text.chopReturn := by
  unfold Point.evaluation?
  cases p.line? with
  | none => rfl
  | some line =>
    simp only [Option.filter_some, Lexer.atEnd_ofLine, Text.isBlank_chopReturn]
    cases line.isBlank <;> rfl

/-- The loop evaluates the lines that it reads, but for the blank ones. -/
theorem map_evaluations (o : Options) (s : State) (lines : List Text) :
    (evaluations o s lines).map Prod.fst
      = ((fed o s lines).filter fun line => !(Lexer.ofLine line).atEnd).map Text.chopReturn := by
  rw [evaluations, fed, List.map_filterMap, List.filter_filterMap, List.map_filterMap]
  simp only [map_evaluation?]

/-- **Blank lines, and no others, are skipped.**  A line is blank exactly if the end is the first
    that is read of it, and exactly if its error is that an operand is missing at its end and it
    holds no operator.  A line that the loop reads is skipped without effect if it is blank, and
    if anything but the end is the first that is read of it, it is evaluated and counted.  So in
    every run, on any console, the lines that are evaluated, each without the carriage return at
    its end, are those of the lines read of which something is read before the end; and all of
    these are counted, whether one looks at them with their carriage returns or without. -/
theorem blank_lines_skipped :
    (∀ line : Text,
      (line.isBlank = true ↔ ∃ p, (Lexer.ofLine line).next.1 = .ok ⟨.endOfInput, p⟩)
        ∧ (line.isBlank = true ↔
          evaluate line = .error (.unexpected .operand ⟨.endOfInput, line.length⟩)
            ∧ ∀ op : Operator, op.symbol ∉ line))
      ∧ (∀ o s line, Treatment o s line)
      ∧ ∀ (o : Options) (input : Text) (c : Console),
        let s := State.start c
        let read := fed o s input.lines
        read <+: input.lines
          ∧ (evaluations o s input.lines).map Prod.fst
            = (read.filter fun line => !(Lexer.ofLine line).atEnd).map Text.chopReturn
          ∧ (run o input c).tally.evaluated
            = read.countP (fun line => !(Lexer.ofLine line).atEnd)
          ∧ (run o input c).tally.evaluated
            = read.countP (fun line => !(Lexer.ofLine line.chopReturn).atEnd) := by
  refine ⟨fun line => ⟨?_, isBlank_iff_evaluate line⟩, treatment, fun o input c => ?_⟩
  · rw [← Lexer.atEnd_ofLine, Lexer.atEnd_iff]
  · intro s read
    have hlines := map_evaluations o s input.lines
    have hcount : (run o input c).tally.evaluated
        = read.countP (fun line => !(Lexer.ofLine line).atEnd) := by
      have hrun := evaluated_run o ⟨.offer, s, input.lines⟩
      have hlength := congrArg List.length hlines
      rw [List.length_map, List.length_map, ← List.countP_eq_length_filter] at hlength
      exact hrun.trans ((Nat.zero_add _).trans hlength)
    have hchop : (fun line : Text => !(Lexer.ofLine line.chopReturn).atEnd)
        = fun line => !(Lexer.ofLine line).atEnd := by
      funext line
      rw [Lexer.atEnd_ofLine, Lexer.atEnd_ofLine, Text.isBlank_chopReturn]
    have hfirst := (lineLoop o).isPrefix_trace ⟨.offer, s, input.lines⟩
    exact ⟨hfirst, hlines, hcount, by rw [hchop, hcount]⟩

/-- A line that holds a carriage return only is read and skipped; the run stops at the next one,
    which is evaluated. -/
example :
    let s := State.start Console.unlimited
    fed ⟨[], false, true⟩ s (ascii "\r\n4/\r\n5").lines = [ascii "\r", ascii "4/\r"]
      ∧ (evaluations ⟨[], false, true⟩ s (ascii "\r\n4/\r\n5").lines).map Prod.fst
        = [ascii "4/"] := by decide +kernel

end Repl

end ChainCalc
