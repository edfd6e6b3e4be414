import ChainCalc.Proofs.Effects

namespace ChainCalc

/-!
# Line by line — a run adds up what its lines add

Without a prompt, without stopping at an error and on a console that never fails, the loop
does to each line what it would do to that line alone.

* `Text.pieces` — the lines of an input as the pieces between its newlines;
  `Text.lines_eq_pieces` says that these are the lines that the loop reads.
* `Repl.kept` — the lines of an input that are not blank, without their carriage returns.
* `Repl.loop_quiet` — **run lemma**: the loop adds what its lines add.
* `Repl.run_quiet` — what a run writes and counts, and that runs on two inputs add up.
-/

/-! ### Lines and pieces -/

namespace Text

/-- The pieces between the newlines of an input, without an empty piece behind the last
    newline. -/
def pieces (input : Text) : List Text :=
  let all := input.splitOn Byte.newline
  if all.getLast? = some [] then all.dropLast else all

/-- A newline ends what stands in front of it, whatever follows. -/
theorem pieces_append_newline (x y : Text) :
    pieces (x ++ Byte.newline :: y) = x.splitOn Byte.newline ++ pieces y := by
  have hne : y.splitOn Byte.newline ≠ [] := List.splitOn_ne_nil _ _
  -- The last piece stands behind the newline, so only `y` decides whether it counts.
  have hlast : (x.splitOn Byte.newline ++ y.splitOn Byte.newline).getLast?
      = (y.splitOn Byte.newline).getLast? := by
    rw [List.getLast?_append, List.getLast?_eq_some_getLast hne, Option.some_or]
  simp only [pieces, List.splitOn_append_cons_self, hlast, List.dropLast_append_of_ne_nil hne]
  split <;> rfl

/-- Any other byte belongs to the first piece, or is one if there is none. -/
theorem pieces_cons {b : Byte} (hb : b ≠ Byte.newline) (t : Text) :
    pieces (b :: t) = match pieces t with
      | [] => [[b]]
      | piece :: more => (b :: piece) :: more := by
  have hne : t.splitOn Byte.newline ≠ [] := List.splitOn_ne_nil _ _
  obtain ⟨piece, more, hsplit⟩ := List.exists_cons_of_ne_nil hne
  simp only [pieces, List.splitOn_cons_eq_if_modifyHead, beq_iff_eq, hb, if_false, hsplit,
    List.modifyHead_cons]
  -- The byte is in the first piece, which is also the last one if there is no newline.
  cases more with
  | nil => cases piece <;> simp
  | cons next more =>
    simp only [List.getLast?_cons_cons, List.dropLast_cons_cons]
    split <;> simp

/-- The lines of an input are its pieces. -/
theorem lines_eq_pieces (input : Text) : input.lines = input.pieces := by
  induction input with
  | nil => rfl
  | cons b t ih =>
    by_cases hb : b = Byte.newline
    · have hpieces := pieces_append_newline [] t
      rw [hb, lines_newline, ih]
      exact hpieces.symm
    · rw [pieces_cons hb]
      cases h : pieces t with
      | nil => simp [lines, hb, ih, h]
      | cons piece more => simp [lines, hb, ih, h]

/-- A text that is empty or ends in a newline has its own lines in front of every text. -/
theorem lines_append {x : Text} (hx : x = [] ∨ x.getLast? = some Byte.newline) (y : Text) :
    lines (x ++ y) = lines x ++ lines y := by
  rcases hx with rfl | hlast
  · rfl
  · -- Both sides split at the newline that ends `x`.
    obtain ⟨before, rfl⟩ := List.getLast?_eq_some_iff.1 hlast
    rw [List.append_assoc, List.singleton_append]
    simp only [lines_eq_pieces, pieces_append_newline]
    simp [pieces]

end Text

namespace Repl

/-! ### Quiet runs -/

/-- The lines of an input that are not blank, each without a carriage return at its end. -/
def kept (input : Text) : List Text :=
  (input.pieces.map Text.chopReturn).filter fun line => !line.isBlank

/-- The loop without a prompt that goes on behind errors. -/
def quiet (prompt : Text) : Options := ⟨prompt, false, false⟩

/-- The log behind lines that are evaluated one after the other. -/
def Log.addLines (l : Log) (lines : List Text) : Log where
  out := l.out ++ lines.flatMap resultLine
  err := l.err ++ lines.flatMap errorLine
  evaluated := l.evaluated + lines.length
  failed := l.failed + lines.countP fun line => !succeeds line

/-- A line that is not blank adds what it adds alone. -/
theorem Log.add_submission (l : Log) {line : Text} (h : line.isBlank = false)
    (more : List Text) :
    (l.add (submission false line)).addLines more = l.addLines (line :: more) := by
  simp only [submission, h, Bool.false_eq_true, if_false, add, addLines, List.flatMap_cons,
    List.append_assoc, List.length_cons, List.countP_cons]
  cases succeeds line <;> simp [Nat.add_assoc, Nat.add_comm 1]

/-- Without stopping at errors, the loop goes on behind every line. -/
theorem turn_submission_false (line : Text) : (submission false line).turn = .next := by
  unfold submission
  by_cases hblank : line.isBlank = true
  · simp [hblank, Effect.idle]
  · simp [hblank]

/-- **Run lemma.**  On a console that never fails, a quiet loop adds what its lines add that
    are not blank.  By induction on the lines. -/
theorem loop_quiet (prompt : Text) {c : Console} (hc : c.Boundless) (l : Log)
    (lines : List Text) :
    loop (quiet prompt) (l.on c) lines
      = (l.addLines ((lines.map Text.chopReturn).filter fun line => !line.isBlank)).on c := by
  -- A quiet loop shows no prompt.
  have hoffer : ∀ l : Log, offer (quiet prompt) (l.on c) = (.next, l.on c) := fun l => rfl
  induction lines generalizing l with
  | nil =>
    rw [loop_nil_of_offer (hoffer l), close_on_boundless hc]
    simp [closing, quiet, Log.addLines]
  | cons line more ih =>
    have hfeed := feed_on_boundless hc (quiet prompt) l line
    rw [show (quiet prompt).stopOnError = false from rfl, turn_submission_false] at hfeed
    rw [loop_cons_of_offer (hoffer l), hfeed, resume_next, ih, List.map_cons]
    by_cases hblank : line.chopReturn.isBlank = true
    · simp [submission, hblank]
    · have hadd := Log.add_submission l (Bool.of_not_eq_true hblank)
      rw [List.filter_cons_of_pos (by simp [hblank]), hadd]

/-- On a console that never fails, a quiet run adds what the kept lines of its input add. -/
theorem run_quiet_eq (prompt : Text) {c : Console} (hc : c.Boundless) (input : Text) :
    run (quiet prompt) input c = (Log.empty.addLines (kept input)).on c := by
  rw [run, ← Log.on_empty, loop_quiet prompt hc, kept, Text.lines_eq_pieces]

/-- Lines behind lines add what both add. -/
theorem kept_append {x : Text} (hx : x = [] ∨ x.getLast? = some Byte.newline) (y : Text) :
    kept (x ++ y) = kept x ++ kept y := by
  simp only [kept, ← Text.lines_eq_pieces, Text.lines_append hx, List.map_append,
    List.filter_append]

/-- **Independence of lines.**  On a console that never fails, a quiet run adds, in order, the
    results of the kept lines that have a value and the errors of the others, and counts them.
    So runs on two inputs add up, if the first ends with its last line: a run on both adds what
    the run on the first adds on the same console, and then what the run on the second writes
    on any console that has accepted nothing. -/
theorem run_quiet (prompt : Text) {c : Console} (hc : c.Boundless) :
    (∀ input,
      let s := run (quiet prompt) input c
      s.console.out.accepted = c.out.accepted ++ (kept input).flatMap resultLine
        ∧ s.console.err.accepted = c.err.accepted ++ (kept input).flatMap errorLine
        ∧ s.tally.evaluated = (kept input).length
        ∧ s.tally.failed = (kept input).countP (fun line => !succeeds line)
        ∧ s.tally.outputError = false
        ∧ s.console.Boundless)
    ∧ ∀ (c' : Console), c'.Boundless → c'.out.accepted = [] → c'.err.accepted = [] →
      ∀ x y, x = [] ∨ x.getLast? = some Byte.newline →
        let both := run (quiet prompt) (x ++ y) c
        let s := run (quiet prompt) x c
        let t := run (quiet prompt) y c'
        both.console.out.accepted = s.console.out.accepted ++ t.console.out.accepted
          ∧ both.console.err.accepted = s.console.err.accepted ++ t.console.err.accepted
          ∧ both.tally.evaluated = s.tally.evaluated + t.tally.evaluated
          ∧ both.tally.failed = s.tally.failed + t.tally.failed := by
  refine ⟨fun input => ?_, fun c' hc' hout herr x y hx => ?_⟩
  · rw [run_quiet_eq prompt hc]
    simp [Log.on, Log.accepted_out_console hc, Log.accepted_err_console hc,
      Log.boundless_console hc, Log.addLines, Log.empty]
  · rw [run_quiet_eq prompt hc, run_quiet_eq prompt hc, run_quiet_eq prompt hc', kept_append hx]
    simp [Log.on, Log.accepted_out_console hc, Log.accepted_err_console hc,
      Log.accepted_out_console hc', Log.accepted_err_console hc', hout, herr, Log.addLines,
      Log.empty]

/-- Behind an earlier result, a line with a value and, behind its newline, one without. -/
theorem run_quiet_two_lines :
    let c := Console.unlimited.print (ascii "2\n")
    let s := run (quiet []) (ascii "1+2\n" ++ ascii "4/") c
    c.Boundless ∧ Console.unlimited.Boundless
      ∧ Console.unlimited.out.accepted = [] ∧ Console.unlimited.err.accepted = []
      ∧ (ascii "1+2\n").getLast? = some Byte.newline
      ∧ s.console.out.accepted = ascii "2\n3\n" ∧ s.tally.failed = 1 := by
  intro c s
  have hc : c.Boundless := ⟨⟨rfl, rfl⟩, ⟨rfl, rfl⟩⟩
  have hlast : (ascii "1+2\n").getLast? = some Byte.newline := by decide
  obtain ⟨hout, -, -, hfailed⟩ := (run_quiet [] hc).2 Console.unlimited
    Console.boundless_unlimited rfl rfl (ascii "1+2\n") (ascii "4/") (.inr hlast)
  refine ⟨hc, Console.boundless_unlimited, rfl, rfl, hlast, hout.trans ?_, hfailed.trans ?_⟩
  · decide +kernel
  · decide +kernel

end Repl

end ChainCalc
