import ChainCalc.Proofs.Effects

namespace ChainCalc

/-!
# Prompting — what a run adds line by line, and where its prompt shows

On a console that never fails, a run adds what the lines add that it reads, whatever its
options.  To stop at errors decides which lines these are.  A prompt is written to the results in front of
every attempt to read a line: once for each line that is read, and once more for the end of
the input, unless the run stopped before.  That is all that it does.

* `Repl.fails`, `Repl.linesRead` — lines that fail, and the lines that a loop reads.
* `Repl.answer`, `Repl.complaint` — what a line of input adds to the results and to the
  errors.
* `Repl.Log.addRead`, `Repl.Log.conclude` — the log behind lines that are read, and at the
  end of the run; `Log.addRead_cons` is the step lemma.
* `Repl.loop_on_boundless` — **run lemma**: what the loop adds on a console that never fails.
* `Repl.run_prompt` — a run that shows a prompt, and the run that shows none.
-/

namespace Repl

/-! ### The lines that a loop reads -/

/-- Whether a line of input fails: without the carriage return at its end, it is not blank
    and has no value. -/
def fails (line : Text) : Bool := !line.chopReturn.isBlank && !succeeds line.chopReturn

/-- The lines that a loop reads if its console does not fail: all of them, or, if it is to
    stop at errors, those up to the first that fails. -/
def linesRead (stopOnError : Bool) (lines : List Text) : List Text :=
  if stopOnError then lines.take (lines.findIdx fails + 1) else lines

@[simp] theorem linesRead_nil (stopOnError : Bool) : linesRead stopOnError [] = [] := by
  simp [linesRead]

/-- Nothing is read behind a line at which the loop stops. -/
theorem linesRead_cons_of_fails {line : Text} (h : fails line = true) (more : List Text) :
    linesRead true (line :: more) = [line] := by
  simp [linesRead, List.findIdx_cons, h]

/-- Any other line is read, and then those that would be read behind it. -/
theorem linesRead_cons_of_not_fails {stopOnError : Bool} {line : Text}
    (h : (stopOnError && fails line) = false) (more : List Text) :
    linesRead stopOnError (line :: more) = line :: linesRead stopOnError more := by
  cases stopOnError with
  | false => rfl
  | true => simp [linesRead, List.findIdx_cons, (Bool.true_and _).symm.trans h]

/-! ### What a line of input adds -/

/-- What a line of input adds to the results: nothing if it is blank, without the carriage
    return at its end, or has no value. -/
def answer (line : Text) : Text :=
  if line.chopReturn.isBlank then [] else resultLine line.chopReturn

/-- What a line of input adds to the errors. -/
def complaint (line : Text) : Text :=
  if line.chopReturn.isBlank then [] else errorLine line.chopReturn

section

variable (stopOnError : Bool) (line : Text)

theorem out_submission : (submission stopOnError line.chopReturn).out = answer line := by
  unfold submission answer
  split <;> rfl

theorem err_submission : (submission stopOnError line.chopReturn).err = complaint line := by
  unfold submission complaint
  split <;> rfl

theorem evaluated_submission :
    (submission stopOnError line.chopReturn).evaluated
      = if !line.chopReturn.isBlank then 1 else 0 := by
  unfold submission
  cases line.chopReturn.isBlank <;> rfl

theorem failed_submission :
    (submission stopOnError line.chopReturn).failed = if fails line then 1 else 0 := by
  unfold submission fails
  cases line.chopReturn.isBlank
  · cases succeeds line.chopReturn <;> rfl
  · rfl

theorem turn_submission :
    (submission stopOnError line.chopReturn).turn
      = if stopOnError && fails line then .finish else .next := by
  unfold submission fails
  cases line.chopReturn.isBlank
  · rw [Bool.and_comm]
    rfl
  · rw [Bool.not_true, Bool.false_and, Bool.and_false]
    rfl

end

/-! ### What a run adds -/

namespace Log

/-- The log behind lines that are read, a prompt in front of each if it is to be shown. -/
def addRead (l : Log) (o : Options) (lines : List Text) : Log where
  out := l.out ++ lines.flatMap fun line => (offering o).out ++ answer line
  err := l.err ++ lines.flatMap complaint
  evaluated := l.evaluated + lines.countP fun line => !line.chopReturn.isBlank
  failed := l.failed + lines.countP fails

/-- The log at the end of a run: unless the run has stopped at a line, the prompt is shown
    once more, and then it gets its newline. -/
def conclude (l : Log) (o : Options) (stopped : Bool) : Log :=
  (if stopped then l else l.add (offering o)).add (closing o)

variable (l : Log) (o : Options)

@[simp] theorem addRead_nil : l.addRead o [] = l := by
  simp [addRead]

/-- A prompt writes no error and counts no line. -/
theorem add_offering :
    l.add (offering o) = { l with out := l.out ++ (offering o).out } := by
  unfold offering
  cases o.showPrompt <;> simp [add, Effect.idle]

/-- Neither does the newline at the end of a run. -/
theorem add_closing : l.add (closing o) = { l with out := l.out ++ (closing o).out } := by
  unfold closing
  cases o.showPrompt <;> simp [add, Effect.idle]

theorem conclude_eq (stopped : Bool) :
    l.conclude o stopped
      = { l with
          out := l.out ++ (if stopped then [] else (offering o).out) ++ (closing o).out } := by
  unfold conclude
  cases stopped <;> simp [add_closing, add_offering]

/-- **Step lemma.**  A prompt and a line add what the line adds as the first that is read. -/
theorem addRead_cons (line : Text) (more : List Text) :
    ((l.add (offering o)).add (submission o.stopOnError line.chopReturn)).addRead o more
      = l.addRead o (line :: more) := by
  rw [add_offering]
  simp only [add, addRead, out_submission, err_submission, evaluated_submission,
    failed_submission, List.flatMap_cons, List.countP_cons, List.append_assoc, Nat.add_assoc,
    Nat.add_comm (List.countP _ more)]

end Log

section

variable {c : Console} (hc : c.Boundless) (o : Options)
include hc

/-- **Run lemma.**  On a console that never fails the loop adds what the lines add that it reads,
    and then ends the run.  By induction on the lines. -/
theorem loop_on_boundless (l : Log) (lines : List Text) :
    loop o (l.on c) lines
      = ((l.addRead o (linesRead o.stopOnError lines)).conclude o
          (o.stopOnError && lines.any fails)).on c := by
  induction lines generalizing l with
  | nil =>
    rw [loop_nil_of_offer (offer_on_boundless hc o l), close_on_boundless hc, linesRead_nil,
      Log.addRead_nil, List.any_nil, Bool.and_false]
    rfl
  | cons line more ih =>
    rw [loop_cons_of_offer (offer_on_boundless hc o l), feed_on_boundless hc, turn_submission,
      List.any_cons, Bool.and_or_distrib_left]
    cases hstop : o.stopOnError && fails line with
    | false =>
      rw [linesRead_cons_of_not_fails hstop, ← Log.addRead_cons, Bool.false_or]
      exact ih _
    | true =>
      -- The loop stops at this line, so the prompt is not shown again.
      obtain ⟨hstrict, hfails⟩ := Bool.and_eq_true_iff.1 hstop
      have hread : linesRead o.stopOnError (line :: more) = [line] := by
        rw [hstrict]
        exact linesRead_cons_of_fails hfails more
      rw [hread, ← Log.addRead_cons, Log.addRead_nil, Bool.true_or, if_pos rfl,
        Loop.resume_finish]
      exact close_on_boundless hc o _

/-- What a run writes and counts on a console that never fails, whatever the options. -/
theorem run_on_boundless (input : Text) :
    let read := linesRead o.stopOnError input.lines
    let stopped := o.stopOnError && input.lines.any fails
    run o input c
      = Log.on
          { out := read.flatMap (fun line => (offering o).out ++ answer line)
              ++ (if stopped then [] else (offering o).out) ++ (closing o).out
            err := read.flatMap complaint
            evaluated := read.countP fun line => !line.chopReturn.isBlank
            failed := read.countP fails }
          c := by
  intro read stopped
  rw [run, ← Log.on_empty, loop_on_boundless hc, Log.conclude_eq]
  simp [Log.addRead, Log.empty, read, stopped]

end

/-! ### Runs with a prompt and without -/

/-- **The prompt shows in the results only.**  On a console that never fails, a run that shows a
    prompt adds the same errors as the run that shows none, and counts and reports the same.
    To the results it adds those of the lines that are read, in order, with the prompt in front
    of each, then the prompt once more unless the run stopped at a line that fails, and a
    newline; the other run adds the same without the prompts and that newline. -/
theorem run_prompt (prompt input : Text) (stopOnError : Bool) {c : Console}
    (hc : c.Boundless) :
    let shown := run ⟨prompt, true, stopOnError⟩ input c
    let hidden := run ⟨prompt, false, stopOnError⟩ input c
    let read := linesRead stopOnError input.lines
    let stopped := stopOnError && input.lines.any fails
    shown.console.err = hidden.console.err
      ∧ shown.tally = hidden.tally
      ∧ shown.console.out.accepted
        = c.out.accepted ++ (read.flatMap (fun line => prompt ++ answer line)
            ++ (if stopped then [] else prompt) ++ [Byte.newline])
      ∧ hidden.console.out.accepted = c.out.accepted ++ read.flatMap answer
      ∧ shown.console.Boundless ∧ hidden.console.Boundless := by
  intro shown hidden read stopped
  have hshown : shown = _ := run_on_boundless hc ⟨prompt, true, stopOnError⟩ input
  have hhidden : hidden = _ := run_on_boundless hc ⟨prompt, false, stopOnError⟩ input
  rw [hshown, hhidden]
  refine ⟨rfl, rfl, Log.accepted_out_console hc _, ?_, Log.boundless_console hc _,
    Log.boundless_console hc _⟩
  -- Without a prompt, all that is written around the answers is empty.
  have hbare : read.flatMap (fun line => [] ++ answer line) ++ (if stopped then [] else []) ++ []
      = read.flatMap answer := by simp
  exact (Log.accepted_out_console hc _).trans (congrArg _ hbare)

/-- Behind an earlier result, a blank line and a line that fails get a prompt and no result, and
    nothing is read behind the latter. -/
theorem run_prompt_blank_stopped :
    let c := Console.unlimited.print (ascii "7\n")
    let s := run ⟨ascii "> ", true, true⟩ (ascii "1\n\n4/\n5\n") c
    c.Boundless ∧ s.console.out.accepted = ascii "7\n> 1\n> > \n" := by
  intro c s
  have hc : c.Boundless := ⟨⟨rfl, rfl⟩, ⟨rfl, rfl⟩⟩
  obtain ⟨-, -, hout, -⟩ := run_prompt (ascii "> ") (ascii "1\n\n4/\n5\n") true hc
  refine ⟨hc, hout.trans ?_⟩
  decide +kernel

end Repl

end ChainCalc
