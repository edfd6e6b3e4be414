import ChainCalc.Evaluation
import ChainCalc.Sink

namespace ChainCalc

/-!
# The read-evaluate-print loop

Each line of the input that is not blank is evaluated by itself, and its result or its
error is written as one line.  The loop ends with the input, at the first error if it
is to stop there, or as soon as something could not be written.

* `evalLine`, `evalEach` — evaluate one line, or several, and write the outcomes.
* `Repl.submit` — count and evaluate one line, and decide how to go on.
* `Repl.offer`, `Repl.feed`, `Repl.close` — the steps of the loop: the prompt, one line of
  input, the end.
* `Repl.Loop`, `Repl.Loop.step` — a loop over lines, and the step of it that is due.
* `Repl.Loop.run` — take steps until nothing is due; `Repl.lineLoop` is the loop over the
  lines of an input, and `Repl.run` runs it over a whole input.
-/

/-- Evaluate a line and write one line: the result, or the error.  The flag says whether
    the line has a value. -/
def evalLine (line : Text) (c : Console) : Bool × Console :=
  match evaluate line with
  | .ok result => (true, c.print (result.text ++ [Byte.newline]))
  | .error e => (false, c.complain (ascii "error: " ++ e.message ++ [Byte.newline]))

/-- Evaluate lines one after the other on one console: for each, whether it has a value,
    and the console behind it. -/
def evalEach : List Text → Console → List (Bool × Console)
  | [], _ => []
  | line :: more, c => evalLine line c :: evalEach more (evalLine line c).2

namespace Repl

/-- How the loop behaves. -/
structure Options where
  prompt : Text
  showPrompt : Bool
  stopOnError : Bool
  deriving DecidableEq

/-- The prompt, unless another is chosen. -/
def defaultPrompt : Text := ascii "calc> "

/-- The behaviour, unless something else is chosen. -/
def Options.default : Options := ⟨defaultPrompt, true, false⟩

/-- What a run adds up to: the lines evaluated, those of them that failed, and whether
    it ended with a failed console. -/
structure Tally where
  evaluated : Nat
  failed : Nat
  outputError : Bool
  deriving DecidableEq

/-- A run in progress. -/
structure State where
  console : Console
  tally : Tally
  deriving DecidableEq

/-- A run that has read nothing yet. -/
def State.start (c : Console) : State := ⟨c, ⟨0, 0, false⟩⟩

/-- How a run goes on after a step. -/
inductive Turn where
  /-- With the next line. -/
  | next
  /-- With the end, as if the input were over. -/
  | finish
  /-- Not at all: something could not be written. -/
  | abort
  deriving DecidableEq

/-! ### Steps -/

/-- Evaluate a line unless it is blank. -/
def submit (stopOnError : Bool) (s : State) (line : Text) : Turn × State :=
  if line.isBlank then (.next, s)
  else
    let (ok, console) := evalLine line s.console
    let evaluated := s.tally.evaluated + 1
    let failed := if ok then s.tally.failed else s.tally.failed + 1
    if console.failed then (.abort, ⟨console, ⟨evaluated, failed, true⟩⟩)
    else
      let turn := if !ok && stopOnError then .finish else .next
      (turn, ⟨console, ⟨evaluated, failed, s.tally.outputError⟩⟩)

/-- Show the prompt, if there is to be one. -/
def offer (o : Options) (s : State) : Turn × State :=
  if o.showPrompt then
    let console := s.console.print o.prompt
    if console.failed then (.abort, ⟨console, { s.tally with outputError := true }⟩)
    else (.next, { s with console })
  else (.next, s)

/-- Take one line of input.  A carriage return at its end is not part of it. -/
def feed (o : Options) (s : State) (line : Text) : Turn × State :=
  submit o.stopOnError s line.chopReturn

/-- End the run.  A prompt that waits for a line gets a newline instead. -/
def close (o : Options) (s : State) : State :=
  let console := if o.showPrompt then s.console.print [Byte.newline] else s.console
  ⟨console, { s.tally with outputError := console.failed }⟩

/-! ### Loops over lines -/

/-- What is due in a run. -/
inductive Stage where
  /-- To ask for a line. -/
  | offer
  /-- To read a line and do something with it. -/
  | read
  /-- To end the run. -/
  | close
  /-- Nothing more. -/
  | ended
  deriving DecidableEq

/-- What is due behind a step, where `next` is due if the run goes on. -/
def Turn.stage (next : Stage) : Turn → Stage
  | .next => next
  | .finish => .close
  | .abort => .ended

/-- A loop over lines: what it does in front of a line, with a line, and at the end. -/
structure Loop where
  offer : State → Turn × State
  take : State → Text → Turn × State
  close : State → State

/-- The step that is due.  Where a line is to be read, it is given if there is one. -/
def Loop.step (l : Loop) (line? : Option Text) (s : State) : Stage → Stage × State
  | .offer => onward .read (l.offer s)
  | .read =>
    match line? with
    | some line => onward .offer (l.take s line)
    | none => (.close, s)
  | .close => (.ended, l.close s)
  | .ended => (.ended, s)
where
  /-- What is due behind a step, and the state. -/
  onward (next : Stage) (step : Turn × State) : Stage × State := (step.1.stage next, step.2)

/-- A point of a run: what is due, the state, and the lines that are not read yet. -/
structure Point where
  stage : Stage
  state : State
  unread : List Text

namespace Point

/-- The line that is read at a point, if one is. -/
def line? (p : Point) : Option Text := if p.stage = .read then p.unread.head? else none

/-- The lines that are left behind a point. -/
def beyond (p : Point) : List Text := if p.stage = .read then p.unread.tail else p.unread

/-- A bound on the steps that are left. -/
def stepsLeft (p : Point) : Nat := 2 * p.unread.length + rank p.stage
where
  /-- The order in which steps are due, the last one first. -/
  rank : Stage → Nat
    | .offer => 3
    | .read => 2
    | .close => 1
    | .ended => 0

end Point

/-- The point behind a step. -/
def Loop.advance (l : Loop) (p : Point) : Point :=
  let (stage, state) := l.step p.line? p.state p.stage
  ⟨stage, state, p.beyond⟩

/-- A run that does not go on is at its end, or past it. -/
theorem Point.rank_stage_le (turn : Turn) (next : Stage) :
    stepsLeft.rank (turn.stage next) ≤ max (stepsLeft.rank next) 1 := by
  cases turn <;> simp only [Turn.stage, stepsLeft.rank] <;> omega

/-- No step leaves as many steps as before. -/
theorem Loop.stepsLeft_advance_lt (l : Loop) {p : Point} (h : p.stage ≠ .ended) :
    (l.advance p).stepsLeft < p.stepsLeft := by
  obtain ⟨stage, s, unread⟩ := p
  cases stage with
  | offer =>
    have hrank : Point.stepsLeft.rank ((l.offer s).1.stage .read) ≤ 2 := Point.rank_stage_le _ _
    show 2 * unread.length + Point.stepsLeft.rank ((l.offer s).1.stage .read)
      < 2 * unread.length + 3
    omega
  | read =>
    cases unread with
    | nil => exact Nat.lt_add_one 1
    | cons line more =>
      have hrank : Point.stepsLeft.rank ((l.take s line).1.stage .offer) ≤ 3 :=
        Point.rank_stage_le _ _
      show 2 * more.length + Point.stepsLeft.rank ((l.take s line).1.stage .offer)
        < 2 * (more.length + 1) + 2
      omega
  | close => exact Nat.lt_add_one (2 * unread.length)
  | ended => exact absurd rfl h

/-- Take the steps that are due until nothing is. -/
def Loop.run (l : Loop) (p : Point) : State :=
  if _ : p.stage = .ended then p.state else l.run (l.advance p)
termination_by p.stepsLeft
decreasing_by exact l.stepsLeft_advance_lt ‹_›

/-! ### Runs -/

/-- The loop over the lines of an input. -/
def lineLoop (o : Options) : Loop := ⟨offer o, feed o, close o⟩

/-- The run of the loop over the lines that are left. -/
def loop (o : Options) (s : State) (lines : List Text) : State :=
  (lineLoop o).run ⟨.offer, s, lines⟩

/-- The loop over an input. -/
def run (o : Options) (input : Text) (c : Console) : State :=
  loop o (State.start c) input.lines

end Repl

end ChainCalc
