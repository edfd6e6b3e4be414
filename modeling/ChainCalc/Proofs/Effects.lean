import ChainCalc.Proofs.Traces

namespace ChainCalc

/-!
# Effects — what the steps of the loop do, whatever the console

What a step of the loop writes and counts does not depend on where it writes.  Only
whether the loop goes on does, where the step looks for a failure.  An `Effect` keeps the
two apart, and each step of the loop is one.

* `Sink.Boundless`, `Console.Boundless` — sinks and consoles that never fail.
* `Console.write` — a text for each sink; two writes are one (`Console.write_write`).
* `resultLine`, `errorLine` — what a line adds to the results and to the errors.
* `Effect`, `Effect.apply` — an effect, and the step that it makes of a state.
* `Repl.offer_eq`, `submit_eq`, `feed_eq` — the steps of the loop are effects.
* `Log`, `Log.on` — what a run has written and counted, and the state that this makes of a
  console; an effect adds to the log (`Effect.apply_on_boundless`, `Effect.apply_on`).
-/

/-! ### Sinks that never fail -/

/-- A sink that never fails: it has not, and it has no limit. -/
structure Sink.Boundless (s : Sink) : Prop where
  whole : s.failed = false
  limitless : s.room = none

/-- A sink that never fails accepts every text, and never fails behind it. -/
theorem Sink.Boundless.write {s : Sink} (h : s.Boundless) (t : Text) :
    (s.write t).accepted = s.accepted ++ t ∧ (s.write t).Boundless := by
  refine ⟨s.accepted_write_of_room_none h.whole h.limitless t, ?_, ?_⟩
  · simp [Sink.write, h.whole, h.limitless]
  · simp [Sink.write, h.whole, h.limitless]

/-- A console that never fails: neither of its sinks does. -/
structure Console.Boundless (c : Console) : Prop where
  out : c.out.Boundless
  err : c.err.Boundless

/-! ### Writing to both sinks -/

namespace Console

/-- Write a text to the results and one to the errors. -/
def write (c : Console) (out err : Text) : Console := ⟨c.out.write out, c.err.write err⟩

@[simp] theorem write_nil (c : Console) : c.write [] [] = c := by
  simp [write]

/-- Two writes are one write of both texts. -/
@[simp] theorem write_write (c : Console) (out err out' err' : Text) :
    (c.write out err).write out' err' = c.write (out ++ out') (err ++ err') := by
  simp only [write, Sink.write_write]

theorem print_eq_write (c : Console) (t : Text) : c.print t = c.write t [] := by
  simp [print, write]

theorem complain_eq_write (c : Console) (t : Text) : c.complain t = c.write [] t := by
  simp [complain, write]

/-- A console has failed exactly when one of its sinks has. -/
theorem failed_iff (c : Console) :
    c.failed = true ↔ c.out.failed = true ∨ c.err.failed = true := by
  simp [failed]

theorem boundless_unlimited : unlimited.Boundless := ⟨⟨rfl, rfl⟩, ⟨rfl, rfl⟩⟩

namespace Boundless

variable {c : Console} (hc : c.Boundless) (out err : Text)
include hc

theorem failed_eq : c.failed = false := by
  rw [failed, hc.out.whole, hc.err.whole]
  rfl

/-- A console that never fails never fails behind a write either. -/
theorem write : (c.write out err).Boundless :=
  ⟨(hc.out.write out).2, (hc.err.write err).2⟩

/-- A console that never fails accepts all that is written. -/
theorem accepted_out_write : (c.write out err).out.accepted = c.out.accepted ++ out :=
  (hc.out.write out).1

theorem accepted_err_write : (c.write out err).err.accepted = c.err.accepted ++ err :=
  (hc.err.write err).1

end Boundless

end Console

/-! ### What a line adds -/

/-- Whether a line has a value. -/
def succeeds (line : Text) : Bool := (evaluate line).isOk

/-- What a line adds to the results: its value, if it has one. -/
def resultLine (line : Text) : Text :=
  match evaluate line with
  | .ok result => result.text ++ [Byte.newline]
  | .error _ => []

/-- What a line adds to the errors: its error, if it has one. -/
def errorLine (line : Text) : Text :=
  match evaluate line with
  | .ok _ => []
  | .error e => ascii "error: " ++ e.message ++ [Byte.newline]

/-- Evaluating a line writes what it adds. -/
theorem evalLine_eq (line : Text) (c : Console) :
    evalLine line c = (succeeds line, c.write (resultLine line) (errorLine line)) := by
  simp only [evalLine, succeeds, resultLine, errorLine]
  -- Either outcome writes to one sink, and nothing to the other.
  cases evaluate line with
  | ok result => exact congrArg (Prod.mk true) (c.print_eq_write _)
  | error e => exact congrArg (Prod.mk false) (c.complain_eq_write _)

namespace Repl

/-! ### Effects -/

/-- What a step does whatever the console: what it writes, how many lines and failures it
    counts, whether it looks for a failed console, and how it goes on if it finds none. -/
structure Effect where
  out : Text
  err : Text
  evaluated : Nat
  failed : Nat
  checked : Bool
  turn : Turn

namespace Effect

/-- No effect. -/
def idle : Effect := ⟨[], [], 0, 0, false, .next⟩

/-- Take the step of an effect. -/
def apply (f : Effect) (s : State) : Turn × State :=
  let console := s.console.write f.out f.err
  let evaluated := s.tally.evaluated + f.evaluated
  let failed := s.tally.failed + f.failed
  if f.checked && console.failed then (.abort, ⟨console, ⟨evaluated, failed, true⟩⟩)
  else (f.turn, ⟨console, ⟨evaluated, failed, s.tally.outputError⟩⟩)

@[simp] theorem apply_idle (s : State) : idle.apply s = (.next, s) := by
  simp [apply, idle]

end Effect

/-- The effect of the prompt. -/
def offering (o : Options) : Effect :=
  if o.showPrompt then ⟨o.prompt, [], 0, 0, true, .next⟩ else .idle

/-- The effect of a line that is handed to evaluation. -/
def submission (stopOnError : Bool) (line : Text) : Effect :=
  if line.isBlank then .idle
  else
    ⟨resultLine line, errorLine line, 1, if succeeds line then 0 else 1, true,
      if !succeeds line && stopOnError then .finish else .next⟩

theorem offer_eq (o : Options) (s : State) : offer o s = (offering o).apply s := by
  unfold offer offering
  by_cases hprompt : o.showPrompt = true
  · simp [hprompt, Effect.apply, Console.print_eq_write]
  · simp [hprompt]

theorem submit_eq (stopOnError : Bool) (s : State) (line : Text) :
    submit stopOnError s line = (submission stopOnError line).apply s := by
  unfold submit submission
  by_cases hblank : line.isBlank = true
  · simp [hblank]
  · simp only [hblank, evalLine_eq, Effect.apply]
    -- The count of failures is all that is written differently.
    cases succeeds line <;> rfl

theorem feed_eq (o : Options) (s : State) (line : Text) :
    feed o s line = (submission o.stopOnError line.chopReturn).apply s :=
  submit_eq _ _ _

/-- The effect of the newline that a waiting prompt gets at the end. -/
def closing (o : Options) : Effect :=
  if o.showPrompt then ⟨[Byte.newline], [], 0, 0, true, .finish⟩ else .idle

/-- The prompt is shown, or it aborts the loop; it counts no line. -/
theorem offer_cases (o : Options) (s : State) :
    (∃ s', offer o s = (.next, s') ∧ s'.tally.evaluated = s.tally.evaluated
        ∧ (o.showPrompt = true ∨ s.console.failed = false → s'.console.failed = false))
      ∨ ∃ s', offer o s = (.abort, s') ∧ s'.tally.evaluated = s.tally.evaluated := by
  unfold offer
  by_cases hprompt : o.showPrompt = true
  · by_cases hfailed : (s.console.print o.prompt).failed = true
    · simp [hprompt, hfailed]
    · simp [hprompt, hfailed]
  · simp [hprompt]

/-- No prompt aborts the loop by itself, nor ends it. -/
@[simp] theorem turn_offering (o : Options) : (offering o).turn = .next := by
  unfold offering
  split <;> rfl

/-- No line aborts the loop by itself. -/
theorem turn_submission_ne_abort (stopOnError : Bool) (line : Text) :
    (submission stopOnError line).turn ≠ .abort := by
  intro h
  unfold submission at h
  by_cases hblank : line.isBlank = true
  · simp [hblank, Effect.idle] at h
  · by_cases hstop : (!succeeds line && stopOnError) = true
    · simp [hblank, hstop] at h
    · simp [hblank, hstop] at h

/-! ### Logs -/

/-- What a run has written and counted so far. -/
structure Log where
  out : Text
  err : Text
  evaluated : Nat
  failed : Nat

namespace Log

/-- Nothing is written or counted yet. -/
def empty : Log := ⟨[], [], 0, 0⟩

/-- The log behind an effect. -/
def add (l : Log) (f : Effect) : Log :=
  ⟨l.out ++ f.out, l.err ++ f.err, l.evaluated + f.evaluated, l.failed + f.failed⟩

@[simp] theorem add_idle (l : Log) : l.add .idle = l := by
  simp [add, Effect.idle]

/-- What has been written, on a console. -/
def console (l : Log) (c : Console) : Console := c.write l.out l.err

/-- The run in progress that has written and counted so much on a console. -/
def on (l : Log) (c : Console) : State := ⟨l.console c, ⟨l.evaluated, l.failed, false⟩⟩

/-- The run that was aborted when it had written and counted so much. -/
def abortedOn (l : Log) (c : Console) : State :=
  ⟨l.console c, ⟨l.evaluated, l.failed, true⟩⟩

/-- A run that has read nothing yet has an empty log. -/
theorem on_empty (c : Console) : empty.on c = State.start c := by
  simp [on, console, empty, State.start]

theorem console_add (l : Log) (f : Effect) (c : Console) :
    (l.add f).console c = (l.console c).write f.out f.err := by
  simp [console, add]

section

variable {c : Console} (hc : c.Boundless) (l : Log)
include hc

/-- A console that never fails has accepted what the log says. -/
theorem accepted_out_console : (l.console c).out.accepted = c.out.accepted ++ l.out :=
  hc.accepted_out_write l.out l.err

theorem accepted_err_console : (l.console c).err.accepted = c.err.accepted ++ l.err :=
  hc.accepted_err_write l.out l.err

theorem boundless_console : (l.console c).Boundless := hc.write l.out l.err

end

@[simp] theorem accepted_out_unlimited (l : Log) :
    (l.console Console.unlimited).out.accepted = l.out :=
  l.accepted_out_console Console.boundless_unlimited

@[simp] theorem accepted_err_unlimited (l : Log) :
    (l.console Console.unlimited).err.accepted = l.err :=
  l.accepted_err_console Console.boundless_unlimited

end Log

/-- On a console that never fails, a step adds its effect to the log and goes on as the effect
    says. -/
theorem Effect.apply_on_boundless {c : Console} (hc : c.Boundless) (f : Effect) (l : Log) :
    f.apply (l.on c) = (f.turn, (l.add f).on c) := by
  have hfailed := ((l.add f).boundless_console hc).failed_eq
  rw [Log.console_add] at hfailed
  simp only [Effect.apply, Log.on, hfailed, Log.console_add, Bool.and_false, Bool.false_eq_true,
    if_false]
  rfl

/-- On any console, a step adds its effect to the log, and goes on as the effect says or
    aborts at a failed console. -/
theorem Effect.apply_on (f : Effect) (l : Log) (c : Console) :
    f.apply (l.on c) = (f.turn, (l.add f).on c)
      ∨ ((l.add f).console c).failed = true ∧ f.apply (l.on c) = (.abort, (l.add f).abortedOn c) := by
  have hconsole := l.console_add f c
  -- The step aborts only if it looks for a failure and there is one.
  by_cases h : f.checked && ((l.console c).write f.out f.err).failed
  · refine .inr ⟨?_, ?_⟩
    · rw [hconsole]
      rw [Bool.and_eq_true] at h
      exact h.2
    · simp only [Effect.apply, Log.on, h, if_true, Log.abortedOn, hconsole]
      rfl
  · refine .inl ?_
    simp only [Effect.apply, Log.on, h, hconsole]
    rfl

/-- Ending the run adds the closing newline to the log, and then tells whether the
    console has failed. -/
theorem close_on (o : Options) (l : Log) (c : Console) :
    close o (l.on c) =
      ⟨(l.add (closing o)).console c,
        ⟨l.evaluated, l.failed, ((l.add (closing o)).console c).failed⟩⟩ := by
  rw [Log.console_add]
  unfold close closing
  cases o.showPrompt <;> simp [Log.on, Effect.idle, Console.print_eq_write]

/-! ### Steps on a console -/

/-- On any console, the prompt is shown or finds it failed. -/
theorem offer_on (o : Options) (l : Log) (c : Console) :
    offer o (l.on c) = (.next, (l.add (offering o)).on c)
      ∨ ((l.add (offering o)).console c).failed = true
        ∧ offer o (l.on c) = (.abort, (l.add (offering o)).abortedOn c) := by
  rw [offer_eq, ← turn_offering o]
  exact (offering o).apply_on l c

section

variable {c : Console} (hc : c.Boundless) (o : Options) (l : Log)
include hc

/-- On a console that never fails, the prompt is always shown. -/
theorem offer_on_boundless : offer o (l.on c) = (.next, (l.add (offering o)).on c) := by
  rw [offer_eq, Effect.apply_on_boundless hc, turn_offering]

/-- On a console that never fails, a line goes on as its effect says. -/
theorem feed_on_boundless (line : Text) :
    feed o (l.on c) line
      = ((submission o.stopOnError line.chopReturn).turn,
        (l.add (submission o.stopOnError line.chopReturn)).on c) := by
  rw [feed_eq, Effect.apply_on_boundless hc]

/-- On a console that never fails, ending the run adds the closing newline and finds no
    failure. -/
theorem close_on_boundless : close o (l.on c) = (l.add (closing o)).on c := by
  rw [close_on, ((l.add (closing o)).boundless_console hc).failed_eq]
  unfold closing
  cases o.showPrompt <;> rfl

end

end Repl

end ChainCalc
