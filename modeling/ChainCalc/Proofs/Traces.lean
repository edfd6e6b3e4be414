import ChainCalc.Repl

namespace ChainCalc

/-!
# Traces — the points that a run passes

A loop takes the steps that are due until nothing is.  The points that it takes them from say
all that there is to know about a run: which lines it reads, which of them it evaluates, and
what it does in between are read off from them.

* `Repl.Loop.trace` — the points that a run passes.
* `Repl.Loop.isPrefix_trace` — the lines that a run reads are the first of those that are left.
* `Repl.Loop.run_offer_abort`, `run_offer_nil`, `run_offer_cons` — a run, from one line to the
  next; `Repl.Loop.resume` is how it goes on behind a line.
-/

namespace Repl

/-- The lines that are left are the one that is read, if one is, and those beyond. -/
theorem Point.unread_eq (p : Point) : p.unread = p.line?.toList ++ p.beyond := by
  unfold line? beyond
  split
  · cases p.unread <;> rfl
  · rfl

namespace Loop

variable {l : Loop} {p : Point} {s s' : State}

/-- The points of a run that a step is taken from. -/
def trace (l : Loop) (p : Point) : List Point :=
  if _ : p.stage = .ended then [] else p :: l.trace (l.advance p)
termination_by p.stepsLeft
decreasing_by exact l.stepsLeft_advance_lt ‹_›

/-! ### One step -/

theorem run_of_ended (h : p.stage = .ended) : l.run p = p.state := by
  rw [run, dif_pos h]

theorem run_of_due (h : p.stage ≠ .ended) : l.run p = l.run (l.advance p) := by
  rw [run, dif_neg h]

theorem trace_of_ended (h : p.stage = .ended) : l.trace p = [] := by
  rw [trace, dif_pos h]

theorem trace_of_due (h : p.stage ≠ .ended) : l.trace p = p :: l.trace (l.advance p) := by
  rw [trace, dif_neg h]

/-- **Run lemma.**  The lines that a run reads are the first of those that are left. -/
theorem isPrefix_trace (l : Loop) (p : Point) : (l.trace p).filterMap Point.line? <+: p.unread := by
  fun_induction trace l p with
  | case1 p h => exact List.nil_prefix
  | case2 p h ih =>
    have hline : [p].filterMap Point.line? = p.line?.toList := by
      cases hp : p.line? <;> simp [hp]
    rw [← List.singleton_append, List.filterMap_append, hline, p.unread_eq]
    exact (List.prefix_append_right_inj _).2 ih

/-! ### From one line to the next -/

/-- How a run goes on behind a line, with the lines that are left. -/
def resume (l : Loop) (more : List Text) (step : Turn × State) : State :=
  l.run ⟨step.1.stage .offer, step.2, more⟩

/-- At its end, a run is closed. -/
theorem run_close (s : State) (lines : List Text) : l.run ⟨.close, s, lines⟩ = l.close s := by
  rw [run_of_due Stage.noConfusion]
  exact run_of_ended rfl

@[simp] theorem resume_finish (s : State) (more : List Text) :
    l.resume more (.finish, s) = l.close s :=
  run_close s more

@[simp] theorem resume_abort (s : State) (more : List Text) : l.resume more (.abort, s) = s :=
  run_of_ended rfl

/-- What cannot ask for a line ends the run. -/
theorem run_offer_abort (h : l.offer s = (.abort, s')) (lines : List Text) :
    l.run ⟨.offer, s, lines⟩ = s' := by
  rw [run_of_due Stage.noConfusion]
  show l.run ⟨(l.offer s).1.stage .read, (l.offer s).2, lines⟩ = s'
  rw [h]
  exact run_of_ended rfl

/-- Behind the last line, a run is closed. -/
theorem run_offer_nil (h : l.offer s = (.next, s')) :
    l.run ⟨.offer, s, []⟩ = l.close s' := by
  rw [run_of_due Stage.noConfusion]
  show l.run ⟨(l.offer s).1.stage .read, (l.offer s).2, []⟩ = l.close s'
  rw [h, run_of_due Stage.noConfusion]
  exact run_close s' []

/-- A line is taken, and the run goes on as that says. -/
theorem run_offer_cons (h : l.offer s = (.next, s')) (line : Text) (more : List Text) :
    l.run ⟨.offer, s, line :: more⟩ = l.resume more (l.take s' line) := by
  rw [run_of_due Stage.noConfusion]
  show l.run ⟨(l.offer s).1.stage .read, (l.offer s).2, line :: more⟩ = _
  rw [h, run_of_due Stage.noConfusion]
  rfl

end Loop

/-! ### The loop over the lines of an input -/

section

variable {o : Options} {s s' : State}

/-- A prompt that cannot be shown ends the run. -/
theorem loop_of_offer_abort (h : offer o s = (.abort, s')) (lines : List Text) :
    loop o s lines = s' :=
  Loop.run_offer_abort h lines

/-- Behind the last line, the run is ended. -/
theorem loop_nil_of_offer (h : offer o s = (.next, s')) : loop o s [] = close o s' :=
  Loop.run_offer_nil h

/-- A line is fed, and the loop goes on as that says. -/
theorem loop_cons_of_offer (h : offer o s = (.next, s')) (line : Text) (more : List Text) :
    loop o s (line :: more) = (lineLoop o).resume more (feed o s' line) :=
  Loop.run_offer_cons h line more

theorem resume_next (o : Options) (s : State) (more : List Text) :
    (lineLoop o).resume more (.next, s) = loop o s more := rfl

end

end Repl

end ChainCalc
