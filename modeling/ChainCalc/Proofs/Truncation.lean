import ChainCalc.Proofs.Effects

namespace ChainCalc

/-!
# Truncation — a run on a console that may fail

A run on any console does what the run without limits does, until it finds its console
failed.  What it has accepted then is the front of what the other run writes, and it
evaluates no further line.

* `Repl.Log.Before` — one log is an earlier one of the same run than another.
* `Repl.Truncation` — how a run on a console compares with the run without limits.
* `Repl.loop_truncation` — **run lemma**: the loop is a truncation of the loop without
  limits.
* `Repl.evaluations` — the lines that the loop evaluates, each with the console as it
  stands just before.
* `Repl.stepped` — **step lemma**: what one step of the loop evaluates and counts, and on
  which console it goes on.
* `Repl.run_truncated` — what a run on two sinks of any room writes, counts and reports.
-/

/-! ### What a sink accepts -/

namespace Sink

/-- A sink has failed behind a text if it had, or if the text is longer than its room. -/
theorem failed_write_iff (s : Sink) (t : Text) :
    (s.write t).failed = true ↔ s.failed = true ∨ ∃ n, s.room = some n ∧ n < t.length := by
  obtain ⟨reversed, room, failed⟩ := s
  cases failed with
  | true => simp [write]
  | false =>
    cases room with
    | none => simp [write]
    | some n =>
      by_cases h : t.length ≤ n
      · simp [write, h]
      · simp [write, h, Nat.lt_of_not_le h]

/-- A failed sink has failed behind every text. -/
theorem failed_write_of_failed {s : Sink} (h : s.failed = true) (t : Text) :
    (s.write t).failed = true :=
  (s.failed_write_iff t).2 (.inl h)

/-- A sink that has not failed has accepted all that was written. -/
theorem accepted_write_of_not_failed {s : Sink} {t : Text} (h : (s.write t).failed = false) :
    (s.write t).accepted = s.accepted ++ t := by
  obtain ⟨reversed, room, failed⟩ := s
  cases failed with
  | true => simp [write] at h
  | false =>
    cases room with
    | none => simp [write, accepted]
    | some n =>
      by_cases hn : t.length ≤ n
      · simp [write, accepted, hn]
      · simp [write, hn] at h

/-- What a sink accepts is a front of what is written. -/
theorem accepted_write_prefix (s : Sink) (t : Text) :
    (s.write t).accepted <+: s.accepted ++ t := by
  obtain ⟨reversed, room, failed⟩ := s
  cases failed with
  | true => simp [write, accepted]
  | false =>
    cases room with
    | none => simp [write, accepted]
    | some n =>
      by_cases hn : t.length ≤ n
      · simp [write, accepted, hn]
      · simp [write, accepted, hn, List.take_prefix]

/-- A sink that has failed behind a text has failed behind every longer one. -/
theorem failed_write_of_prefix {s : Sink} {t u : Text} (hu : t <+: u)
    (h : (s.write t).failed = true) : (s.write u).failed = true := by
  obtain ⟨more, rfl⟩ := hu
  rw [← write_write]
  exact failed_write_of_failed h more

end Sink

namespace Repl

/-! ### Earlier logs -/

/-- A log is an earlier one of the same run: the other goes on from it. -/
structure Log.Before (l l' : Log) : Prop where
  out : l.out <+: l'.out
  err : l.err <+: l'.err
  evaluated : l.evaluated ≤ l'.evaluated
  failed : l.failed ≤ l'.failed

namespace Log.Before

theorem refl (l : Log) : l.Before l :=
  ⟨List.prefix_rfl, List.prefix_rfl, Nat.le_refl _, Nat.le_refl _⟩

theorem trans {l l' l'' : Log} (h : l.Before l') (h' : l'.Before l'') : l.Before l'' :=
  ⟨h.out.trans h'.out, h.err.trans h'.err, Nat.le_trans h.evaluated h'.evaluated,
    Nat.le_trans h.failed h'.failed⟩

/-- An effect leaves the log before it behind. -/
theorem add (l : Log) (f : Effect) : l.Before (l.add f) :=
  ⟨List.prefix_append _ _, List.prefix_append _ _, Nat.le_add_right _ _,
    Nat.le_add_right _ _⟩

/-- A console that has failed behind a log has failed behind every later one. -/
theorem failed_console {l l' : Log} (h : l.Before l') {c : Console}
    (hc : (l.console c).failed = true) : (l'.console c).failed = true := by
  rw [Console.failed_iff] at hc ⊢
  exact hc.imp (Sink.failed_write_of_prefix h.out) (Sink.failed_write_of_prefix h.err)

end Log.Before

/-- Without limits, ending the run goes on from its log. -/
theorem close_before (o : Options) (l : Log) :
    ∃ l', close o (l.on Console.unlimited) = l'.on Console.unlimited ∧ l.Before l' :=
  ⟨_, close_on_boundless Console.boundless_unlimited o l, .add l _⟩

/-- Without limits, the loop goes on from the log behind its prompt.  By induction on the
    lines. -/
theorem loop_before (o : Options) (l : Log) (lines : List Text) :
    ∃ l', loop o (l.on Console.unlimited) lines = l'.on Console.unlimited
      ∧ (l.add (offering o)).Before l' := by
  induction lines generalizing l with
  | nil =>
    rw [loop_nil_of_offer (offer_on_boundless Console.boundless_unlimited o l)]
    exact close_before o _
  | cons line more ih =>
    -- The log behind the prompt and the line.
    let l₂ := (l.add (offering o)).add (submission o.stopOnError line.chopReturn)
    have hl₂ : (l.add (offering o)).Before l₂ := .add _ _
    rw [loop_cons_of_offer (offer_on_boundless Console.boundless_unlimited o l),
      feed_on_boundless Console.boundless_unlimited]
    cases h : (submission o.stopOnError line.chopReturn).turn with
    | next =>
      obtain ⟨l', hloop, hl'⟩ := ih l₂
      exact ⟨l', hloop, hl₂.trans ((Log.Before.add l₂ _).trans hl')⟩
    | finish =>
      obtain ⟨l', hclose, hl'⟩ := close_before o l₂
      exact ⟨l', (Loop.resume_finish _ more).trans hclose, hl₂.trans hl'⟩
    | abort => exact absurd h (turn_submission_ne_abort _ _)

/-- Without limits, the loop goes on from the log behind a line that does not abort it. -/
theorem resume_before (o : Options) (l : Log) (more : List Text) {turn : Turn}
    (hturn : turn ≠ .abort) :
    ∃ l', (lineLoop o).resume more (turn, l.on Console.unlimited) = l'.on Console.unlimited
      ∧ l.Before l' := by
  cases turn with
  | next =>
    obtain ⟨l', hloop, hl'⟩ := loop_before o l more
    exact ⟨l', hloop, (Log.Before.add l _).trans hl'⟩
  | finish =>
    rw [Loop.resume_finish]
    exact close_before o l
  | abort => exact absurd rfl hturn

/-! ### Truncation -/

/-- How a run on a console compares with the run without limits: they end alike, or the
    first is over at an earlier log, at which its console has failed. -/
inductive Truncation (c : Console) : State → State → Prop where
  | whole (l : Log) (h : (l.console c).failed = false) :
      Truncation c (l.on c) (l.on Console.unlimited)
  | cut {l l' : Log} (hl : l.Before l') (h : (l.console c).failed = true) :
      Truncation c (l.abortedOn c) (l'.on Console.unlimited)

namespace Truncation

variable {c : Console} {s t : State}

/-- The log that a truncated run ends at, and the one that the run without limits goes on
    to: a run that leaves its console whole has them the same. -/
theorem exists_logs (h : Truncation c s t) :
    ∃ l l' : Log, l.Before l'
      ∧ s = ⟨l.console c, ⟨l.evaluated, l.failed, (l.console c).failed⟩⟩
      ∧ t = l'.on Console.unlimited
      ∧ ((l.console c).failed = false → l = l') := by
  cases h with
  | whole l hwhole =>
    refine ⟨l, l, .refl l, ?_, rfl, fun _ => rfl⟩
    rw [hwhole]
    rfl
  | @cut l l' hl hcut =>
    refine ⟨l, l', hl, ?_, rfl, fun hwhole => ?_⟩
    · rw [hcut]
      rfl
    · rw [hcut] at hwhole
      contradiction

/-- A truncated run reports a failure exactly when its console has failed. -/
theorem outputError_eq (h : Truncation c s t) : s.tally.outputError = s.console.failed := by
  obtain ⟨l, l', -, rfl, -, -⟩ := h.exists_logs
  rfl

/-- The console of a truncated run has failed exactly when it could not take all that the
    run without limits writes. -/
theorem failed_iff (h : Truncation c s t) :
    s.console.failed = true ↔
      (c.write t.console.out.accepted t.console.err.accepted).failed = true := by
  obtain ⟨l, l', hl, rfl, rfl, hwhole⟩ := h.exists_logs
  show (l.console c).failed = true ↔ (c.write (l'.console Console.unlimited).out.accepted
    (l'.console Console.unlimited).err.accepted).failed = true
  rw [Log.accepted_out_unlimited, Log.accepted_err_unlimited]
  constructor
  · exact hl.failed_console
  · intro hfailed
    -- Had the first run left its console whole, both would end at the same log.
    cases hcut : (l.console c).failed with
    | true => rfl
    | false =>
      rw [← hwhole hcut] at hfailed
      exact hcut.symm.trans hfailed

/-- From sinks that have accepted nothing, what a truncated run gets through is a front of
    what the run without limits writes. -/
theorem accepted_prefix (h : Truncation c s t) (hout : c.out.accepted = [])
    (herr : c.err.accepted = []) :
    s.console.out.accepted <+: t.console.out.accepted
      ∧ s.console.err.accepted <+: t.console.err.accepted := by
  obtain ⟨l, l', hl, rfl, rfl, -⟩ := h.exists_logs
  have hfront := Sink.accepted_write_prefix c.out l.out
  have hfront' := Sink.accepted_write_prefix c.err l.err
  rw [hout, List.nil_append] at hfront
  rw [herr, List.nil_append] at hfront'
  show (l.console c).out.accepted <+: (l'.console Console.unlimited).out.accepted
    ∧ (l.console c).err.accepted <+: (l'.console Console.unlimited).err.accepted
  rw [Log.accepted_out_unlimited, Log.accepted_err_unlimited]
  exact ⟨hfront.trans hl.out, hfront'.trans hl.err⟩

/-- From sinks that have accepted nothing, a truncated run that leaves its console whole
    writes and counts what the run without limits does. -/
theorem eq_of_not_failed (h : Truncation c s t) (hout : c.out.accepted = [])
    (herr : c.err.accepted = []) (hs : s.console.failed = false) :
    s.console.out.accepted = t.console.out.accepted
      ∧ s.console.err.accepted = t.console.err.accepted
      ∧ s.tally.evaluated = t.tally.evaluated ∧ s.tally.failed = t.tally.failed := by
  obtain ⟨l, l', -, rfl, rfl, hwhole⟩ := h.exists_logs
  obtain rfl := hwhole hs
  obtain ⟨hs_out, hs_err⟩ := Bool.or_eq_false_iff.1 hs
  have hall := Sink.accepted_write_of_not_failed hs_out
  have hall' := Sink.accepted_write_of_not_failed hs_err
  rw [hout, List.nil_append] at hall
  rw [herr, List.nil_append] at hall'
  refine ⟨?_, ?_, rfl, rfl⟩
  · exact hall.trans (Log.accepted_out_unlimited l).symm
  · exact hall'.trans (Log.accepted_err_unlimited l).symm

/-- A truncated run counts no more than the run without limits. -/
theorem counts_le (h : Truncation c s t) :
    s.tally.evaluated ≤ t.tally.evaluated ∧ s.tally.failed ≤ t.tally.failed := by
  obtain ⟨l, l', hl, rfl, rfl, -⟩ := h.exists_logs
  exact ⟨hl.evaluated, hl.failed⟩

end Truncation

/-- Runs that end at the same log are truncations of each other. -/
theorem close_truncation (o : Options) (c : Console) (l : Log) :
    Truncation c (close o (l.on c)) (close o (l.on Console.unlimited)) := by
  -- The closing newline is written, but it counts no line.
  have hcounts : (l.add (closing o)).evaluated = l.evaluated
      ∧ (l.add (closing o)).failed = l.failed := by
    unfold closing
    cases o.showPrompt <;> exact ⟨rfl, rfl⟩
  have hclose := close_on o l c
  rw [close_on_boundless Console.boundless_unlimited, hclose]
  cases hfailed : ((l.add (closing o)).console c).failed with
  | false =>
    have hwhole := Truncation.whole (l.add (closing o)) hfailed
    simpa only [Log.on, hcounts.1, hcounts.2] using hwhole
  | true =>
    have hcut := Truncation.cut (.refl (l.add (closing o))) hfailed
    simpa only [Log.abortedOn, hcounts.1, hcounts.2] using hcut

/-- **Run lemma.**  From the same log, the loop on a console is a truncation of the loop
    without limits.  By induction on the lines; each step either does the same on both
    consoles or aborts on the first. -/
theorem loop_truncation (o : Options) (c : Console) (l : Log) (lines : List Text) :
    Truncation c (loop o (l.on c) lines) (loop o (l.on Console.unlimited) lines) := by
  induction lines generalizing l with
  | nil =>
    have hfree := offer_on_boundless Console.boundless_unlimited o l
    rcases offer_on o l c with hoffer | ⟨hfailed, hoffer⟩
    · rw [loop_nil_of_offer hoffer, loop_nil_of_offer hfree]
      exact close_truncation o c _
    · rw [loop_of_offer_abort hoffer, loop_nil_of_offer hfree,
        close_on_boundless Console.boundless_unlimited]
      exact .cut (.add _ _) hfailed
  | cons line more ih =>
    have hfree := offer_on_boundless Console.boundless_unlimited o l
    rcases offer_on o l c with hoffer | ⟨hfailed, hoffer⟩
    · -- The prompt is shown on both consoles, and the line is fed to both.
      rw [loop_cons_of_offer hoffer, loop_cons_of_offer hfree,
        feed_on_boundless Console.boundless_unlimited, feed_eq]
      have hturn := turn_submission_ne_abort o.stopOnError line.chopReturn
      rcases (submission o.stopOnError line.chopReturn).apply_on (l.add (offering o)) c with
        hfeed | ⟨hfailed, hfeed⟩
      · rw [hfeed]
        cases h : (submission o.stopOnError line.chopReturn).turn with
        | next => exact ih _
        | finish =>
          rw [Loop.resume_finish, Loop.resume_finish]
          exact close_truncation o c _
        | abort => exact absurd h hturn
      · -- The line finds the console failed; without limits the loop goes on from there.
        obtain ⟨l', hresume, hl'⟩ := resume_before o _ more hturn
        rw [hfeed, hresume, Loop.resume_abort]
        exact .cut hl' hfailed
    · -- The prompt finds the console failed, in front of the line.
      obtain ⟨l', hloop, hl'⟩ := loop_before o l (line :: more)
      rw [loop_of_offer_abort hoffer, hloop]
      exact .cut hl' hfailed

/-- A run on a console is a truncation of the run without limits. -/
theorem run_truncation (o : Options) (input : Text) (c : Console) :
    Truncation c (run o input c) (run o input Console.unlimited) := by
  rw [run, run, ← Log.on_empty, ← Log.on_empty]
  exact loop_truncation o c .empty input.lines

/-! ### The lines that are evaluated -/

/-- The line that the loop evaluates at a point, if it does, with the console just before. -/
def Point.evaluation? (p : Point) : Option (Text × Console) :=
  match p.line? with
  | some line =>
    if line.chopReturn.isBlank then none else some (line.chopReturn, p.state.console)
  | none => none

/-- The lines that the loop evaluates, each with the console as it stands just before. -/
def evaluations (o : Options) (s : State) (lines : List Text) : List (Text × Console) :=
  ((lineLoop o).trace ⟨.offer, s, lines⟩).filterMap Point.evaluation?

section

variable {o : Options} {s : State} {line : Text} {p : Point}

/-- A blank line changes nothing. -/
theorem feed_of_isBlank (h : line.chopReturn.isBlank = true) : feed o s line = (.next, s) := by
  simp [feed, submit, h]

/-- Any other line is counted, and the loop goes on behind it only on a console that has
    not failed. -/
theorem feed_of_not_isBlank (h : line.chopReturn.isBlank = false) :
    (feed o s line).2.tally.evaluated = s.tally.evaluated + 1
      ∧ ((feed o s line).1 = .next → (feed o s line).2.console.failed = false) := by
  rw [feed_eq]
  simp only [submission, h, Bool.false_eq_true, if_false, Effect.apply, Bool.true_and]
  split <;> simp_all

/-- At a sound point, no line is evaluated next on a failed console: none has failed, or a
    prompt comes first, which finds it failed. -/
def Point.Sound (o : Options) (p : Point) : Prop :=
  match p.stage with
  | .offer => o.showPrompt = true ∨ p.state.console.failed = false
  | .read => p.state.console.failed = false
  | _ => True

/-- What one step of the loop counts, and on which console it goes on. -/
structure Stepped (o : Options) (p : Point) : Prop where
  /-- The step counts the line that it evaluates. -/
  count : ((lineLoop o).advance p).state.tally.evaluated
    = p.state.tally.evaluated + p.evaluation?.toList.length
  /-- Behind a sound point, the next one is sound. -/
  sound : p.Sound o → ((lineLoop o).advance p).Sound o
  /-- Behind a line that is evaluated, the next point is sound in any case. -/
  checked : p.evaluation? ≠ none → ((lineLoop o).advance p).Sound o

/-- **Step lemma.**  So it is with every step. -/
theorem stepped (o : Options) (p : Point) : Stepped o p := by
  obtain ⟨stage, s, unread⟩ := p
  cases stage with
  | offer =>
    show Stepped o ⟨.offer, s, unread⟩
    have hadvance : (lineLoop o).advance ⟨.offer, s, unread⟩
        = ⟨(offer o s).1.stage .read, (offer o s).2, unread⟩ := rfl
    rcases offer_cases o s with ⟨s', hoffer, hcount, hshown⟩ | ⟨s', hoffer, hcount⟩
    · rw [hoffer] at hadvance
      exact ⟨by rw [hadvance]; exact hcount, fun h => by rw [hadvance]; exact hshown h,
        fun h => absurd rfl h⟩
    · rw [hoffer] at hadvance
      exact ⟨by rw [hadvance]; exact hcount, fun _ => by rw [hadvance]; trivial,
        fun h => absurd rfl h⟩
  | read =>
    cases unread with
    | nil => exact ⟨rfl, fun _ => trivial, fun h => absurd rfl h⟩
    | cons line more =>
      have hadvance : (lineLoop o).advance ⟨.read, s, line :: more⟩
          = ⟨(feed o s line).1.stage .offer, (feed o s line).2, more⟩ := rfl
      have hevaluation : Point.evaluation? ⟨.read, s, line :: more⟩
          = if line.chopReturn.isBlank then none else some (line.chopReturn, s.console) := rfl
      cases hblank : line.chopReturn.isBlank with
      | true =>
        rw [feed_of_isBlank hblank] at hadvance
        rw [hblank, if_pos rfl] at hevaluation
        refine ⟨by rw [hadvance, hevaluation]; rfl, fun h => ?_, fun h => absurd hevaluation h⟩
        rw [hadvance]
        exact .inr h
      | false =>
        obtain ⟨hcount, hnext⟩ := feed_of_not_isBlank (o := o) (s := s) hblank
        rw [hblank, if_neg Bool.false_ne_true] at hevaluation
        have hsound : ((lineLoop o).advance ⟨.read, s, line :: more⟩).Sound o := by
          rw [hadvance]
          cases hturn : (feed o s line).1 with
          | next => exact .inr (hnext hturn)
          | finish => trivial
          | abort => trivial
        refine ⟨?_, fun _ => hsound, fun _ => hsound⟩
        rw [hadvance, hevaluation]
        exact hcount
  | close => exact ⟨rfl, fun _ => trivial, fun h => absurd rfl h⟩
  | ended => exact ⟨rfl, fun _ => trivial, fun h => absurd rfl h⟩

/-- The evaluations along a run are that of the first point and those behind it. -/
theorem filterMap_evaluation?_trace (h : p.stage ≠ .ended) :
    ((lineLoop o).trace p).filterMap Point.evaluation?
      = p.evaluation?.toList
        ++ ((lineLoop o).trace ((lineLoop o).advance p)).filterMap Point.evaluation? := by
  rw [Loop.trace_of_due h, List.filterMap_cons]
  cases p.evaluation? <;> rfl

/-- **Run lemma.**  A run counts the lines that it evaluates. -/
theorem evaluated_run (o : Options) (p : Point) :
    ((lineLoop o).run p).tally.evaluated
      = p.state.tally.evaluated
        + (((lineLoop o).trace p).filterMap Point.evaluation?).length := by
  fun_induction Loop.run (lineLoop o) p with
  | case1 p h => rw [Loop.trace_of_ended h]; rfl
  | case2 p h ih =>
    rw [ih, (stepped o p).count, filterMap_evaluation?_trace h, List.length_append, Nat.add_assoc]

/-- **Run lemma.**  From a sound point on, every line is evaluated on a console that has not
    failed. -/
theorem Point.Sound.failed_eq (hp : p.Sound o) :
    ∀ x ∈ ((lineLoop o).trace p).filterMap Point.evaluation?, x.2.failed = false := by
  fun_induction Loop.trace (lineLoop o) p with
  | case1 p h => simp
  | case2 p h ih =>
    rw [← Loop.trace_of_due h, filterMap_evaluation?_trace h, List.forall_mem_append]
    refine ⟨fun x hx => ?_, ih ((stepped o p).sound hp)⟩
    obtain ⟨stage, s, unread⟩ := p
    -- A line is evaluated only where one is read.
    cases stage with
    | read =>
      cases unread with
      | nil => cases hx
      | cons line more =>
        have hs : s.console.failed = false := hp
        simp only [Point.evaluation?, Point.line?, if_true, List.head?_cons] at hx
        split at hx
        · cases hx
        · cases List.mem_singleton.1 hx
          exact hs
    | offer => cases hx
    | close => cases hx
    | ended => cases hx

/-- **Run lemma.**  From any point on, every line but the first is evaluated on a console that has
    not failed. -/
theorem failed_of_mem_tail (o : Options) (p : Point) :
    ∀ x ∈ (((lineLoop o).trace p).filterMap Point.evaluation?).tail, x.2.failed = false := by
  fun_induction Loop.trace (lineLoop o) p with
  | case1 p h => simp
  | case2 p h ih =>
    rw [← Loop.trace_of_due h, filterMap_evaluation?_trace h]
    cases hp : p.evaluation? with
    | none => exact ih
    | some x =>
      have hsound := (stepped o p).checked (by rw [hp]; exact Option.some_ne_none x)
      exact hsound.failed_eq

end

/-! ### Runs on sinks that may fail -/

/-- A sink that has accepted nothing, with room for so many bytes or without a limit, and
    failed from the start or not. -/
def freshSink (room : Option Nat) (failed : Bool) : Sink := ⟨[], room, failed⟩

/-- **Failing output.**  A run on two fresh sinks, compared with the run without limits:
    what each sink accepts is a front of what is written to it; the run reports a failure
    exactly when a sink has failed, which it does exactly when it had from the start or
    its text is longer than its room; without a failure the runs agree; with one, no more
    lines are evaluated or fail, and none is evaluated behind the first write that failed:
    every line is evaluated on a console that has not failed, the first one excepted if
    no prompt was written before it. -/
theorem run_truncated (o : Options) (input : Text) (room room' : Option Nat)
    (failed failed' : Bool) :
    let c : Console := ⟨freshSink room failed, freshSink room' failed'⟩
    let s := run o input c
    let t := run o input Console.unlimited
    (s.console.out.accepted <+: t.console.out.accepted
        ∧ s.console.err.accepted <+: t.console.err.accepted)
      ∧ (s.tally.outputError = true ↔
          s.console.out.failed = true ∨ s.console.err.failed = true)
      ∧ (s.tally.outputError = true ↔
          (failed = true ∨ ∃ n, room = some n ∧ n < t.console.out.accepted.length)
            ∨ (failed' = true ∨ ∃ n, room' = some n ∧ n < t.console.err.accepted.length))
      ∧ (s.tally.outputError = false →
          s.console.out.accepted = t.console.out.accepted
            ∧ s.console.err.accepted = t.console.err.accepted
            ∧ s.tally.evaluated = t.tally.evaluated
            ∧ s.tally.failed = t.tally.failed)
      ∧ (s.tally.evaluated ≤ t.tally.evaluated ∧ s.tally.failed ≤ t.tally.failed)
      ∧ (s.tally.evaluated = (evaluations o (State.start c) input.lines).length
          ∧ (∀ x ∈ (evaluations o (State.start c) input.lines).tail, x.2.failed = false)
          ∧ (o.showPrompt = true →
              ∀ x ∈ evaluations o (State.start c) input.lines, x.2.failed = false)) := by
  intro c s t
  have hrun : Truncation c s t := run_truncation o input c
  have hreport : s.tally.outputError = s.console.failed := hrun.outputError_eq
  have hlimits : (c.write t.console.out.accepted t.console.err.accepted).failed = true ↔
      (failed = true ∨ ∃ n, room = some n ∧ n < t.console.out.accepted.length)
        ∨ (failed' = true ∨ ∃ n, room' = some n ∧ n < t.console.err.accepted.length) := by
    rw [Console.failed_iff]
    exact or_congr (Sink.failed_write_iff _ _) (Sink.failed_write_iff _ _)
  have hcount : s.tally.evaluated = 0 + (evaluations o (State.start c) input.lines).length :=
    evaluated_run o ⟨.offer, State.start c, input.lines⟩
  rw [Nat.zero_add] at hcount
  refine ⟨hrun.accepted_prefix rfl rfl, ?_, ?_, ?_, hrun.counts_le, hcount, ?_, ?_⟩
  · rw [hreport, Console.failed_iff]
  · rw [hreport, hrun.failed_iff, hlimits]
  · intro hs
    exact hrun.eq_of_not_failed rfl rfl (hreport ▸ hs)
  · exact failed_of_mem_tail o ⟨.offer, State.start c, input.lines⟩
  · intro hprompt
    have hsound : Point.Sound o ⟨.offer, State.start c, input.lines⟩ := .inl hprompt
    exact hsound.failed_eq

/-- A run that fills the room of its results to the last byte. -/
theorem run_truncated_full :
    let o : Options := ⟨ascii "> ", true, false⟩
    let c : Console := ⟨freshSink (some 7) false, freshSink (some 0) false⟩
    (run o (ascii "8") c).tally.outputError = false
      ∧ (run o (ascii "8") c).console.out.accepted = ascii "> 8\n> \n"
      ∧ ∀ x ∈ evaluations o (State.start c) (ascii "8").lines, x.2.failed = false := by
  intro o c
  obtain ⟨-, -, -, hwhole, -, -, -, hshown⟩ :=
    run_truncated o (ascii "8") (some 7) (some 0) false false
  have hs : (run o (ascii "8") c).tally.outputError = false := by decide +kernel
  obtain ⟨hout, -, -, -⟩ := hwhole hs
  refine ⟨hs, hout.trans ?_, hshown rfl⟩
  decide +kernel

end Repl

end ChainCalc
