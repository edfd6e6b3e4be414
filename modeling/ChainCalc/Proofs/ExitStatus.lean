import ChainCalc.CommandLine.Run
import ChainCalc.Proofs.Acts
import ChainCalc.Proofs.Wording

namespace ChainCalc

/-!
# Exit status — what the status of a command line tells

Every way through a command line computes its exit status by itself.  Whichever is taken,
the status tells what became of what was to be written, and of the lines.

* `CommandLine.Job.acts`, `CommandLine.acts` — what a job and a command line try to write
  and which lines they evaluate.
* `CommandLine.Reports` — a status reports on acts: on what was lost, and on what failed.
* `CommandLine.reports_ofTally`, `CommandLine.reports_run` — the status after a run does,
  and the status of every command line.
* `CommandLine.run_status` — what each status code means.
-/

/-- The error of a line is shown as one line behind a fixed word. -/
theorem errorLine_eq_of_not_succeeds {line : Text} (h : succeeds line = false) :
    ∃ e, evaluate line = .error e
      ∧ errorLine line = ascii "error: " ++ e.message ++ [Byte.newline]
      ∧ Byte.newline ∉ ascii "error: " ++ e.message := by
  unfold succeeds at h
  cases hvalue : evaluate line with
  | ok result => rw [hvalue] at h; cases h
  | error e =>
    have hprintable := isPrintable_error_message hvalue
    exact ⟨e, rfl, by simp [errorLine, hvalue], Text.newline_notMem_of_isPrintable hprintable⟩

namespace CommandLine

open Repl (Accounts)

/-! ### What a command line does -/

/-- The acts of the loop over expressions. -/
def expressionScript : Repl.Script := ⟨[], Repl.submitActs, []⟩

/-- The acts of evaluating expressions in order. -/
def evaluateAllActs (strict : Bool) (s : Repl.State) (texts : List Text) : List Act :=
  expressionScript.along (expressionLoop strict) ⟨.offer, s, texts⟩

/-- The acts of doing a job. -/
def Job.acts (c : Console) : Job → List Act
  | help summary => [.print summary]
  | complain message => [.complain message]
  | expressions strict texts => evaluateAllActs strict (Repl.State.start c) texts
  | lines o input => Repl.runActs o input c

/-- The acts of a program that is run under a name with arguments. -/
def acts (program : Text) (arguments : List Text) (env : Environment) (c : Console) :
    List Act :=
  (job program arguments env).acts c

/-- The loop over expressions keeps to its script. -/
theorem scripted_expressionLoop (strict : Bool) :
    (expressionLoop strict).Scripted expressionScript where
  offer h := by rwa [expressionScript, List.append_nil]
  take line h := h.submit strict line
  close h := by rwa [expressionScript, List.append_nil]

/-- Evaluating expressions is accounted for by its acts. -/
theorem accounts_evaluateAll (strict : Bool) (c : Console) (texts : List Text) :
    Accounts c (evaluateAllActs strict (Repl.State.start c) texts)
      (evaluateAll strict (Repl.State.start c) texts) :=
  (scripted_expressionLoop strict).accounts_start c texts

/-! ### What a status reports -/

/-- A status reports on acts on a console, which they leave as `final`. -/
structure Reports (c : Console) (acts : List Act) (status : ExitStatus) (final : Console) :
    Prop where
  /-- The console is left as the acts leave it. -/
  console : final = c.after acts
  /-- Unless there was trouble, everything has arrived. -/
  delivered : status ≠ .trouble → c.Delivered acts
  /-- Where a line failed and no sink did, the status says so. -/
  failure : Act.failing acts ≠ [] → final.failed = false → status = .failure
  /-- Success means that no line failed. -/
  success : status = .success → Act.failing acts = []
  /-- Failure means that the errors are those of the lines that failed. -/
  complaints : status = .failure → acts.flatMap Act.err = (Act.failing acts).flatMap errorLine

/-- The status after a run reports on the acts that account for the run. -/
theorem reports_ofTally {c : Console} {acts : List Act} {s : Repl.State}
    (h : Accounts c acts s) : Reports c acts (.ofTally s.tally) s.console := by
  unfold ExitStatus.ofTally
  by_cases herror : s.tally.outputError = true
  · have hfailed := h.sound herror
    rw [if_pos herror]
    refine ⟨h.console, fun hne => absurd rfl hne, fun _ hfinal => ?_, nofun, nofun⟩
    rw [hfailed] at hfinal
    cases hfinal
  · have hdelivered := h.delivered (Bool.of_not_eq_true herror)
    rw [if_neg herror]
    by_cases hnone : s.tally.failed = 0
    · -- No line is counted as failed, and so none failed.
      have hfailing : Act.failing acts = [] := by
        rw [← List.length_eq_zero_iff, ← h.failed, hnone]
      rw [if_pos hnone]
      exact ⟨h.console, fun _ => hdelivered, fun hne => absurd hfailing hne, fun _ => hfailing,
        nofun⟩
    · rw [if_neg hnone]
      exact ⟨h.console, fun _ => hdelivered, fun _ _ => rfl, nofun, fun _ => h.complaints⟩

/-- Trouble without a line evaluated reports on every act. -/
theorem reports_trouble (c : Console) {acts : List Act} (h : Act.failing acts = []) :
    Reports c acts .trouble (c.after acts) :=
  ⟨rfl, fun hne => absurd rfl hne, fun hne => absurd h hne, nofun, nofun⟩

/-- The summary has arrived, or there is trouble. -/
theorem reports_help (c : Console) (t : Text) :
    Reports c [.print t] (if (c.print t).out.failed then .trouble else .success)
      (c.print t) := by
  by_cases hfailed : (c.print t).out.failed = true
  · rw [if_pos hfailed]
    exact reports_trouble c rfl
  · rw [if_neg hfailed]
    have hout : (c.out.write t).failed = false := Bool.of_not_eq_true hfailed
    refine ⟨rfl, fun _ => ⟨?_, ?_⟩, fun hne => absurd rfl hne, fun _ => rfl, nofun⟩
    · rw [Console.after_eq_write]
      simpa [Act.out, Console.write] using Sink.accepted_write_of_not_failed hout
    · -- Nothing is written to the errors.
      simp [Console.after_eq_write, Act.err, Console.write]

/-- The status of a job reports on what it does. -/
theorem reports_perform (j : Job) (c : Console) :
    Reports c (j.acts c) (j.perform c).1 (j.perform c).2 := by
  cases j with
  | help summary => exact reports_help c summary
  | complain message => exact reports_trouble c rfl
  | expressions strict texts => exact reports_ofTally (accounts_evaluateAll strict c texts)
  | lines o input => exact reports_ofTally (Accounts.run o input c)

/-- The status of every command line reports on what it did. -/
theorem reports_run (program : Text) (arguments : List Text) (env : Environment)
    (c : Console) :
    Reports c (acts program arguments env c) (run program arguments env c).1
      (run program arguments env c).2 :=
  reports_perform (job program arguments env) c

/-! ### Codes -/

namespace ExitStatus

variable {status : ExitStatus}

theorem code_le (status : ExitStatus) : status.code ≤ 2 := by
  cases status <;> decide

theorem code_eq_zero_iff : status.code = 0 ↔ status = .success := by
  cases status <;> decide

theorem code_eq_one_iff : status.code = 1 ↔ status = .failure := by
  cases status <;> decide

theorem code_eq_two_iff : status.code = 2 ↔ status = .trouble := by
  cases status <;> decide

end ExitStatus

/-- A mistake in the arguments is trouble. -/
theorem run_of_misuse {program : Text} {arguments : List Text} {mistake : Misuse}
    (h : Options.default.parse arguments = .error (.misuse mistake)) (env : Environment)
    (c : Console) : (run program arguments env c).1 = .trouble := by
  simp only [run, job, h, Job.perform]

/-- A file that cannot be read is trouble, if it is where lines come from. -/
theorem run_of_unreadable {program : Text} {arguments : List Text} {o : Options}
    {name : Text} {env : Environment} (h : Options.default.parse arguments = .ok o)
    (hnone : o.expressions = []) (hfile : o.file = some name) (hname : name ≠ ascii "-")
    (hcontent : env.content? name = none) (c : Console) :
    (run program arguments env c).1 = .trouble := by
  have hsource : o.source = .file name := by simp [Options.source, hnone, hfile, hname]
  simp only [run, job, h, Options.job, hsource, hcontent, Job.perform]

/-- **What the exit code means.**  On any console, a lost byte, a mistaken command line and
    a file that cannot be read give code two, and a line without a value gives code one if
    no sink has failed.  Code zero means that every line has a value and that everything
    was delivered, and code one that everything was delivered and that the errors are one
    complete line for each line without a value. -/
theorem run_status (program : Text) (arguments : List Text) (env : Environment)
    (c : Console) :
    let tried := acts program arguments env c
    let code := (run program arguments env c).1.code
    let final := (run program arguments env c).2
    final = c.after tried
      ∧ code ≤ 2
      ∧ (¬ c.Delivered tried → code = 2)
      ∧ (∀ mistake, Options.default.parse arguments = .error (.misuse mistake) → code = 2)
      ∧ (∀ o name, Options.default.parse arguments = .ok o → o.expressions = [] →
        o.file = some name → name ≠ ascii "-" → env.content? name = none → code = 2)
      ∧ ((∃ line ∈ Act.evaluated tried, succeeds line = false) → final.failed = false → code = 1)
      ∧ (code = 0 → (∀ line ∈ Act.evaluated tried, succeeds line = true) ∧ c.Delivered tried)
      ∧ (code = 1 → c.Delivered tried
        ∧ final.err.accepted = c.err.accepted ++ (Act.failing tried).flatMap errorLine
        ∧ ∀ line ∈ Act.failing tried, ∃ e, evaluate line = .error e
          ∧ errorLine line = ascii "error: " ++ e.message ++ [Byte.newline]
          ∧ Byte.newline ∉ ascii "error: " ++ e.message) := by
  have h := reports_run program arguments env c
  refine ⟨h.console, ExitStatus.code_le _, ?_, ?_, ?_, ?_, ?_, ?_⟩
  · intro hlost
    rw [ExitStatus.code_eq_two_iff]
    exact Classical.byContradiction fun hne => hlost (h.delivered hne)
  · intro mistake hparse
    rw [ExitStatus.code_eq_two_iff]
    exact run_of_misuse hparse env c
  · intro o name hparse hnone hfile hname hcontent
    rw [ExitStatus.code_eq_two_iff]
    exact run_of_unreadable hparse hnone hfile hname hcontent c
  · rintro ⟨line, hline, hvalue⟩ hfinal
    rw [ExitStatus.code_eq_one_iff]
    refine h.failure ?_ hfinal
    intro hnil
    have hall := Act.failing_eq_nil_iff.1 hnil line hline
    rw [hvalue] at hall
    cases hall
  · intro hcode
    rw [ExitStatus.code_eq_zero_iff] at hcode
    have hne : (run program arguments env c).1 ≠ .trouble := by
      rw [hcode]
      nofun
    exact ⟨Act.failing_eq_nil_iff.1 (h.success hcode), h.delivered hne⟩
  · intro hcode
    rw [ExitStatus.code_eq_one_iff] at hcode
    have hne : (run program arguments env c).1 ≠ .trouble := by
      rw [hcode]
      nofun
    have hdelivered := h.delivered hne
    refine ⟨hdelivered, ?_, ?_⟩
    · rw [h.console, hdelivered.err, h.complaints hcode]
    · intro line hline
      have hvalue : succeeds line = false := by simpa using (List.mem_filter.1 hline).2
      exact errorLine_eq_of_not_succeeds hvalue

/-- A zero divisor in an expression gives code one, and a summary that does not fit gives
    code two. -/
theorem run_status_one_two :
    let env : Environment := ⟨[], false, fun _ => none⟩
    let failing := [ascii "-e", ascii "4/0"]
    let full : Console := ⟨Sink.ofRoom (some 3), Sink.ofRoom none⟩
    (∃ line ∈ Act.evaluated (acts [] failing env Console.unlimited), succeeds line = false)
      ∧ (run [] failing env Console.unlimited).2.failed = false
      ∧ (run [] failing env Console.unlimited).1.code = 1
      ∧ ¬ full.Delivered (acts [] [ascii "-h"] env full)
      ∧ (run [] [ascii "-h"] env full).1.code = 2 := by
  intro env failing full
  have hline : ∃ line ∈ Act.evaluated (acts [] failing env Console.unlimited),
      succeeds line = false :=
    ⟨ascii "4/0", by decide +kernel, by decide +kernel⟩
  have hfinal : (run [] failing env Console.unlimited).2.failed = false := by decide +kernel
  have hlost : ¬ full.Delivered (acts [] [ascii "-h"] env full) := by
    intro hdelivered
    have hlength := congrArg List.length hdelivered.out
    exact absurd hlength (by decide +kernel)
  obtain ⟨-, -, -, -, -, hone, -⟩ := run_status [] failing env Console.unlimited
  obtain ⟨-, -, htwo, -⟩ := run_status [] [ascii "-h"] env full
  exact ⟨hline, hfinal, hone hline hfinal, hlost, htwo hlost⟩

end CommandLine

end ChainCalc
