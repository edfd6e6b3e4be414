import ChainCalc.Proofs.Arguments
import ChainCalc.Proofs.Effects

namespace ChainCalc

/-!
# Sources — the same lines from the arguments, from a file or from the standard input

A command line finds what it evaluates in its arguments, in a file or in its standard
input.  The three are read by different code, but what is done to the same lines is the
same, on every console.

* `Text.IsLine`, `Text.unlines` — texts that can stand in an input as lines, and that input.
* `Repl.State.Whole` — runs that have met no failure; `State.Whole.submit` is the step
  lemma.
* `Repl.loop_eq_evaluateAll` — **run lemma**: the loop without a prompt evaluates its lines
  as the expressions of a command line are evaluated.
* `CommandLine.run_expressions` — expressions in the arguments, or lines of the standard
  input.
* `CommandLine.run_file` — a file, or the standard input.
-/

/-! ### Lines of an input -/

namespace Text

/-- A text that can stand in an input as a line of its own: it holds no newline, and no
    carriage return at its end gets lost. -/
structure IsLine (t : Text) : Prop where
  noNewline : Byte.newline ∉ t
  noReturn : t.getLast? ≠ some Byte.carriageReturn

/-- The input with given lines, a newline behind each. -/
def unlines (texts : List Text) : Text := texts.flatMap fun t => t ++ [Byte.newline]

/-- The lines of that input are these, if none holds a newline. -/
theorem lines_unlines {texts : List Text} (h : ∀ t ∈ texts, Byte.newline ∉ t) :
    lines (unlines texts) = texts := by
  induction texts with
  | nil => rfl
  | cons t more ih =>
    have hmore := ih fun u hu => h u (List.mem_cons_of_mem t hu)
    have hsplit : unlines (t :: more) = t ++ Byte.newline :: unlines more := by
      simp [unlines]
    rw [hsplit, lines_append_newline (h t List.mem_cons_self), hmore]

/-- Nothing is cut off a line. -/
theorem IsLine.chopReturn_eq {t : Text} (h : IsLine t) : t.chopReturn = t := by
  simp [chopReturn, h.noReturn]

end Text

/-! ### Runs without a prompt -/

namespace Repl

/-- A run that has met no failure: its console has not failed, and the tally says so. -/
structure State.Whole (s : State) : Prop where
  console : s.console.failed = false
  tally : s.tally.outputError = false

/-- A run that has read nothing is whole on a console that has not failed. -/
theorem State.whole_start {c : Console} (h : c.failed = false) : (State.start c).Whole :=
  ⟨h, rfl⟩

variable {s s' : State} {turn : Turn}

/-- **Step lemma.**  A run stays whole behind a line, unless the line aborts it. -/
theorem State.Whole.submit (h : s.Whole) {stopOnError : Bool} {line : Text}
    (hstep : submit stopOnError s line = (turn, s')) (hturn : turn ≠ .abort) : s'.Whole := by
  unfold Repl.submit at hstep
  by_cases hblank : line.isBlank = true
  · simp only [hblank, if_true, Prod.mk.injEq] at hstep
    obtain ⟨-, rfl⟩ := hstep
    exact h
  · by_cases hfailed : (evalLine line s.console).2.failed = true
    · simp only [hblank, hfailed, Bool.false_eq_true, if_false, if_true, Prod.mk.injEq] at hstep
      exact absurd hstep.1.symm hturn
    · simp only [hblank, hfailed, Bool.false_eq_true, if_false, Prod.mk.injEq] at hstep
      obtain ⟨-, rfl⟩ := hstep
      exact ⟨Bool.of_not_eq_true hfailed, h.tally⟩

section

variable {o : Options} (ho : o.showPrompt = false)
include ho

/-- Without a prompt, ending a whole run changes nothing: what it looks for is known. -/
theorem close_of_whole (h : s.Whole) : close o s = s := by
  obtain ⟨console, evaluated, failed, outputError⟩ := s
  have hconsole : console.failed = false := h.console
  have htally : outputError = false := h.tally
  simp [close, ho, hconsole, htally]

/-- **Run lemma.**  The loop without a prompt evaluates its lines one after the other.  By
    induction on the lines, with a run that is whole in front of each. -/
theorem loop_eq_evaluateAll {texts : List Text} (htexts : ∀ t ∈ texts, t.IsLine)
    (h : s.Whole) : loop o s texts = CommandLine.evaluateAll o.stopOnError s texts := by
  have hoffer : ∀ s : State, offer o s = (.next, s) := fun s => by simp [offer, ho]
  have hoffer' : ∀ s : State, (CommandLine.expressionLoop o.stopOnError).offer s = (.next, s) :=
    fun s => rfl
  unfold CommandLine.evaluateAll
  induction texts generalizing s with
  | nil =>
    rw [loop_nil_of_offer (hoffer s), close_of_whole ho h, Loop.run_offer_nil (hoffer' s)]
    rfl
  | cons t more ih =>
    have hmore : ∀ u ∈ more, u.IsLine := fun u hu => htexts u (List.mem_cons_of_mem t hu)
    have htake : (CommandLine.expressionLoop o.stopOnError).take s t = submit o.stopOnError s t :=
      rfl
    rw [loop_cons_of_offer (hoffer s), feed, (htexts t List.mem_cons_self).chopReturn_eq,
      Loop.run_offer_cons (hoffer' s), htake]
    match hstep : submit o.stopOnError s t with
    | (.next, s') => exact ih hmore (h.submit hstep (by decide))
    | (.finish, s') =>
      -- One loop ends the run here, which changes nothing, and the other just stops.
      rw [Loop.resume_finish, Loop.resume_finish]
      exact close_of_whole ho (h.submit hstep (by decide))
    | (.abort, s') => rw [Loop.resume_abort, Loop.resume_abort]

/-- The loop without a prompt over an input, where the console has not failed before. -/
theorem run_unlines {texts : List Text} (htexts : ∀ t ∈ texts, t.IsLine) {c : Console}
    (hc : c.failed = false) :
    run o (Text.unlines texts) c
      = CommandLine.evaluateAll o.stopOnError (State.start c) texts := by
  have hlines := Text.lines_unlines fun t ht => (htexts t ht).noNewline
  rw [run, hlines, loop_eq_evaluateAll ho htexts (State.whole_start hc)]

end

end Repl

namespace CommandLine

/-! ### Expressions, or lines of the standard input -/

/-- The arguments that ask for the evaluation of expressions. -/
def expressionArguments (texts : List Text) : List Text :=
  texts.flatMap fun t => [ascii "-e", t]

/-- The argument that asks to be strict, if so. -/
def strictArguments (strict : Bool) : List Text := if strict then [ascii "-s"] else []

/-- Expressions are added in order to those chosen before. -/
theorem Options.parse_expressionArguments (o : Options) (texts more : List Text) :
    o.parse (expressionArguments texts ++ more)
      = { o with expressions := o.expressions ++ texts }.parse more := by
  induction texts generalizing o with
  | nil => simp [expressionArguments]
  | cons t texts ih =>
    have hflag : Flag.ofText? (ascii "-e") = some .expression := by decide
    have hsplit : expressionArguments (t :: texts) ++ more
        = [ascii "-e", t] ++ (expressionArguments texts ++ more) := by
      simp [expressionArguments]
    rw [hsplit, parse_append_of_written (.expression hflag t) trivial, ih]
    simp [choose]

/-- To be strict is chosen, or left as it is. -/
theorem Options.parse_strictArguments (o : Options) (strict : Bool) (more : List Text) :
    o.parse (strictArguments strict ++ more)
      = { o with strict := o.strict || strict }.parse more := by
  have hflag : Flag.ofText? (ascii "-s") = some .strict := by decide
  cases strict with
  | false => simp [strictArguments]
  | true =>
    rw [strictArguments, if_pos rfl, parse_append_of_written (.strict hflag) trivial]
    simp [choose]

variable {c : Console}

/-- A quiet command line evaluates the lines of its standard input as another evaluates the
    same texts in its arguments. -/
theorem perform_expressions {o o' : Options} {env env' : Environment}
    (hlines : ∀ t ∈ o.expressions, t.IsLine) (hne : o.expressions ≠ [])
    (hquiet : o'.quiet = true) (hsource : o'.source = .stdin) (hstrict : o'.strict = o.strict)
    (hstdin : env'.stdin = Text.unlines o.expressions) (hc : c.failed = false) :
    (o.job env).perform c = (o'.job env').perform c := by
  have hexpressions : o.source = .expressions o.expressions := by simp [Options.source, hne]
  have hprompt : (o'.onStdin env'.interactive).showPrompt = false := by
    simp [Options.onStdin, hquiet]
  have hstop : (o'.onStdin env'.interactive).stopOnError = o.strict := hstrict
  have hrun := Repl.run_unlines hprompt hlines hc
  rw [hstop] at hrun
  simp only [Options.job, hexpressions, hsource, hstdin, Job.perform, hrun]

/-- **Expressions or lines.**  A command line with expressions ends like a quiet one that
    reads the same texts as lines of its standard input, and has written the same, wherever
    the console fails on the way.  To be strict can be asked for anywhere. -/
theorem run_expressions (program : Text) (before after : List Text) (strict : Bool)
    (env env' : Environment) (c : Console) (hne : before ++ after ≠ [])
    (hlines : ∀ t ∈ before ++ after, t.IsLine)
    (hstdin : env'.stdin = Text.unlines (before ++ after)) (hc : c.failed = false) :
    run program (expressionArguments before ++ strictArguments strict
        ++ expressionArguments after) env c
      = run program (ascii "-q" :: strictArguments strict) env' c := by
  have hexpressions : Options.default.parse (expressionArguments before
      ++ strictArguments strict ++ expressionArguments after)
      = .ok ⟨before ++ after, none, false, strict, none⟩ := by
    rw [List.append_assoc, Options.parse_expressionArguments, Options.parse_strictArguments,
      ← List.append_nil (expressionArguments after), Options.parse_expressionArguments]
    simp [Options.parse, Options.default]
  have hquiet : Options.default.parse (ascii "-q" :: strictArguments strict)
      = .ok ⟨[], none, true, strict, none⟩ := by
    have hflag : Flag.ofText? (ascii "-q") = some .quiet := by decide
    rw [← List.singleton_append, Options.parse_append_of_written (.quiet hflag) trivial,
      ← List.append_nil (strictArguments strict), Options.parse_strictArguments]
    simp [Options.parse, Options.default, Options.choose]
  simp only [run, job, hexpressions, hquiet]
  exact perform_expressions hlines hne rfl rfl rfl hstdin hc

/-- Of three expressions the second has no value, so the third is not evaluated.  There is
    room for the first result only, and someone sits at the standard input. -/
theorem run_expressions_strict :
    let texts := [ascii "1+2", ascii "4/", ascii "5"]
    let c : Console := ⟨Sink.ofRoom (some 2), Sink.ofRoom none⟩
    let env : Environment := ⟨Text.unlines texts, true, fun _ => none⟩
    let outcome := run [] [ascii "-q", ascii "-s"] env c
    (∀ t ∈ texts, t.IsLine) ∧ c.failed = false
      ∧ run [] [ascii "-e", ascii "1+2", ascii "-s", ascii "-e", ascii "4/", ascii "-e",
          ascii "5"] env c = outcome
      ∧ outcome.1 = .failure ∧ outcome.2.out.accepted = ascii "3\n" := by
  intro texts c env outcome
  have hnewline : ∀ t ∈ texts, Byte.newline ∉ t := by decide
  have hreturn : ∀ t ∈ texts, t.getLast? ≠ some Byte.carriageReturn := by decide
  have hlines : ∀ t ∈ texts, t.IsLine := fun t ht => ⟨hnewline t ht, hreturn t ht⟩
  have hrun := run_expressions [] [ascii "1+2"] [ascii "4/", ascii "5"] true env env c
    (by decide) hlines rfl rfl
  refine ⟨hlines, rfl, hrun, ?_, ?_⟩
  · decide +kernel
  · decide +kernel

/-! ### A file, or the standard input -/

/-- The loop over a file behaves like the one over a standard input where nobody sits: the two
    ask differently for a prompt, and agree. -/
theorem Options.onFile_eq (o : Options) : o.onFile = o.onStdin false := by
  unfold onFile onStdin
  rw [Bool.or_false, Bool.and_comm]

/-- A command line that reads a file comes to what it would come to without one, if the content
    of the file stood in its standard input and nobody sat there. -/
theorem job_file {o : Options} {env : Environment} {name content : Text}
    (hexpressions : o.expressions = []) (hfile : o.file = some name)
    (hdash : name ≠ ascii "-") (hcontent : env.content? name = some content) :
    o.job env
      = { o with file := none }.job { env with stdin := content, interactive := false } := by
  have hsource : o.source = .file name := by simp [Options.source, hexpressions, hfile, hdash]
  have hstdin : { o with file := none }.source = .stdin := by
    simp [Options.source, hexpressions]
  simp only [Options.job, hsource, hstdin, hcontent, Options.onFile_eq]
  rfl

/-- **A file or the standard input.**  A command line that reads a file ends like the one
    without the name of the file that finds the content of the file in its standard input
    where nobody sits, and has written the same, whatever the console.  The name that goes
    is the one that stands where a file may be named and none is yet. -/
theorem run_file (program : Text) {arguments : List Text} {o : Options} (env : Environment)
    {name content : Text} (c : Console) (hparse : Options.default.parse arguments = .ok o)
    (hexpressions : o.expressions = []) (hfile : o.file = some name)
    (hdash : name ≠ ascii "-") (hcontent : env.content? name = some content) :
    run program arguments env c
        = run program (withoutFile arguments)
            { env with stdin := content, interactive := false } c
      ∧ ∃ before after o₁, arguments = before ++ name :: after
        ∧ withoutFile arguments = before ++ after
        ∧ Options.default.parse before = .ok o₁ ∧ o₁.file = none := by
  obtain ⟨choices, hchosen⟩ := Options.parse_eq_ok_iff.1 hparse
  obtain ⟨before, after, o₁, harguments, hwithout, hbefore, ho₁, hboth⟩ :=
    hchosen.exists_file rfl hfile
  refine ⟨?_, before, after, o₁, harguments, hwithout, hbefore, ho₁⟩
  rw [hwithout]
  simp only [run, job, hparse, hboth]
  rw [job_file hexpressions hfile hdash hcontent]

/-- A file whose name is also the prompt: only the second `a` goes. -/
theorem run_file_prompt :
    let arguments := [ascii "-p", ascii "a", ascii "a", ascii "-s"]
    let env : Environment := ⟨ascii "9\n", true, fun _ => some (ascii "1+2")⟩
    let o : Options := ⟨[], some (ascii "a"), false, true, some (ascii "a")⟩
    let outcome := run [] [ascii "-p", ascii "a", ascii "-s"]
      { env with stdin := ascii "1+2", interactive := false } Console.unlimited
    Options.default.parse arguments = .ok o ∧ ascii "a" ≠ ascii "-"
      ∧ run [] arguments env Console.unlimited = outcome
      ∧ outcome.1 = .success ∧ outcome.2.out.accepted = ascii "a3\na\n" := by
  intro arguments env o outcome
  have hparse : Options.default.parse arguments = .ok o := by decide
  have hdash : ascii "a" ≠ ascii "-" := by decide
  have hwithout : withoutFile arguments = [ascii "-p", ascii "a", ascii "-s"] := by decide
  have hrun := (run_file [] env Console.unlimited hparse rfl rfl hdash rfl).1
  rw [hwithout] at hrun
  refine ⟨hparse, hdash, hrun, ?_, ?_⟩
  · decide +kernel
  · decide +kernel

end CommandLine

end ChainCalc
