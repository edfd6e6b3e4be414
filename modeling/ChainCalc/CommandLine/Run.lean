import ChainCalc.CommandLine.Options

namespace ChainCalc

/-!
# Command line — running it

* `CommandLine.Environment` — what a command line runs in: the standard input and the
  files that can be read.
* `CommandLine.expressionLoop`, `CommandLine.evaluateAll` — evaluate the expressions of a
  command line.
* `CommandLine.Job`, `CommandLine.job` — what a command line comes to, once its options
  and the environment are looked at.
* `CommandLine.run` — the exit status of a command line and what it wrote.
-/

namespace CommandLine

/-- What a command line runs in. -/
structure Environment where
  stdin : Text
  /-- Whether someone sits at the standard input. -/
  interactive : Bool
  /-- The content of a file, if it can be read. -/
  content? : Text → Option Text

/-- How a program ends. -/
inductive ExitStatus where
  /-- Every line has a value, and everything was written. -/
  | success
  /-- Everything was written, and some line has no value. -/
  | failure
  /-- The command line is mistaken, a file cannot be read, or something could not be
      written. -/
  | trouble
  deriving DecidableEq

/-- The number for an exit status. -/
def ExitStatus.code : ExitStatus → Nat
  | success => 0
  | failure => 1
  | trouble => 2

/-- The exit status after a run. -/
def ExitStatus.ofTally (t : Repl.Tally) : ExitStatus :=
  if t.outputError then trouble
  else if t.failed = 0 then success
  else failure

/-- The loop over expressions: they are like lines of input, but without prompts and without
    anything to do at the end. -/
def expressionLoop (strict : Bool) : Repl.Loop := ⟨fun s => (.next, s), Repl.submit strict, id⟩

/-- Evaluate expressions in order. -/
def evaluateAll (strict : Bool) (s : Repl.State) (texts : List Text) : Repl.State :=
  (expressionLoop strict).run ⟨.offer, s, texts⟩

/-- What is said about a file that cannot be read. -/
def unreadable (name : Text) : Text :=
  ascii "Failed opening file \"" ++ name ++ ascii "\".\n"

/-! ### Jobs -/

/-- What a command line comes to. -/
inductive Job where
  /-- To show the summary of the options. -/
  | help (summary : Text)
  /-- To say what is wrong. -/
  | complain (message : Text)
  /-- To evaluate expressions. -/
  | expressions (strict : Bool) (texts : List Text)
  /-- To run the loop over an input. -/
  | lines (o : Repl.Options) (input : Text)

/-- What the options ask for. -/
def Options.job (o : Options) (env : Environment) : Job :=
  match o.source with
  | .expressions texts => .expressions o.strict texts
  | .file name =>
    match env.content? name with
    | none => .complain (unreadable name)
    | some content => .lines o.onFile content
  | .stdin => .lines (o.onStdin env.interactive) env.stdin

/-- What a program under a name is asked to do by arguments. -/
def job (program : Text) (arguments : List Text) (env : Environment) : Job :=
  match Options.default.parse arguments with
  | .ok o => o.job env
  | .error .help => .help (usage program)
  | .error (.misuse mistake) => .complain (mistake.message program)

/-- Do a job: the exit status, and the console behind it. -/
def Job.perform (c : Console) : Job → ExitStatus × Console
  | help summary =>
    let c := c.print summary
    (if c.out.failed then .trouble else .success, c)
  | complain message => (.trouble, c.complain message)
  | expressions strict texts => conclude (evaluateAll strict (Repl.State.start c) texts)
  | lines o input => conclude (Repl.run o input c)
where
  /-- The exit status after a run, with what it wrote. -/
  conclude (s : Repl.State) : ExitStatus × Console := (.ofTally s.tally, s.console)

/-- Run a program under a name with arguments. -/
def run (program : Text) (arguments : List Text) (env : Environment) (c : Console) :
    ExitStatus × Console :=
  (job program arguments env).perform c

end CommandLine

end ChainCalc
