import ChainCalc.CommandLine.Run

/-!
# The program

The outer layer of the calculator: it turns arguments, input and output of the process
into those of `ChainCalc.CommandLine`, which decides everything.  The standard input is
read line by line, so that a result appears before the next line is asked for.
-/

namespace ChainCalc.Main

open CommandLine

/-- The name under which messages speak of the program. -/
def programName : Text := ascii "chaincalc"

/-- Pass on what a console accepted, and empty it.  A console of which something cannot
    be written has failed. -/
def deliver (c : Console) : IO Console := do
  try
    let out ← IO.getStdout
    out.write c.out.accepted.toByteArray
    out.flush
    let err ← IO.getStderr
    err.write c.err.accepted.toByteArray
    err.flush
    return ⟨{ c.out with reversed := [] }, { c.err with reversed := [] }⟩
  catch _ => return ⟨{ c.out with failed := true }, c.err⟩

/-- Deliver what a step of a loop wrote.  The run is over if that fails. -/
def deliverStep (step : Repl.Stage × Repl.State) : IO (Repl.Stage × Repl.State) := do
  let console ← deliver step.2.console
  if console.failed then return (.ended, ⟨console, { step.2.tally with outputError := true }⟩)
  else return (step.1, { step.2 with console })

/-- The next line of input, without its newline; none at the end. -/
partial def readLine (input : IO.FS.Stream) (reversed : Text) : IO (Option Text) := do
  match (← input.read 1).toList with
  | [] => return if reversed = [] then none else some reversed.reverse
  | b :: _ =>
    if b = Byte.newline then return some reversed.reverse
    else readLine input (b :: reversed)

/-- Take the steps of a loop that are due until nothing is, as `Repl.Loop.run` does, with the
    lines of an input that is read where a line is due. -/
partial def converse (l : Repl.Loop) (input : IO.FS.Stream) (stage : Repl.Stage)
    (s : Repl.State) : IO Repl.State := do
  if stage = .ended then return s
  let line? ← if stage = .read then readLine input [] else pure none
  let (stage, s) ← deliverStep (l.step line? s stage)
  converse l input stage s

/-- The content of a file, if it can be read. -/
def content? (name : Text) : IO (Option Text) := do
  match String.fromUTF8? name.toByteArray with
  | none => return none
  | some name =>
    try return some (← IO.FS.readBinFile name).toList
    catch _ => return none

/-- Run the program on arguments, and deliver what it writes. -/
def run (arguments : List Text) : IO ExitStatus := do
  match Options.default.parse arguments with
  | .error _ => settle (job programName arguments (environment none))
  | .ok o =>
    match o.source with
    | .expressions _ => settle (o.job (environment none))
    | .file name => settle (o.job (environment (← content? name)))
    | .stdin =>
      let input ← IO.getStdin
      let loop := Repl.lineLoop (o.onStdin (← input.isTty))
      let s ← converse loop input .offer (Repl.State.start Console.unlimited)
      return ExitStatus.ofTally s.tally
where
  /-- What a program runs in that does not read the standard input. -/
  environment (content : Option Text) : Environment := ⟨[], false, fun _ => content⟩
  /-- Do a job and deliver what that writes: the exit status. -/
  settle (j : Job) : IO ExitStatus := do
    let (status, console) := j.perform Console.unlimited
    return if (← deliver console).failed then ExitStatus.trouble else status

end ChainCalc.Main

def main (arguments : List String) : IO UInt32 := do
  let status ← ChainCalc.Main.run (arguments.map fun argument => argument.toUTF8.toList)
  return UInt32.ofNat status.code
