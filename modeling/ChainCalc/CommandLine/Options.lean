import ChainCalc.Repl

namespace ChainCalc

/-!
# Command line — what the arguments ask for

Arguments are read from the left.  Options stand anywhere, and an option that takes a
value takes the next argument, whatever it looks like.  Reading stops at the first
request for help and at the first mistake.

* `CommandLine.Flag` — the options and their spellings.
* `CommandLine.Options.parse` — the options that a list of arguments adds up to, or why
  reading stopped.
* `CommandLine.Misuse.message`, `CommandLine.usage` — what is said about a mistake, and
  the summary of the options.
-/

namespace CommandLine

/-- The options that a command line can name. -/
inductive Flag where
  | help
  | expression
  | prompt
  | quiet
  | strict
  deriving DecidableEq

/-- The option that an argument spells, shortly or at length. -/
def Flag.ofText? (argument : Text) : Option Flag :=
  if argument = ascii "-h" ∨ argument = ascii "--help" then some help
  else if argument = ascii "-e" ∨ argument = ascii "--expr" then some expression
  else if argument = ascii "-p" ∨ argument = ascii "--prompt" then some prompt
  else if argument = ascii "-q" ∨ argument = ascii "--quiet" then some quiet
  else if argument = ascii "-s" ∨ argument = ascii "--strict" then some strict
  else none

/-- The spellings of an option. -/
def Flag.spellings : Flag → List Text
  | help => [ascii "-h", ascii "--help"]
  | expression => [ascii "-e", ascii "--expr"]
  | prompt => [ascii "-p", ascii "--prompt"]
  | quiet => [ascii "-q", ascii "--quiet"]
  | strict => [ascii "-s", ascii "--strict"]

/-- An argument spells an option exactly if it is one of the two spellings of that option. -/
theorem Flag.ofText?_eq_some_iff {argument : Text} {flag : Flag} :
    ofText? argument = some flag ↔ argument ∈ flag.spellings := by
  constructor
  · intro h
    unfold ofText? at h
    repeat' split at h
    all_goals cases h
    all_goals simpa [spellings] using ‹_ ∨ _›
  · intro h
    cases flag <;> simp only [spellings, List.mem_cons, List.not_mem_nil, or_false] at h <;>
      rcases h with rfl | rfl <;> decide

/-- An argument looks like an option when it begins with a dash and goes on; a dash
    alone does not. -/
def looksLikeFlag (argument : Text) : Bool :=
  match argument with
  | first :: _ :: _ => first == 45
  | _ => false

/-- What a command line chose.  An empty file name is no choice of a file. -/
structure Options where
  expressions : List Text
  prompt : Option Text
  quiet : Bool
  strict : Bool
  file : Option Text
  deriving DecidableEq

/-- What holds while no choice is made. -/
def Options.default : Options := ⟨[], none, false, false, none⟩

/-- A mistake in a command line. -/
inductive Misuse where
  /-- The option is the last argument and its value is missing. -/
  | missingValue (option : Text)
  /-- The argument looks like an option and is none. -/
  | unknownOption (argument : Text)
  /-- A file is named where one is chosen already. -/
  | secondFile
  deriving DecidableEq

/-- Why reading arguments stopped before their end. -/
inductive Stop where
  | help
  | misuse (mistake : Misuse)
  deriving DecidableEq

/-- Read arguments on top of what was chosen before. -/
def Options.parse (o : Options) : List Text → Except Stop Options
  | [] => .ok o
  | argument :: more =>
    match Flag.ofText? argument with
    | some .help => .error .help
    | some .expression =>
      match more with
      | [] => .error (.misuse (.missingValue argument))
      | value :: more => parse { o with expressions := o.expressions ++ [value] } more
    | some .prompt =>
      match more with
      | [] => .error (.misuse (.missingValue argument))
      | value :: more => parse { o with prompt := some value } more
    | some .quiet => parse { o with quiet := true } more
    | some .strict => parse { o with strict := true } more
    | none =>
      if looksLikeFlag argument then .error (.misuse (.unknownOption argument))
      else
        match o.file with
        | some _ => .error (.misuse .secondFile)
        | none =>
          if argument = [] then parse o more else parse { o with file := some argument } more

/-! ### Messages -/

/-- The summary of the command line of a program. -/
def usage (program : Text) : Text :=
  ascii "usage: " ++ program ++ ascii " [OPTIONS] [FILE]\n"
    ++ ascii "Evaluate +, -, *, / over non-negative integers strictly left to right.\n"
    ++ ascii "\n"
    ++ ascii "  -e, --expr EXPR     evaluate EXPR and exit (repeatable)\n"
    ++ ascii "  -p, --prompt TEXT   prompt shown before each line (default \"calc> \")\n"
    ++ ascii "  -q, --quiet         never show a prompt\n"
    ++ ascii "  -s, --strict        stop at the first line that fails\n"
    ++ ascii "  -h, --help          show this help\n"
    ++ ascii "\n"
    ++ ascii "Lines are read from FILE, or from stdin when FILE is absent or \"-\".\n"

/-- What a program says about a mistake.  An unknown option is answered with the summary
    too. -/
def Misuse.message (program : Text) : Misuse → Text
  | missingValue option =>
    program ++ ascii ": option " ++ option ++ ascii " requires an argument\n"
  | unknownOption argument =>
    program ++ ascii ": unknown option " ++ argument ++ ascii "\n" ++ usage program
  | secondFile => program ++ ascii ": only one FILE may be given\n"

/-! ### What the options mean -/

/-- Where lines come from. -/
inductive Source where
  | expressions (texts : List Text)
  | file (name : Text)
  | stdin
  deriving DecidableEq

namespace Options

/-- Expressions come before a file, and a file before the standard input, which a file
    named by a dash stands for. -/
def source (o : Options) : Source :=
  if o.expressions ≠ [] then .expressions o.expressions
  else
    match o.file with
    | some name => if name = ascii "-" then .stdin else .file name
    | none => .stdin

/-- The behaviour of the loop over a file.  It shows a prompt if one was chosen, unless it is
    to be quiet. -/
def onFile (o : Options) : Repl.Options where
  prompt := o.prompt.getD Repl.defaultPrompt
  showPrompt := o.prompt.isSome && !o.quiet
  stopOnError := o.strict

/-- The behaviour of the loop over the standard input.  Unless it is to be quiet, it shows a
    prompt if one was chosen or if there is someone to see it. -/
def onStdin (o : Options) (attended : Bool) : Repl.Options where
  prompt := o.prompt.getD Repl.defaultPrompt
  showPrompt := !o.quiet && (o.prompt.isSome || attended)
  stopOnError := o.strict

end Options

end CommandLine

end ChainCalc
