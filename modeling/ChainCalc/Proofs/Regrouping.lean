import ChainCalc.Proofs.Arguments

namespace ChainCalc

/-!
# Regrouping — groups of arguments in another order

Each group of arguments makes a choice, in a short or a long spelling.  The options are totals
over the choices: of some choices all count, of some the last one, and of some that they are made
at all.  So choices that are made in another order, or spelled in another way, lead to the same
options if the expressions and the prompts keep their order and there is one name at most.

* `CommandLine.Spelled` — arguments that spell choices one after the other.
* `Choice.expressions`, `Choice.prompts`, `Choice.names` — the texts of choices of one kind;
  `CommandLine.OneFile` says that no name stands behind one that chooses a file.
* `Options.chooseAll_eq` — the options that choices lead to, as totals.
* `Spelled.chosen` — **run lemma**: arguments that spell choices of one file at most are read as
  these choices.
* `CommandLine.run_perm` — the order and the spelling do not matter.
-/

namespace CommandLine

/-! ### Spelled choices -/

/-- An option does not go without looking like one, so what does not look like one is none. -/
theorem Flag.ofText?_eq_none {a : Text} (h : looksLikeFlag a = false) : Flag.ofText? a = none := by
  have hall : ∀ flag ∈ [ascii "-h", ascii "--help", ascii "-e", ascii "--expr", ascii "-p",
      ascii "--prompt", ascii "-q", ascii "--quiet", ascii "-s", ascii "--strict"],
      looksLikeFlag flag = true := by decide
  have hne : ∀ flag : Text, looksLikeFlag flag = true → a ≠ flag := by
    rintro flag hflag rfl
    rw [h] at hflag
    cases hflag
  simp [Flag.ofText?, hne _ (hall _ _)]

/-- A name is written as it is. -/
theorem Choice.written_file {a : Text} (h : looksLikeFlag a = false) :
    (Choice.file a).Written [a] :=
  .file (Flag.ofText?_eq_none h) h

/-- Arguments that spell choices one after the other. -/
inductive Spelled : List Choice → List Text → Prop where
  | nil : Spelled [] []
  | cons {choice : Choice} {choices : List Choice} {group more : List Text}
      (hgroup : choice.Written group) (hmore : Spelled choices more) :
      Spelled (choice :: choices) (group ++ more)

variable {o o' : Options} {choice : Choice} {choices choices' : List Choice}
  {arguments arguments' : List Text}

/-- What spells choices, and then others, spells all of them. -/
theorem Spelled.append (h : Spelled choices arguments) (h' : Spelled choices' arguments') :
    Spelled (choices ++ choices') (arguments ++ arguments') := by
  induction h with
  | nil => exact h'
  | cons hgroup _ ih =>
    rw [List.append_assoc]
    exact .cons hgroup ih

/-- Arguments that are read as choices spell them. -/
theorem Chosen.spelled (h : Chosen o choices arguments o') : Spelled choices arguments := by
  induction h with
  | done => exact .nil
  | step hgroup _ _ ih => exact .cons hgroup ih

/-! ### The choices of one kind -/

namespace Choice

/-- The expression of a choice, if it adds one. -/
def expression? : Choice → Option Text
  | .expression text => some text
  | _ => none

/-- The prompt of a choice, if it sets one. -/
def prompt? : Choice → Option Text
  | .prompt text => some text
  | _ => none

/-- The name that stands for a choice, if it is one of a file. -/
def name? : Choice → Option Text
  | .file name => some name
  | _ => none

/-- The expressions among choices, in order. -/
def expressions (choices : List Choice) : List Text := choices.filterMap expression?

/-- The prompts among choices, in order. -/
def prompts (choices : List Choice) : List Text := choices.filterMap prompt?

/-- The names among choices, in order. -/
def names (choices : List Choice) : List Text := choices.filterMap name?

@[simp] theorem expressions_cons (choice : Choice) (choices : List Choice) :
    expressions (choice :: choices)
      = match choice with
        | .expression text => text :: expressions choices
        | _ => expressions choices := by
  cases choice <;> rfl

@[simp] theorem prompts_cons (choice : Choice) (choices : List Choice) :
    prompts (choice :: choices)
      = match choice with
        | .prompt text => text :: prompts choices
        | _ => prompts choices := by
  cases choice <;> rfl

@[simp] theorem names_cons (choice : Choice) (choices : List Choice) :
    names (choice :: choices)
      = match choice with
        | .file name => name :: names choices
        | _ => names choices := by
  cases choice <;> rfl

@[simp] theorem names_append (choices more : List Choice) :
    names (choices ++ more) = names choices ++ names more := List.filterMap_append

end Choice

/-- Choices of one file at most: no name stands behind one that is not empty. -/
def OneFile (choices : List Choice) : Prop :=
  (Choice.names choices).Pairwise fun first _ => first = []

/-! ### Totals -/

/-- The options behind choices. -/
def Options.chooseAll (o : Options) (choices : List Choice) : Options := choices.foldl choose o

/-- **The options that choices lead to.**  All expressions count, and the last prompt; to be quiet
    or strict counts once; of the names, the last one that is not empty.  By induction on the
    choices. -/
theorem Options.chooseAll_eq (o : Options) (choices : List Choice) :
    o.chooseAll choices =
      { expressions := o.expressions ++ Choice.expressions choices
        prompt := (Choice.prompts choices).getLast?.or o.prompt
        quiet := o.quiet || decide (Choice.quiet ∈ choices)
        strict := o.strict || decide (Choice.strict ∈ choices)
        file := ((Choice.names choices).filter (· ≠ [])).getLast?.or o.file } := by
  induction choices generalizing o with
  | nil => simp [chooseAll, Choice.expressions, Choice.prompts, Choice.names]
  | cons choice choices ih =>
    show (o.choose choice).chooseAll choices = _
    rw [ih]
    cases choice with
    | file name =>
      -- An empty name leaves the file as it is, and is filtered out of the names.
      by_cases hempty : name = []
      · simp [choose, hempty]
      · simp [choose, hempty, List.getLast?_cons]
    | _ => simp [choose, List.getLast?_cons]

/-- One name at most is none or one. -/
theorem Choice.names_cases (h : (names choices).length ≤ 1) :
    names choices = [] ∨ ∃ name, names choices = [name] := by
  rcases Nat.le_one_iff_eq_zero_or_eq_one.1 h with h | h
  · exact .inl (List.length_eq_zero_iff.1 h)
  · exact .inr (List.length_eq_one_iff.1 h)

/-- Of one name at most, there is only one order. -/
theorem Choice.names_eq_of_perm (hperm : choices.Perm choices') (h : (names choices).length ≤ 1) :
    names choices = names choices' := by
  have hnames : (names choices).Perm (names choices') := hperm.filterMap name?
  rcases names_cases h with hnil | ⟨name, hname⟩
  · rw [hnil] at hnames ⊢
    exact hnames.nil_eq
  · rw [hname] at hnames ⊢
    exact List.singleton_perm.1 hnames

/-- The options do not depend on the order of the choices, but for the order of expressions and
    that of prompts. -/
theorem Options.chooseAll_perm (o : Options) (hperm : choices.Perm choices')
    (hexpressions : Choice.expressions choices = Choice.expressions choices')
    (hprompts : Choice.prompts choices = Choice.prompts choices')
    (hnames : (Choice.names choices).length ≤ 1) :
    o.chooseAll choices = o.chooseAll choices' := by
  rw [chooseAll_eq, chooseAll_eq, hexpressions, hprompts, Choice.names_eq_of_perm hperm hnames]
  simp only [hperm.mem_iff]

/-! ### Reading spelled choices -/

/-- A name can be chosen only where it is the first that is not empty, and then no other comes
    behind it. -/
theorem OneFile.of_cons {name : Text} (h : OneFile (.file name :: choices)) (hne : name ≠ []) :
    Choice.names choices = [] := by
  rw [OneFile, Choice.names_cons, List.pairwise_cons] at h
  exact List.eq_nil_iff_forall_not_mem.2 fun other hother => hne (h.1 other hother)

/-- What comes behind a choice names one file at most, if all together do. -/
theorem OneFile.tail (h : OneFile (choice :: choices)) : OneFile choices := by
  unfold OneFile at h ⊢
  cases choice with
  | file name =>
    rw [Choice.names_cons, List.pairwise_cons] at h
    exact h.2
  | _ => exact h

/-- **Run lemma.**  Arguments that spell choices of one file at most are read as these choices.
    By induction on the choices, where either no file is chosen or no name is left. -/
theorem Spelled.chosen (h : Spelled choices arguments) (hone : OneFile choices)
    (hopen : o.file = none ∨ Choice.names choices = []) :
    Chosen o choices arguments (o.chooseAll choices) := by
  induction h generalizing o with
  | nil => exact .done o
  | @cons choice choices group more hgroup _ ih =>
    -- Only a name can close the way, for the names behind it.
    show Chosen o _ _ ((o.choose choice).chooseAll choices)
    cases choice with
    | file name =>
      have hnone : o.file = none := by
        rcases hopen with hnone | hnames
        · exact hnone
        · rw [Choice.names_cons] at hnames
          cases hnames
      refine .step hgroup hnone (ih hone.tail ?_)
      by_cases hempty : name = []
      · subst hempty
        exact .inl hnone
      · exact .inr (hone.of_cons hempty)
    | _ => exact .step hgroup trivial (ih hone.tail hopen)

/-- In front of other arguments, arguments that spell choices of one file at most make them. -/
theorem Spelled.parse_append (h : Spelled choices arguments) (hone : OneFile choices)
    (more : List Text) :
    Options.default.parse (arguments ++ more) = (Options.default.chooseAll choices).parse more :=
  (h.chosen hone (.inl rfl)).parse_append more

/-- Choices with one name at most are choices of one file at most. -/
theorem oneFile_of_length_names_le_one (h : (Choice.names choices).length ≤ 1) :
    OneFile choices := by
  unfold OneFile
  rcases Choice.names_cases h with hnil | ⟨name, hname⟩
  · rw [hnil]
    exact .nil
  · rw [hname]
    exact List.pairwise_singleton _ name

/-- **The order of options does not matter.**  Two command lines that make the same choices, with
    the expressions in the same order and the prompts in the same order, and with one name at
    most, end with the same status and leave the console the same, however the options are
    spelled. -/
theorem run_perm (program : Text) (env : Environment) (c : Console)
    (h : Spelled choices arguments) (h' : Spelled choices' arguments')
    (hperm : choices.Perm choices')
    (hexpressions : Choice.expressions choices = Choice.expressions choices')
    (hprompts : Choice.prompts choices = Choice.prompts choices')
    (hnames : (Choice.names choices).length ≤ 1) :
    run program arguments env c = run program arguments' env c := by
  have hlength : (Choice.names choices').length ≤ 1 := by
    rwa [← Choice.names_eq_of_perm hperm hnames]
  have hparse := h.parse_append (oneFile_of_length_names_le_one hnames) []
  have hparse' := h'.parse_append (oneFile_of_length_names_le_one hlength) []
  rw [Options.chooseAll_perm _ hperm hexpressions hprompts hnames, ← hparse', List.append_nil,
    List.append_nil] at hparse
  simp only [run, job, hparse]

/-- Between the options stand an expression and a prompt that look like options themselves, and
    the second prompt is the one that counts. -/
theorem run_perm_looking_like_options :
    let choices := [Choice.prompt (ascii "-e"), .expression (ascii "-h"), .strict,
      .prompt (ascii "-q"), .expression (ascii "2"), .file (ascii "-")]
    let choices' := [Choice.file (ascii "-"), .prompt (ascii "-e"), .prompt (ascii "-q"),
      .strict, .expression (ascii "-h"), .expression (ascii "2")]
    let arguments := [ascii "-p", ascii "-e", ascii "-e", ascii "-h", ascii "-s",
      ascii "--prompt", ascii "-q", ascii "--expr", ascii "2", ascii "-"]
    let arguments' := [ascii "-", ascii "--prompt", ascii "-e", ascii "-p", ascii "-q",
      ascii "--strict", ascii "--expr", ascii "-h", ascii "-e", ascii "2"]
    let env : Environment := ⟨[], true, fun _ => none⟩
    let outcome := run [] arguments' env Console.unlimited
    Spelled choices arguments ∧ Spelled choices' arguments' ∧ choices.Perm choices'
      ∧ Choice.expressions choices = Choice.expressions choices'
      ∧ Choice.prompts choices = Choice.prompts choices'
      ∧ (Choice.names choices).length ≤ 1
      ∧ run [] arguments env Console.unlimited = outcome
      ∧ outcome.1 = .failure ∧ outcome.2.out.accepted = [] := by
  intro choices choices' arguments arguments' env outcome
  have h : Spelled choices arguments :=
    .cons (.prompt (by decide) _) <| .cons (.expression (by decide) _) <|
      .cons (.strict (by decide)) <| .cons (.prompt (by decide) _) <|
      .cons (.expression (by decide) _) <| .cons (Choice.written_file (by decide)) .nil
  have h' : Spelled choices' arguments' :=
    .cons (Choice.written_file (by decide)) <| .cons (.prompt (by decide) _) <|
      .cons (.prompt (by decide) _) <| .cons (.strict (by decide)) <|
      .cons (.expression (by decide) _) <| .cons (.expression (by decide) _) .nil
  have hperm : choices.Perm choices' := by decide
  have hnames : (Choice.names choices).length ≤ 1 := by decide
  refine ⟨h, h', hperm, rfl, rfl, hnames, run_perm [] env _ h h' hperm rfl rfl hnames, ?_, ?_⟩
  · decide +kernel
  · decide +kernel

end CommandLine

end ChainCalc
