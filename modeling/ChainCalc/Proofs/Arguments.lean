import ChainCalc.CommandLine.Run

namespace ChainCalc

/-!
# Arguments — the choices that a command line makes

Arguments that can be read to their end are groups, one behind the other: an option, an
option and its value, or a name.  Each group makes one choice, and the options are what
the choices add up to.

* `CommandLine.Choice`, `Choice.Written` — a choice, and the arguments that make it;
  `Options.choose` is what it changes.
* `CommandLine.Chosen` — arguments that make choices one after the other;
  `Options.parse_eq_ok_iff` says that these are the arguments that can be read.
* `CommandLine.withoutFile` — arguments without the one that chooses a file.
* `Chosen.exists_file` — where that argument stands, and what the others choose.
-/

namespace CommandLine

/-- A choice that a group of arguments makes.  Of a file, only a name that is not empty is
    one. -/
inductive Choice where
  | expression (text : Text)
  | prompt (text : Text)
  | quiet
  | strict
  | file (name : Text)
  deriving DecidableEq

/-- The options behind a choice. -/
def Options.choose (o : Options) : Choice → Options
  | .expression text => { o with expressions := o.expressions ++ [text] }
  | .prompt text => { o with prompt := some text }
  | .quiet => { o with quiet := true }
  | .strict => { o with strict := true }
  | .file name => if name = [] then o else { o with file := some name }

/-- An empty name chooses no file. -/
@[simp] theorem Options.choose_file_nil (o : Options) : o.choose (.file []) = o := rfl

/-- Any other name chooses one. -/
@[simp] theorem Options.choose_file {name : Text} (h : name ≠ []) (o : Options) :
    o.choose (.file name) = { o with file := some name } := by
  simp [choose, h]

namespace Choice

/-- The arguments that make a choice.  A value may look like anything, and a name like
    anything but an option. -/
inductive Written : Choice → List Text → Prop where
  | expression {a : Text} (ha : Flag.ofText? a = some .expression) (text : Text) :
      Written (.expression text) [a, text]
  | prompt {a : Text} (ha : Flag.ofText? a = some .prompt) (text : Text) :
      Written (.prompt text) [a, text]
  | quiet {a : Text} (ha : Flag.ofText? a = some .quiet) : Written .quiet [a]
  | strict {a : Text} (ha : Flag.ofText? a = some .strict) : Written .strict [a]
  | file {a : Text} (ha : Flag.ofText? a = none) (hname : looksLikeFlag a = false) :
      Written (.file a) [a]

/-- A choice that is still open: a file is named only while none is chosen. -/
def Open (o : Options) : Choice → Prop
  | .file _ => o.file = none
  | _ => True

end Choice

variable {o o' : Options} {choice : Choice} {choices : List Choice} {group : List Text}

/-- **Step lemma.**  Arguments that make a choice are read as that choice. -/
theorem Options.parse_append_of_written (hgroup : choice.Written group) (hopen : choice.Open o)
    (more : List Text) : o.parse (group ++ more) = (o.choose choice).parse more := by
  cases hgroup with
  | expression ha text | prompt ha text => simp [parse, ha, choose]
  | quiet ha | strict ha =>
    rw [List.singleton_append, parse.eq_def]
    simp [ha, choose]
  | @file a ha hname =>
    have hnone : o.file = none := hopen
    rw [List.singleton_append, parse.eq_def]
    simp only [ha, hname, hnone, Bool.false_eq_true, if_false]
    by_cases hempty : a = []
    · simp [hempty]
    · simp [hempty]

/-- Arguments that make choices one after the other, and the options that these lead to. -/
inductive Chosen : Options → List Choice → List Text → Options → Prop where
  | done (o : Options) : Chosen o [] [] o
  | step {o o' : Options} {choice : Choice} {choices : List Choice} {group more : List Text}
      (hgroup : choice.Written group) (hopen : choice.Open o)
      (h : Chosen (o.choose choice) choices more o') :
      Chosen o (choice :: choices) (group ++ more) o'

/-- Arguments that make choices are read as these choices. -/
theorem Chosen.parse_append {arguments : List Text} (h : Chosen o choices arguments o')
    (more : List Text) : o.parse (arguments ++ more) = o'.parse more := by
  induction h with
  | done o => rfl
  | step hgroup hopen _ ih =>
    rw [List.append_assoc, Options.parse_append_of_written hgroup hopen, ih]

/-- A choice stands in front of choices. -/
theorem Chosen.exists_step {more : List Text} (hgroup : choice.Written group)
    (hopen : choice.Open o) (h : ∃ choices, Chosen (o.choose choice) choices more o') :
    ∃ choices, Chosen o choices (group ++ more) o' := by
  obtain ⟨choices, hmore⟩ := h
  exact ⟨choice :: choices, .step hgroup hopen hmore⟩

/-- **Run lemma.**  The arguments that can be read to their end are those that make choices
    one after the other. -/
theorem Options.parse_eq_ok_iff {arguments : List Text} :
    o.parse arguments = .ok o' ↔ ∃ choices, Chosen o choices arguments o' := by
  constructor
  · intro h
    fun_induction Options.parse o arguments with
    | case1 =>
      cases h
      exact ⟨[], .done _⟩
    | case4 o a ha text more ih => exact Chosen.exists_step (.expression ha text) trivial (ih h)
    | case6 o a ha text more ih => exact Chosen.exists_step (.prompt ha text) trivial (ih h)
    | case7 o a more ha ih => exact Chosen.exists_step (.quiet ha) trivial (ih h)
    | case8 o a more ha ih => exact Chosen.exists_step (.strict ha) trivial (ih h)
    | case11 o more hnone ha hname ih =>
      -- An empty name is read and chooses nothing.
      exact Chosen.exists_step (.file ha (Bool.of_not_eq_true hname)) hnone (ih h)
    | case12 o a more ha hname hnone hempty ih =>
      rw [← Options.choose_file hempty] at h ih
      exact Chosen.exists_step (.file ha (Bool.of_not_eq_true hname)) hnone (ih h)
    | _ => cases h
  · rintro ⟨choices, h⟩
    have hparse := h.parse_append []
    rwa [List.append_nil] at hparse

/-! ### Without the file -/

/-- Arguments without the one that chooses a file: the first that is neither an option, nor
    the value of one, nor empty. -/
def withoutFile : List Text → List Text
  | [] => []
  | a :: more =>
    match Flag.ofText? a with
    | some .expression | some .prompt =>
      match more with
      | [] => [a]
      | value :: more => a :: value :: withoutFile more
    | some _ => a :: withoutFile more
    | none => if looksLikeFlag a ∨ a = [] then a :: withoutFile more else more

/-- Arguments that choose no file stay. -/
theorem withoutFile_append_of_written (hgroup : choice.Written group)
    (hnone : (o.choose choice).file = none) (more : List Text) :
    withoutFile (group ++ more) = group ++ withoutFile more := by
  cases hgroup with
  | expression ha text | prompt ha text => simp [withoutFile, ha]
  | quiet ha | strict ha =>
    rw [List.singleton_append, withoutFile.eq_def]
    simp [ha]
  | @file a ha hname =>
    obtain rfl : a = [] := by
      refine Classical.byContradiction fun hne => ?_
      rw [Options.choose_file hne] at hnone
      cases hnone
    rw [List.singleton_append, withoutFile.eq_def]
    simp [ha]

/-- The name of a file goes. -/
theorem withoutFile_file {a : Text} (ha : Flag.ofText? a = none)
    (hname : looksLikeFlag a = false) (hne : a ≠ []) (more : List Text) :
    withoutFile (a :: more) = more := by
  rw [withoutFile.eq_def]
  simp [ha, hname, hne]

namespace Chosen

variable {arguments : List Text} {name : Text}

/-- Behind the name of a file there is no other, so without it the same choices lead to
    the same options but for the file. -/
theorem clearFile (h : Chosen o choices arguments o') (hsome : o.file = some name) :
    Chosen { o with file := none } choices arguments { o' with file := none }
      ∧ o'.file = some name := by
  induction h with
  | done o => exact ⟨.done _, hsome⟩
  | @step o o' choice choices group more hgroup hopen _ ih =>
    cases choice with
    | file a =>
      have hnone : o.file = none := hopen
      rw [hnone] at hsome
      cases hsome
    | expression | prompt | quiet | strict =>
      obtain ⟨hclear, hkept⟩ := ih hsome
      exact ⟨.step hgroup trivial hclear, hkept⟩

/-- **Where the file is named.**  The name stands behind arguments that can be read and that
    choose no file; without it, the others choose the same but for the file.  By induction
    on the choices in front of it. -/
theorem exists_file (h : Chosen o choices arguments o') (hnone : o.file = none)
    (hsome : o'.file = some name) :
    ∃ before after o₁, arguments = before ++ name :: after
      ∧ withoutFile arguments = before ++ after
      ∧ o.parse before = .ok o₁ ∧ o₁.file = none
      ∧ o.parse (before ++ after) = .ok { o' with file := none } := by
  induction h with
  | done o =>
    rw [hnone] at hsome
    cases hsome
  | @step o o' choice choices group more hgroup hopen hmore ih =>
    by_cases hkeep : (o.choose choice).file = none
    · obtain ⟨before, after, o₁, rfl, hwithout, hbefore, ho₁, hboth⟩ := ih hkeep hsome
      refine ⟨group ++ before, after, o₁, by simp, ?_, ?_, ho₁, ?_⟩
      · rw [withoutFile_append_of_written hgroup hkeep, hwithout, List.append_assoc]
      · rw [Options.parse_append_of_written hgroup hopen, hbefore]
      · rw [List.append_assoc, Options.parse_append_of_written hgroup hopen, hboth]
    · -- Only the name of a file changes the file.
      cases hgroup with
      | expression | prompt | quiet | strict => exact absurd hnone hkeep
      | @file a ha hname =>
        have hne : a ≠ [] := fun hempty => hkeep (by rwa [hempty])
        rw [Options.choose_file hne] at hmore
        obtain ⟨hclear, hfile⟩ := hmore.clearFile rfl
        rw [hsome] at hfile
        cases hfile
        have hsame : { o with file := none } = o := by rw [← hnone]
        rw [hsame] at hclear
        exact ⟨[], more, o, rfl, withoutFile_file ha hname hne more, rfl, hnone,
          Options.parse_eq_ok_iff.2 ⟨_, hclear⟩⟩

end Chosen

end CommandLine

end ChainCalc
