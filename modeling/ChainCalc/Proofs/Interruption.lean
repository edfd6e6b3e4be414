import ChainCalc.Proofs.ExitStatus
import ChainCalc.Proofs.Regrouping

namespace ChainCalc

/-!
# Interruption — a mistake in the arguments comes before everything that they ask for

Arguments are read to their end before anything is done.  The first event on the way, a request
for help or a mistake, ends the reading, and then what was chosen before has no effect.

* `CommandLine.Event` — an event that arguments begin with.
* `CommandLine.FirstEvent` — the first event among arguments, told from the choices in front of
  it; `Options.parse_eq_error_iff` says that reading stops there and nowhere else.
* `CommandLine.run_firstEvent` — what a command line with an event does.
* `CommandLine.run_two_names` — what becomes of two names of files.
-/

/-- A sink has accepted a text that is not empty exactly when it has not failed. -/
theorem Sink.accepted_write_eq_iff (s : Sink) {t : Text} (ht : t ≠ []) :
    (s.write t).accepted = s.accepted ++ t ↔ (s.write t).failed = false := by
  refine ⟨fun hall => ?_, accepted_write_of_not_failed⟩
  have hlength := congrArg List.length hall
  have hpos := List.length_pos_iff.2 ht
  rw [List.length_append] at hlength
  obtain ⟨reversed, room, failed⟩ := s
  cases failed with
  | true =>
    rw [write_of_failed rfl] at hlength
    omega
  | false =>
    cases room with
    | none => rfl
    | some n =>
      by_cases hn : t.length ≤ n
      · simp [write, hn]
      · have hcut : ((Sink.mk reversed (some n) false).write t).accepted
            = reversed.reverse ++ t.take n := by
          simp [write, accepted, hn]
        rw [hcut, List.length_append, List.length_take, accepted] at hlength
        dsimp only at hlength
        omega

namespace CommandLine

/-! ### Events -/

/-- Arguments begin with an event; `named` says whether a file has been chosen before them. -/
inductive Event (named : Prop) : List Text → Stop → Prop where
  | help {a : Text} (ha : Flag.ofText? a = some .help) (after : List Text) :
      Event named (a :: after) .help
  | missingValue {a : Text}
      (ha : Flag.ofText? a = some .expression ∨ Flag.ofText? a = some .prompt) :
      Event named [a] (.misuse (.missingValue a))
  | unknownOption {a : Text} (ha : Flag.ofText? a = none) (hlooks : looksLikeFlag a = true)
      (after : List Text) : Event named (a :: after) (.misuse (.unknownOption a))
  | secondFile {a : Text} (ha : looksLikeFlag a = false) (hnamed : named) (after : List Text) :
      Event named (a :: after) (.misuse .secondFile)

variable {o o' : Options} {choices choices' : List Choice} {arguments : List Text} {stop : Stop}

/-- **Step lemma.**  Reading stops at an event. -/
theorem Event.parse_eq (h : Event (o.file ≠ none) arguments stop) :
    o.parse arguments = .error stop := by
  cases h with
  | help ha after =>
    rw [Options.parse.eq_def]
    simp [ha]
  | missingValue ha =>
    rw [Options.parse.eq_def]
    rcases ha with ha | ha <;> simp [ha]
  | unknownOption ha hlooks after =>
    rw [Options.parse.eq_def]
    simp [ha, hlooks]
  | secondFile ha hnamed after =>
    obtain ⟨name, hname⟩ := Option.ne_none_iff_exists'.1 hnamed
    rw [Options.parse.eq_def]
    simp [Flag.ofText?_eq_none ha, ha, hname]

/-- Behind choices, arguments come to an event. -/
def ComesTo (o : Options) (arguments : List Text) (stop : Stop) : Prop :=
  ∃ choices before o' rest, arguments = before ++ rest ∧ Chosen o choices before o'
    ∧ Event (o'.file ≠ none) rest stop

/-- Arguments that begin with an event come to it. -/
theorem Event.comesTo (h : Event (o.file ≠ none) arguments stop) : ComesTo o arguments stop :=
  ⟨[], [], o, arguments, rfl, .done o, h⟩

/-- In front of arguments that come to an event there may be one more choice. -/
theorem ComesTo.step {choice : Choice} {group more : List Text} (hgroup : choice.Written group)
    (hopen : choice.Open o) (h : ComesTo (o.choose choice) more stop) :
    ComesTo o (group ++ more) stop := by
  obtain ⟨choices, before, o', rest, rfl, hchosen, hevent⟩ := h
  exact ⟨choice :: choices, group ++ before, o', rest, by rw [List.append_assoc],
    .step hgroup hopen hchosen, hevent⟩

/-- **Run lemma.**  Where reading stops, arguments come to an event.  By induction along the
    reading, with one case for each way to go on and for each event. -/
theorem Options.comesTo_of_parse_eq_error (h : o.parse arguments = .error stop) :
    ComesTo o arguments stop := by
  fun_induction Options.parse o arguments with
  | case1 => cases h
  | case2 o a more ha =>
    cases h
    exact (Event.help ha more).comesTo
  | case3 o a ha =>
    cases h
    exact (Event.missingValue (.inl ha)).comesTo
  | case4 o a ha text more ih => exact .step (.expression ha text) trivial (ih h)
  | case5 o a ha =>
    cases h
    exact (Event.missingValue (.inr ha)).comesTo
  | case6 o a ha text more ih => exact .step (.prompt ha text) trivial (ih h)
  | case7 o a more ha ih => exact .step (.quiet ha) trivial (ih h)
  | case8 o a more ha ih => exact .step (.strict ha) trivial (ih h)
  | case9 o a more ha hlooks =>
    cases h
    exact (Event.unknownOption ha hlooks more).comesTo
  | case10 o a more ha hlooks name hname =>
    cases h
    have hchosen : o.file ≠ none := by simp [hname]
    exact (Event.secondFile (Bool.of_not_eq_true hlooks) hchosen more).comesTo
  | case11 o more hnone ha hname ih =>
    -- An empty name is read and chooses nothing.
    exact .step (.file ha (Bool.of_not_eq_true hname)) hnone (ih h)
  | case12 o a more ha hname hnone hempty ih =>
    rw [← Options.choose_file hempty] at h ih
    exact .step (.file ha (Bool.of_not_eq_true hname)) hnone (ih h)

/-! ### The first event -/

/-- Behind a chosen file, no name is read. -/
theorem Chosen.names_eq_nil (h : Chosen o choices arguments o') (hfile : o.file ≠ none) :
    Choice.names choices = [] := by
  induction h with
  | done => rfl
  | @step o o' choice choices group more hgroup hopen _ ih =>
    cases choice with
    | file name => exact absurd hopen hfile
    | _ => exact ih hfile

/-- Choices that are read are of one file at most. -/
theorem Chosen.oneFile (h : Chosen o choices arguments o') : OneFile choices := by
  unfold OneFile
  induction h with
  | done => exact .nil
  | @step o o' choice choices group more hgroup hopen hmore ih =>
    cases choice with
    | file name =>
      -- Behind a name that chooses a file, no other was read.
      rw [Choice.names_cons, List.pairwise_cons]
      refine ⟨fun other hother => ?_, ih⟩
      refine Classical.byContradiction fun hne => ?_
      have hnil := hmore.names_eq_nil (by simp [hne])
      rw [hnil] at hother
      cases hother
    | _ => exact ih

/-- Choices that are read lead to the options that they add up to. -/
theorem Chosen.eq_chooseAll (h : Chosen o choices arguments o') : o' = o.chooseAll choices := by
  induction h with
  | done => rfl
  | step _ _ _ ih => exact ih

/-- A name stands among choices that is not empty, so it chooses a file. -/
def Named (choices : List Choice) : Prop := ∃ name ∈ Choice.names choices, name ≠ []

/-- A file is chosen by choices among which there is a name that is not empty. -/
theorem Options.file_chooseAll_ne_none_iff :
    (Options.default.chooseAll choices).file ≠ none ↔ Named choices := by
  rw [chooseAll_eq, Named]
  simp [Options.default]

/-- The first event among arguments: in front of it they spell choices, none of which is an event
    itself. -/
def FirstEvent (arguments : List Text) (stop : Stop) : Prop :=
  ∃ choices before rest, arguments = before ++ rest ∧ Spelled choices before ∧ OneFile choices
    ∧ Event (Named choices) rest stop

/-- **Reading stops at the first event,** and nowhere else. -/
theorem Options.parse_eq_error_iff :
    Options.default.parse arguments = .error stop ↔ FirstEvent arguments stop := by
  constructor
  · intro h
    obtain ⟨choices, before, o', rest, rfl, hchosen, hevent⟩ := comesTo_of_parse_eq_error h
    rw [hchosen.eq_chooseAll, file_chooseAll_ne_none_iff] at hevent
    exact ⟨choices, before, rest, rfl, hchosen.spelled, hchosen.oneFile, hevent⟩
  · rintro ⟨choices, before, rest, rfl, hspelled, hone, hevent⟩
    rw [hspelled.parse_append hone]
    rw [← file_chooseAll_ne_none_iff] at hevent
    exact hevent.parse_eq

/-! ### What is done about an event -/

/-- The summary of the options is not empty. -/
theorem usage_ne_nil (program : Text) : usage program ≠ [] := by
  rw [usage, Ne, List.append_eq_nil_iff]
  rintro ⟨-, hlast⟩
  exact absurd hlast (by decide)

/-- A mistake is told, and nothing else is done. -/
theorem run_of_parse_misuse {mistake : Misuse} (program : Text) (c : Console)
    (h : Options.default.parse arguments = .error (.misuse mistake)) :
    (∀ env, run program arguments env c = (.trouble, c.complain (mistake.message program)))
      ∧ ∀ env, acts program arguments env c = [.complain (mistake.message program)] := by
  constructor <;> intro env
  · simp only [run, job, h, Job.perform]
  · simp only [acts, job, h, Job.acts]

/-- The summary is shown, and nothing else is done. -/
theorem run_of_parse_help (program : Text) (c : Console)
    (h : Options.default.parse arguments = .error .help) :
    (∀ env, run program arguments env c
        = (if (c.out.write (usage program)).failed then .trouble else .success,
          c.print (usage program)))
      ∧ ∀ env, acts program arguments env c = [.print (usage program)] := by
  constructor <;> intro env
  · simp only [run, job, h, Job.perform]
    rfl
  · simp only [acts, job, h, Job.acts]

/-- **Arguments are read before anything is done.**  Where the first event among the arguments is
    a mistake, the code is two and nothing is written to the results.  Where it is a request for
    help, the summary is written to the results and nothing to the errors, and the code is zero
    if all of it was accepted and two otherwise.  In either case no line is evaluated, and
    neither the standard input nor a file matters. -/
theorem run_firstEvent (program : Text) (env : Environment) (c : Console)
    (h : FirstEvent arguments stop) :
    let tried := acts program arguments env c
    let code := (run program arguments env c).1.code
    let final := (run program arguments env c).2
    Act.evaluated tried = [] ∧ final = c.after tried
      ∧ (∀ env', run program arguments env' c = run program arguments env c)
      ∧ (stop ≠ .help → code = 2 ∧ final.out = c.out)
      ∧ (stop = .help → final.err = c.err ∧ final.out = c.out.write (usage program)
        ∧ (final.out.accepted = c.out.accepted ++ usage program → code = 0)
        ∧ (final.out.accepted ≠ c.out.accepted ++ usage program → code = 2)) := by
  intro tried code final
  have hparse := Options.parse_eq_error_iff.2 h
  have hfinal : final = c.after tried := (reports_run program arguments env c).console
  cases stop with
  | misuse mistake =>
    obtain ⟨hrun, hacts⟩ := run_of_parse_misuse program c hparse
    have hcode : code = 2 := by
      simp only [code, hrun]
      rfl
    have hout : final.out = c.out := by
      simp only [final, hrun]
      rfl
    exact ⟨by simp only [tried, hacts]; rfl, hfinal, fun env' => by rw [hrun, hrun],
      fun _ => ⟨hcode, hout⟩, nofun⟩
  | help =>
    obtain ⟨hrun, hacts⟩ := run_of_parse_help program c hparse
    have herr : final.err = c.err := by
      simp only [final, hrun]
      rfl
    have hout : final.out = c.out.write (usage program) := by
      simp only [final, hrun]
      rfl
    have hcode : code = if final.out.failed then 2 else 0 := by
      simp only [code, hout, hrun]
      split <;> rfl
    -- The code is told from a failure, and that from what was accepted.
    have haccepted := c.out.accepted_write_eq_iff (usage_ne_nil program)
    rw [← hout] at haccepted
    refine ⟨by simp only [tried, hacts]; rfl, hfinal, fun env' => by rw [hrun, hrun],
      fun hne => absurd rfl hne, fun _ => ⟨herr, hout, fun hall => ?_, fun hlost => ?_⟩⟩
    · rw [hcode, haccepted.1 hall]
      rfl
    · rw [hcode, if_pos (Bool.of_not_eq_false fun hfailed => hlost (haccepted.2 hfailed))]

/-- An empty name behind another is a mistake, so nothing comes of the expression in front of it
    or of the help behind it; the prompt only looks like a request for help.  On a console with
    little room, a summary that is asked for in front of a mistake gives code two. -/
theorem run_firstEvent_name_help :
    let mistaken := [ascii "-e", ascii "1+2", ascii "-p", ascii "-h", ascii "a", [], ascii "-h"]
    let helped := [ascii "-e", ascii "-x", ascii "--help", ascii "-x"]
    let env : Environment := ⟨ascii "5", true, fun _ => some (ascii "7")⟩
    let full : Console := ⟨Sink.ofRoom (some 3), Sink.ofRoom none⟩
    FirstEvent mistaken (.misuse .secondFile) ∧ FirstEvent helped .help
      ∧ (run [] mistaken env full).1.code = 2 ∧ (run [] mistaken env full).2.out = full.out
      ∧ (run [] helped env full).1.code = 2 ∧ (run [] helped env full).2.err = full.err
      ∧ (run [] helped env Console.unlimited).1.code = 0 := by
  intro mistaken helped env full
  have hmistaken : FirstEvent mistaken (.misuse .secondFile) := by
    refine ⟨[.expression (ascii "1+2"), .prompt (ascii "-h"), .file (ascii "a")],
      [ascii "-e", ascii "1+2", ascii "-p", ascii "-h", ascii "a"], [[], ascii "-h"],
      rfl, ?_, oneFile_of_length_names_le_one (by decide), .secondFile rfl ?_ _⟩
    · exact .cons (.expression (by decide) _) <| .cons (.prompt (by decide) _) <|
        .cons (Choice.written_file (by decide)) .nil
    · exact ⟨ascii "a", by decide, by decide⟩
  have hhelped : FirstEvent helped .help :=
    ⟨[.expression (ascii "-x")], [ascii "-e", ascii "-x"], [ascii "--help", ascii "-x"], rfl,
      .cons (.expression (by decide) _) .nil, oneFile_of_length_names_le_one (by decide),
      .help (by decide) _⟩
  obtain ⟨-, -, -, hmisuse, -⟩ := run_firstEvent [] env full hmistaken
  obtain ⟨hcode, hout⟩ := hmisuse (by decide)
  obtain ⟨-, -, -, -, hhelp⟩ := run_firstEvent [] env full hhelped
  obtain ⟨herr, hcut, -, hlost⟩ := hhelp rfl
  obtain ⟨-, -, -, -, hwhole⟩ := run_firstEvent [] env Console.unlimited hhelped
  obtain ⟨-, huncut, hall, -⟩ := hwhole rfl
  have hlong : 3 < (usage []).length := by
    have hfront : (ascii "usage: ").length = 7 := by decide
    simp only [usage, List.length_append, hfront]
    omega
  have hfailed : (full.out.write (usage [])).failed = true :=
    (full.out.failed_write_iff _).2 (.inr ⟨3, rfl, hlong⟩)
  refine ⟨hmistaken, hhelped, hcode, hout, hlost fun heq => ?_, herr, hall ?_⟩
  · rw [hcut] at heq
    rw [(full.out.accepted_write_eq_iff (usage_ne_nil [])).1 heq] at hfailed
    cases hfailed
  · rw [huncut]
    exact Sink.accepted_write_of_room_none rfl rfl _

/-! ### Two names -/

/-- An empty name can be left out. -/
theorem Spelled.parse_empty_name (h : Spelled choices arguments) (hone : OneFile choices)
    (more : List Text) (hnone : Choice.names choices = []) :
    Options.default.parse (arguments ++ [] :: more)
      = Options.default.parse (arguments ++ more) := by
  have hfile : (Options.default.chooseAll choices).file = none := by
    rw [Options.chooseAll_eq, hnone]
    rfl
  have hempty := Options.parse_append_of_written (Choice.written_file (a := []) rfl) hfile more
  rw [Options.choose_file_nil] at hempty
  rw [h.parse_append hone, h.parse_append hone]
  exact hempty

/-- **Two names.**  Two arguments stand where a file is named, with neither help nor a mistake in
    front of the second.  If the first is not empty, the command line is mistaken, whatever the
    second is: the code is two, only the mistake is told, no line is evaluated, and neither the
    standard input nor a file matters.  If the first is empty, it is as if it were not there. -/
theorem run_two_names (program : Text) {before between : List Text} {first second : Text}
    (after : List Text) (env : Environment) (c : Console)
    (hbefore : Spelled choices before) (hbetween : Spelled choices' between)
    (hnone : Choice.names (choices ++ choices') = [])
    (hfirst : looksLikeFlag first = false) (hsecond : looksLikeFlag second = false) :
    let arguments := before ++ first :: (between ++ second :: after)
    let message := program ++ ascii ": only one FILE may be given\n"
    (first ≠ [] → run program arguments env c = (.trouble, c.complain message)
        ∧ acts program arguments env c = [.complain message])
      ∧ (first = [] → run program arguments env c
          = run program (before ++ (between ++ second :: after)) env c) := by
  intro arguments message
  rw [Choice.names_append, List.append_eq_nil_iff] at hnone
  have hone : OneFile choices := oneFile_of_length_names_le_one (by simp [hnone.1])
  constructor
  · -- The first name chooses a file, which makes the second an event.
    intro hne
    have hspelled : Spelled (choices ++ .file first :: choices') (before ++ first :: between) :=
      hbefore.append (.cons (Choice.written_file hfirst) hbetween)
    have hnames : Choice.names (choices ++ .file first :: choices') = [first] := by
      simp [hnone.1, hnone.2]
    have hevent : FirstEvent arguments (.misuse .secondFile) := by
      refine ⟨_, _, second :: after, ?_, hspelled,
        oneFile_of_length_names_le_one (by simp [hnames]), .secondFile hsecond ?_ after⟩
      · simp [arguments]
      · exact ⟨first, by simp [hnames], hne⟩
    obtain ⟨hrun, hacts⟩ := run_of_parse_misuse program c (Options.parse_eq_error_iff.2 hevent)
    exact ⟨hrun env, hacts env⟩
  · rintro rfl
    have hparse := hbefore.parse_empty_name hone (between ++ second :: after) hnone.1
    simp only [run, job, arguments, hparse]

/-- An empty name behind another is one too many, even if an option stands between them and takes
    a name as its value. -/
theorem run_two_names_empty_second :
    let between := [ascii "-e", ascii "b"]
    let arguments := [] ++ ascii "a" :: (between ++ [] :: [])
    let message := ascii ": only one FILE may be given\n"
    let env : Environment := ⟨ascii "5", true, fun _ => some (ascii "7")⟩
    Spelled [.expression (ascii "b")] between ∧ ascii "a" ≠ []
      ∧ looksLikeFlag (ascii "a") = false ∧ looksLikeFlag [] = false
      ∧ run [] arguments env Console.unlimited = (.trouble, Console.unlimited.complain message)
      ∧ acts [] arguments env Console.unlimited = [.complain message] := by
  intro between arguments message env
  have hbetween : Spelled [.expression (ascii "b")] between :=
    .cons (.expression (by decide) _) .nil
  have hfirst : looksLikeFlag (ascii "a") = false := by decide
  have hsecond : looksLikeFlag [] = false := by decide
  have hne : ascii "a" ≠ [] := by decide
  have htwo := run_two_names [] [] env Console.unlimited .nil hbetween rfl hfirst hsecond
  exact ⟨hbetween, hne, hfirst, hsecond, htwo.1 hne⟩

/-- An empty name in front of another is not told as a mistake: the file is read, and its line is
    evaluated. -/
theorem run_empty_name_first :
    let env : Environment :=
      ⟨[], false, fun name => if name = ascii "x" then some (ascii "1+2\n") else none⟩
    let c := Console.unlimited
    let outcome := run (ascii "calc") [[], ascii "x"] env c
    looksLikeFlag [] = false ∧ looksLikeFlag (ascii "x") = false
      ∧ outcome ≠ (.trouble, c.complain (ascii "calc: only one FILE may be given\n"))
      ∧ outcome.1.code = 0 ∧ outcome.2.out.accepted = ascii "3\n" ∧ outcome.2.err.accepted = []
      ∧ Act.evaluated (acts (ascii "calc") [[], ascii "x"] env c) = [ascii "1+2"] := by
  decide +kernel

end CommandLine

end ChainCalc
