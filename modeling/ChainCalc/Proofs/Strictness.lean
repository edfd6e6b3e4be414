import ChainCalc.Proofs.LineByLine
import ChainCalc.Proofs.Prompting
import ChainCalc.Proofs.Truncation

namespace ChainCalc

/-!
# Strictness — a strict run is a run on the front of its input

A strict loop ends at the first line that fails.  It does so behind the failure check of that
line, so whatever the console, it does what the loop that goes on behind errors does on an
input that ends there.

* `Text.WholeLines` — the fronts of an input that are made of whole lines;
  `Text.exists_wholeLines` says that the first lines of an input are the lines of one.
* `Repl.loop_strict` — **run lemma**: the strict loop is the other loop over the lines that it
  reads (`Repl.linesRead`).
* `Repl.UpToFailure`, `Repl.run_strict` — the same for a run on an input.
-/

/-! ### Whole lines of an input -/

namespace Text

/-- A front of an input that is made of whole lines: it is all of the input, or it ends in a
    newline if it is not empty. -/
structure WholeLines (x input : Text) : Prop where
  front : x <+: input
  whole : x = input ∨ x = [] ∨ x.getLast? = some Byte.newline

/-- The lines of such a front are the first lines of the input. -/
theorem WholeLines.exists_lines_eq {x input : Text} (h : WholeLines x input) :
    ∃ after, input.lines = x.lines ++ after := by
  obtain ⟨rest, rfl⟩ := h.front
  rcases h.whole with heq | hx
  · refine ⟨[], ?_⟩
    rw [List.append_nil, ← heq]
  · exact ⟨lines rest, lines_append hx rest⟩

/-- Behind a line and its newline, whole lines go on with whole lines. -/
theorem WholeLines.cons {x input : Text} (h : WholeLines x input) (line : Text) :
    WholeLines (line ++ Byte.newline :: x) (line ++ Byte.newline :: input) := by
  refine ⟨?_, ?_⟩
  · rw [List.prefix_append_right_inj, List.cons_prefix_cons]
    exact ⟨rfl, h.front⟩
  · rcases h.whole with rfl | rfl | hlast
    · exact .inl rfl
    · exact .inr (.inr (by simp))
    · exact .inr (.inr (by simp [List.getLast?_append, List.getLast?_cons, hlast]))

/-- A text without a newline is one line, if it is not empty. -/
theorem lines_of_newline_notMem {t : Text} (h : Byte.newline ∉ t) (hne : t ≠ []) :
    lines t = [t] := by
  induction t with
  | nil => exact absurd rfl hne
  | cons b t ih =>
    have hb : b ≠ Byte.newline := fun e => h (e ▸ List.mem_cons_self)
    have ht : Byte.newline ∉ t := fun hm => h (List.mem_cons_of_mem b hm)
    by_cases hnil : t = []
    · simp [hnil, lines, hb]
    · simp [lines, hb, ih ht hnil]

/-- The first line of an input stands in front of the first newline, or it is all of the
    input. -/
theorem of_lines_eq_cons {input line : Text} {more : List Text}
    (h : input.lines = line :: more) :
    (∃ rest, input = line ++ Byte.newline :: rest ∧ Byte.newline ∉ line ∧ lines rest = more)
      ∨ input = line ∧ more = [] := by
  by_cases hmem : Byte.newline ∈ input
  · obtain ⟨front, rest, rfl, hfront⟩ := List.eq_append_cons_of_mem hmem
    rw [lines_append_newline hfront] at h
    obtain ⟨rfl, hrest⟩ := List.cons.inj h
    exact .inl ⟨rest, rfl, hfront, hrest⟩
  · have hne : input ≠ [] := by
      rintro rfl
      cases h
    rw [lines_of_newline_notMem hmem hne] at h
    obtain ⟨rfl, rfl⟩ := List.cons.inj h
    exact .inr ⟨rfl, rfl⟩

/-- The first lines of an input, up to any line of it, are the lines of a front.  By induction
    on the lines before that line. -/
theorem exists_wholeLines {input line : Text} {before after : List Text}
    (h : input.lines = before ++ line :: after) :
    ∃ x, WholeLines x input ∧ x.lines = before ++ [line] := by
  induction before generalizing input with
  | nil =>
    rcases of_lines_eq_cons h with ⟨rest, rfl, hline, -⟩ | ⟨rfl, rfl⟩
    · have hnone : WholeLines [] rest := ⟨List.nil_prefix, .inr (.inl rfl)⟩
      exact ⟨line ++ [Byte.newline], hnone.cons line, lines_append_newline hline []⟩
    · exact ⟨input, ⟨List.prefix_rfl, .inl rfl⟩, h⟩
  | cons first before ih =>
    rcases of_lines_eq_cons h with ⟨rest, rfl, hfirst, hrest⟩ | ⟨-, hnil⟩
    · obtain ⟨x, hx, hlines⟩ := ih hrest
      refine ⟨first ++ Byte.newline :: x, hx.cons first, ?_⟩
      rw [lines_append_newline hfirst, hlines, List.cons_append]
    · exact absurd hnil (by simp)

end Text

namespace Repl

/-! ### The lines that a strict loop reads -/

/-- Lines that do not fail are all read. -/
theorem linesRead_append {before : List Text} (h : ∀ line ∈ before, fails line = false)
    (stopOnError : Bool) (more : List Text) :
    linesRead stopOnError (before ++ more) = before ++ linesRead stopOnError more := by
  induction before with
  | nil => rfl
  | cons line before ih =>
    obtain ⟨hline, hbefore⟩ := List.forall_mem_cons.1 h
    rw [List.cons_append, linesRead_cons_of_not_fails (by rw [hline, Bool.and_false]),
      ih hbefore, List.cons_append]

/-- Of the lines that are read, one fails at most. -/
theorem countP_fails_linesRead_le (lines : List Text) :
    (linesRead true lines).countP fails ≤ 1 := by
  induction lines with
  | nil => simp
  | cons line more ih =>
    cases hfails : fails line with
    | false =>
      rw [linesRead_cons_of_not_fails (by rw [hfails, Bool.and_false]),
        List.countP_cons_of_neg (by simp [hfails])]
      exact ih
    | true =>
      rw [linesRead_cons_of_fails hfails]
      exact List.countP_le_length

/-! ### The strict loop -/

/-- The loop without a prompt that stops at the first error. -/
def strict (prompt : Text) : Options := ⟨prompt, false, true⟩

/-- To stop at errors makes no difference to a line that does not fail. -/
theorem submission_of_not_fails {line : Text} (h : fails line = false) (stopOnError : Bool) :
    submission stopOnError line.chopReturn = submission false line.chopReturn := by
  unfold submission
  by_cases hblank : line.chopReturn.isBlank = true
  · simp [hblank]
  · have hvalue : succeeds line.chopReturn = true := by simpa [fails, hblank] using h
    simp [hblank, hvalue]

/-- A line that fails differs in nothing but the turn behind it. -/
theorem submission_of_fails {line : Text} (h : fails line = true) :
    submission true line.chopReturn
      = { submission false line.chopReturn with turn := .finish } := by
  obtain ⟨hblank, hvalue⟩ : line.chopReturn.isBlank = false ∧ succeeds line.chopReturn = false := by
    simpa [fails] using h
  simp [submission, hblank, hvalue]

/-- An effect with another turn does the same, and goes on by that turn unless it aborts. -/
theorem Effect.apply_with_turn (f : Effect) (turn : Turn) (s : State) :
    ∃ s', (f.apply s = (f.turn, s') ∧ { f with turn := turn }.apply s = (turn, s'))
      ∨ f.apply s = (.abort, s') ∧ { f with turn := turn }.apply s = (.abort, s') := by
  unfold Effect.apply
  dsimp only
  split
  · exact ⟨_, .inr ⟨rfl, rfl⟩⟩
  · exact ⟨_, .inl ⟨rfl, rfl⟩⟩

/-- **Run lemma.**  The strict loop does what the quiet one does with the lines that it reads,
    on every console.  By induction on the lines. -/
theorem loop_strict (prompt : Text) (s : State) (lines : List Text) :
    loop (strict prompt) s lines = loop (quiet prompt) s (linesRead true lines) := by
  -- Neither loop shows a prompt.
  have hstrict : ∀ s : State, offer (strict prompt) s = (.next, s) := fun s => rfl
  have hquiet : ∀ s : State, offer (quiet prompt) s = (.next, s) := fun s => rfl
  induction lines generalizing s with
  | nil =>
    rw [linesRead_nil, loop_nil_of_offer (hstrict s), loop_nil_of_offer (hquiet s)]
    rfl
  | cons line more ih =>
    have hfeed : feed (strict prompt) s line = (submission true line.chopReturn).apply s :=
      feed_eq _ _ _
    have hfeed' : feed (quiet prompt) s line = (submission false line.chopReturn).apply s :=
      feed_eq _ _ _
    rw [loop_cons_of_offer (hstrict s), hfeed]
    cases hfails : fails line with
    | false =>
      have hread : linesRead true (line :: more) = line :: linesRead true more :=
        linesRead_cons_of_not_fails (by rw [hfails]; rfl) more
      rw [hread, loop_cons_of_offer (hquiet s), hfeed', submission_of_not_fails hfails]
      rcases (submission false line.chopReturn).apply s with ⟨_ | _ | _, s'⟩
      · exact ih s'
      · rw [Loop.resume_finish, Loop.resume_finish]
        rfl
      · rw [Loop.resume_abort, Loop.resume_abort]
    | true =>
      rw [linesRead_cons_of_fails hfails, loop_cons_of_offer (hquiet s), hfeed',
        submission_of_fails hfails]
      obtain ⟨s', ⟨hquiet', hstrict'⟩ | ⟨hquiet', hstrict'⟩⟩ :=
        (submission false line.chopReturn).apply_with_turn .finish s
      · -- The strict loop ends the run here, and the other one because it is out of lines.
        rw [hstrict', hquiet', turn_submission_false, Loop.resume_finish]
        exact (loop_nil_of_offer (hquiet s')).symm
      · rw [hstrict', hquiet', Loop.resume_abort, Loop.resume_abort]

/-! ### Strict runs -/

/-- The front of an input up to its first line that fails: whole lines, of which the last
    fails and no other does, or all of the input if no line fails. -/
inductive UpToFailure (input : Text) : Text → Prop where
  | whole (h : ∀ line ∈ input.lines, fails line = false) : UpToFailure input input
  | cut {x : Text} {before : List Text} {line : Text} (hx : x.WholeLines input)
      (hlines : x.lines = before ++ [line]) (hbefore : ∀ l ∈ before, fails l = false)
      (hline : fails line = true) : UpToFailure input x

/-- Every input has such a front. -/
theorem exists_upToFailure (input : Text) : ∃ x, UpToFailure input x := by
  cases hfind : input.lines.find? fails with
  | none =>
    have hnone := List.find?_eq_none.1 hfind
    exact ⟨input, .whole fun line hline => Bool.of_not_eq_true (hnone line hline)⟩
  | some line =>
    obtain ⟨hline, before, after, hlines, hbefore⟩ := List.find?_eq_some_iff_append.1 hfind
    obtain ⟨x, hx, hxlines⟩ := Text.exists_wholeLines hlines
    exact ⟨x, .cut hx hxlines (fun l hl => by simpa using hbefore l hl) hline⟩

namespace UpToFailure

variable {input x : Text}

/-- The lines of the front are those that a strict loop reads. -/
theorem lines_eq (h : UpToFailure input x) : x.lines = linesRead true input.lines := by
  cases h with
  | whole h =>
    have hread := linesRead_append h true []
    rw [List.append_nil, linesRead_nil, List.append_nil] at hread
    exact hread.symm
  | cut hx hlines hbefore hline =>
    obtain ⟨after, hafter⟩ := hx.exists_lines_eq
    rw [hafter, hlines, List.append_assoc, linesRead_append hbefore, List.singleton_append,
      linesRead_cons_of_fails hline]

end UpToFailure

/-- A strict run counts one failure at most: without limits those of the lines that it reads,
    and on no console more. -/
theorem failed_run_strict_le (prompt input : Text) (c : Console) :
    (run (strict prompt) input c).tally.failed ≤ 1 := by
  have hle := (run_truncation (strict prompt) input c).counts_le.2
  rw [run_on_boundless Console.boundless_unlimited] at hle
  exact Nat.le_trans hle (countP_fails_linesRead_le input.lines)

/-- **To be strict is to cut the input.**  Every input has a front up to its first line that
    fails.  On any console, a run that stops at errors writes, counts and reports on the
    input what a run that does not stop at them does on that front; and it counts one failure
    at most. -/
theorem run_strict (prompt input : Text) (c : Console) :
    (∃ x, UpToFailure input x)
      ∧ (∀ x, UpToFailure input x → run (strict prompt) input c = run (quiet prompt) x c)
      ∧ (run (strict prompt) input c).tally.failed ≤ 1 := by
  refine ⟨exists_upToFailure input, ?_, failed_run_strict_le prompt input c⟩
  intro x hx
  rw [run, run, loop_strict, hx.lines_eq]

/-- Of three lines the second fails, and there is no room for its error. -/
theorem run_strict_no_room :
    let input := ascii "1+2\r\n4/\n5\n"
    let x := ascii "1+2\r\n4/\n"
    let c : Console := ⟨Sink.ofRoom none, Sink.ofRoom (some 3)⟩
    let s := run (strict []) input c
    UpToFailure input x ∧ s = run (quiet []) x c
      ∧ s.console.out.accepted = ascii "3\n" ∧ s.console.err.accepted = ascii "err"
      ∧ s.tally = ⟨2, 1, true⟩ := by
  intro input x c s
  have hwhole : x.WholeLines input := ⟨by decide, .inr (.inr (by decide))⟩
  have hlines : x.lines = [ascii "1+2\r"] ++ [ascii "4/"] := by decide
  have hbefore : ∀ l ∈ [ascii "1+2\r"], fails l = false := by decide +kernel
  have hline : fails (ascii "4/") = true := by decide +kernel
  have hx : UpToFailure input x := .cut hwhole hlines hbefore hline
  refine ⟨hx, (run_strict [] input c).2.1 x hx, ?_, ?_, ?_⟩
  · decide +kernel
  · decide +kernel
  · decide +kernel

end Repl

end ChainCalc
