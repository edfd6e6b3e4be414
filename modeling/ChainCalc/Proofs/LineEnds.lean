import ChainCalc.Proofs.LineByLine

namespace ChainCalc

/-!
# Line ends — a carriage return in front of a newline makes no difference

A line may end in a newline, or in a carriage return and a newline.  The loop takes the return
off before it looks at the line, so neither the results nor the positions in messages tell
which of the two ends a line has.

* `Text.withReturns` — an input with a carriage return in front of each newline.
* `Text.map_chopReturn_lines_withReturns` — its lines, once their returns are taken off.
* `Repl.loop_congr_chopReturn` — **run lemma**: the loop looks at nothing else.
* `Repl.run_withReturns` — the run on such an input is the run on the input.
-/

/-! ### Inputs with returns -/

namespace Text

/-- The input with a carriage return in front of each newline. -/
def withReturns (input : Text) : Text :=
  input.flatMap fun b => if b = Byte.newline then [Byte.carriageReturn, b] else [b]

theorem withReturns_append (s t : Text) :
    withReturns (s ++ t) = s.withReturns ++ t.withReturns :=
  List.flatMap_append

@[simp] theorem withReturns_newline (t : Text) :
    withReturns (Byte.newline :: t) = Byte.carriageReturn :: Byte.newline :: t.withReturns := by
  simp [withReturns]

/-- A text without a newline stays as it is. -/
theorem withReturns_of_newline_notMem {t : Text} (h : Byte.newline ∉ t) : t.withReturns = t := by
  induction t with
  | nil => rfl
  | cons b t ih =>
    obtain ⟨hb, ht⟩ := List.ne_and_not_mem_of_not_mem_cons h
    rw [withReturns, List.flatMap_cons, if_neg hb.symm, ← withReturns, ih ht]
    rfl

/-- A line that does not end in a return has none to take off. -/
theorem chopReturn_eq_self {line : Text} (h : line.getLast? ≠ some Byte.carriageReturn) :
    line.chopReturn = line :=
  if_neg h

/-- With their returns taken off, the lines of an input with returns are those of the input.
    By induction on its length, from one newline to the next. -/
theorem map_chopReturn_lines_withReturns (input : Text)
    (h : ∀ line ∈ input.lines, line.getLast? ≠ some Byte.carriageReturn) :
    input.withReturns.lines.map chopReturn = input.lines.map chopReturn := by
  by_cases hmem : Byte.newline ∈ input
  · obtain ⟨line, rest, rfl, hline⟩ := List.eq_append_cons_of_mem hmem
    have hreturn : Byte.newline ≠ Byte.carriageReturn := by decide
    have hreturned : Byte.newline ∉ line ++ [Byte.carriageReturn] := by simp [hline, hreturn]
    have hinput : withReturns (line ++ Byte.newline :: rest)
        = (line ++ [Byte.carriageReturn]) ++ Byte.newline :: withReturns rest := by
      simp [withReturns_append, withReturns_of_newline_notMem hline]
    rw [lines_append_newline hline] at h
    obtain ⟨hend, hrest⟩ := List.forall_mem_cons.1 h
    rw [hinput, lines_append_newline hreturned, lines_append_newline hline, List.map_cons,
      List.map_cons, chopReturn_append_return, chopReturn_eq_self hend,
      map_chopReturn_lines_withReturns rest hrest]
  · rw [withReturns_of_newline_notMem hmem]
termination_by input.length

end Text

/-! ### Runs -/

namespace Repl

/-- **Run lemma.**  The loop does the same with lines that are the same once their returns are
    taken off, on every console.  By induction on the lines. -/
theorem loop_congr_chopReturn (o : Options) (s : State) {lines lines' : List Text}
    (h : lines.map Text.chopReturn = lines'.map Text.chopReturn) :
    loop o s lines = loop o s lines' := by
  induction lines generalizing s lines' with
  | nil =>
    obtain rfl := List.map_eq_nil_iff.1 h.symm
    rfl
  | cons line more ih =>
    obtain ⟨line', more', rfl, hline, hmore⟩ := List.map_eq_cons_iff.1 h.symm
    have hfeed : ∀ s, feed o s line = feed o s line' := fun s => by rw [feed, feed, hline]
    rcases offer_cases o s with ⟨s', hoffer, -⟩ | ⟨s', hoffer, -⟩
    · rw [loop_cons_of_offer hoffer, loop_cons_of_offer hoffer, hfeed]
      rcases feed o s' line' with ⟨_ | _ | _, s''⟩
      · exact ih s'' hmore.symm
      · rw [Loop.resume_finish, Loop.resume_finish]
      · rw [Loop.resume_abort, Loop.resume_abort]
    · rw [loop_of_offer_abort hoffer, loop_of_offer_abort hoffer]

/-- **Both line ends are one.**  If no line of an input ends in a carriage return, then the run
    on the input with a return in front of each newline is the run on the input: it writes the
    same on every console, be it limited or failed, leaves it in the same state, and counts and
    reports the same, whatever the options. -/
theorem run_withReturns {input : Text}
    (h : ∀ line ∈ input.lines, line.getLast? ≠ some Byte.carriageReturn) (o : Options)
    (c : Console) : run o input.withReturns c = run o input c :=
  loop_congr_chopReturn o _ (Text.map_chopReturn_lines_withReturns input h)

/-- The message about the end of a line gives the position at which its return stands, and the
    room for errors ends within the next message. -/
theorem run_withReturns_end :
    let input := ascii "3 +\n\n7 8"
    let o : Options := ⟨ascii "> ", true, false⟩
    let c : Console := ⟨Sink.ofRoom none, Sink.ofRoom (some 70)⟩
    (∀ line ∈ input.lines, line.getLast? ≠ some Byte.carriageReturn)
      ∧ input.withReturns = ascii "3 +\r\n\r\n7 8"
      ∧ run o input.withReturns c = run o input c
      ∧ (run o input.withReturns c).console.err.accepted
        = ascii "error: expected operand but found end of input at position 3\nerror: ex" := by
  intro input o c
  have h : ∀ line ∈ input.lines, line.getLast? ≠ some Byte.carriageReturn := by decide
  have hrun := run_withReturns h o c
  refine ⟨h, by decide, hrun, ?_⟩
  rw [hrun]
  decide +kernel

/-- A second return at the end of a line belongs to the line, and moves that position. -/
example :
    run (quiet []) (ascii "3 +\r\n").withReturns Console.unlimited
      ≠ run (quiet []) (ascii "3 +\r\n") Console.unlimited := by decide +kernel

end Repl

end ChainCalc
