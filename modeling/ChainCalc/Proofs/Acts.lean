import ChainCalc.Proofs.Truncation

namespace ChainCalc

/-!
# Acts — what a run tries to write, and what becomes of it

A run shows prompts and messages, and it evaluates lines and writes what they add.  When
it finds its console failed it goes on no further, so the acts of a run depend on its
console; what an act tries to write does not.

* `Act`, `Act.perform` — an act, and what it does to a console.
* `Act.evaluated`, `Act.failing` — the lines that acts evaluate, and those of them that
  have no value.
* `Console.after`, `Console.Delivered` — a console after acts, and that all they write has
  arrived on it.
* `Repl.Script`, `Repl.Script.along` — the acts of a loop at each stage, and those along a
  run, read off from the points that it passes.
* `Repl.lineScript`, `Repl.evaluated_loopActs` — the acts of the loop over lines, and the
  lines that these evaluate.
* `Repl.Accounts` — acts account for a run in progress.
* `Repl.Accounts.apply`, `Repl.Loop.Scripted.advance` — **step lemmas**: they do so behind an
  effect, and behind a step of a loop that keeps to its script.
* `Repl.Accounts.along` — **run lemma**: they do so behind a run of such a loop.
-/

/-- What a run does that can be seen. -/
inductive Act where
  /-- Write to the results. -/
  | print (t : Text)
  /-- Write to the errors. -/
  | complain (t : Text)
  /-- Evaluate a line, and write its result or its error. -/
  | evaluate (line : Text)
  deriving DecidableEq

namespace Act

/-- Do an act. -/
def perform (c : Console) : Act → Console
  | print t => c.print t
  | complain t => c.complain t
  | evaluate line => (evalLine line c).2

/-- What an act tries to write to the results. -/
def out : Act → Text
  | print t => t
  | complain _ => []
  | evaluate line => resultLine line

/-- What an act tries to write to the errors. -/
def err : Act → Text
  | print _ => []
  | complain t => t
  | evaluate line => errorLine line

/-- The line that an act evaluates, if it does. -/
def line? : Act → Option Text
  | evaluate line => some line
  | _ => none

/-- An act writes what it tries to write. -/
theorem perform_eq (c : Console) (a : Act) : a.perform c = c.write a.out a.err := by
  cases a with
  | print t => exact c.print_eq_write t
  | complain t => exact c.complain_eq_write t
  | evaluate line => rw [perform, evalLine_eq]; rfl

/-- The lines that acts evaluate. -/
def evaluated (acts : List Act) : List Text := acts.filterMap line?

/-- The lines that acts evaluate and that have no value. -/
def failing (acts : List Act) : List Text :=
  (evaluated acts).filter fun line => !succeeds line

@[simp] theorem evaluated_nil : evaluated [] = [] := rfl

@[simp] theorem evaluated_print (t : Text) : evaluated [.print t] = [] := rfl

@[simp] theorem evaluated_evaluate (line : Text) : evaluated [.evaluate line] = [line] := rfl

@[simp] theorem evaluated_append (acts more : List Act) :
    evaluated (acts ++ more) = evaluated acts ++ evaluated more := by
  simp [evaluated]

@[simp] theorem failing_append (acts more : List Act) :
    failing (acts ++ more) = failing acts ++ failing more := by
  simp [failing]

/-- No line is failing exactly when every line has a value. -/
theorem failing_eq_nil_iff {acts : List Act} :
    failing acts = [] ↔ ∀ line ∈ evaluated acts, succeeds line = true := by
  simp [failing, List.filter_eq_nil_iff]

end Act

namespace Console

/-- A console after acts. -/
def after (c : Console) (acts : List Act) : Console := acts.foldl Act.perform c

@[simp] theorem after_nil (c : Console) : c.after [] = c := rfl

@[simp] theorem after_append (c : Console) (acts more : List Act) :
    c.after (acts ++ more) = (c.after acts).after more := List.foldl_append

/-- Acts write what they try to write, one after the other. -/
theorem after_eq_write (c : Console) (acts : List Act) :
    c.after acts = c.write (acts.flatMap Act.out) (acts.flatMap Act.err) := by
  induction acts generalizing c with
  | nil => simp
  | cons a acts ih =>
    show (a.perform c).after acts = _
    rw [ih, a.perform_eq, write_write, List.flatMap_cons, List.flatMap_cons]

/-- Every byte that acts try to write has been accepted by its sink. -/
structure Delivered (c : Console) (acts : List Act) : Prop where
  out : (c.after acts).out.accepted = c.out.accepted ++ acts.flatMap Act.out
  err : (c.after acts).err.accepted = c.err.accepted ++ acts.flatMap Act.err

/-- No acts are always delivered. -/
theorem delivered_nil (c : Console) : c.Delivered [] := by
  constructor <;> simp

/-- A console that has not failed has accepted every byte. -/
theorem delivered_of_not_failed {c : Console} {acts : List Act}
    (h : (c.after acts).failed = false) : c.Delivered acts := by
  rw [failed, Bool.or_eq_false_iff, after_eq_write] at h
  constructor
  · rw [after_eq_write]
    exact Sink.accepted_write_of_not_failed h.1
  · rw [after_eq_write]
    exact Sink.accepted_write_of_not_failed h.2

/-- A failed console stays failed. -/
theorem failed_write_of_failed {c : Console} (h : c.failed = true) (out err : Text) :
    (c.write out err).failed = true := by
  rw [failed_iff] at h ⊢
  exact h.imp (Sink.failed_write_of_failed · out) (Sink.failed_write_of_failed · err)

end Console

namespace Repl

/-! ### The acts of a loop -/

/-- The acts of a loop: in front of a line, with a line, and at the end. -/
structure Script where
  offer : List Act
  take : Text → List Act
  close : List Act

/-- The acts of the step at a point. -/
def Script.actsAt (script : Script) (p : Point) : List Act :=
  match p.stage with
  | .offer => script.offer
  | .read =>
    match p.line? with
    | some line => script.take line
    | none => []
  | .close => script.close
  | .ended => []

/-- The acts along the run of a loop. -/
def Script.along (script : Script) (l : Loop) (p : Point) : List Act :=
  (l.trace p).flatMap script.actsAt

/-- The act for a line that is handed to evaluation: none if it is blank. -/
def submitActs (line : Text) : List Act := if line.isBlank then [] else [.evaluate line]

/-- The prompt, if there is to be one. -/
def offerActs (o : Options) : List Act := if o.showPrompt then [.print o.prompt] else []

/-- The newline that a waiting prompt gets at the end. -/
def closeActs (o : Options) : List Act :=
  if o.showPrompt then [.print [Byte.newline]] else []

/-- The acts of the loop over the lines of an input. -/
def lineScript (o : Options) : Script :=
  ⟨offerActs o, fun line => submitActs line.chopReturn, closeActs o⟩

/-- The acts of that loop over the lines that are left. -/
def loopActs (o : Options) (s : State) (lines : List Text) : List Act :=
  (lineScript o).along (lineLoop o) ⟨.offer, s, lines⟩

/-- The acts of the loop over an input. -/
def runActs (o : Options) (input : Text) (c : Console) : List Act :=
  loopActs o (State.start c) input.lines

@[simp] theorem evaluated_offerActs (o : Options) : Act.evaluated (offerActs o) = [] := by
  unfold offerActs
  split <;> rfl

@[simp] theorem evaluated_closeActs (o : Options) : Act.evaluated (closeActs o) = [] := by
  unfold closeActs
  split <;> rfl

/-- The acts of a step evaluate the line that is evaluated at its point. -/
theorem evaluated_actsAt (o : Options) (p : Point) :
    Act.evaluated ((lineScript o).actsAt p) = p.evaluation?.toList.map Prod.fst := by
  obtain ⟨stage, s, unread⟩ := p
  cases stage with
  | offer => exact evaluated_offerActs o
  | read =>
    cases unread with
    | nil => rfl
    | cons line more =>
      show Act.evaluated (submitActs line.chopReturn) = (Option.toList
        (if line.chopReturn.isBlank then none else some (line.chopReturn, s.console))).map Prod.fst
      unfold submitActs
      split <;> rfl
  | close => exact evaluated_closeActs o
  | ended => rfl

/-- The acts of the loop evaluate the lines that the loop evaluates. -/
theorem evaluated_loopActs (o : Options) (s : State) (lines : List Text) :
    Act.evaluated (loopActs o s lines) = (evaluations o s lines).map Prod.fst := by
  unfold loopActs Script.along evaluations
  induction (lineLoop o).trace ⟨.offer, s, lines⟩ with
  | nil => rfl
  | cons p more ih =>
    rw [List.flatMap_cons, Act.evaluated_append, evaluated_actsAt, ih, List.filterMap_cons]
    cases p.evaluation? <;> rfl

/-! ### Effects and their acts -/

/-- An effect does acts if it writes and counts what they do.  Unless it does nothing, it
    looks whether the console has failed. -/
structure Effect.Does (f : Effect) (acts : List Act) : Prop where
  out : f.out = acts.flatMap Act.out
  err : f.err = acts.flatMap Act.err
  evaluated : f.evaluated = (Act.evaluated acts).length
  failed : f.failed = (Act.failing acts).length
  complaints : acts.flatMap Act.err = (Act.failing acts).flatMap errorLine
  checked : acts = [] ∨ f.checked = true

/-- No effect does no acts. -/
theorem Effect.idle_does : Effect.idle.Does [] := by
  constructor <;> simp [Effect.idle, Act.failing]

/-- An effect that shows a text does just that. -/
theorem Effect.print_does (t : Text) (turn : Turn) :
    Effect.Does ⟨t, [], 0, 0, true, turn⟩ [.print t] := by
  constructor <;> simp [Act.out, Act.err, Act.failing]

theorem offering_does (o : Options) : (offering o).Does (offerActs o) := by
  unfold offering offerActs
  split
  · exact Effect.print_does o.prompt .next
  · exact Effect.idle_does

theorem closing_does (o : Options) : (closing o).Does (closeActs o) := by
  unfold closing closeActs
  split
  · exact Effect.print_does [Byte.newline] .finish
  · exact Effect.idle_does

/-- A line with a value adds nothing to the errors. -/
theorem errorLine_of_succeeds {line : Text} (h : succeeds line = true) :
    errorLine line = [] := by
  unfold succeeds at h
  unfold errorLine
  cases hvalue : evaluate line with
  | ok result => rfl
  | error e => rw [hvalue] at h; cases h

theorem submission_does (stopOnError : Bool) (line : Text) :
    (submission stopOnError line).Does (submitActs line) := by
  unfold submission submitActs
  split
  · exact Effect.idle_does
  · by_cases h : succeeds line = true
    · have herr := errorLine_of_succeeds h
      constructor <;> simp [Act.out, Act.err, Act.failing, h, herr]
    · constructor <;> simp [Act.out, Act.err, Act.failing, h]

/-! ### Acts account for a run -/

/-- Acts account for a run in progress on a console: it has written and counted what they
    do, and it tells of a failed console if they were lost on it. -/
structure Accounts (c : Console) (acts : List Act) (s : State) : Prop where
  console : s.console = c.after acts
  evaluated : s.tally.evaluated = (Act.evaluated acts).length
  failed : s.tally.failed = (Act.failing acts).length
  complaints : acts.flatMap Act.err = (Act.failing acts).flatMap errorLine
  sound : s.tally.outputError = true → s.console.failed = true
  complete : s.tally.outputError = false → acts = [] ∨ s.console.failed = false

namespace Accounts

variable {c : Console} {acts more : List Act} {s : State}

/-- No acts account for a run that has read nothing yet. -/
theorem start (c : Console) : Accounts c [] (State.start c) := by
  constructor <;> simp [State.start, Act.failing]

/-- Without an output error, all that the acts write has arrived. -/
theorem delivered (h : Accounts c acts s) (hs : s.tally.outputError = false) :
    c.Delivered acts := by
  rcases h.complete hs with rfl | hconsole
  · exact c.delivered_nil
  · rw [h.console] at hconsole
    exact Console.delivered_of_not_failed hconsole

/-- What an effect writes is written by the acts that it does. -/
theorem console_write (h : Accounts c acts s) {f : Effect} (hf : f.Does more) :
    s.console.write f.out f.err = c.after (acts ++ more) := by
  rw [Console.after_append, ← h.console, Console.after_eq_write, ← hf.out, ← hf.err]

/-- Acts that write only errors of lines do so together. -/
theorem complaints_append (h : Accounts c acts s) {f : Effect} (hf : f.Does more) :
    (acts ++ more).flatMap Act.err = (Act.failing (acts ++ more)).flatMap errorLine := by
  rw [List.flatMap_append, h.complaints, hf.complaints, Act.failing_append, List.flatMap_append]

/-- **Step lemma.**  Behind an effect, the run is accounted for by its acts too. -/
theorem apply (h : Accounts c acts s) {f : Effect} (hf : f.Does more) :
    Accounts c (acts ++ more) (f.apply s).2 := by
  have hconsole := h.console_write hf
  have hevaluated : s.tally.evaluated + f.evaluated
      = (Act.evaluated (acts ++ more)).length := by
    rw [h.evaluated, hf.evaluated, Act.evaluated_append, List.length_append]
  have hfailed : s.tally.failed + f.failed = (Act.failing (acts ++ more)).length := by
    rw [h.failed, hf.failed, Act.failing_append, List.length_append]
  have hcomplaints := h.complaints_append hf
  by_cases habort : (f.checked && (s.console.write f.out f.err).failed) = true
  · simp only [Effect.apply, habort, if_true]
    rw [Bool.and_eq_true] at habort
    exact ⟨hconsole, hevaluated, hfailed, hcomplaints, fun _ => habort.2, fun hs => by cases hs⟩
  · simp only [Effect.apply, habort, Bool.false_eq_true, if_false]
    refine ⟨hconsole, hevaluated, hfailed, hcomplaints, fun hs => ?_, fun hs => ?_⟩
    · exact Console.failed_write_of_failed (h.sound hs) f.out f.err
    · -- An effect that looks has found no failure, and one that does not changes nothing.
      rcases hf.checked with hnil | hchecked
      · have hout := hf.out
        have herr := hf.err
        rw [hnil] at hout herr
        rw [hnil, List.append_nil, hout, herr]
        simpa using h.complete hs
      · rw [hchecked, Bool.true_and, Bool.not_eq_true] at habort
        exact .inr habort

theorem offer (h : Accounts c acts s) (o : Options) :
    Accounts c (acts ++ offerActs o) (offer o s).2 := by
  rw [offer_eq]
  exact h.apply (offering_does o)

theorem submit (h : Accounts c acts s) (stopOnError : Bool) (line : Text) :
    Accounts c (acts ++ submitActs line) (submit stopOnError s line).2 := by
  rw [submit_eq]
  exact h.apply (submission_does stopOnError line)

/-- Ending the run tells of a console that has failed, whenever it did. -/
theorem close (h : Accounts c acts s) (o : Options) :
    Accounts c (acts ++ closeActs o) (close o s) := by
  have hwrite := h.console_write (closing_does o)
  have hconsole : (Repl.close o s).console = c.after (acts ++ closeActs o) := by
    rw [← hwrite]
    unfold Repl.close closing
    cases o.showPrompt <;> simp [Effect.idle, Console.print_eq_write]
  refine ⟨hconsole, ?_, ?_, h.complaints_append (closing_does o), id, .inr⟩
  · show s.tally.evaluated = _
    rw [h.evaluated, Act.evaluated_append, evaluated_closeActs, List.append_nil]
  · show s.tally.failed = _
    simp [h.failed, Act.failing]

end Accounts

/-! ### Loops that keep to a script -/

/-- A loop keeps to a script if its steps do the acts of the script. -/
structure Loop.Scripted (l : Loop) (script : Script) : Prop where
  offer : ∀ {c acts s}, Accounts c acts s → Accounts c (acts ++ script.offer) (l.offer s).2
  take : ∀ {c acts s} (line : Text), Accounts c acts s →
    Accounts c (acts ++ script.take line) (l.take s line).2
  close : ∀ {c acts s}, Accounts c acts s → Accounts c (acts ++ script.close) (l.close s)

variable {c : Console} {acts : List Act} {l : Loop} {script : Script} {p : Point}

/-- **Step lemma.**  Behind a step of such a loop, the run is accounted for by the acts of the
    step too. -/
theorem Loop.Scripted.advance (hl : l.Scripted script) (h : Accounts c acts p.state) :
    Accounts c (acts ++ script.actsAt p) (l.advance p).state := by
  obtain ⟨stage, s, unread⟩ := p
  cases stage with
  | offer => exact hl.offer h
  | read =>
    cases unread with
    | nil =>
      show Accounts c (acts ++ []) s
      rwa [List.append_nil]
    | cons line more => exact hl.take line h
  | close => exact hl.close h
  | ended =>
    show Accounts c (acts ++ []) s
    rwa [List.append_nil]

/-- **Run lemma.**  The run of such a loop is accounted for by the acts along it. -/
theorem Accounts.along (h : Accounts c acts p.state) (hl : l.Scripted script) :
    Accounts c (acts ++ script.along l p) (l.run p) := by
  unfold Script.along
  fun_induction Loop.run l p generalizing acts with
  | case1 p hended =>
    rw [Loop.trace_of_ended hended, List.flatMap_nil, List.append_nil]
    exact h
  | case2 p hdue ih =>
    rw [Loop.trace_of_due hdue, List.flatMap_cons, ← List.append_assoc]
    exact ih (hl.advance h)

/-- From the start, the run of such a loop is accounted for by the acts along it alone. -/
theorem Loop.Scripted.accounts_start (hl : l.Scripted script) (c : Console) (lines : List Text) :
    Accounts c (script.along l ⟨.offer, State.start c, lines⟩)
      (l.run ⟨.offer, State.start c, lines⟩) := by
  let p : Point := ⟨.offer, State.start c, lines⟩
  have h : Accounts c ([] ++ script.along l p) (l.run p) := Accounts.along (.start c) hl
  rwa [List.nil_append] at h

/-- The loop over lines keeps to its script. -/
theorem scripted_lineLoop (o : Options) : (lineLoop o).Scripted (lineScript o) where
  offer h := h.offer o
  take line h := h.submit o.stopOnError line.chopReturn
  close h := h.close o

/-- A run is accounted for by its acts. -/
theorem Accounts.run (o : Options) (input : Text) (c : Console) :
    Accounts c (runActs o input c) (run o input c) :=
  (scripted_lineLoop o).accounts_start c input.lines

end Repl

end ChainCalc
