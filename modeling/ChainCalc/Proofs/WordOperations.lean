import ChainCalc.Proofs.Words

namespace ChainCalc

/-!
# Word operations — the word arithmetic of a step, and that all of it is defined

To join an operand to an integer, word operations are evaluated one after the other: first the
bound that tells whether the result fits, and then the result.  Which ones these are depends on
the signs of the operands, and on the results of those before.  The operators are programs of
such operations, from which the operations can be listed.

* `Word.Operation.Defined` — that an operation has a result, told by its exact one;
  `Word.Operation.exists_perform_iff` says so of the strict operations.
* `Word.Program.trace` — the operations that a program evaluates;
  `Word.Program.exists_run_iff` says that a program has a result exactly when all of these are
  defined.
* `Number.applyProgram` — the program of a step; `Number.run_applyProgram` says that it does
  what the step does.
* `Number.apply_operations_defined` — a step evaluates no operation that is not defined.
-/

namespace Word

/-! ### Operations with their operands -/

namespace Operation

/-- The exact result, in the integers without bound. -/
def exact : Operation → Int
  | add a b => a.toInt + b.toInt
  | sub a b => a.toInt - b.toInt
  | mul a b => a.toInt * b.toInt
  | div a b => a.toInt.tdiv b.toInt
  | rem a b => a.toInt.tmod b.toInt

/-- The dividend and the divisor, if the operation asks for a quotient or a remainder. -/
def division? : Operation → Option (Int64 × Int64)
  | div a b => some (a, b)
  | rem a b => some (a, b)
  | _ => none

/-- An operation has a result: the exact one fits a word, and if it divides, then neither by
    zero nor the least word by minus one. -/
structure Defined (o : Operation) : Prop where
  fits : Fits o.exact
  divisor_ne_zero : ∀ a b, o.division? = some (a, b) → b ≠ 0
  not_least : ∀ a b, o.division? = some (a, b) → ¬ (a = Int64.minValue ∧ b = -1)

variable {o : Operation} {a b : Int64}

/-- An operation that does not divide is defined if its result fits. -/
theorem defined_iff_of_not_divides (h : o.division? = none) : o.Defined ↔ Fits o.exact := by
  refine ⟨Defined.fits, fun hfits => ⟨hfits, fun a b hdiv => ?_, fun a b hdiv => ?_⟩⟩
  · cases h.symm.trans hdiv
  · cases h.symm.trans hdiv

theorem defined_iff_of_divides (h : o.division? = some (a, b)) :
    o.Defined ↔ Fits o.exact ∧ b ≠ 0 ∧ ¬ (a = Int64.minValue ∧ b = -1) := by
  refine ⟨fun ho => ⟨ho.fits, ho.divisor_ne_zero a b h, ho.not_least a b h⟩, ?_⟩
  rintro ⟨hfits, hzero, hleast⟩
  refine ⟨hfits, fun a' b' hdiv => ?_, fun a' b' hdiv => ?_⟩
  · cases h.symm.trans hdiv
    exact hzero
  · cases h.symm.trans hdiv
    exact hleast

end Operation

/-! ### Strict operations have a result where they are defined -/

/-- An integer has a word exactly when it fits one. -/
theorem exists_ofInt_iff {n : Int} : (∃ c, ofInt n = .ok c) ↔ Fits n := by
  constructor
  · rintro ⟨c, hc⟩
    unfold ofInt at hc
    split at hc
    · next h =>
      rw [Int64.toInt_minValue, Int64.toInt_maxValue] at h
      exact ⟨h.1, Int.lt_of_le_sub_one h.2⟩
    · cases hc
  · intro h
    exact ⟨_, ofInt_of_fits h⟩

section

variable {a b : Int64}

/-- A quotient by anything but zero fits a word, but for the least word by minus one. -/
theorem fits_tdiv_iff (hb : b ≠ 0) :
    Fits (a.toInt.tdiv b.toInt) ↔ ¬ (a = Int64.minValue ∧ b = -1) := by
  constructor
  · rintro h ⟨rfl, rfl⟩
    exact absurd h (by decide)
  · intro h
    have hb' : b.toInt ≠ 0 := fun hzero => hb ((eq_zero_iff b).2 hzero)
    refine fits_tdiv (fits_toInt a) hb' fun hleast hone => h ⟨?_, Int64.toInt_inj.1 hone⟩
    exact Int64.toInt_inj.1 (hleast.trans Int64.toInt_minValue.symm)

theorem exists_div_iff :
    (∃ c, div a b = .ok c) ↔ b ≠ 0 ∧ ¬ (a = Int64.minValue ∧ b = -1) := by
  by_cases hb : b = 0
  · simp [div, hb]
  · rw [div_eq_ofInt hb, exists_ofInt_iff, fits_tdiv_iff hb]
    exact ⟨fun h => ⟨hb, h⟩, And.right⟩

/-- There is a remainder exactly where there is a quotient. -/
theorem exists_rem_iff : (∃ c, rem a b = .ok c) ↔ ∃ c, div a b = .ok c := by
  unfold rem
  cases div a b with
  | error e => simp [bind, Except.bind]
  | ok q =>
    -- A remainder always fits a word, so only the quotient can fail.
    refine ⟨fun _ => ⟨q, rfl⟩, fun _ => ?_⟩
    exact ⟨_, ofInt_of_fits (fits_tmod (fits_toInt a))⟩

end

/-- **An operation has a result exactly when it is defined.** -/
theorem Operation.exists_perform_iff (o : Operation) :
    (∃ c, o.perform = .ok c) ↔ o.Defined := by
  cases o with
  | add a b => rw [defined_iff_of_not_divides rfl]; exact exists_ofInt_iff
  | sub a b => rw [defined_iff_of_not_divides rfl]; exact exists_ofInt_iff
  | mul a b => rw [defined_iff_of_not_divides rfl]; exact exists_ofInt_iff
  | div a b =>
    rw [defined_iff_of_divides rfl]
    refine exists_div_iff.trans ⟨fun h => ⟨?_, h⟩, And.right⟩
    exact (fits_tdiv_iff h.1).2 h.2
  | rem a b =>
    rw [defined_iff_of_divides rfl]
    -- The exact remainder fits even where the quotient does not, so `fits` alone is too weak.
    refine (exists_rem_iff.trans exists_div_iff).trans ⟨fun h => ⟨?_, h⟩, And.right⟩
    exact fits_tmod (fits_toInt a)

/-! ### Programs of operations -/

namespace Program

variable {α : Type}

/-- The operations that a program evaluates, up to the first that meets a fault. -/
def trace : Program α → List Operation
  | result _ => []
  | operate o next =>
    o :: match o.perform with
      | .ok c => (next c).trace
      | .error _ => []

/-- **A program has a result exactly when every operation that it evaluates is defined.**  By
    induction on the program. -/
theorem exists_run_iff (p : Program α) : (∃ r, p.run = .ok r) ↔ ∀ o ∈ p.trace, o.Defined := by
  induction p with
  | result r => simp [run, trace]
  | operate o next ih =>
    rw [run, trace, List.forall_mem_cons, ← o.exists_perform_iff]
    cases o.perform with
    | error e => simp [Bind.bind, Except.bind]
    | ok c =>
      refine (ih c).trans ⟨fun h => ⟨⟨c, rfl⟩, h⟩, And.right⟩

end Program

end Word

/-! ### The program of a step -/

namespace Operator

variable (op : Operator) (a b : Int64)

/-- On words, an operator meets no fault, unless it divides by zero. -/
theorem exists_onWords (h : ¬ (op = divide ∧ b = 0)) : ∃ result, op.onWords a b = .ok result := by
  by_cases hop : op = divide
  · have hb : b ≠ 0 := fun hb => h ⟨hop, hb⟩
    rw [hop]
    exact ⟨_, onWords_divide (Word.run_quotient a hb)⟩
  · exact ⟨_, onWords_eq hop a b⟩

end Operator

namespace Number

/-- The program of a step from an integer.  A division by zero is refused before any operation;
    what words have no result for is done on reals. -/
def applyProgram (op : Operator) (a b : Int64) (position : Nat) :
    Word.Program (Except Error Number) := do
  if op = .divide ∧ b = 0 then return .error (.divisionByZero position)
  else
    let onReals := real (op.onReals (Binary64.ofInt a.toInt) (Binary64.ofInt b.toInt))
    return .ok ((← op.program a b).getD onReals)

/-- The program of a step meets no fault, and gives the outcome of the step. -/
theorem run_applyProgram (op : Operator) (a b : Int64) (position : Nat) :
    (applyProgram op a b position).run = .ok (apply op (integer a) b position) := by
  unfold applyProgram apply
  split
  · rfl
  · next h =>
    -- `combine` would turn a fault into reals without a word; there is none to turn.
    obtain ⟨result, hresult⟩ := op.exists_onWords a b h
    have hprogram : (op.program a b).run = .ok result := hresult
    rw [Word.Program.run_bind, hprogram, combine, hresult]
    cases result <;> rfl

/-- **No operation on words is undefined.**  A step from any integer by any operand is the outcome
    of a program of word operations, which joins words as the operators do.  Each operation that
    it evaluates, be it for a bound or for the result, has an exact result that fits a word, and
    none divides by zero or the least word by minus one. -/
theorem apply_operations_defined (op : Operator) (a b : Int64) (position : Nat) :
    (op.program a b).run = op.onWords a b
      ∧ (applyProgram op a b position).run = .ok (apply op (integer a) b position)
      ∧ ∀ o ∈ (applyProgram op a b position).trace, o.Defined := by
  have hrun := run_applyProgram op a b position
  exact ⟨rfl, hrun, (applyProgram op a b position).exists_run_iff.1 ⟨_, hrun⟩⟩

/-- The least word times minus one: the bound is the largest word by the least one. -/
theorem apply_operations_defined_least :
    Word.Operation.div Int64.maxValue Int64.minValue
        ∈ (applyProgram .times Int64.minValue (-1) 2).trace
      ∧ (Word.Operation.div Int64.maxValue Int64.minValue).Defined := by
  have hmem : Word.Operation.div Int64.maxValue Int64.minValue
      ∈ (applyProgram .times Int64.minValue (-1) 2).trace := by decide
  exact ⟨hmem, (apply_operations_defined .times Int64.minValue (-1) 2).2.2 _ hmem⟩

/-- The quotient of the least word by minus one takes no operation at all. -/
example : (applyProgram .divide Int64.minValue (-1) 2).trace = [] := by decide

end Number

end ChainCalc
