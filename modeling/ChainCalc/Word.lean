import ChainCalc.Binary64.Basic
import ChainCalc.Operator

namespace ChainCalc

/-!
# Words — integer arithmetic that never leaves the word

Integers are kept in words of 64 bits.  The five operations on words are strict: one whose
exact result is not a word is a fault, and so is a zero divisor.  Whether a sum, difference
or product is a word has to be found out by operations that are themselves on words, so each
test looks at the signs of its operands first.  What is computed so is written as a program of
operations, which has a result if none of them meets a fault.

* `Word.Fault`, `Word.Checked` — what can go wrong with one word operation.
* `Word.Operation`, `Word.Operation.perform` — an operation with its operands, and its result.
* `Word.Program`, `Word.Program.run` — operations, each of which may depend on the results of
  those before, and what they come to.
* `Word.sum?`, `difference?`, `product?` — the result if it is a word; by their tests
  none of them meets a fault.
* `Word.quotient` — the quotient as a double.
-/

namespace Word

/-- Why a word operation has no result. -/
inductive Fault where
  /-- The exact result is not a word. -/
  | outOfRange
  /-- The divisor is zero. -/
  | zeroDivisor
  deriving DecidableEq

/-- The result of word operations, or the first fault that they met. -/
abbrev Checked (α : Type) := Except Fault α

/-! ### Strict operations -/

/-- The word for an integer, if there is one. -/
def ofInt (n : Int) : Checked Int64 :=
  if Int64.minValue.toInt ≤ n ∧ n ≤ Int64.maxValue.toInt then .ok (Int64.ofInt n)
  else .error .outOfRange

/-- The quotient of two words, cut towards zero. -/
def div (a b : Int64) : Checked Int64 :=
  if b = 0 then .error .zeroDivisor else ofInt (a.toInt.tdiv b.toInt)

/-- The remainder that goes with the quotient of two words; where there is no quotient
    there is no remainder. -/
def rem (a b : Int64) : Checked Int64 := do
  let _ ← div a b
  ofInt (a.toInt.tmod b.toInt)

/-- An operation on two words. -/
inductive Operation where
  | add (a b : Int64)
  | sub (a b : Int64)
  | mul (a b : Int64)
  | div (a b : Int64)
  | rem (a b : Int64)
  deriving DecidableEq

/-- The result of an operation. -/
def Operation.perform : Operation → Checked Int64
  | add a b => ofInt (a.toInt + b.toInt)
  | sub a b => ofInt (a.toInt - b.toInt)
  | mul a b => ofInt (a.toInt * b.toInt)
  | div a b => Word.div a b
  | rem a b => Word.rem a b

/-! ### Programs of operations -/

/-- A program on words: a result, or an operation and what is done with its result. -/
inductive Program (α : Type) where
  | result (r : α)
  | operate (o : Operation) (next : Int64 → Program α)

namespace Program

variable {α β : Type}

/-- Go on with the result of a program. -/
def bind : Program α → (α → Program β) → Program β
  | result r, f => f r
  | operate o next, f => operate o fun c => (next c).bind f

instance : Monad Program where
  pure := result
  bind := bind

/-- The program of one operation. -/
def of (o : Operation) : Program Int64 := operate o result

/-- The result of a program, if none of its operations meets a fault. -/
def run : Program α → Checked α
  | result r => .ok r
  | operate o next => o.perform >>= fun c => (next c).run

@[simp] theorem run_pure (r : α) : (pure r : Program α).run = .ok r := rfl

@[simp] theorem run_of (o : Operation) : (of o).run = o.perform := by
  show (o.perform >>= fun c => .ok c) = o.perform
  cases o.perform <;> rfl

/-- A program that goes on with a result runs as both its parts. -/
@[simp] theorem run_bind (p : Program α) (f : α → Program β) :
    (p >>= f).run = p.run >>= fun r => (f r).run := by
  induction p with
  | result r => rfl
  | operate o next ih =>
    show (o.perform >>= fun c => (next c >>= f).run)
      = (o.perform >>= fun c => (next c).run) >>= fun r => (f r).run
    cases o.perform with
    | error e => rfl
    | ok c => exact ih c

end Program

open Program (of)

/-! ### Results that may be too large -/

/-- Whether the sum of two words is too large or too small for a word. -/
def sumOverflows (a b : Int64) : Program Bool := do
  if 0 < b then return decide ((← of (.sub Int64.maxValue b)) < a)
  else if b < 0 then return decide (a < (← of (.sub Int64.minValue b)))
  else return false

/-- Whether the difference of two words is too large or too small for a word. -/
def differenceOverflows (a b : Int64) : Program Bool := do
  if b < 0 then return decide ((← of (.add Int64.maxValue b)) < a)
  else if 0 < b then return decide (a < (← of (.add Int64.minValue b)))
  else return false

/-- Whether the product of two words is too large or too small for a word.  A bound is
    always divided by the positive factor, or a positive bound by a negative factor, so
    that the quotient is a word. -/
def productOverflows (a b : Int64) : Program Bool := do
  if a = 0 ∨ b = 0 then return false
  else if 0 < a then
    if 0 < b then return decide ((← of (.div Int64.maxValue b)) < a)
    else return decide (b < (← of (.div Int64.minValue a)))
  else
    if 0 < b then return decide (a < (← of (.div Int64.minValue b)))
    else return decide (b < (← of (.div Int64.maxValue a)))

/-- The result of an operation, unless a test says that it is not a word. -/
def unlessOverflows (test : Program Bool) (o : Operation) : Program (Option Int64) := do
  if ← test then return none else return some (← of o)

/-- The sum, if it is a word. -/
def sum? (a b : Int64) : Program (Option Int64) := unlessOverflows (sumOverflows a b) (.add a b)

/-- The difference, if it is a word. -/
def difference? (a b : Int64) : Program (Option Int64) :=
  unlessOverflows (differenceOverflows a b) (.sub a b)

/-- The product, if it is a word. -/
def product? (a b : Int64) : Program (Option Int64) :=
  unlessOverflows (productOverflows a b) (.mul a b)

/-! ### Quotients -/

/-- The quotient of two words as a double.  A quotient that is a word is rounded once.
    Any other is rounded to extended precision and then to double precision.  By minus
    one the dividend changes its sign after rounding, so zero gives the negative zero. -/
def quotient (a b : Int64) : Program Binary64 := do
  if b = -1 then return (Binary64.ofInt a.toInt).neg
  else if (← of (.rem a b)) = 0 then return Binary64.ofInt (← of (.div a b)).toInt
  else return Binary64.round false (Format.extended.nearest ((a.toInt : Rat) / (b.toInt : Rat)))

end Word

end ChainCalc
