import ChainCalc.Binary64.Text
import ChainCalc.Error
import ChainCalc.Word

namespace ChainCalc

/-!
# Numbers — integers as long as possible, then reals

A number is an integer that fits a word, or a real in double precision.  Sums,
differences and products of integers stay integers while they fit; all that does not
fit, every quotient, and whatever follows is real.

* `Number.apply` — join a number and an integer operand by an operator.
* `Number.history` — the outcomes of a run of such steps.
* `Number.text` — the text of a number; a real is never written like an integer.
-/

/-- A value in the course of a calculation. -/
inductive Number where
  | integer (value : Int64)
  | real (value : Binary64)
  deriving DecidableEq

namespace Operator

/-- The operation on reals. -/
def onReals : Operator → Binary64 → Binary64 → Binary64
  | plus => Binary64.add
  | minus => Binary64.sub
  | times => Binary64.mul
  | divide => Binary64.div

/-- The word operations of an operator, with the result if it can be had from words alone. -/
def program : Operator → Int64 → Int64 → Word.Program (Option Number)
  | plus, a, b => return (← Word.sum? a b).map Number.integer
  | minus, a, b => return (← Word.difference? a b).map Number.integer
  | times, a, b => return (← Word.product? a b).map Number.integer
  | divide, a, b => return some (Number.real (← Word.quotient a b))

/-- The operation on words, if its result can be had from words alone. -/
def onWords (op : Operator) (a b : Int64) : Word.Checked (Option Number) := (op.program a b).run

end Operator

namespace Number

/-- Whether a number is an integer. -/
def isInteger : Number → Bool
  | integer _ => true
  | real _ => false

/-- The real nearest to a number. -/
def toReal : Number → Binary64
  | integer value => Binary64.ofInt value.toInt
  | real value => value

/-- The text of a number. -/
def text : Number → Text
  | integer value => Numeral.ofInt value.toInt
  | real value => value.text

/-- The number `lhs op rhs`, for a divisor that is not zero: on words if that has a
    result, else on reals. -/
def combine (op : Operator) (lhs : Number) (rhs : Int64) : Number :=
  let onReals := real (op.onReals lhs.toReal (Binary64.ofInt rhs.toInt))
  match lhs with
  | real _ => onReals
  | integer a =>
    match op.onWords a rhs with
    | .ok (some result) => result
    | _ => onReals

/-- Join a number and the integer operand at `position`. -/
def apply (op : Operator) (lhs : Number) (rhs : Int64) (position : Nat) :
    Except Error Number :=
  if op = .divide ∧ rhs = 0 then .error (.divisionByZero position)
  else .ok (combine op lhs rhs)

/-! ### Steps of any kind -/

/-- A step of a calculation: the kind that stands between the values, the right-hand
    operand, and that operand's position. -/
structure Step where
  kind : Kind
  operand : Int64
  position : Nat
  deriving DecidableEq

/-- Take one step.  Only an operator can join values. -/
def step (lhs : Number) (s : Step) : Except Error Number :=
  match s.kind with
  | .operator op => apply op lhs s.operand s.position
  | kind => .error (.notOperator kind)

/-- The outcome of each step of a run.  A step that fails leaves the value as it was. -/
def history (start : Number) : List Step → List (Except Error Number)
  | [] => []
  | s :: more =>
    match start.step s with
    | .ok next => .ok next :: next.history more
    | .error e => .error e :: start.history more

/-- Dividing by zero fails for every dividend, and names the divisor's position. -/
@[simp] theorem apply_divide_zero (lhs : Number) (position : Nat) :
    apply .divide lhs 0 position = .error (.divisionByZero position) := by
  simp [apply]

/-- A run has one outcome for each step. -/
@[simp] theorem length_history (start : Number) (steps : List Step) :
    (start.history steps).length = steps.length := by
  induction steps generalizing start with
  | nil => rfl
  | cons s more ih =>
    rw [history]
    split <;> simp [ih]

end Number

end ChainCalc
