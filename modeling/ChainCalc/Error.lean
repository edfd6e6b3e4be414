import ChainCalc.Token

namespace ChainCalc

/-!
# Errors — why a line has no value

An error is a cause with what is needed to report it; the wording is in one place,
`Error.message`.

* `Error` — the causes: a byte or literal that is no token, a token out of place, a
  zero divisor, and an operation by a kind that is no operator.
* `Error.message` — the text that is shown for a cause.
-/

/-- The two places of a chain: operands and operators take turns. -/
inductive Role where
  | operand
  | operator
  deriving DecidableEq

/-- What is wrong with the bytes at which reading a token failed. -/
inductive LexicalFault where
  /-- The byte begins no token. -/
  | invalidCharacter
  /-- The digits stand for a number above the largest integer. -/
  | outOfRange
  /-- A fault with a wording of its own. -/
  | other (wording : Text)
  deriving DecidableEq

/-- Why a line has no value. -/
inductive Error where
  /-- No token can be read at the position, where the character stands. -/
  | lexical (fault : LexicalFault) (character : Byte) (position : Nat)
  /-- A token stands where the other role is expected. -/
  | unexpected (expected : Role) (found : Token)
  /-- The divisor at the position is zero. -/
  | divisionByZero (position : Nat)
  /-- Two values were to be joined by a kind that is no operator. -/
  | notOperator (kind : Kind)
  deriving DecidableEq

/-- The word for a role. -/
def Role.text : Role → Text
  | operand => ascii "operand"
  | operator => ascii "operator"

/-- The lower-case hexadecimal digit of `d`, for `d` below sixteen. -/
def hexDigit (d : Nat) : Byte := UInt8.ofNat (if d < 10 then 48 + d else 87 + d)

/-- A byte in quotes: as itself if it is printable, else by its two hexadecimal digits. -/
def Byte.quoted (b : Byte) : Text :=
  if b.isPrintable then ascii "'" ++ [b] ++ ascii "'"
  else ascii "'\\x" ++ [hexDigit (b.toNat / 16), hexDigit (b.toNat % 16)] ++ ascii "'"

/-- Outcomes can be compared: values with values, and errors with errors. -/
instance decidableEqOutcome {ε α : Type} [DecidableEq ε] [DecidableEq α] :
    DecidableEq (Except ε α)
  | .ok a, .ok b => decidable_of_iff (a = b) ⟨congrArg Except.ok, Except.ok.inj⟩
  | .error d, .error e => decidable_of_iff (d = e) ⟨congrArg Except.error, Except.error.inj⟩
  | .ok _, .error _ => isFalse nofun
  | .error _, .ok _ => isFalse nofun

namespace Error

/-- Where a message says that something is. -/
def place (position : Nat) : Text := ascii " at position " ++ Numeral.ofNat position

/-- The message for an error.  A wording of its own is shown up to its first zero byte. -/
def message : Error → Text
  | lexical .invalidCharacter character position =>
    ascii "invalid character " ++ character.quoted ++ place position
  | lexical .outOfRange _ position => ascii "integer literal out of range" ++ place position
  | lexical (.other wording) _ _ => wording.takeWhile (· ≠ 0)
  | unexpected expected found =>
    ascii "expected " ++ expected.text ++ ascii " but found " ++ found.describe
      ++ place found.position
  | divisionByZero position => ascii "division by zero" ++ place position
  | notOperator kind => ascii "not an operator: " ++ kind.text

/-- The position that an error points at, if it arose at one. -/
def position? : Error → Option Nat
  | lexical _ _ position => some position
  | unexpected _ found => some found.position
  | divisionByZero position => some position
  | notOperator _ => none

end Error

end ChainCalc
