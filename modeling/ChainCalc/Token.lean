import ChainCalc.Numeral
import ChainCalc.Operator

namespace ChainCalc

/-!
# Tokens — what a line is read as

A token is a lexeme together with the position at which it stands.  The end of a
line is a token too, so that a reader always has one to report.

* `Lexeme`, `Kind`, `Token` — a lexeme carries the value of an integer, its kind
  does not.
* `Kind.text`, `Token.describe` — how messages speak of a kind and of a token.
-/

/-- The content of a token. -/
inductive Lexeme where
  | integer (value : Int64)
  | operator (op : Operator)
  | endOfInput
  deriving DecidableEq

/-- The kind of a token: its lexeme without an integer's value. -/
inductive Kind where
  | integer
  | operator (op : Operator)
  | endOfInput
  deriving DecidableEq

/-- A lexeme at a position of the line, counted in bytes. -/
structure Token where
  lexeme : Lexeme
  position : Nat
  deriving DecidableEq

namespace Kind

/-- Whether tokens of this kind are operators. -/
def isOperator : Kind → Bool
  | operator _ => true
  | _ => false

/-- The byte that tokens of this kind are written as, where there is one such byte. -/
def symbol? : Kind → Option Byte
  | operator op => some op.symbol
  | _ => none

/-- The words for a kind: an operator is quoted. -/
def text : Kind → Text
  | integer => ascii "integer"
  | operator op => ascii "'" ++ [op.symbol] ++ ascii "'"
  | endOfInput => ascii "end of input"

/-- An operator kind is exactly one that has a symbol. -/
theorem isSome_symbol? (k : Kind) : k.symbol?.isSome = k.isOperator := by
  cases k <;> rfl

end Kind

namespace Lexeme

/-- The kind of a lexeme. -/
def kind : Lexeme → Kind
  | integer _ => .integer
  | operator op => .operator op
  | endOfInput => .endOfInput

end Lexeme

namespace Token

/-- The kind of a token. -/
def kind (t : Token) : Kind := t.lexeme.kind

/-- The value of an integer token; other tokens have none. -/
def integer? (t : Token) : Option Int64 :=
  match t.lexeme with
  | .integer value => some value
  | _ => none

/-- The words for a token: those for its kind, and for an integer its value after them. -/
def describe (t : Token) : Text :=
  match t.lexeme with
  | .integer value => Kind.integer.text ++ ascii " " ++ Numeral.ofInt value.toInt
  | lexeme => lexeme.kind.text

/-- A token has a value exactly when it is of the integer kind. -/
theorem isSome_integer? (t : Token) : t.integer?.isSome = (t.kind = .integer) := by
  obtain ⟨lexeme, _⟩ := t
  cases lexeme <;> simp [integer?, kind, Lexeme.kind]

end Token

end ChainCalc
