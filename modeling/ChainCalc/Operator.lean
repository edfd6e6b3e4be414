import ChainCalc.Text

namespace ChainCalc

/-!
# Operators — the four operations of a chain

Each operator is written as one byte, its symbol.

* `Operator.symbol`, `Operator.ofSymbol?` — an operator and its byte, each the other's
  inverse (`ofSymbol?_eq_some_iff`).
-/

/-- The operations that a chain of operands can be joined by.  None binds tighter
    than another. -/
inductive Operator where
  | plus
  | minus
  | times
  | divide
  deriving DecidableEq, Repr

namespace Operator

/-- The byte that an operator is written as. -/
def symbol : Operator → Byte
  | plus => 43
  | minus => 45
  | times => 42
  | divide => 47

/-- The operator that a byte is the symbol of. -/
def ofSymbol? (b : Byte) : Option Operator :=
  if b = 43 then some plus
  else if b = 45 then some minus
  else if b = 42 then some times
  else if b = 47 then some divide
  else none

@[simp] theorem ofSymbol?_symbol (op : Operator) : ofSymbol? op.symbol = some op := by
  cases op <;> rfl

/-- A byte is read as an operator exactly when it is that operator's symbol. -/
theorem ofSymbol?_eq_some_iff {b : Byte} {op : Operator} :
    ofSymbol? b = some op ↔ b = op.symbol := by
  constructor
  · revert b op
    intro b op h
    unfold ofSymbol? at h
    split at h
    · next hb => cases h; exact hb
    · split at h
      · next hb => cases h; exact hb
      · split at h
        · next hb => cases h; exact hb
        · split at h
          · next hb => cases h; exact hb
          · exact absurd h (by simp)
  · rintro rfl
    exact ofSymbol?_symbol op

/-- A symbol is not blank. -/
theorem isBlank_symbol (op : Operator) : op.symbol.isBlank = false := by
  cases op <;> rfl

/-- A symbol is not a digit. -/
theorem isDigit_symbol (op : Operator) : op.symbol.isDigit = false := by
  cases op <;> rfl

end Operator

end ChainCalc
