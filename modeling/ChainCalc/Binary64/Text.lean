import ChainCalc.Binary64.Basic
import ChainCalc.Decimal.Shortest

namespace ChainCalc

/-!
# The text of a double

A finite value is its sign, if negative, and the shortest decimal that reads back;
zeros keep their sign.  Infinities and values that are not numbers are words.
-/

namespace Binary64

/-- The text of a double-precision value. -/
def text : Binary64 → Text
  | finite negative rank =>
    (if negative then ascii "-" else []) ++ (Format.binary64.shortest rank).text
  | infinite negative => if negative then ascii "-inf" else ascii "inf"
  | nan => ascii "nan"

end Binary64

end ChainCalc
