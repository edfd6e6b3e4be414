import ChainCalc.Text

namespace ChainCalc

/-!
# Numerals — decimal digits and the numbers they stand for

* `Numeral.value` — the number that a run of digits stands for.
* `Numeral.ofNat`, `Numeral.ofInt` — the canonical decimal numeral of a number:
  no leading zero, and a minus sign in front of a negative number.

Reading undoes writing: `Numeral.value_ofNat`.
-/

namespace Numeral

/-- The digit byte of `d`, for `d` below ten. -/
def digit (d : Nat) : Byte := UInt8.ofNat (48 + d)

/-- The number that a digit byte stands for. -/
def digitValue (b : Byte) : Nat := b.toNat - 48

/-- The number that a run of digits stands for, most significant digit first.
    Leading zeros change nothing. -/
def value (digits : Text) : Nat :=
  digits.foldl (fun n b => 10 * n + digitValue b) 0

/-- The decimal numeral of a natural number. -/
def ofNat (n : Nat) : Text :=
  if n < 10 then [digit n] else ofNat (n / 10) ++ [digit (n % 10)]
termination_by n
decreasing_by omega

/-- The decimal numeral of an integer. -/
def ofInt (n : Int) : Text :=
  if n < 0 then ascii "-" ++ ofNat n.natAbs else ofNat n.natAbs

/-! ### Reading undoes writing -/

/-- A digit byte stands for the digit it was made from. -/
theorem digitValue_digit {d : Nat} (h : d < 10) : digitValue (digit d) = d := by
  simp [digitValue, digit]
  omega

/-- A digit byte is in the class of digits. -/
theorem isDigit_digit {d : Nat} (h : d < 10) : (digit d).isDigit = true := by
  have : ∀ k : Fin 10, (digit k).isDigit = true := by decide
  exact this ⟨d, h⟩

@[simp] theorem value_nil : value [] = 0 := rfl

/-- One more digit on the right multiplies by ten and adds the digit. -/
theorem value_append_singleton (t : Text) (b : Byte) :
    value (t ++ [b]) = 10 * value t + digitValue b := by
  simp [value, List.foldl_append]

/-- The numeral of a number stands for that number. -/
theorem value_ofNat (n : Nat) : value (ofNat n) = n := by
  induction n using Nat.strongRecOn with
  | _ n ih =>
    rw [ofNat]
    split
    · next h => simp [value, digitValue_digit h]
    · next h =>
      rw [value_append_singleton, ih (n / 10) (by omega), digitValue_digit (by omega)]
      omega

/-- A numeral is made of digits. -/
theorem isDigit_of_mem_ofNat {n : Nat} : ∀ {b : Byte}, b ∈ ofNat n → b.isDigit = true := by
  induction n using Nat.strongRecOn with
  | _ n ih =>
    intro b hb
    rw [ofNat] at hb
    split at hb
    · next h =>
      rw [List.mem_singleton] at hb
      exact hb ▸ isDigit_digit h
    · next h =>
      rcases List.mem_append.1 hb with hb | hb
      · exact ih (n / 10) (by omega) hb
      · rw [List.mem_singleton] at hb
        exact hb ▸ isDigit_digit (by omega)

/-- A numeral has at least one digit. -/
theorem ofNat_ne_nil (n : Nat) : ofNat n ≠ [] := by
  rw [ofNat]
  split <;> simp

end Numeral

end ChainCalc
