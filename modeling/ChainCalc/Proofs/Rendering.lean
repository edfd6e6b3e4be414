import ChainCalc.Proofs.Effects
import ChainCalc.Proofs.Wording

namespace ChainCalc

/-!
# Rendering — the one line that a line is answered with

A line is answered with one line, its result or its error, on one of two sinks.  Whatever
bytes the line is made of, the answer is made of printable ones, and one newline behind
them.

* `Decimal.isPrintable_text`, `Number.isPrintable_text` — results are printable, as
  the errors of lines are (`isPrintable_error_message`).
* `evalLine_answers` — what evaluating a line writes, and what it leaves alone.
-/

/-! ### Results are printable -/

namespace Text

/-- The bytes of a printable text run from the space to the tilde. -/
theorem isPrintable_iff {t : Text} :
    t.isPrintable = true ↔ ∀ b ∈ t, 0x20 ≤ b ∧ b ≤ 0x7e := by
  have hbyte : ∀ b : Byte, b.isPrintable = true ↔ 0x20 ≤ b ∧ b ≤ 0x7e := by
    intro b
    simp only [Byte.isPrintable, Bool.and_eq_true, decide_eq_true_eq, UInt8.le_iff_toNat_le,
      UInt8.lt_iff_toNat_lt]
    simp
    omega
  show t.all Byte.isPrintable = true ↔ _
  rw [List.all_eq_true]
  exact forall₂_congr fun b _ => hbyte b

/-- A text is printable if it holds bytes of a printable one only. -/
theorem isPrintable_of_subset {t u : Text} (h : t ⊆ u) (hu : u.isPrintable = true) :
    t.isPrintable = true :=
  List.all_eq_true.2 fun _ hb => List.all_eq_true.1 hu _ (h hb)

end Text

namespace Decimal

theorem isPrintable_zeros (n : Nat) : Text.isPrintable (zeros n) = true := by
  have hzero : Byte.isPrintable 48 = true := by decide
  refine List.all_eq_true.2 fun b hb => ?_
  rw [(List.mem_replicate.1 hb).2, hzero]

variable {digits : Text}

/-- Where the point stands does not matter: there are digits, zeros and a point. -/
theorem isPrintable_positional (h : digits.isPrintable = true) (lead : Int) :
    (positional digits lead).isPrintable = true := by
  have hfront : (ascii "0.").isPrintable = true := by decide
  have hback : (ascii ".0").isPrintable = true := by decide
  have hpoint : (ascii ".").isPrintable = true := by decide
  unfold positional
  dsimp only
  split
  · simp only [Text.isPrintable_append, hfront, isPrintable_zeros, h, Bool.and_self]
  · split
    · simp only [Text.isPrintable_append, hback, isPrintable_zeros, h, Bool.and_self]
    · have htake := Text.isPrintable_of_subset (List.take_subset (lead.toNat + 1) digits) h
      have hdrop := Text.isPrintable_of_subset (List.drop_subset (lead.toNat + 1) digits) h
      simp only [Text.isPrintable_append, hpoint, htake, hdrop, Bool.and_self]

theorem isPrintable_exponentText (e : Int) : (exponentText e).isPrintable = true := by
  have hsign : Text.isPrintable (if e < 0 then ascii "e-" else ascii "e+") = true := by
    split <;> decide
  have hpad : Text.isPrintable (if e.natAbs < 10 then zeros 1 else []) = true := by
    split <;> decide
  simp only [exponentText, Text.isPrintable_append, hsign, hpad, Numeral.isPrintable_ofNat,
    Bool.and_self]

theorem isPrintable_scientific (h : digits.isPrintable = true) (lead : Int) :
    (scientific digits lead).isPrintable = true := by
  have hpoint : (ascii ".").isPrintable = true := by decide
  have hfirst := Text.isPrintable_of_subset (List.take_subset 1 digits) h
  have hothers := Text.isPrintable_of_subset (List.drop_subset 1 digits) h
  have hbehind : Text.isPrintable (if digits.drop 1 = [] then [] else ascii "." ++ digits.drop 1)
      = true := by
    split
    · rfl
    · rw [Text.isPrintable_append, hpoint, hothers, Bool.and_self]
  simp only [scientific, Text.isPrintable_append, hfirst, hbehind, isPrintable_exponentText,
    Bool.and_self]

/-- The text of a decimal is printable in either layout. -/
theorem isPrintable_text (d : Decimal) : d.text.isPrintable = true := by
  have hdigits := Numeral.isPrintable_ofNat d.coefficient
  unfold text
  dsimp only
  split
  · exact isPrintable_positional hdigits d.lead
  · exact isPrintable_scientific hdigits d.lead

end Decimal

theorem Binary64.isPrintable_text (x : Binary64) : x.text.isPrintable = true := by
  cases x with
  | finite negative rank =>
    have hsign : Text.isPrintable (if negative then ascii "-" else []) = true := by
      cases negative <;> decide
    simp only [text, Text.isPrintable_append, hsign, Decimal.isPrintable_text, Bool.and_self]
  | infinite negative => cases negative <;> decide
  | nan => decide

/-- **The text of a number is printable**, be it an integer or a real. -/
theorem Number.isPrintable_text (n : Number) : n.text.isPrintable = true := by
  cases n with
  | integer value => exact Numeral.isPrintable_ofInt value.toInt
  | real value => exact value.isPrintable_text

/-! ### Answers -/

/-- **One line for a line.**  On sinks that never fail, a line that has a value adds the text
    of its value and a newline to the results, and nothing to the errors; any other line
    adds its error and a newline to the errors, and nothing to the results.  In front of
    the newline all bytes are printable. -/
theorem evalLine_answers (line : Text) (c : Console) (hout : c.out.Boundless)
    (herr : c.err.Boundless) :
    let succeeded := (evalLine line c).1
    let after := (evalLine line c).2
    ((∃ n, evaluate line = .ok n ∧ succeeded = true
        ∧ after.out.accepted = c.out.accepted ++ n.text ++ [Byte.newline]
        ∧ after.err = c.err
        ∧ ∀ b ∈ n.text, 0x20 ≤ b ∧ b ≤ 0x7e)
      ∨ ∃ e, evaluate line = .error e ∧ succeeded = false
        ∧ after.out = c.out
        ∧ after.err.accepted = c.err.accepted ++ (ascii "error: " ++ e.message) ++ [Byte.newline]
        ∧ ∀ b ∈ ascii "error: " ++ e.message, 0x20 ≤ b ∧ b ≤ 0x7e)
      ∧ after.out.Boundless ∧ after.err.Boundless := by
  unfold evalLine
  cases hvalue : evaluate line with
  | ok n =>
    obtain ⟨haccepted, hboundless⟩ := hout.write (n.text ++ [Byte.newline])
    rw [← List.append_assoc] at haccepted
    have hclean := Text.isPrintable_iff.1 n.isPrintable_text
    exact ⟨.inl ⟨n, rfl, rfl, haccepted, rfl, hclean⟩, hboundless, herr⟩
  | error e =>
    obtain ⟨haccepted, hboundless⟩ := herr.write (ascii "error: " ++ e.message ++ [Byte.newline])
    rw [← List.append_assoc] at haccepted
    have hclean := Text.isPrintable_iff.1 (isPrintable_error_message hvalue)
    exact ⟨.inr ⟨e, rfl, rfl, rfl, haccepted, hclean⟩, hout, hboundless⟩

/-- Behind an earlier result, a line with two newlines in it, which are blanks, and then a byte
    that is not printable. -/
theorem evalLine_answers_unprintable :
    let line : Text := [49, 10, 10, 200]
    let c := Console.unlimited.print (ascii "3\n")
    let after := (evalLine line c).2
    c.out.Boundless ∧ c.err.Boundless ∧ after.out.accepted = ascii "3\n"
      ∧ after.err.accepted = ascii "error: invalid character '\\xc8' at position 3\n" := by
  intro line c after
  have hout : c.out.Boundless := ⟨rfl, rfl⟩
  have herr : c.err.Boundless := ⟨rfl, rfl⟩
  have hvalue : evaluate line = .error (.lexical .invalidCharacter 200 3) := by decide +kernel
  refine ⟨hout, herr, ?_⟩
  rcases (evalLine_answers line c hout herr).1 with ⟨n, hn, -⟩ | ⟨e, he, -, hkept, haccepted, -⟩
  · rw [hvalue] at hn
    cases hn
  · rw [hvalue] at he
    cases he
    exact ⟨congrArg Sink.accepted hkept, haccepted.trans (by decide +kernel)⟩

end ChainCalc
