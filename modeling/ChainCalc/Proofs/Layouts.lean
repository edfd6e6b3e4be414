import ChainCalc.Conversion
import ChainCalc.Proofs.Decimals
import ChainCalc.Proofs.Front

namespace ChainCalc

/-!
# Layouts — every layout of some digits is read as the number that they stand for

A decimal is written with digits, with more digits behind a point, and with an exponent, where
the last two may be missing.  Each layout of digits is of that form.  Reading such a text gives
the decimal back, so in whatever layout the digits stand, the number is the same.

* `Written` — the parts of a written decimal; `Written.text` and `Written.decimal` are the text
  and the decimal for them.
* `Decimal.read?`, `Decimal.read?_text` — reading undoes writing.
* `Decimal.exists_written_layout` — the parts of a layout.
-/

/-! ### Digits that are made from digits -/

namespace Digits

variable {t : Text}

theorem isDigit_append {u : Text} (ht : ∀ b ∈ t, b.isDigit = true)
    (hu : ∀ b ∈ u, b.isDigit = true) : ∀ b ∈ t ++ u, b.isDigit = true := by
  intro b hb
  rcases List.mem_append.1 hb with hb | hb
  · exact ht b hb
  · exact hu b hb

/-- All digits are kept of a run. -/
theorem filter_isDigit (r : Digits) : r.text.filter Byte.isDigit = r.text :=
  List.filter_eq_self.2 r.isDigit_of_mem

/-- The letter of exponents is no digit. -/
theorem letter_notMem (r : Digits) : 101 ∉ r.text := fun h =>
  absurd (r.isDigit_of_mem 101 h) (by decide)

theorem isDigit_zeros (n : ℕ) : ∀ b ∈ Decimal.zeros n, b.isDigit = true := by
  intro b hb
  rw [(List.mem_replicate.1 hb).2]
  decide

/-- The digits of a numeral. -/
def ofNat (n : ℕ) : Digits :=
  ⟨Numeral.ofNat n, Numeral.ofNat_ne_nil n, fun _ => Numeral.isDigit_of_mem_ofNat⟩

/-- Digits behind zeros. -/
def behindZeros (n : ℕ) (r : Digits) : Digits :=
  ⟨Decimal.zeros n ++ r.text, by simp [r.ne_nil],
    isDigit_append (isDigit_zeros n) r.isDigit_of_mem⟩

/-- Digits in front of zeros. -/
def beforeZeros (r : Digits) (n : ℕ) : Digits :=
  ⟨r.text ++ Decimal.zeros n, by simp [r.ne_nil],
    isDigit_append r.isDigit_of_mem (isDigit_zeros n)⟩

/-- The digits in front of a cut, of which there is at least one. -/
def front (r : Digits) (n : ℕ) : Digits :=
  ⟨r.text.take (n + 1), by simp [r.ne_nil],
    fun b hb => r.isDigit_of_mem b (List.mem_of_mem_take hb)⟩

/-- The digits behind a cut, if it is in front of the end. -/
def back (r : Digits) (n : ℕ) (h : n < r.text.length) : Digits :=
  ⟨r.text.drop n, by rwa [Ne, List.drop_eq_nil_iff, not_le],
    fun b hb => r.isDigit_of_mem b (List.mem_of_mem_drop hb)⟩

end Digits

/-! ### Written decimals -/

/-- The parts of a written decimal. -/
structure Written where
  whole : Digits
  fraction : Option Digits
  exponent : Option ℤ

namespace Written

/-- The digits behind the point. -/
def fractionText (w : Written) : Text := (w.fraction.map Digits.text).getD []

/-- The point and the digits behind it. -/
def pointText (w : Written) : Text := (w.fraction.map fun r => ascii "." ++ r.text).getD []

/-- The exponent as it is written. -/
def exponentText (w : Written) : Text := (w.exponent.map Decimal.exponentText).getD []

/-- The text of a written decimal. -/
def text (w : Written) : Text := w.whole.text ++ (w.pointText ++ w.exponentText)

/-- The decimal that is written. -/
def decimal (w : Written) : Decimal :=
  ⟨Numeral.value (w.whole.text ++ w.fractionText), w.exponent.getD 0 - w.fractionText.length⟩

end Written

namespace Decimal

/-! ### Reading -/

/-- Read a run of digits. -/
def readDigits? (t : Text) : Option (Text × Text) :=
  let digits := t.takeWhile Byte.isDigit
  if digits = [] then none else some (digits, t.drop digits.length)

/-- Read a text that is a run of digits as a whole. -/
def readNat? (t : Text) : Option ℕ :=
  match readDigits? t with
  | some (digits, []) => some (Numeral.value digits)
  | _ => none

/-- Read a minus sign, if there is one. -/
def readSign : Text → Bool × Text
  | 45 :: t => (true, t)
  | t => (false, t)

/-- Read the digits behind a point, if there is one. -/
def readFraction? : Text → Option (Text × Text)
  | 46 :: t => readDigits? t
  | t => some ([], t)

/-- Read an exponent, if there is one. -/
def readExponent? : Text → Option ℤ
  | [] => some 0
  | 101 :: 43 :: t => (readNat? t).map fun n : ℕ => (n : ℤ)
  | 101 :: 45 :: t => (readNat? t).map fun n : ℕ => -(n : ℤ)
  | _ => none

/-- Read a text as a decimal with its sign. -/
def read? (t : Text) : Option (Bool × Decimal) := do
  let (whole, behind) ← readDigits? (readSign t).2
  let (fraction, behind) ← readFraction? behind
  let exponent ← readExponent? behind
  return ((readSign t).1, ⟨Numeral.value (whole ++ fraction), exponent - fraction.length⟩)

/-- A run of digits that nothing prolongs is read. -/
theorem readDigits?_append (r : Digits) {t : Text} (ht : t.digitAhead = false) :
    readDigits? (r.text ++ t) = some (r.text, t) := by
  simp only [readDigits?, r.takeWhile_append ht, if_neg r.ne_nil, List.drop_left]

/-- A run of digits is read as a whole. -/
theorem readNat?_text (r : Digits) : readNat? r.text = some r.value := by
  have hread := readDigits?_append r Text.digitAhead_nil
  rw [List.append_nil] at hread
  rw [readNat?, hread]
  rfl

/-- No text is read as a whole in which something other than digits comes behind digits. -/
theorem readNat?_append (r : Digits) {t : Text} (ht : t.digitAhead = false) (hne : t ≠ []) :
    readNat? (r.text ++ t) = none := by
  rw [readNat?, readDigits?_append r ht]
  cases t with
  | nil => exact absurd rfl hne
  | cons b t => rfl

/-- A sign is read, and no digit is taken for one. -/
theorem readSign_append (negative : Bool) (r : Digits) (t : Text) :
    readSign (sign negative ++ (r.text ++ t)) = (negative, r.text ++ t) := by
  cases negative with
  | true => rfl
  | false =>
    obtain ⟨more, hmore⟩ := r.exists_text_eq_cons
    have hfirst : r.first ≠ 45 := by
      intro h
      have hdigit := r.isDigit_first
      rw [h] at hdigit
      exact absurd hdigit (by decide)
    rw [hmore]
    show readSign (r.first :: (more ++ t)) = _
    unfold readSign
    split
    · next heq => exact absurd (List.cons.inj heq).1 hfirst
    · rfl

/-- An exponent is its sign and digits. -/
theorem exists_exponentText_eq (e : ℤ) :
    ∃ r : Digits, r.value = e.natAbs
      ∧ exponentText e = (if e < 0 then ascii "e-" else ascii "e+") ++ r.text := by
  refine ⟨(Digits.ofNat e.natAbs).behindZeros (if e.natAbs < 10 then 1 else 0), ?_, ?_⟩
  · show Numeral.value (zeros _ ++ Numeral.ofNat _) = _
    rw [Numeral.value_append, Numeral.value_zeros, Numeral.value_ofNat, zero_mul, zero_add]
  · show _ ++ _ ++ _ = _ ++ (zeros _ ++ _)
    rw [List.append_assoc]
    congr 2
    split <;> rfl

/-- An exponent is read back from how it is written. -/
theorem readExponent?_exponentText (e : ℤ) : readExponent? (exponentText e) = some e := by
  obtain ⟨r, hvalue, htext⟩ := exists_exponentText_eq e
  rw [htext]
  split
  · next hneg =>
    show (readNat? r.text).map (fun n : ℕ => -(n : ℤ)) = some e
    rw [readNat?_text, hvalue, Option.map_some, Option.some.injEq]
    omega
  · next hnonneg =>
    show (readNat? r.text).map (fun n : ℕ => (n : ℤ)) = some e
    rw [readNat?_text, hvalue, Option.map_some, Option.some.injEq]
    omega

end Decimal

namespace Written

theorem readExponent?_exponentText (w : Written) :
    Decimal.readExponent? w.exponentText = some (w.exponent.getD 0) := by
  cases h : w.exponent with
  | none => simp [exponentText, h, Decimal.readExponent?]
  | some e => simp [exponentText, h, Decimal.readExponent?_exponentText]

/-- Behind the fraction comes nothing or the letter `e`. -/
theorem exponentText_cases (w : Written) :
    w.exponentText = [] ∨ ∃ t, w.exponentText = 101 :: t := by
  cases h : w.exponent with
  | none => exact .inl (by simp [exponentText, h])
  | some e =>
    obtain ⟨r, -, htext⟩ := Decimal.exists_exponentText_eq e
    refine .inr ?_
    rw [exponentText, h, Option.map_some, Option.getD_some, htext]
    split
    · exact ⟨_, rfl⟩
    · exact ⟨_, rfl⟩

theorem digitAhead_exponentText (w : Written) : Text.digitAhead w.exponentText = false := by
  rcases w.exponentText_cases with h | ⟨t, h⟩ <;> rw [h]
  · rfl
  · rw [Text.digitAhead_cons]
    decide

theorem pointText_cases (w : Written) :
    w.pointText = [] ∧ w.fractionText = []
      ∨ ∃ r : Digits, w.pointText = 46 :: r.text ∧ w.fractionText = r.text := by
  cases h : w.fraction with
  | none => exact .inl (by simp [pointText, fractionText, h])
  | some r =>
    simp only [pointText, fractionText, h, Option.map_some, Option.getD_some]
    exact .inr ⟨r, rfl, rfl⟩

/-- Behind the digits in front comes no digit. -/
theorem digitAhead_behind (w : Written) :
    Text.digitAhead (w.pointText ++ w.exponentText) = false := by
  rcases w.pointText_cases with ⟨h, -⟩ | ⟨r, h, -⟩ <;> rw [h]
  · exact w.digitAhead_exponentText
  · rw [List.cons_append, Text.digitAhead_cons]
    decide

theorem readFraction?_behind (w : Written) :
    Decimal.readFraction? (w.pointText ++ w.exponentText)
      = some (w.fractionText, w.exponentText) := by
  rcases w.pointText_cases with ⟨hpoint, hfraction⟩ | ⟨r, hpoint, hfraction⟩ <;>
    rw [hpoint, hfraction]
  · rw [List.nil_append]
    rcases w.exponentText_cases with h | ⟨t, h⟩ <;> rw [h] <;> rfl
  · exact Decimal.readDigits?_append r w.digitAhead_exponentText

/-- In front of the exponent come the digits, and nothing else but the point. -/
theorem filter_isDigit_pointText (w : Written) :
    w.pointText.filter Byte.isDigit = w.fractionText := by
  rcases w.pointText_cases with ⟨hpoint, hfraction⟩ | ⟨r, hpoint, hfraction⟩ <;>
    rw [hpoint, hfraction]
  · rfl
  · rw [List.filter_cons_of_neg (by decide), r.filter_isDigit]

theorem letter_notMem_pointText (w : Written) : 101 ∉ w.pointText := by
  rcases w.pointText_cases with ⟨hpoint, -⟩ | ⟨r, hpoint, -⟩ <;> rw [hpoint]
  · exact List.not_mem_nil
  · exact List.not_mem_cons_of_ne_of_not_mem (by decide) r.letter_notMem

/-- **Reading undoes writing.** -/
theorem read?_text (negative : Bool) (w : Written) :
    Decimal.read? (Decimal.sign negative ++ w.text) = some (negative, w.decimal) := by
  have hsign := Decimal.readSign_append negative w.whole (w.pointText ++ w.exponentText)
  have hwhole := Decimal.readDigits?_append w.whole w.digitAhead_behind
  simp only [text, Decimal.read?, hsign, hwhole, w.readFraction?_behind,
    w.readExponent?_exponentText, Option.bind_eq_bind, Option.bind_some]
  rfl

/-- A text with a fraction or an exponent is not a run of digits. -/
theorem readNat?_text (w : Written) (h : w.fraction ≠ none ∨ w.exponent ≠ none) :
    Decimal.readNat? w.text = none := by
  refine Decimal.readNat?_append w.whole w.digitAhead_behind fun hnil => ?_
  obtain ⟨hpoint, hexponent⟩ := List.append_eq_nil_iff.1 hnil
  rcases h with h | h
  · obtain ⟨r, hr⟩ := Option.ne_none_iff_exists'.1 h
    simp [pointText, hr, ascii] at hpoint
  · obtain ⟨e, he⟩ := Option.ne_none_iff_exists'.1 h
    obtain ⟨r, -, htext⟩ := Decimal.exists_exponentText_eq e
    rw [exponentText, he, Option.map_some, Option.getD_some, htext] at hexponent
    split at hexponent <;> cases hexponent

end Written

/-! ### Integers -/

namespace Numeral

/-- Read a text as an integer. -/
def readInt? (t : Text) : Option ℤ :=
  (Decimal.readNat? (Decimal.readSign t).2).map fun n : ℕ =>
    if (Decimal.readSign t).1 then -(n : ℤ) else n

/-- An integer is read back from its numeral. -/
theorem readInt?_ofInt (n : ℤ) : readInt? (ofInt n) = some n := by
  have htext : ofInt n
      = Decimal.sign (decide (n < 0)) ++ ((Digits.ofNat n.natAbs).text ++ []) := by
    rw [List.append_nil, ofInt]
    by_cases hn : n < 0
    · rw [if_pos hn, decide_eq_true hn]
      rfl
    · rw [if_neg hn, decide_eq_false hn]
      rfl
  have hvalue : (Digits.ofNat n.natAbs).value = n.natAbs := value_ofNat n.natAbs
  rw [readInt?, htext, Decimal.readSign_append, List.append_nil, Decimal.readNat?_text, hvalue,
    Option.map_some, Option.some.injEq]
  by_cases hn : n < 0
  · rw [if_pos (decide_eq_true hn)]
    omega
  · rw [if_neg (by simpa using hn)]
    omega

end Numeral

/-- A text with a fraction or an exponent is not read as an integer. -/
theorem Written.readInt?_text (negative : Bool) (w : Written)
    (h : w.fraction ≠ none ∨ w.exponent ≠ none) :
    Numeral.readInt? (Decimal.sign negative ++ w.text) = none := by
  have hsign : Decimal.readSign (Decimal.sign negative ++ w.text) = (negative, w.text) :=
    Decimal.readSign_append negative w.whole (w.pointText ++ w.exponentText)
  rw [Numeral.readInt?, hsign, w.readNat?_text h, Option.map_none]

/-! ### Layouts -/

namespace Decimal

variable (r : Digits) (lead : ℤ)

/-- Digits stand for less than the power of ten in front of the first one. -/
theorem toRat_ofDigits_lt : (ofDigits r.text lead).toRat < 10 ^ (lead + 1) := by
  have hscale : (0 : ℚ) < 10 ^ (lead + 1 - r.text.length) := zpow_pos (by norm_num) _
  have hvalue : (Numeral.value r.text : ℚ) < 10 ^ r.text.length := by
    exact_mod_cast Numeral.value_lt_pow_length r.isDigit_of_mem
  calc (Numeral.value r.text : ℚ) * 10 ^ (lead + 1 - r.text.length)
      < 10 ^ r.text.length * 10 ^ (lead + 1 - r.text.length) :=
        mul_lt_mul_of_pos_right hvalue hscale
    _ = 10 ^ (lead + 1) := by
        rw [← zpow_natCast, ← zpow_add₀ (by norm_num)]
        congr 1
        omega

/-- Unless they stand for zero, digits stand for no less than the place of the last one. -/
theorem le_toRat_ofDigits (h : 0 < (ofDigits r.text lead).toRat) :
    10 ^ (lead + 1 - r.text.length) ≤ (ofDigits r.text lead).toRat := by
  have hscale : (0 : ℚ) < 10 ^ (lead + 1 - r.text.length) := zpow_pos (by norm_num) _
  refine le_mul_of_one_le_left hscale.le ?_
  have hpos : (0 : ℚ) < Numeral.value r.text := pos_of_mul_pos_left h hscale.le
  exact_mod_cast hpos

theorem length_exponentText_le (e : ℤ) : (exponentText e).length ≤ 3 + digitCount e.natAbs := by
  have hsign : (if e < 0 then ascii "e-" else ascii "e+").length = 2 := by split <;> rfl
  have hpad : (if e.natAbs < 10 then zeros 1 else []).length ≤ 1 := by split <;> decide
  rw [exponentText, List.length_append, List.length_append, hsign, length_ofNat]
  omega

theorem length_scientific_le (digits : Text) :
    (scientific digits lead).length ≤ digits.length + 1 + (exponentText lead).length := by
  have hpoint : (if digits.drop 1 = [] then [] else ascii "." ++ digits.drop 1).length
      ≤ 1 + (digits.drop 1).length := by
    split
    · exact Nat.zero_le _
    · rw [List.length_append]
      exact le_rfl
  have hcut : (digits.take 1).length + (digits.drop 1).length = digits.length := by
    rw [← List.length_append, List.take_append_drop]
  rw [scientific, List.length_append, List.length_append]
  omega

/-- With an exponent, the digits stand as they are, for what they are to stand for. -/
theorem exists_written_scientific :
    ∃ w : Written, w.text = scientific r.text lead ∧ w.whole.text ++ w.fractionText = r.text
      ∧ w.exponent = some lead ∧ w.decimal = ofDigits r.text lead := by
  have hlength : ((r.text.drop 1).length : ℤ) = r.text.length - 1 := by
    have hpos := List.length_pos_iff.2 r.ne_nil
    rw [List.length_drop]
    omega
  rcases Nat.lt_or_ge 1 r.text.length with hlt | hge
  · have hne : r.text.drop 1 ≠ [] := (r.back 1 hlt).ne_nil
    refine ⟨⟨r.front 0, some (r.back 1 hlt), some lead⟩, ?_, List.take_append_drop 1 r.text, rfl,
      ?_⟩
    · show r.text.take 1 ++ ((ascii "." ++ r.text.drop 1) ++ exponentText lead) = _
      rw [scientific, if_neg hne]
      simp only [List.append_assoc]
    · show Decimal.mk (Numeral.value (r.text.take 1 ++ r.text.drop 1))
        (lead - (r.text.drop 1).length) = _
      rw [List.take_append_drop, hlength, ofDigits]
      congr 1
      omega
  · have hnil : r.text.drop 1 = [] := List.drop_eq_nil_of_le hge
    have htake : r.text.take 1 = r.text := List.take_of_length_le hge
    refine ⟨⟨r, none, some lead⟩, ?_, List.append_nil r.text, rfl, ?_⟩
    · show r.text ++ ([] ++ exponentText lead) = _
      rw [scientific, if_pos hnil, htake, List.append_nil, List.nil_append]
    · show Decimal.mk (Numeral.value (r.text ++ [])) (lead - ([] : Text).length) = _
      rw [hnil] at hlength
      rw [List.append_nil, ofDigits]
      congr 1
      rw [List.length_nil] at hlength ⊢
      omega

/-- Positionally, the digits stand for the same number, be it with zeros in front of them, with
    zeros behind them, or with the point between them. -/
theorem exists_written_positional :
    ∃ w : Written, w.text = positional r.text lead
      ∧ w.decimal.toRat = (ofDigits r.text lead).toRat
      ∧ w.fraction ≠ none := by
  have hzero : (Digits.ofNat 0).text = zeros 1 := by
    show Numeral.ofNat 0 = _
    rw [Numeral.ofNat, if_pos (by decide)]
    rfl
  unfold positional
  split
  · next hneg =>
    let zeroes := (-lead - 1).toNat
    refine ⟨⟨Digits.ofNat 0, some (r.behindZeros zeroes), none⟩, ?_, ?_, Option.some_ne_none _⟩
    · show (Digits.ofNat 0).text ++ ((ascii "." ++ (zeros zeroes ++ r.text)) ++ []) = _
      rw [hzero, List.append_nil, ← List.append_assoc, ← List.append_assoc]
      rfl
    · show toRat ⟨Numeral.value ((Digits.ofNat 0).text ++ (zeros zeroes ++ r.text)),
        0 - (zeros zeroes ++ r.text).length⟩ = _
      rw [hzero, Numeral.value_append, Numeral.value_append, Numeral.value_zeros,
        Numeral.value_zeros, zero_mul, zero_mul, zero_add, zero_add, List.length_append, zeros,
        List.length_replicate, ofDigits]
      congr 2
      omega
  · next hnonneg =>
    dsimp only
    split
    · next hle =>
      let zeroes := lead.toNat + 1 - r.text.length
      refine ⟨⟨r.beforeZeros zeroes, some (Digits.ofNat 0), none⟩, ?_, ?_, Option.some_ne_none _⟩
      · show (r.text ++ zeros zeroes) ++ ((ascii "." ++ (Digits.ofNat 0).text) ++ []) = _
        rw [hzero, List.append_nil]
        rfl
      · show toRat ⟨Numeral.value ((r.text ++ zeros zeroes) ++ (Digits.ofNat 0).text),
          0 - (Digits.ofNat 0).text.length⟩ = _
        rw [hzero, List.append_assoc, zeros, zeros, ← List.replicate_add, ← zeros,
          Numeral.value_append, Numeral.value_zeros, add_zero, zeros, List.length_replicate,
          toRat_mul_pow, List.length_replicate, ofDigits]
        congr 2
        omega
    · next hlt =>
      have hcut : lead.toNat + 1 < r.text.length := not_le.1 hlt
      refine ⟨⟨r.front lead.toNat, some (r.back (lead.toNat + 1) hcut), none⟩, ?_, ?_,
        Option.some_ne_none _⟩
      · show r.text.take (lead.toNat + 1)
          ++ ((ascii "." ++ r.text.drop (lead.toNat + 1)) ++ []) = _
        rw [List.append_nil, List.append_assoc]
      · show toRat ⟨Numeral.value (r.text.take (lead.toNat + 1) ++ r.text.drop (lead.toNat + 1)),
          0 - (r.text.drop (lead.toNat + 1)).length⟩ = _
        rw [List.take_append_drop, List.length_drop, ofDigits]
        congr 2
        omega

/-- **Digits stand for the same number in every layout**, and no layout is one of an integer. -/
theorem exists_written_layout :
    ∃ w : Written, w.text = layout r.text lead ∧ w.decimal.toRat = (ofDigits r.text lead).toRat
      ∧ (w.fraction ≠ none ∨ w.exponent ≠ none) := by
  unfold layout
  split
  · obtain ⟨w, htext, hdecimal, hfraction⟩ := exists_written_positional r lead
    exact ⟨w, htext, hdecimal, .inl hfraction⟩
  · obtain ⟨w, htext, -, hexponent, hdecimal⟩ := exists_written_scientific r lead
    exact ⟨w, htext, by rw [hdecimal], .inr (Option.ne_none_iff_exists'.2 ⟨lead, hexponent⟩)⟩

end Decimal

end ChainCalc
