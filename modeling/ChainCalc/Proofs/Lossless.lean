import ChainCalc.Proofs.FewestDigits
import ChainCalc.Proofs.Layouts
import ChainCalc.Proofs.Words

namespace ChainCalc

/-!
# Lossless — a number is read back from its text

The text of a real is laid out from a conversion to digits and an exponent.  Of the conversion,
only this is used: its digits read back to the double, and no fewer digits do.  Then a text is
never too long for the buffer, no digit is trimmed, and reading the text gives the number back,
down to the sign of a zero.

* `Conversion.format_of_scientific` — what is made of a converted text.
* `Conversion.Writes`, `Conversion.IsShortest` — what is used of a conversion.
* `Conversion.Writes.length_le` — a converted text fits into the buffer.
* `Conversion.Writes.format_eq` — the text of a double is its digits, laid out anew.
* `Conversion.isShortest_standard`, `Number.format_standard` — the conversion that numbers are
  written by is one of these.
* `Number.read?`, `Number.read?_format` — reading numbers undoes writing them.
* `Number.format_lossless` — nothing is lost.
-/

/-- What rounds to the magnitude of a double is rounded to that double, if the sign is given. -/
theorem Binary64.round_signed (negative : Bool) {q : ℚ} (hq : 0 ≤ q) {rank : Fin finiteRanks}
    (hrank : Format.binary64.rank q = rank) :
    round negative (signed negative q) = finite negative rank := by
  have hsame : Format.binary64.rank (signed negative q) = rank := by
    cases negative
    · exact hrank
    · exact (Format.binary64.rank_neg q).trans hrank
  have hsign : (if signed negative q = 0 then negative else decide (signed negative q < 0))
      = negative := by
    rcases hq.eq_or_lt with rfl | hpos
    · rw [if_pos (by cases negative <;> simp [signed])]
    · cases negative
      · simp [signed, hpos.ne', hpos.le]
      · simp [signed, hpos.ne', hpos]
  rw [round_of_rank_lt negative (hsame.trans_lt rank.isLt), hsign]
  congr 1
  exact Fin.ext hsame

namespace Conversion

/-! ### What is read off a converted text -/

/-- Behind the letter comes the exponent. -/
theorem leadingInt_exponentText (e : ℤ) :
    ∃ more, Decimal.exponentText e = 101 :: more ∧ Numeral.leadingInt more = e := by
  obtain ⟨r, hvalue, htext⟩ := Decimal.exists_exponentText_eq e
  have hdigits : r.text.takeWhile Byte.isDigit = r.text := by
    have htake := r.takeWhile_append Text.digitAhead_nil
    rwa [List.append_nil] at htake
  rw [htext]
  split
  · next hneg =>
    refine ⟨45 :: r.text, rfl, ?_⟩
    show -(Numeral.value (r.text.takeWhile Byte.isDigit) : ℤ) = e
    rw [hdigits, show Numeral.value r.text = e.natAbs from hvalue]
    omega
  · next hnonneg =>
    refine ⟨43 :: r.text, rfl, ?_⟩
    show (Numeral.value (r.text.takeWhile Byte.isDigit) : ℤ) = e
    rw [hdigits, show Numeral.value r.text = e.natAbs from hvalue]
    omega

/-- In front of the exponent stand the digits and what is between them, but not its letter. -/
theorem exists_front_scientific (negative : Bool) (r : Digits) (lead : ℤ) :
    ∃ front, Decimal.sign negative ++ Decimal.scientific r.text lead
        = front ++ Decimal.exponentText lead
      ∧ front.filter Byte.isDigit = r.text ∧ ∀ b ∈ front, decide (b ≠ 101) = true := by
  obtain ⟨w, htext, hdigits, hexponent, -⟩ := Decimal.exists_written_scientific r lead
  have hsign : (Decimal.sign negative).filter Byte.isDigit = []
      ∧ 101 ∉ Decimal.sign negative := by
    cases negative <;> decide
  refine ⟨Decimal.sign negative ++ (w.whole.text ++ w.pointText), ?_, ?_, ?_⟩
  · rw [← htext, Written.text, Written.exponentText, hexponent]
    simp only [List.append_assoc, Option.map_some, Option.getD_some]
  · rw [List.filter_append, List.filter_append, hsign.1, w.whole.filter_isDigit,
      w.filter_isDigit_pointText, List.nil_append, hdigits]
  · intro b hb
    rw [decide_eq_true_iff]
    rintro rfl
    rcases List.mem_append.1 hb with hb | hb
    · exact hsign.2 hb
    · exact (List.mem_append.1 hb).elim w.whole.letter_notMem w.letter_notMem_pointText

/-- The digits of a converted text, without zeros at their end, are laid out by its exponent. -/
theorem format_of_scientific {convert : Conversion} {negative : Bool}
    {rank : Fin Binary64.finiteRanks} {r : Digits} {lead : ℤ}
    (htext : convert negative rank = Decimal.sign negative ++ Decimal.scientific r.text lead)
    (hlength : (convert negative rank).length ≤ Binary64.bufferSize) :
    Binary64.format convert (.finite negative rank)
      = .ok (Decimal.sign negative ++ Decimal.layout (Decimal.trimZeros r.text) lead) := by
  obtain ⟨mantissa, hscientific, hdigits, hletter⟩ := exists_front_scientific negative r lead
  obtain ⟨more, hmore, hlead⟩ := leadingInt_exponentText lead
  have hconverted : convert negative rank = mantissa ++ 101 :: more := by
    rw [htext, hscientific, hmore]
  have hfront : (convert negative rank).takeWhile (· ≠ 101) = mantissa := by
    rw [hconverted, List.takeWhile_append_of_pos hletter]
    simp
  have hback : (convert negative rank).drop (mantissa.length + 1) = more := by
    rw [hconverted, List.drop_append, List.drop_eq_nil_of_le (Nat.le_succ _),
      Nat.add_sub_cancel_left]
    rfl
  have hfits : ¬ Binary64.bufferSize < (convert negative rank).length := not_lt.2 hlength
  rw [Binary64.format, if_neg hfits]
  simp only [hfront, hback, hdigits, hlead]

/-! ### Shortest conversions -/

/-- A text is a shortest conversion of a double: a sign, digits of which the first one stands for
    `10 ^ lead`, and that exponent.  The digits read back, and no fewer digits do.  For zero, of
    which they say nothing, the exponent has three digits at most. -/
structure Writes (t : Text) (negative : Bool) (rank : Fin Binary64.finiteRanks) (r : Digits)
    (lead : ℤ) : Prop where
  text_eq : t = Decimal.sign negative ++ Decimal.scientific r.text lead
  rank_eq : Format.binary64.rank (Decimal.ofDigits r.text lead).toRat = rank
  fewest : ∀ (other : Digits) (e : ℤ),
    Format.binary64.rank (Decimal.ofDigits other.text e).toRat = rank →
      r.text.length ≤ other.text.length
  lead_of_zero : rank.val = 0 → lead.natAbs < 10 ^ 3

/-- A conversion with the fewest digits that read back. -/
def IsShortest (convert : Conversion) : Prop :=
  ∀ negative rank, ∃ r lead, Writes (convert negative rank) negative rank r lead

namespace Writes

variable {t : Text} {negative : Bool} {rank : Fin Binary64.finiteRanks} {r : Digits} {lead : ℤ}

/-! ### What the digits are -/

/-- No decimal that reads back has fewer digits. -/
theorem length_le_digitCount (h : Writes t negative rank r lead) {d : Decimal}
    (hd : Format.binary64.rank d.toRat = rank) :
    r.text.length ≤ Decimal.digitCount d.coefficient := by
  have hfewest := h.fewest (Digits.ofNat d.coefficient) d.lead
  rw [← Decimal.length_ofNat]
  refine hfewest ?_
  rwa [show (Digits.ofNat d.coefficient).text = Numeral.ofNat d.coefficient from rfl,
    Decimal.ofDigits_ofNat]

/-- There are no zeros to trim at the end of the digits: without them they would be fewer. -/
theorem trimZeros_eq (h : Writes t negative rank r lead) : Decimal.trimZeros r.text = r.text := by
  rw [Decimal.trimZeros, if_neg]
  rintro ⟨hlong, hlast⟩
  obtain ⟨front, hfront⟩ := List.getLast?_eq_some_iff.1 hlast
  have hne : front ≠ [] := by
    rintro rfl
    rw [hfront] at hlong
    exact absurd hlong (by decide)
  let shorter : Digits :=
    ⟨front, hne, fun b hb => r.isDigit_of_mem b (hfront ▸ List.mem_append_left _ hb)⟩
  have hrank := h.rank_eq
  rw [hfront, Decimal.toRat_ofDigits_append_zero] at hrank
  have hle := h.fewest shorter lead hrank
  have hlength := congrArg List.length hfront
  rw [List.length_append, List.length_singleton] at hlength
  have hshorter : shorter.text.length = front.length := rfl
  omega

/-- There are seventeen digits at most. -/
theorem length_digits_le (h : Writes t negative rank r lead) : r.text.length ≤ 17 := by
  obtain ⟨d, hd, hcount⟩ := Binary64.exists_seventeen_digits rank
  exact (h.length_le_digitCount hd).trans hcount

/-! ### How long the text is -/

/-- The exponent of a double is not large, in either direction. -/
theorem natAbs_lead_lt (h : Writes t negative rank r lead) : lead.natAbs < 10 ^ 4 := by
  have hlength := h.length_digits_le
  rcases Nat.eq_zero_or_pos rank.val with hzero | hpos
  · exact (h.lead_of_zero hzero).trans (by decide)
  have hnonneg := (Decimal.ofDigits r.text lead).toRat_nonneg
  have hlarge : (Decimal.ofDigits r.text lead).toRat < 2 ^ 1024 := by
    rw [← abs_of_nonneg hnonneg]
    exact Binary64.abs_lt_of_rank_lt (h.rank_eq.trans_lt rank.isLt)
  have hsmall : (2 ^ 1075)⁻¹ < (Decimal.ofDigits r.text lead).toRat := by
    rw [← abs_of_nonneg hnonneg]
    exact Binary64.lt_abs_of_rank_pos (hpos.trans_eq h.rank_eq.symm)
  have hpositive := (by positivity : (0 : ℚ) < (2 ^ 1075)⁻¹).trans hsmall
  have hdigits := Decimal.toRat_ofDigits_lt r lead
  have hone := Decimal.le_toRat_ofDigits r lead hpositive
  have hhigh : lead + 1 - r.text.length < 1024 := by
    refine (zpow_lt_zpow_iff_right₀ (by norm_num : (1 : ℚ) < 10)).1 ?_
    calc (10 : ℚ) ^ (lead + 1 - r.text.length)
        ≤ (Decimal.ofDigits r.text lead).toRat := hone
      _ < 2 ^ 1024 := hlarge
      _ ≤ 10 ^ 1024 := pow_le_pow_left₀ (by norm_num) (by norm_num) 1024
      _ = 10 ^ (1024 : ℤ) := (zpow_natCast 10 1024).symm
  have hlow : -1075 < lead + 1 := by
    refine (zpow_lt_zpow_iff_right₀ (by norm_num : (1 : ℚ) < 10)).1 ?_
    calc (10 : ℚ) ^ (-1075 : ℤ)
        = (10 ^ 1075)⁻¹ := by rw [zpow_neg]; rfl
      _ ≤ (2 ^ 1075)⁻¹ :=
          inv_anti₀ (by positivity) (pow_le_pow_left₀ (by norm_num) (by norm_num) 1075)
      _ < (Decimal.ofDigits r.text lead).toRat := hsmall
      _ < 10 ^ (lead + 1) := hdigits
  omega

/-- **A converted text fits into the buffer.** -/
theorem length_le (h : Writes t negative rank r lead) : t.length ≤ Binary64.bufferSize := by
  have hdigits := h.length_digits_le
  have hexponent := Decimal.length_exponentText_le lead
  have hlead := (Decimal.digitCount_le_iff (by decide)).2 h.natAbs_lead_lt
  have hscientific := Decimal.length_scientific_le lead r.text
  have hsign : (Decimal.sign negative).length ≤ 1 := by cases negative <;> decide
  rw [h.text_eq, List.length_append, Binary64.bufferSize]
  omega

/-- **The text of a double is its digits, laid out anew.** -/
theorem format_eq {convert : Conversion} (h : Writes (convert negative rank) negative rank r lead) :
    Binary64.format convert (.finite negative rank)
      = .ok (Decimal.sign negative ++ Decimal.layout r.text lead) := by
  rw [format_of_scientific h.text_eq h.length_le, h.trimZeros_eq]

end Writes

/-! ### The conversion that numbers are written by -/

theorem writes_standard (negative : Bool) (rank : Fin Binary64.finiteRanks) :
    Writes (standard negative rank) negative rank
      (Digits.ofNat (Format.binary64.shortest rank).coefficient)
      (Format.binary64.shortest rank).lead where
  text_eq := rfl
  rank_eq := by
    show Format.binary64.rank (Decimal.ofDigits (Numeral.ofNat _) _).toRat = _
    rw [Decimal.ofDigits_ofNat, Format.rank_shortest Binary64.two_dvd_block]
  fewest := by
    intro other e he
    show (Numeral.ofNat _).length ≤ _
    rw [Decimal.length_ofNat]
    refine (Format.digitCount_shortest_le Binary64.two_dvd_block he).trans ?_
    exact (Decimal.digitCount_le_iff (List.length_pos_iff.2 other.ne_nil)).2
      (Numeral.value_lt_pow_length other.isDigit_of_mem)
  lead_of_zero := by
    intro hzero
    rw [hzero, Format.shortest_zero, Decimal.lead, Decimal.digitCount, if_pos (by decide)]
    decide

theorem isShortest_standard : IsShortest standard := fun negative rank =>
  ⟨_, _, writes_standard negative rank⟩

end Conversion

namespace Number

/-- Numbers are written by the standard conversion. -/
theorem format_standard (n : Number) : n.format .standard = .ok n.text := by
  cases n with
  | integer value => rfl
  | real x =>
    cases x with
    | finite negative rank => exact (Conversion.writes_standard negative rank).format_eq
    | infinite negative => rfl
    | nan => rfl

/-! ### Reading numbers -/

/-- Read a text as a number: as an integer, as a decimal that is rounded to the nearest double,
    or as a word. -/
def read? (t : Text) : Option Number :=
  match Numeral.readInt? t, Decimal.read? t with
  | some n, _ => some (integer (Int64.ofInt n))
  | none, some (negative, d) =>
    some (real (Binary64.round negative (Binary64.signed negative d.toRat)))
  | none, none =>
    if t = ascii "inf" then some (real (.infinite false))
    else if t = ascii "-inf" then some (real (.infinite true))
    else if t = ascii "nan" then some (real .nan)
    else none

variable {convert : Conversion}

/-- What is read from the text of a double, and what from its conversion. -/
theorem exists_read?_finite (h : convert.IsShortest) (negative : Bool)
    (rank : Fin Binary64.finiteRanks) :
    ∃ (t : Text) (c d : Decimal), (real (.finite negative rank)).format convert = .ok t
      ∧ Numeral.readInt? t = none
      ∧ Decimal.read? (convert negative rank) = some (negative, c)
      ∧ Decimal.read? t = some (negative, d) ∧ d.toRat = c.toRat
      ∧ Format.binary64.rank c.toRat = rank
      ∧ ∀ e : Decimal, Format.binary64.rank e.toRat = rank →
          Decimal.digitCount c.coefficient ≤ Decimal.digitCount e.coefficient := by
  obtain ⟨r, lead, hwrites⟩ := h negative rank
  obtain ⟨v, hvtext, -, -, hvdecimal⟩ := Decimal.exists_written_scientific r lead
  obtain ⟨w, hwtext, hwdecimal, hwparts⟩ := Decimal.exists_written_layout r lead
  have hconversion := v.read?_text negative
  have htext := w.read?_text negative
  have hinteger := w.readInt?_text negative hwparts
  rw [hvtext, ← hwrites.text_eq, hvdecimal] at hconversion
  rw [hwtext] at htext hinteger
  refine ⟨_, _, _, hwrites.format_eq, hinteger, hconversion, htext, hwdecimal, hwrites.rank_eq,
    fun e he => ?_⟩
  refine ((Decimal.digitCount_le_iff (List.length_pos_iff.2 r.ne_nil)).2 ?_).trans
    (hwrites.length_le_digitCount he)
  exact Numeral.value_lt_pow_length r.isDigit_of_mem

/-- Every number has a text. -/
theorem exists_format_eq (h : convert.IsShortest) (n : Number) :
    ∃ t, n.format convert = .ok t := by
  cases n with
  | integer a => exact ⟨_, rfl⟩
  | real x =>
    cases x with
    | finite negative rank =>
      obtain ⟨t, -, -, ht, -⟩ := exists_read?_finite h negative rank
      exact ⟨t, ht⟩
    | infinite negative => exact ⟨_, rfl⟩
    | nan => exact ⟨_, rfl⟩

/-- **Reading numbers undoes writing them.** -/
theorem read?_format (h : convert.IsShortest) {n : Number} {t : Text}
    (ht : n.format convert = .ok t) : read? t = some n := by
  cases n with
  | integer a =>
    obtain rfl := Except.ok.inj ht
    rw [read?, Numeral.readInt?_ofInt]
    dsimp only
    rw [Int64.ofInt_toInt]
  | real x =>
    cases x with
    | finite negative rank =>
      obtain ⟨u, c, d, hu, hinteger, -, hread, hvalue, hrank, -⟩ :=
        exists_read?_finite h negative rank
      obtain rfl := Except.ok.inj (ht.symm.trans hu)
      rw [read?, hinteger, hread]
      dsimp only
      rw [hvalue, Binary64.round_signed negative c.toRat_nonneg hrank]
    | infinite negative =>
      obtain rfl := Except.ok.inj ht
      cases negative <;> rfl
    | nan =>
      obtain rfl := Except.ok.inj ht
      rfl

/-- **Nothing is lost in the text of a number.**  Of the conversion of doubles, all that is used
    is that it has the fewest digits that read back.  Then every number has a text.  The text of
    an integer is read as that integer.  The text of a finite real is read as a decimal that has
    the value of the converted digits, of which there are no more than of any decimal that reads
    back; rounded to the nearest double, it gives the same double, with the sign of a zero.
    Different numbers have different texts.  By the standard conversion, the texts are those of
    `Number.text`. -/
theorem format_lossless (h : convert.IsShortest) (n : Number) :
    ∃ t, n.format convert = .ok t
      ∧ (∀ a, n = integer a → Numeral.readInt? t = some a.toInt)
      ∧ (∀ negative rank, n = real (.finite negative rank) →
          ∃ c d : Decimal, Decimal.read? (convert negative rank) = some (negative, c)
            ∧ Decimal.read? t = some (negative, d) ∧ d.toRat = c.toRat
            ∧ Binary64.round negative (Binary64.signed negative d.toRat) = .finite negative rank
            ∧ ∀ e : Decimal, Format.binary64.rank e.toRat = rank →
                Decimal.digitCount c.coefficient ≤ Decimal.digitCount e.coefficient)
      ∧ (∀ m : Number, m.format convert = .ok t → m = n)
      ∧ (convert = .standard → t = n.text) := by
  obtain ⟨t, ht⟩ := exists_format_eq h n
  refine ⟨t, ht, ?_, ?_, ?_, ?_⟩
  · rintro a rfl
    obtain rfl := Except.ok.inj ht
    exact Numeral.readInt?_ofInt a.toInt
  · rintro negative rank rfl
    obtain ⟨u, c, d, hu, -, hconverted, hread, hvalue, hrank, hfewest⟩ :=
      exists_read?_finite h negative rank
    obtain rfl := Except.ok.inj (ht.symm.trans hu)
    refine ⟨c, d, hconverted, hread, hvalue, ?_, hfewest⟩
    rw [hvalue]
    exact Binary64.round_signed negative c.toRat_nonneg hrank
  · intro m hm
    exact Option.some.inj ((read?_format h hm).symm.trans (read?_format h ht))
  · rintro rfl
    exact Except.ok.inj (ht.symm.trans (format_standard n))

/-- The negative zero keeps its sign, and is not written like the integer zero. -/
theorem format_lossless_negative_zero :
    Conversion.standard.IsShortest ∧ ∃ t d,
      (real (.finite true ⟨0, by decide⟩)).format .standard = .ok t
        ∧ t = ascii "-0.0" ∧ Decimal.read? t = some (true, d)
        ∧ Binary64.round true (Binary64.signed true d.toRat) = .finite true ⟨0, by decide⟩
        ∧ (integer 0).format .standard ≠ .ok t := by
  have hshortest := Conversion.isShortest_standard
  obtain ⟨t, ht, -, hreal, hdistinct, htext⟩ :=
    format_lossless hshortest (real (.finite true ⟨0, by decide⟩))
  obtain ⟨c, d, -, hread, -, hround, -⟩ := hreal true ⟨0, by decide⟩ rfl
  have hzero : (real (.finite true ⟨0, by decide⟩)).text = ascii "-0.0" := by
    have hdigit : Numeral.ofNat 0 = ascii "0" := by
      rw [Numeral.ofNat, if_pos (by decide)]
      rfl
    have hlead : Decimal.lead ⟨0, 0⟩ = 0 := by
      rw [Decimal.lead, Decimal.digitCount, if_pos (by decide)]
      rfl
    show ascii "-" ++ (Format.binary64.shortest 0).text = _
    rw [Format.shortest_zero, Decimal.text, hlead]
    dsimp only
    rw [hdigit]
    rfl
  refine ⟨hshortest, t, d, ht, (htext rfl).trans hzero, hread, hround, fun hinteger => ?_⟩
  cases hdistinct (integer 0) hinteger

end Number

end ChainCalc
