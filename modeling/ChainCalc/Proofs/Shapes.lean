import ChainCalc.Proofs.Lossless
import Mathlib.Computability.RegularExpressions

namespace ChainCalc

/-!
# Shapes — a real is written in one of two shapes, without superfluous zeros

A finite real is written with a point, or with an exponent; which of the two it is depends on the
number alone.  The two shapes are given as regular expressions.  Of the conversion to digits and
an exponent, only its form is used: the first digit is not zero unless the double is.

* `Pattern.fixed`, `Pattern.scientific` — the two shapes.
* `Digits.Tight` — digits without a zero at either end; `Digits.Tight.mem_positional` and
  `Digits.Tight.mem_scientific` say which shape their layouts have.
* `Conversion.Displays`, `Conversion.IsScientific` — what is used of a conversion.
* `Number.format_shape` — the shape of every finite real.
-/

/-! ### Patterns -/

/-- A pattern that texts can match. -/
abbrev Pattern := RegularExpression Byte

namespace Pattern

open RegularExpression (matches'_add matches'_mul matches'_star)

/-- One byte out of some. -/
def oneOf (bytes : Text) : Pattern := (bytes.map RegularExpression.char).sum

/-- A pattern, or nothing. -/
def optional (p : Pattern) : Pattern := 1 + p

/-- A digit. -/
def digit : Pattern := oneOf (ascii "0123456789")

/-- A digit other than zero. -/
def nonzero : Pattern := oneOf (ascii "123456789")

/-- A sign, if there is one: `-?`. -/
def sign : Pattern := optional (oneOf (ascii "-"))

/-- The digits in front of a point: `0|[1-9][0-9]*`. -/
def whole : Pattern := oneOf (ascii "0") + nonzero * digit.star

/-- The digits behind a point: `0|[0-9]*[1-9]`. -/
def fraction : Pattern := oneOf (ascii "0") + digit.star * nonzero

/-- The shape with a point and without an exponent. -/
def fixed : Pattern := sign * (whole * (oneOf (ascii ".") * fraction))

/-- The digits in front of an exponent: `[1-9](\.[0-9]*[1-9])?`. -/
def mantissa : Pattern := nonzero * optional (oneOf (ascii ".") * (digit.star * nonzero))

/-- The digits of an exponent: two, or more of which the first is not zero. -/
def power : Pattern := digit * digit + nonzero * (digit * (digit * digit.star))

/-- An exponent: `e[+-]` and its digits. -/
def exponent : Pattern := oneOf (ascii "e") * (oneOf (ascii "+-") * power)

/-- The shape with an exponent. -/
def scientific : Pattern := sign * (mantissa * exponent)

variable {p q : Pattern} {t u : Text}

theorem append_mem (ht : t ∈ p.matches') (hu : u ∈ q.matches') : t ++ u ∈ (p * q).matches' :=
  ⟨t, ht, u, hu, rfl⟩

theorem mem_add_left (h : t ∈ p.matches') : t ∈ (p + q).matches' := .inl h

theorem mem_add_right (h : t ∈ q.matches') : t ∈ (p + q).matches' := .inr h

theorem nil_mem_optional : [] ∈ (optional p).matches' := mem_add_left rfl

theorem mem_optional (h : t ∈ p.matches') : t ∈ (optional p).matches' := mem_add_right h

theorem mem_oneOf {bytes : Text} : t ∈ (oneOf bytes).matches' ↔ ∃ b ∈ bytes, t = [b] := by
  induction bytes with
  | nil => exact iff_of_false (fun h => h) (by simp)
  | cons b bytes ih =>
    show t = [b] ∨ t ∈ (oneOf bytes).matches' ↔ _
    rw [ih]
    simp

/-- The bytes that a pattern is made of. -/
def bytes : Pattern → List Byte
  | .zero | .epsilon => []
  | .char b => [b]
  | .plus p q | .comp p q => bytes p ++ bytes q
  | .star p => bytes p

/-- What matches a pattern holds only bytes that the pattern is made of. -/
theorem mem_bytes (h : t ∈ p.matches') : ∀ b ∈ t, b ∈ bytes p := by
  induction p generalizing t with
  | zero => exact absurd h (fun h => h)
  | epsilon =>
    obtain rfl : t = [] := h
    nofun
  | char a =>
    obtain rfl : t = [a] := h
    exact fun b hb => hb
  | plus p q ihp ihq =>
    intro b hb
    rcases h with h | h
    · exact List.mem_append_left _ (ihp h b hb)
    · exact List.mem_append_right _ (ihq h b hb)
  | comp p q ihp ihq =>
    obtain ⟨u, hu, v, hv, rfl⟩ := h
    intro b hb
    rcases List.mem_append.1 hb with hb | hb
    · exact List.mem_append_left _ (ihp hu b hb)
    · exact List.mem_append_right _ (ihq hv b hb)
  | star p ih =>
    obtain ⟨parts, rfl, hparts⟩ := h
    intro b hb
    obtain ⟨part, hpart, hbpart⟩ := List.mem_flatten.1 hb
    exact ih (hparts part hpart) b hbpart

/-- The two shapes are told apart by the letter of the exponent. -/
theorem notMem_fixed_of_mem_scientific (h : t ∈ scientific.matches') : t ∉ fixed.matches' := by
  obtain ⟨s, -, u, hu, rfl⟩ := h
  obtain ⟨m, -, e, he, rfl⟩ := hu
  obtain ⟨l, hl, d, -, rfl⟩ := he
  obtain ⟨b, hb, rfl⟩ := mem_oneOf.1 hl
  obtain rfl : b = 101 := List.mem_singleton.1 hb
  intro hfixed
  have hletter := mem_bytes hfixed 101 (by simp)
  exact absurd hletter (by decide)

/-! ### Digits -/

theorem mem_digit {b : Byte} (h : b.isDigit = true) : [b] ∈ digit.matches' := by
  have hall : ∀ k : Fin 10, Numeral.digit k ∈ ascii "0123456789" := by decide
  have hb := hall ⟨_, Numeral.digitValue_lt h⟩
  rw [Numeral.digit_digitValue h] at hb
  exact mem_oneOf.2 ⟨b, hb, rfl⟩

theorem mem_nonzero {b : Byte} (h : b.isDigit = true) (hne : b ≠ 48) :
    [b] ∈ nonzero.matches' := by
  obtain ⟨d, hd, hb⟩ := mem_oneOf.1 (mem_digit h)
  obtain rfl := List.singleton_inj.1 hb
  have hsplit : b = 48 ∨ b ∈ ascii "123456789" := List.mem_cons.1 hd
  exact mem_oneOf.2 ⟨b, hsplit.resolve_left hne, rfl⟩

theorem mem_digits (h : ∀ b ∈ t, b.isDigit = true) : t ∈ digit.star.matches' := by
  rw [matches'_star, Language.mem_kstar]
  refine ⟨t.map fun b => [b], (List.flatMap_singleton' t).symm, fun part hpart => ?_⟩
  obtain ⟨b, hb, rfl⟩ := List.mem_map.1 hpart
  exact mem_digit (h b hb)

/-- Digits of which the first is not zero. -/
theorem mem_nonzero_digits {r : Digits} (h : r.first ≠ 48) :
    r.text ∈ (nonzero * digit.star).matches' := by
  obtain ⟨more, hmore⟩ := r.exists_text_eq_cons
  have hdigits : ∀ b ∈ more, b.isDigit = true := fun b hb =>
    r.isDigit_of_mem b (hmore ▸ List.mem_cons_of_mem _ hb)
  rw [hmore, ← List.singleton_append]
  exact append_mem (mem_nonzero r.isDigit_first h) (mem_digits hdigits)

/-- Digits of which the last is not zero. -/
theorem mem_digits_nonzero {r : Digits} (h : r.text.getLast? ≠ some 48) :
    r.text ∈ (digit.star * nonzero).matches' := by
  rw [← List.dropLast_append_getLast r.ne_nil]
  refine append_mem (mem_digits fun b hb => r.isDigit_of_mem b (List.dropLast_subset _ hb))
    (mem_nonzero (r.isDigit_of_mem _ (List.getLast_mem r.ne_nil)) fun hlast => h ?_)
  rw [List.getLast?_eq_some_getLast r.ne_nil, hlast]

end Pattern

/-! ### Layouts of digits -/

/-- Digits without a zero at either end. -/
structure Digits.Tight (r : Digits) : Prop where
  first_ne : r.first ≠ 48
  last_ne : r.text.getLast? ≠ some 48

namespace Digits

open Pattern

variable {r : Digits}

/-- The first digit is read off a text that continues it. -/
theorem first_eq_of_text_eq {b : Byte} {more : Text} (h : r.text = b :: more) : r.first = b := by
  obtain ⟨others, hothers⟩ := r.exists_text_eq_cons
  exact (List.cons.inj (hothers.symm.trans h)).1

/-- Digits in front of others begin with the same digit as all together. -/
theorem first_eq_of_front {r' : Digits} (h : r.text <+: r'.text) : r'.first = r.first := by
  obtain ⟨behind, hbehind⟩ := h
  obtain ⟨more, hmore⟩ := r.exists_text_eq_cons
  rw [hmore, List.cons_append] at hbehind
  exact first_eq_of_text_eq hbehind.symm

/-- Positionally laid out, digits that are tight match the shape with a point. -/
theorem Tight.mem_positional (h : r.Tight) (lead : ℤ) :
    Decimal.positional r.text lead
      ∈ (whole * (oneOf (ascii ".") * fraction)).matches' := by
  have hpoint : ascii "." ∈ (oneOf (ascii ".")).matches' := mem_oneOf.2 ⟨46, by decide, rfl⟩
  unfold Decimal.positional
  split
  · -- Zeros in front of the digits, and one zero in front of the point.
    let r' := r.behindZeros (-lead - 1).toNat
    have hlast : r'.text.getLast? ≠ some 48 := by
      show (Decimal.zeros _ ++ r.text).getLast? ≠ _
      rw [List.getLast?_append, List.getLast?_eq_some_getLast r.ne_nil, Option.some_or,
        ← List.getLast?_eq_some_getLast r.ne_nil]
      exact h.last_ne
    have hzero : ascii "0" ∈ whole.matches' := mem_add_left (mem_oneOf.2 ⟨48, by decide, rfl⟩)
    have hsplit : ascii "0." = ascii "0" ++ ascii "." := by decide
    rw [hsplit, List.append_assoc, List.append_assoc]
    exact append_mem hzero (append_mem hpoint (mem_add_right (mem_digits_nonzero hlast)))
  · dsimp only
    split
    · -- Zeros behind the digits, and one zero behind the point.
      let r' := r.beforeZeros (lead.toNat + 1 - r.text.length)
      have hfirst : r'.first ≠ 48 := by
        rw [first_eq_of_front (r := r) (List.prefix_append _ _)]
        exact h.first_ne
      have hzero : ascii "0" ∈ fraction.matches' :=
        mem_add_left (mem_oneOf.2 ⟨48, by decide, rfl⟩)
      exact append_mem (mem_add_right (mem_nonzero_digits hfirst)) (append_mem hpoint hzero)
    · next hlt =>
      -- The point among the digits.
      have hcut : lead.toNat + 1 < r.text.length := not_le.1 hlt
      let front := r.front lead.toNat
      let back := r.back (lead.toNat + 1) hcut
      have hfirst : front.first ≠ 48 := by
        rw [← first_eq_of_front (r := front) (List.take_prefix _ r.text)]
        exact h.first_ne
      have hlast : back.text.getLast? ≠ some 48 := by
        show (r.text.drop (lead.toNat + 1)).getLast? ≠ _
        rw [List.getLast?_drop, if_neg (not_le.2 hcut)]
        exact h.last_ne
      rw [List.append_assoc]
      exact append_mem (mem_add_right (mem_nonzero_digits hfirst))
        (append_mem hpoint (mem_add_right (mem_digits_nonzero hlast)))

end Digits

/-- A numeral other than zero does not begin with a zero. -/
theorem Digits.first_ofNat_ne {n : ℕ} (hn : n ≠ 0) : (Digits.ofNat n).first ≠ 48 := by
  -- The last digit comes off, so the first one is that of the tenth part.
  induction n using Nat.strongRecOn with
  | _ n ih =>
    have htext : (Digits.ofNat n).text = Numeral.ofNat n := rfl
    rw [Numeral.ofNat] at htext
    split at htext
    · next hlt =>
      rw [first_eq_of_text_eq htext]
      intro hzero
      have hvalue := Numeral.digitValue_digit hlt
      rw [hzero] at hvalue
      exact hn hvalue.symm
    · next hge =>
      have hfront : (Digits.ofNat (n / 10)).text <+: (Digits.ofNat n).text := ⟨_, htext.symm⟩
      rw [first_eq_of_front hfront]
      exact ih (n / 10) (by omega) (by omega)

namespace Pattern

/-- The digits of an exponent are two, or more without a zero in front. -/
theorem mem_power (n : ℕ) :
    (if n < 10 then Decimal.zeros 1 else []) ++ Numeral.ofNat n ∈ power.matches' := by
  split
  · next hlt =>
    rw [Numeral.ofNat, if_pos hlt]
    exact mem_add_left (append_mem (mem_digit (by decide)) (mem_digit (Numeral.isDigit_digit hlt)))
  · next hge =>
    let r := Digits.ofNat n
    obtain ⟨more, hmore⟩ := r.exists_text_eq_cons
    have hfirst : r.first ≠ 48 := Digits.first_ofNat_ne (by omega)
    have hdigit : ∀ b ∈ more, b.isDigit = true := fun b hb =>
      r.isDigit_of_mem b (hmore ▸ List.mem_cons_of_mem _ hb)
    show r.text ∈ power.matches'
    rw [hmore]
    rcases more with _ | ⟨b, _ | ⟨c, others⟩⟩
    · -- A number with one digit is below ten.
      have hlength := Numeral.value_lt_pow_length r.isDigit_of_mem
      have hvalue : Numeral.value r.text = n := Numeral.value_ofNat n
      rw [hvalue, hmore, List.length_singleton] at hlength
      omega
    · exact mem_add_left (append_mem (mem_digit r.isDigit_first) (mem_digit (hdigit b (by simp))))
    · refine mem_add_right (append_mem (t := [r.first]) (mem_nonzero r.isDigit_first hfirst)
        (append_mem (t := [b]) (mem_digit (hdigit b (by simp)))
          (append_mem (t := [c]) (mem_digit (hdigit c (by simp))) (mem_digits ?_))))
      exact fun d hd => hdigit d (by simp [hd])

theorem mem_exponent (e : ℤ) : Decimal.exponentText e ∈ exponent.matches' := by
  have hletter : ascii "e" ∈ (oneOf (ascii "e")).matches' := mem_oneOf.2 ⟨101, by decide, rfl⟩
  rw [Decimal.exponentText, List.append_assoc]
  split
  · have hminus : ascii "-" ∈ (oneOf (ascii "+-")).matches' := mem_oneOf.2 ⟨45, by decide, rfl⟩
    exact append_mem (t := ascii "e") hletter (append_mem hminus (mem_power _))
  · have hplus : ascii "+" ∈ (oneOf (ascii "+-")).matches' := mem_oneOf.2 ⟨43, by decide, rfl⟩
    exact append_mem (t := ascii "e") hletter (append_mem hplus (mem_power _))

theorem mem_sign (negative : Bool) : Decimal.sign negative ∈ sign.matches' := by
  cases negative with
  | true => exact mem_optional (mem_oneOf.2 ⟨45, by decide, rfl⟩)
  | false => exact nil_mem_optional

end Pattern

/-- With an exponent, digits that are tight match the other shape. -/
theorem Digits.Tight.mem_scientific {r : Digits} (h : r.Tight) (lead : ℤ) :
    Decimal.scientific r.text lead ∈ (Pattern.mantissa * Pattern.exponent).matches' := by
  obtain ⟨more, hmore⟩ := r.exists_text_eq_cons
  have hfirst := Pattern.mem_nonzero r.isDigit_first h.first_ne
  have hothers : (if more = [] then [] else ascii "." ++ more)
      ∈ (Pattern.optional
        (Pattern.oneOf (ascii ".") * (Pattern.digit.star * Pattern.nonzero))).matches' := by
    split
    · exact Pattern.nil_mem_optional
    · next hne =>
      let others : Digits := ⟨more, hne, fun b hb =>
        r.isDigit_of_mem b (hmore ▸ List.mem_cons_of_mem _ hb)⟩
      have hlast : others.text.getLast? ≠ some 48 := by
        have hlast := h.last_ne
        rwa [hmore, List.getLast?_cons_of_ne_nil hne] at hlast
      exact Pattern.mem_optional (Pattern.append_mem (Pattern.mem_oneOf.2 ⟨46, by decide, rfl⟩)
        (Pattern.mem_digits_nonzero hlast))
  rw [Decimal.scientific, hmore]
  exact Pattern.append_mem (Pattern.append_mem (t := [r.first]) hfirst hothers)
    (Pattern.mem_exponent lead)

/-! ### Trimmed digits -/

/-- Digits that stand for zero are zeros. -/
theorem Numeral.eq_zero_of_value_eq_zero {t : Text} (hdigits : ∀ b ∈ t, b.isDigit = true)
    (h : value t = 0) {b : Byte} (hb : b ∈ t) : b = 48 := by
  induction t using List.reverseRecOn with
  | nil => cases hb
  | append_singleton t a ih =>
    rw [value_append_singleton] at h
    rcases List.mem_append.1 hb with hb | hb
    · exact ih (fun c hc => hdigits c (List.mem_append_left _ hc)) (by omega) hb
    · obtain rfl := List.mem_singleton.1 hb
      have hdigit := digit_digitValue (hdigits b (by simp))
      rw [show digitValue b = 0 by omega] at hdigit
      exact hdigit.symm

namespace Decimal

/-- Trimming takes zeros away, and all of them but the first digit. -/
theorem trimZeros_spec {t : Text} (h : t ≠ []) :
    trimZeros t ≠ [] ∧ (∃ k, t = trimZeros t ++ zeros k)
      ∧ (1 < (trimZeros t).length → (trimZeros t).getLast? ≠ some 48) := by
  fun_induction trimZeros t with
  | case1 t hzero ih =>
    obtain ⟨hlong, hlast⟩ := hzero
    have hne : t.dropLast ≠ [] := by
      rw [← List.length_pos_iff, List.length_dropLast]
      omega
    obtain ⟨hne', ⟨k, hk⟩, htight⟩ := ih hne
    refine ⟨hne', ⟨k + 1, ?_⟩, htight⟩
    obtain ⟨front, rfl⟩ := List.getLast?_eq_some_iff.1 hlast
    rw [List.dropLast_concat] at hk
    rw [List.dropLast_concat, zeros, List.replicate_succ', ← List.append_assoc, ← zeros, ← hk]
  | case2 t hzero =>
    exact ⟨h, ⟨0, (List.append_nil t).symm⟩, fun hlong hlast => hzero ⟨hlong, hlast⟩⟩

/-- More zeros at the end do not change what digits stand for. -/
theorem toRat_ofDigits_append_zeros (digits : Text) (lead : ℤ) (k : ℕ) :
    (ofDigits (digits ++ zeros k) lead).toRat = (ofDigits digits lead).toRat := by
  induction k with
  | zero => rw [zeros, List.replicate_zero, List.append_nil]
  | succ k ih =>
    rw [zeros, List.replicate_succ', ← List.append_assoc, toRat_ofDigits_append_zero, ← zeros, ih]

end Decimal

/-- Digits without the zeros at their end, but for the first digit. -/
def Digits.trimmed (r : Digits) : Digits where
  text := Decimal.trimZeros r.text
  ne_nil := (Decimal.trimZeros_spec r.ne_nil).1
  isDigit_of_mem := by
    obtain ⟨-, ⟨k, hk⟩, -⟩ := Decimal.trimZeros_spec r.ne_nil
    exact fun b hb => r.isDigit_of_mem b (hk ▸ List.mem_append_left _ hb)

namespace Digits

variable {r : Digits}

/-- Trimming keeps the number. -/
theorem toRat_trimmed (r : Digits) (lead : ℤ) :
    (Decimal.ofDigits r.trimmed.text lead).toRat = (Decimal.ofDigits r.text lead).toRat := by
  obtain ⟨-, ⟨k, hk⟩, -⟩ := Decimal.trimZeros_spec r.ne_nil
  show (Decimal.ofDigits (Decimal.trimZeros r.text) lead).toRat = _
  conv_rhs => rw [hk, Decimal.toRat_ofDigits_append_zeros]

/-- Digits that do not begin with a zero are tight when they are trimmed. -/
theorem tight_trimmed (h : r.first ≠ 48) : r.trimmed.Tight := by
  obtain ⟨-, ⟨k, hk⟩, htight⟩ := Decimal.trimZeros_spec r.ne_nil
  obtain ⟨more, hmore⟩ := r.trimmed.exists_text_eq_cons
  have hfirst : r.trimmed.first = r.first := (first_eq_of_front ⟨_, hk.symm⟩).symm
  refine ⟨hfirst ▸ h, fun hlast => ?_⟩
  rcases Nat.lt_or_ge 1 r.trimmed.text.length with hlong | hshort
  · exact htight hlong hlast
  · -- The only digit is the first one.
    rw [hmore, List.length_cons] at hshort
    obtain rfl : more = [] := List.length_eq_zero_iff.1 (by omega)
    rw [hmore, hfirst] at hlast
    exact h (Option.some.inj hlast)

/-- Zeros are trimmed to one. -/
theorem text_trimmed_of_value_eq_zero (h : r.value = 0) : r.trimmed.text = ascii "0" := by
  obtain ⟨-, ⟨k, hk⟩, htight⟩ := Decimal.trimZeros_spec r.ne_nil
  have hzeros : ∀ b ∈ r.trimmed.text, b = 48 := fun b hb =>
    Numeral.eq_zero_of_value_eq_zero r.isDigit_of_mem h (hk ▸ List.mem_append_left _ hb)
  obtain ⟨more, hmore⟩ := r.trimmed.exists_text_eq_cons
  have hnil : more = [] := by
    by_contra hne
    have hlong : 1 < r.trimmed.text.length := by
      rw [hmore, List.length_cons]
      exact Nat.succ_lt_succ (List.length_pos_iff.2 hne)
    refine htight hlong ?_
    show r.trimmed.text.getLast? = _
    rw [List.getLast?_eq_some_getLast r.trimmed.ne_nil]
    exact congrArg some (hzeros _ (List.getLast_mem r.trimmed.ne_nil))
  rw [hmore, hnil, hzeros r.trimmed.first (hmore ▸ List.mem_cons_self)]
  rfl

/-- Unless they begin with a zero, digits stand for no less than the power of ten in front. -/
theorem pow_le_toRat (h : r.first ≠ 48) (lead : ℤ) :
    10 ^ lead ≤ (Decimal.ofDigits r.text lead).toRat := by
  obtain ⟨more, hmore⟩ := r.exists_text_eq_cons
  have hone : 1 ≤ Numeral.digitValue r.first := by
    refine Nat.one_le_iff_ne_zero.2 fun hzero => h ?_
    have hdigit := Numeral.digit_digitValue r.isDigit_first
    rw [hzero] at hdigit
    exact hdigit.symm
  have hvalue : 10 ^ more.length ≤ Numeral.value r.text := by
    have hsingle : Numeral.value [r.first] = Numeral.digitValue r.first := by simp [Numeral.value]
    rw [hmore, ← List.singleton_append, Numeral.value_append, hsingle]
    exact le_add_right (Nat.le_mul_of_pos_left _ hone)
  have hscale : (0 : ℚ) < 10 ^ (lead - more.length) := zpow_pos (by norm_num) _
  have hlength : lead + 1 - r.text.length = lead - more.length := by
    rw [hmore, List.length_cons]
    push_cast
    ring
  calc (10 : ℚ) ^ lead
      = 10 ^ more.length * 10 ^ (lead - more.length) := by
        rw [← zpow_natCast, ← zpow_add₀ (by norm_num), add_sub_cancel]
    _ ≤ Numeral.value r.text * 10 ^ (lead - more.length) :=
        mul_le_mul_of_nonneg_right (by exact_mod_cast hvalue) hscale.le
    _ = (Decimal.ofDigits r.text lead).toRat := by rw [Decimal.ofDigits, Decimal.toRat, hlength]

end Digits

/-! ### Which shape it is -/

/-- Numbers that are written with a point. -/
def Decimal.Moderate (q : ℚ) : Prop := q = 0 ∨ 10 ^ (-4 : ℤ) ≤ q ∧ q < 10 ^ (16 : ℤ)

/-- A number is moderate if the power of ten in front is. -/
theorem Decimal.moderate_iff {q : ℚ} {lead : ℤ} (hlow : 10 ^ lead ≤ q)
    (hhigh : q < 10 ^ (lead + 1)) : Moderate q ↔ -4 ≤ lead ∧ lead < 16 := by
  have hten : (1 : ℚ) < 10 := by norm_num
  have hpos : (0 : ℚ) < 10 ^ lead := zpow_pos (by norm_num) _
  constructor
  · rintro (rfl | ⟨hge, hlt⟩)
    · exact absurd hlow (not_le.2 hpos)
    · have hsmall := (zpow_lt_zpow_iff_right₀ hten).1 (hge.trans_lt hhigh)
      have hlarge := (zpow_lt_zpow_iff_right₀ hten).1 (hlow.trans_lt hlt)
      omega
  · rintro ⟨hge, hlt⟩
    exact .inr ⟨(zpow_le_zpow_right₀ hten.le hge).trans hlow,
      hhigh.trans_le (zpow_le_zpow_right₀ hten.le (by omega))⟩

namespace Conversion

/-- A text displays a double: a sign, digits of which the first one stands for `10 ^ lead`, and
    that exponent, in the space that there is.  The first digit is not zero, unless the double
    is; then there are only zeros. -/
structure Displays (t : Text) (negative : Bool) (rank : Fin Binary64.finiteRanks) (r : Digits)
    (lead : ℤ) : Prop where
  text_eq : t = Decimal.sign negative ++ Decimal.scientific r.text lead
  length_le : t.length ≤ Binary64.bufferSize
  first_ne : rank.val ≠ 0 → r.first ≠ 48
  zero : rank.val = 0 → r.value = 0 ∧ lead = 0

/-- A conversion to digits and an exponent. -/
def IsScientific (convert : Conversion) : Prop :=
  ∀ negative rank, ∃ r lead, Displays (convert negative rank) negative rank r lead

/-- The conversion that numbers are written by is one. -/
theorem isScientific_standard : IsScientific standard := by
  intro negative rank
  have hwrites := writes_standard negative rank
  refine ⟨_, _, hwrites.text_eq, hwrites.length_le, fun hne => ?_, fun hzero => ?_⟩
  · refine Digits.first_ofNat_ne fun hcoefficient => hne ?_
    have hrank := Format.rank_shortest Binary64.two_dvd_block rank
    rw [Decimal.toRat, hcoefficient, Nat.cast_zero, zero_mul, Format.rank_zero] at hrank
    exact hrank.symm
  · rw [hzero, Format.shortest_zero]
    refine ⟨Numeral.value_ofNat 0, ?_⟩
    rw [Decimal.lead, Decimal.digitCount, if_pos (by decide)]
    rfl

namespace Displays

variable {t : Text} {negative : Bool} {rank : Fin Binary64.finiteRanks} {r : Digits} {lead : ℤ}

/-- The digits lose their zeros, and then they are tight; or there is one zero left. -/
theorem tight_or_zero (h : Displays t negative rank r lead) :
    r.trimmed.Tight ∧ 10 ^ lead ≤ (Decimal.ofDigits r.trimmed.text lead).toRat
      ∨ r.trimmed.text = ascii "0" ∧ lead = 0
        ∧ (Decimal.ofDigits r.trimmed.text lead).toRat = 0 := by
  rw [r.toRat_trimmed]
  by_cases hrank : rank.val = 0
  · obtain ⟨hvalue, hlead⟩ := h.zero hrank
    refine .inr ⟨Digits.text_trimmed_of_value_eq_zero hvalue, hlead, ?_⟩
    rw [Decimal.ofDigits, Decimal.toRat, show Numeral.value r.text = 0 from hvalue,
      Nat.cast_zero, zero_mul]
  · have hfirst := h.first_ne hrank
    exact .inl ⟨Digits.tight_trimmed hfirst, Digits.pow_le_toRat hfirst lead⟩

/-- The layout is that of the shape with a point exactly for a number that is moderate. -/
theorem moderate_iff (h : Displays t negative rank r lead) :
    Decimal.Moderate (Decimal.ofDigits r.trimmed.text lead).toRat ↔ -4 ≤ lead ∧ lead < 16 := by
  rcases h.tight_or_zero with ⟨-, hlow⟩ | ⟨-, hlead, hzero⟩
  · exact Decimal.moderate_iff hlow (Decimal.toRat_ofDigits_lt _ lead)
  · rw [hzero, hlead]
    exact iff_of_true (.inl rfl) (by decide)

theorem mem_fixed (h : Displays t negative rank r lead) (hlead : -4 ≤ lead ∧ lead < 16) :
    Decimal.sign negative ++ Decimal.layout r.trimmed.text lead ∈ Pattern.fixed.matches' := by
  refine Pattern.append_mem (Pattern.mem_sign negative) ?_
  rw [Decimal.layout, if_pos hlead]
  rcases h.tight_or_zero with ⟨htight, -⟩ | ⟨htext, rfl, -⟩
  · exact htight.mem_positional lead
  · rw [htext]
    decide

theorem mem_scientific (h : Displays t negative rank r lead) (hlead : ¬ (-4 ≤ lead ∧ lead < 16)) :
    Decimal.sign negative ++ Decimal.layout r.trimmed.text lead
      ∈ Pattern.scientific.matches' := by
  refine Pattern.append_mem (Pattern.mem_sign negative) ?_
  rw [Decimal.layout, if_neg hlead]
  rcases h.tight_or_zero with ⟨htight, -⟩ | ⟨-, rfl, -⟩
  · exact htight.mem_scientific lead
  · exact absurd (by decide) hlead

/-- Behind the letter stands the power of ten in front. -/
theorem readExponent?_dropWhile (hlead : ¬ (-4 ≤ lead ∧ lead < 16)) :
    Decimal.readExponent?
      ((Decimal.sign negative ++ Decimal.layout r.text lead).dropWhile (· ≠ 101)) = some lead := by
  obtain ⟨front, hfront, -, hletter⟩ := exists_front_scientific negative r lead
  obtain ⟨more, hmore, -⟩ := leadingInt_exponentText lead
  have hrest : (Decimal.exponentText lead).dropWhile (· ≠ 101) = Decimal.exponentText lead := by
    rw [hmore]
    rfl
  rw [Decimal.layout, if_neg hlead, hfront, List.dropWhile_append_of_pos hletter, hrest,
    Decimal.readExponent?_exponentText]

end Displays

end Conversion

/-- A sign is read where a text begins with one. -/
theorem Decimal.readSign_fst_iff (t : Text) : (readSign t).1 = true ↔ t.head? = some 45 := by
  unfold readSign
  split
  · exact iff_of_true rfl rfl
  · next h =>
    refine iff_of_false Bool.false_ne_true fun hhead => ?_
    obtain ⟨more, rfl⟩ := List.head?_eq_some_iff.1 hhead
    exact h more rfl

namespace Number

/-- **The shape of a real.**  Of the conversion of doubles, only its form is used.  Every finite
    double has a text.  It matches the shape with a point if the number that it is read as is
    zero or from `10 ^ (-4)` to below `10 ^ 16`, and the shape with an exponent if not; then the
    exponent is the power of ten in front.  It begins with a minus sign exactly if the double is
    negative, zeros included.  The text of a real, finite or not, is never that of an integer.
    By the standard conversion, the texts are those of `Number.text`. -/
theorem format_shape {convert : Conversion} (h : convert.IsScientific) :
    (∀ x, ∃ t, (real x).format convert = .ok t ∧ Numeral.readInt? t = none)
      ∧ ∀ negative rank, ∃ t d, (real (.finite negative rank)).format convert = .ok t
        ∧ Decimal.read? t = some (negative, d)
        ∧ (t ∈ Pattern.fixed.matches' ↔ Decimal.Moderate d.toRat)
        ∧ (t ∈ Pattern.scientific.matches' ↔ ¬ Decimal.Moderate d.toRat)
        ∧ (¬ Decimal.Moderate d.toRat → ∃ e : ℤ,
          Decimal.readExponent? (t.dropWhile (· ≠ 101)) = some e
            ∧ 10 ^ e ≤ d.toRat ∧ d.toRat < 10 ^ (e + 1))
        ∧ (t.head? = some 45 ↔ negative = true)
        ∧ (convert = .standard → t = (real (.finite negative rank)).text) := by
  constructor
  · intro x
    cases x with
    | finite negative rank =>
      obtain ⟨r, lead, hdisplays⟩ := h negative rank
      obtain ⟨w, hwtext, -, hwparts⟩ := Decimal.exists_written_layout r.trimmed lead
      have hinteger := w.readInt?_text negative hwparts
      rw [hwtext] at hinteger
      exact ⟨_, Conversion.format_of_scientific hdisplays.text_eq hdisplays.length_le, hinteger⟩
    | infinite negative =>
      refine ⟨_, rfl, ?_⟩
      cases negative <;> rfl
    | nan => exact ⟨_, rfl, rfl⟩
  · intro negative rank
    obtain ⟨r, lead, hdisplays⟩ := h negative rank
    have hformat := Conversion.format_of_scientific hdisplays.text_eq hdisplays.length_le
    obtain ⟨w, hwtext, hwdecimal, -⟩ := Decimal.exists_written_layout r.trimmed lead
    let t := Decimal.sign negative ++ Decimal.layout r.trimmed.text lead
    have hread : Decimal.read? t = some (negative, w.decimal) := by
      have hread := w.read?_text negative
      rwa [hwtext] at hread
    have hmoderate : Decimal.Moderate w.decimal.toRat ↔ -4 ≤ lead ∧ lead < 16 := by
      rw [hwdecimal]
      exact hdisplays.moderate_iff
    have hsign : (Decimal.readSign t).1 = negative := by
      have hsign := Decimal.readSign_append negative w.whole (w.pointText ++ w.exponentText)
      rw [← Written.text, hwtext] at hsign
      rw [hsign]
    -- A layout has the one shape or the other, and no text has both.
    refine ⟨t, w.decimal, hformat, hread, ?_, ?_, ?_, ?_, ?_⟩
    · rw [hmoderate]
      refine ⟨fun hfixed => ?_, hdisplays.mem_fixed⟩
      by_contra hlead
      exact Pattern.notMem_fixed_of_mem_scientific (hdisplays.mem_scientific hlead) hfixed
    · rw [hmoderate]
      refine ⟨fun hscientific hlead => ?_, hdisplays.mem_scientific⟩
      exact Pattern.notMem_fixed_of_mem_scientific hscientific (hdisplays.mem_fixed hlead)
    · rw [hmoderate, hwdecimal]
      intro hlead
      rcases hdisplays.tight_or_zero with ⟨-, hlow⟩ | ⟨-, rfl, -⟩
      · exact ⟨lead, Conversion.Displays.readExponent?_dropWhile hlead, hlow,
          Decimal.toRat_ofDigits_lt _ lead⟩
      · exact absurd (by decide) hlead
    · rw [← Decimal.readSign_fst_iff, hsign]
    · rintro rfl
      have hstandard := format_standard (real (.finite negative rank))
      exact Except.ok.inj (hformat.symm.trans hstandard)

/-- The double `10 ^ 16` is the first with an exponent, and its neighbour below, which has sixteen
    digits, the last without one. -/
theorem format_shape_boundary :
    Conversion.standard.IsScientific
      ∧ (real (.finite true ⟨0x4341C37937E08000, by decide⟩)).text ∈ Pattern.scientific.matches'
      ∧ (real (.finite true ⟨0x4341C37937E07FFF, by decide⟩)).text ∈ Pattern.fixed.matches'
      ∧ (real (.finite true ⟨0x4341C37937E08000, by decide⟩)).text = ascii "-1e+16"
      ∧ (real (.finite true ⟨0x4341C37937E07FFF, by decide⟩)).text
        = ascii "-9999999999999998.0" := by
  have hscientific := Conversion.isScientific_standard
  obtain ⟨-, hshape⟩ := format_shape hscientific
  obtain ⟨t, d, -, hread, -, hexponent, -, -, htext⟩ := hshape true ⟨0x4341C37937E08000, by decide⟩
  obtain ⟨t', d', -, hread', hfixed', -, -, -, htext'⟩ :=
    hshape true ⟨0x4341C37937E07FFF, by decide⟩
  have hlarge : (real (.finite true ⟨0x4341C37937E08000, by decide⟩)).text = ascii "-1e+16" := by
    decide +kernel
  have hbelow : (real (.finite true ⟨0x4341C37937E07FFF, by decide⟩)).text
      = ascii "-9999999999999998.0" := by
    decide +kernel
  rw [htext rfl, hlarge] at hread
  rw [htext' rfl, hbelow] at hread'
  obtain rfl : Decimal.mk 1 16 = d := (Prod.mk.inj (Option.some.inj hread)).2
  obtain rfl : Decimal.mk 99999999999999980 (-1) = d' := (Prod.mk.inj (Option.some.inj hread')).2
  refine ⟨hscientific, ?_, ?_, hlarge, hbelow⟩
  · rw [← htext rfl, hexponent, Decimal.Moderate, Decimal.toRat]
    norm_num
  · rw [← htext' rfl, hfixed', Decimal.Moderate, Decimal.toRat]
    norm_num

end Number

end ChainCalc
