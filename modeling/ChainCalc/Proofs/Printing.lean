import ChainCalc.Proofs.Chain
import ChainCalc.Proofs.Layouts

namespace ChainCalc

/-!
# Printing — reading tokens undoes writing them

Integers and operators are written one behind the other, an integer with as many zeros in front
as one likes, and with blanks in front of each and behind the last.  As long as there are blanks
between any two integers, the text is read as these integers and operators, each from where it
was put.

* `Item`, `Piece` — what is written, and with which blanks in front.
* `Piece.Apart` — two pieces that do not run into each other.
* `Piece.place` — the tokens for pieces, at the positions where these are put.
* `Piece.tokens_print` — reading undoes writing.
-/

/-! ### What is written -/

/-- An integer that is not negative, with some more zeros in front; or an operator. -/
inductive Item where
  | integer (value : Int64) (hvalue : 0 ≤ value) (zeros : ℕ)
  | operator (op : Operator)

namespace Item

/-- What an item is read as. -/
def lexeme : Item → Lexeme
  | integer value _ _ => .integer value
  | operator op => .operator op

/-- How an item is written: an integer in decimal, an operator by its symbol. -/
def text : Item → Text
  | integer value _ zeros => Decimal.zeros zeros ++ Numeral.ofInt value.toInt
  | operator op => [op.symbol]

/-- Whether an item is an integer. -/
def isInteger : Item → Bool
  | integer _ _ _ => true
  | operator _ => false

/-- An integer that is not negative is written as a literal for it. -/
theorem exists_literal {value : Int64} (hvalue : 0 ≤ value) (zeros : ℕ) :
    ∃ l : Literal, l.text = (integer value hvalue zeros).text ∧ l.word = value := by
  have hnonneg : 0 ≤ value.toInt := Int64.le_iff_toInt_le.1 hvalue
  obtain ⟨n, hn⟩ := Int.eq_ofNat_of_zero_le hnonneg
  -- The zeros in front do not count.
  have hnumber : ((Digits.ofNat n).behindZeros zeros).value = n := by
    show Numeral.value (Decimal.zeros zeros ++ Numeral.ofNat n) = n
    rw [Numeral.value_append, Numeral.value_zeros, Numeral.value_ofNat, Nat.zero_mul, Nat.zero_add]
  have hle : n ≤ Literal.limit := by
    have hlt := value.toInt_lt
    unfold Literal.limit
    omega
  let l : Literal := ⟨(Digits.ofNat n).behindZeros zeros, hnumber.trans_le hle⟩
  refine ⟨l, ?_, ?_⟩
  · have hpositive : ¬ (n : ℤ) < 0 := by omega
    show Decimal.zeros zeros ++ Numeral.ofNat n = Decimal.zeros zeros ++ Numeral.ofInt value.toInt
    rw [hn, Numeral.ofInt, if_neg hpositive, Int.natAbs_natCast]
  · rw [← Int64.toInt_inj, l.toInt_word, hn]
    exact congrArg Nat.cast hnumber

/-- No item is the end. -/
theorem lexeme_ne_endOfInput (item : Item) : item.lexeme ≠ .endOfInput := by
  cases item <;> exact Lexeme.noConfusion

end Item

/-- An item and the blanks in front of it. -/
structure Piece where
  before : Blanks
  item : Item

namespace Piece

/-- How a piece is written. -/
def text (piece : Piece) : Text := piece.before.text ++ piece.item.text

/-- How pieces are written, with blanks behind the last one. -/
def print (pieces : List Piece) (after : Blanks) : Text := pieces.flatMap text ++ after.text

/-- A piece that does not run into the one in front of it: of two integers, the second one has
    blanks in front. -/
def Apart (front behind : Piece) : Prop :=
  front.item.isInteger = true → behind.item.isInteger = true → behind.before.text ≠ []

instance (front behind : Piece) : Decidable (Apart front behind) :=
  inferInstanceAs (Decidable (_ → _ → _))

/-- The tokens for pieces of which the first is put at an offset: each item begins behind all
    that is in front of it. -/
def place (offset : ℕ) : List Piece → List Token
  | [] => []
  | piece :: more =>
    ⟨piece.item.lexeme, offset + piece.before.text.length⟩
      :: place (offset + piece.text.length) more

variable {piece : Piece} {more : List Piece}

theorem print_nil (after : Blanks) : print [] after = after.text := rfl

theorem print_cons (piece : Piece) (more : List Piece) (after : Blanks) :
    print (piece :: more) after = piece.before.text ++ (piece.item.text ++ print more after) := by
  simp [print, text]

@[simp] theorem length_place (offset : ℕ) (pieces : List Piece) :
    (place offset pieces).length = pieces.length := by
  induction pieces generalizing offset with
  | nil => rfl
  | cons piece more ih => rw [place, List.length_cons, List.length_cons, ih]

/-- Pieces behind others are put where these end. -/
theorem place_append (offset : ℕ) (front more : List Piece) :
    place offset (front ++ more)
      = place offset front ++ place (offset + (front.flatMap text).length) more := by
  induction front generalizing offset with
  | nil => rfl
  | cons piece front ih =>
    rw [List.cons_append, place, ih, place, List.flatMap_cons, List.length_append, Nat.add_assoc]
    rfl

/-- Where a piece is put, the text goes on with its item. -/
theorem exists_place (front : List Piece) (piece : Piece) (more : List Piece) (after : Blanks) :
    ∃ p, (place 0 (front ++ piece :: more))[front.length]? = some ⟨piece.item.lexeme, p⟩
      ∧ (print (front ++ piece :: more) after).drop p = piece.item.text ++ print more after := by
  have hsplit : print (front ++ piece :: more) after
      = (front.flatMap text ++ piece.before.text) ++ (piece.item.text ++ print more after) := by
    simp [print, text]
  refine ⟨(front.flatMap text ++ piece.before.text).length, ?_, ?_⟩
  · rw [place_append, List.getElem?_append_right (length_place 0 front).le, length_place,
      Nat.sub_self, place, List.length_append, Nat.zero_add]
    rfl
  · rw [hsplit, List.drop_left]

/-- Behind an integer, no digit comes first of what is apart from it. -/
theorem digitAhead_print (h : (piece :: more).IsChain Apart) (after : Blanks)
    (hinteger : piece.item.isInteger = true) : (print more after).digitAhead = false := by
  cases more with
  | nil =>
    have hblank := Text.digitAhead_blank_append after.isBlank (t := []) fun _ => rfl
    rwa [List.append_nil, ← print_nil] at hblank
  | cons behind more =>
    rw [print_cons]
    refine Text.digitAhead_blank_append behind.before.isBlank fun hnone => ?_
    have hapart : piece.Apart behind := (List.isChain_cons_cons.1 h).1
    -- Without blanks in front the other item is an operator.
    cases hitem : behind.item with
    | integer value hvalue zeros => exact absurd hnone (hapart hinteger (by rw [hitem]; rfl))
    | operator op => exact op.isDigit_symbol

end Piece

/-! ### Reading what is written -/

/-- **Step lemma.**  An item is read as what it was written for, if no digit prolongs it. -/
theorem Lexer.next_item (item : Item) {t : Text}
    (ht : item.isInteger = true → t.digitAhead = false) (p : ℕ) :
    next ⟨item.text ++ t, p⟩ = (.ok ⟨item.lexeme, p⟩, ⟨t, p + item.text.length⟩) := by
  cases item with
  | integer value hvalue zeros =>
    obtain ⟨l, htext, hword⟩ := Item.exists_literal hvalue zeros
    rw [← htext, next_literal l (ht rfl), hword]
    rfl
  | operator op => exact next_symbol op t p

/-- **Run lemma.**  Pieces that are apart are read one after the other, from wherever the first
    one is put. -/
theorem Lexer.tokens_pieces {pieces : List Piece} (h : pieces.IsChain Piece.Apart)
    (after : Blanks) (p : ℕ) :
    tokens ⟨Piece.print pieces after, p⟩
      = (Piece.place p pieces).map .ok
        ++ [.ok ⟨.endOfInput, p + (Piece.print pieces after).length⟩] := by
  induction pieces generalizing p with
  | nil =>
    have hend := tokens_append_blanks after.isBlank [] p
    rw [List.append_nil, tokens_of_end (next_nothing _), ← Piece.print_nil] at hend
    exact hend
  | cons piece more ih =>
    -- Behind its blanks the item is read, and this leads to where the next piece is put.
    have hread := next_item piece.item (Piece.digitAhead_print h after)
      (p + piece.before.text.length)
    have hlen : p + piece.before.text.length + piece.item.text.length = p + piece.text.length := by
      rw [Piece.text, List.length_append, Nat.add_assoc]
    have hend : p + (Piece.print (piece :: more) after).length
        = p + piece.text.length + (Piece.print more after).length := by
      rw [Piece.print_cons, ← List.append_assoc, ← Piece.text, List.length_append, Nat.add_assoc]
    rw [hlen] at hread
    rw [hend, Piece.print_cons, tokens_append_blanks piece.before.isBlank,
      tokens_of_token hread piece.item.lexeme_ne_endOfInput, ih h.tail]
    rfl

/-- **Reading undoes writing.**  Integers and operators that are written one behind the other,
    with blanks at will but always some between two integers, are read in that order, each with
    its value and at the position where it was put; and behind them the line ends. -/
theorem Piece.tokens_print {pieces : List Piece} (h : pieces.IsChain Apart) (after : Blanks) :
    (Lexer.ofLine (print pieces after)).tokens
        = (place 0 pieces).map .ok ++ [.ok ⟨.endOfInput, (print pieces after).length⟩]
      ∧ ∀ front piece more, pieces = front ++ piece :: more →
        ∃ p, (place 0 pieces)[front.length]? = some ⟨piece.item.lexeme, p⟩
          ∧ (print pieces after).drop p = piece.item.text ++ print more after := by
  constructor
  · rw [Lexer.ofLine, Lexer.tokens_pieces h, Nat.zero_add]
  · rintro front piece more rfl
    exact exists_place front piece more after

/-- An integer with zeros in front, an operator close to it, and two integers that a blank
    parts. -/
theorem Piece.tokens_print_apart :
    let pieces : List Piece := [⟨⟨ascii " ", rfl⟩, .integer 7 (by decide) 2⟩,
      ⟨⟨[], rfl⟩, .operator .plus⟩, ⟨⟨[], rfl⟩, .integer 12 (by decide) 0⟩,
      ⟨⟨ascii " ", rfl⟩, .integer 0 (by decide) 1⟩]
    pieces.IsChain Apart
      ∧ print pieces ⟨ascii " ", rfl⟩ = ascii " 007+12 00 "
      ∧ (Lexer.ofLine (ascii " 007+12 00 ")).tokens
        = [.ok ⟨.integer 7, 1⟩, .ok ⟨.operator .plus, 4⟩, .ok ⟨.integer 12, 5⟩,
          .ok ⟨.integer 0, 8⟩, .ok ⟨.endOfInput, 11⟩] := by
  intro pieces
  have hapart : pieces.IsChain Apart := by decide
  have hprint : print pieces ⟨ascii " ", rfl⟩ = ascii " 007+12 00 " := by decide +kernel
  have hplace : place 0 pieces = [⟨.integer 7, 1⟩, ⟨.operator .plus, 4⟩, ⟨.integer 12, 5⟩,
      ⟨.integer 0, 8⟩] := by decide +kernel
  have htokens := (Piece.tokens_print hapart ⟨ascii " ", rfl⟩).1
  rw [hprint, hplace] at htokens
  exact ⟨hapart, hprint, htokens⟩

end ChainCalc
