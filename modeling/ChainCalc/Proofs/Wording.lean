import ChainCalc.Proofs.Offence
import ChainCalc.Proofs.Relocation

namespace ChainCalc

/-!
# Wording — what the message for a line's error looks like

The error of a line arises at a position of it.  Its message says what is wrong and then
where, in printable bytes, whatever bytes the line is made of.

* `Error.complaint` — what a message says in front of the position.
* `Error.ArisesAt` — the errors that can arise at a position; the error of a line does
  (`exists_arisesAt`).
* `Error.ArisesAt.message_eq` — a message is the complaint and then the position.
* `Text.isPrintable`, `Error.ArisesAt.isPrintable_message` — messages are printable.
-/

/-! ### What is wrong, and where -/

namespace Error

/-- What the message for an error says in front of the position. -/
def complaint : Error → Text
  | lexical .invalidCharacter character _ => ascii "invalid character " ++ character.quoted
  | lexical .outOfRange _ _ => ascii "integer literal out of range"
  | lexical (.other wording) _ _ => wording.takeWhile (· ≠ 0)
  | unexpected expected found =>
    ascii "expected " ++ expected.text ++ ascii " but found " ++ found.describe
  | divisionByZero _ => ascii "division by zero"
  | notOperator kind => ascii "not an operator: " ++ kind.text

/-- The errors that can arise at a position of a line. -/
inductive ArisesAt : Nat → Error → Prop where
  | invalidCharacter (b : Byte) (p : Nat) : ArisesAt p (.lexical .invalidCharacter b p)
  | outOfRange (b : Byte) (p : Nat) : ArisesAt p (.lexical .outOfRange b p)
  | unexpected (expected : Role) (found : Token) :
      ArisesAt found.position (.unexpected expected found)
  | divisionByZero (p : Nat) : ArisesAt p (.divisionByZero p)

namespace ArisesAt

variable {p : Nat} {e : Error}

/-- An error points at the position at which it arises. -/
theorem position?_eq (h : ArisesAt p e) : e.position? = some p := by
  cases h <;> rfl

/-- A message is the complaint and then the position. -/
theorem message_eq (h : ArisesAt p e) : e.message = e.complaint ++ place p := by
  cases h <;> rfl

/-- An error that is moved arises where its position is moved to. -/
theorem relocate (h : ArisesAt p e) (f : Nat → Nat) : ArisesAt (f p) (e.relocate f) := by
  cases h with
  | invalidCharacter b p => exact .invalidCharacter b (f p)
  | outOfRange b p => exact .outOfRange b (f p)
  | unexpected expected found => exact .unexpected expected (found.relocate f)
  | divisionByZero p => exact .divisionByZero (f p)

end ArisesAt

/-- Moving an error changes nothing of what is wrong. -/
theorem complaint_relocate (e : Error) (f : Nat → Nat) :
    (e.relocate f).complaint = e.complaint := by
  cases e with
  | lexical fault character position => cases fault <;> rfl
  | unexpected expected found => rfl
  | divisionByZero position => rfl
  | notOperator kind => rfl

end Error

variable {v : Text} {p : Nat} {e : Error}

/-- Where no token stands, the error arises at that place. -/
theorem NoToken.arisesAt (h : NoToken v p e) : e.ArisesAt p := by
  cases h with
  | stray _ _ => exact .invalidCharacter _ p
  | oversized r _ _ => exact .outOfRange r.first p

theorem NoOperand.arisesAt (h : NoOperand v p e) : e.ArisesAt p := by
  cases h with
  | noToken h => exact h.arisesAt
  | nothing => exact .unexpected .operand ⟨.endOfInput, p⟩
  | symbol op _ => exact .unexpected .operand ⟨.operator op, p⟩

theorem NoOperator.arisesAt (h : NoOperator v p e) : e.ArisesAt p := by
  cases h with
  | noToken h => exact h.arisesAt
  | literal l _ => exact .unexpected .operator ⟨.integer l.word, p⟩

/-- What offends behind a text offends at its end. -/
theorem Offence.arisesAt {u : Text} (h : Offence u v e) : e.ArisesAt u.length := by
  cases h with
  | operand _ hv => exact hv.arisesAt
  | operator _ hv => exact hv.arisesAt
  | divisor _ _ _ _ _ => exact .divisionByZero u.length

/-- The error of a line arises at a position. -/
theorem exists_arisesAt {line : Text} (h : evaluate line = .error e) : ∃ p, e.ArisesAt p := by
  obtain ⟨u, v, -, -, hoffence⟩ := exists_offence h
  exact ⟨u.length, hoffence.arisesAt⟩

/-! ### Printable texts -/

namespace Text

/-- A text is printable when all its bytes are. -/
def isPrintable (t : Text) : Bool := t.all Byte.isPrintable

@[simp] theorem isPrintable_nil : isPrintable [] = true := rfl

@[simp] theorem isPrintable_cons (b : Byte) (t : Text) :
    isPrintable (b :: t) = (b.isPrintable && isPrintable t) := rfl

/-- A joined text is printable exactly when both parts are. -/
@[simp] theorem isPrintable_append (t u : Text) :
    isPrintable (t ++ u) = (isPrintable t && isPrintable u) := by
  simp [isPrintable]

/-- A printable text is within one line. -/
theorem newline_notMem_of_isPrintable {t : Text} (h : t.isPrintable = true) :
    Byte.newline ∉ t := by
  intro hmem
  have hnewline : Byte.newline.isPrintable = true := List.all_eq_true.1 h _ hmem
  exact absurd hnewline (by decide)

end Text

/-- A digit is printable. -/
theorem Byte.isPrintable_of_isDigit {b : Byte} (h : b.isDigit = true) :
    b.isPrintable = true := by
  simp only [isDigit, isPrintable, Bool.and_eq_true, decide_eq_true_eq, UInt8.le_iff_toNat_le,
    UInt8.lt_iff_toNat_lt] at h ⊢
  simp at h ⊢
  omega

/-- A hexadecimal digit is printable. -/
theorem isPrintable_hexDigit {d : Nat} (h : d < 16) : (hexDigit d).isPrintable = true := by
  have hall : ∀ k : Fin 16, (hexDigit k).isPrintable = true := by decide
  exact hall ⟨d, h⟩

/-- A byte in quotes is printable, whether it is itself or not. -/
theorem Byte.isPrintable_quoted (b : Byte) : Text.isPrintable b.quoted = true := by
  have hquote : (ascii "'").isPrintable = true := by decide
  unfold quoted
  split
  · next hb => simp [hquote, hb]
  · have hescape : (ascii "'\\x").isPrintable = true := by decide
    have hb : b.toNat < 256 := b.toNat_lt
    have hhigh := isPrintable_hexDigit (d := b.toNat / 16) (by omega)
    have hlow := isPrintable_hexDigit (d := b.toNat % 16) (by omega)
    simp [hquote, hescape, hhigh, hlow]

/-- A numeral is printable. -/
theorem Numeral.isPrintable_ofNat (n : Nat) : (ofNat n).isPrintable = true :=
  List.all_eq_true.2 fun _ hb => Byte.isPrintable_of_isDigit (isDigit_of_mem_ofNat hb)

theorem Numeral.isPrintable_ofInt (n : Int) : (ofInt n).isPrintable = true := by
  have hsign : (ascii "-").isPrintable = true := by decide
  unfold ofInt
  split <;> simp [hsign, isPrintable_ofNat]

theorem Kind.isPrintable_text (k : Kind) : k.text.isPrintable = true := by
  cases k with
  | integer => decide
  | operator op => cases op <;> decide
  | endOfInput => decide

/-- The words for a token are printable. -/
theorem Token.isPrintable_describe (t : Token) : t.describe.isPrintable = true := by
  obtain ⟨lexeme, position⟩ := t
  cases lexeme with
  | integer value =>
    have hspace : (ascii " ").isPrintable = true := by decide
    simp [describe, hspace, Kind.isPrintable_text, Numeral.isPrintable_ofInt]
  | operator op => exact Kind.isPrintable_text (.operator op)
  | endOfInput => exact Kind.isPrintable_text .endOfInput

namespace Error

/-- The words for a position are printable. -/
theorem isPrintable_place (p : Nat) : (place p).isPrintable = true := by
  have hat : (ascii " at position ").isPrintable = true := by decide
  simp [place, hat, Numeral.isPrintable_ofNat]

/-- **The message for an error that arises in a line is printable**, whatever byte or token
    it speaks of. -/
theorem ArisesAt.isPrintable_message (h : e.ArisesAt p) : e.message.isPrintable = true := by
  rw [h.message_eq, Text.isPrintable_append, isPrintable_place, Bool.and_true]
  cases h with
  | invalidCharacter b =>
    have hwords : (ascii "invalid character ").isPrintable = true := by decide
    simp [complaint, hwords, b.isPrintable_quoted]
  | outOfRange b =>
    show (ascii "integer literal out of range").isPrintable = true
    decide
  | unexpected expected found =>
    have hrole : expected.text.isPrintable = true := by cases expected <;> decide
    have hexpected : (ascii "expected ").isPrintable = true := by decide
    have hfound : (ascii " but found ").isPrintable = true := by decide
    simp [complaint, hrole, hexpected, hfound, found.isPrintable_describe]
  | divisionByZero =>
    show (ascii "division by zero").isPrintable = true
    decide

end Error

/-- The error of a line is printable behind the word that announces it. -/
theorem isPrintable_error_message {line : Text} (h : evaluate line = .error e) :
    (ascii "error: " ++ e.message).isPrintable = true := by
  have hword : (ascii "error: ").isPrintable = true := by decide
  obtain ⟨p, hp⟩ := exists_arisesAt h
  rw [Text.isPrintable_append, hword, hp.isPrintable_message, Bool.and_self]

end ChainCalc
