namespace ChainCalc

/-!
# Text — lines of bytes and the classes of their bytes

A text is a list of bytes: no encoding is assumed, and a position in a text counts
bytes from `0`.  Every class below is a fixed set of ASCII bytes, so a byte from
`0x80` up is neither blank nor a digit nor printable.

* `Byte.isBlank`, `Byte.isDigit`, `Byte.isPrintable` — the three byte classes.
* `ascii` — the bytes of an ASCII string literal.
* `Text.isBlank` — texts that hold blanks only.
* `Text.lines` — the lines of an input; `Text.chopReturn` removes the carriage
  return of a line that ended in a return and a newline.
-/

/-- A byte of text. -/
abbrev Byte := UInt8

/-- A text: its bytes in order. -/
abbrev Text := List Byte

/-! ### Byte classes -/

namespace Byte

/-- The newline, which ends a line of input. -/
def newline : Byte := 10

/-- The carriage return, which may stand before a newline. -/
def carriageReturn : Byte := 13

/-- Blanks are the space and the five layout controls from the tab (`9`) to the
    carriage return (`13`). -/
def isBlank (b : Byte) : Bool := b == 32 || (9 ≤ b && b ≤ 13)

/-- Digits are the ten bytes from `0` to `9`. -/
def isDigit (b : Byte) : Bool := 48 ≤ b && b ≤ 57

/-- Printable bytes run from the space to the tilde. -/
def isPrintable (b : Byte) : Bool := 32 ≤ b && b < 127

/-- The blanks are the tab, the newline, the vertical tab, the form feed, the carriage return
    and the space. -/
theorem isBlank_iff {b : Byte} : b.isBlank = true ↔ b ∈ [9, 10, 11, 12, 13, 32] := by
  simp only [isBlank, Bool.or_eq_true, Bool.and_eq_true, beq_iff_eq, decide_eq_true_eq,
    UInt8.le_iff_toNat_le, ← UInt8.toNat_inj, List.mem_cons, List.not_mem_nil, or_false]
  simp
  omega

/-- A digit is not blank. -/
theorem isBlank_eq_false_of_isDigit {b : Byte} (h : b.isDigit = true) : b.isBlank = false := by
  simp only [isDigit, isBlank, Bool.and_eq_true, decide_eq_true_eq, UInt8.le_iff_toNat_le] at h ⊢
  simp [← UInt8.toNat_inj] at h ⊢
  omega

end Byte

/-- The bytes of an ASCII string, one for each character. -/
def ascii (s : String) : Text := s.toList.map Char.toUInt8

namespace Text

/-! ### Blank texts -/

/-- A text is blank when it holds blanks only; the empty text is blank. -/
def isBlank (t : Text) : Bool := t.all Byte.isBlank

@[simp] theorem isBlank_nil : isBlank [] = true := rfl

@[simp] theorem isBlank_cons (b : Byte) (t : Text) :
    isBlank (b :: t) = (b.isBlank && isBlank t) := rfl

/-- A joined text is blank exactly when both parts are. -/
@[simp] theorem isBlank_append (t u : Text) :
    isBlank (t ++ u) = (isBlank t && isBlank u) := by
  simp [isBlank]

/-! ### Lines of an input -/

/-- The lines of an input, without their newlines.  Each newline ends a line; what
    follows the last newline is a line of its own only if it is not empty. -/
def lines : Text → List Text
  | [] => []
  | b :: t =>
    if b = Byte.newline then [] :: lines t
    else
      match lines t with
      | [] => [[b]]
      | line :: more => (b :: line) :: more

@[simp] theorem lines_nil : lines [] = [] := rfl

@[simp] theorem lines_newline (t : Text) : lines (Byte.newline :: t) = [] :: lines t := by
  simp [lines]

/-- A line and its newline come off the front of the input together. -/
theorem lines_append_newline {line : Text} (h : Byte.newline ∉ line) (t : Text) :
    lines (line ++ Byte.newline :: t) = line :: lines t := by
  induction line with
  | nil => simp
  | cons b line ih =>
    have hb : b ≠ Byte.newline := fun e => h (e ▸ List.mem_cons_self)
    have hl : Byte.newline ∉ line := fun hm => h (List.mem_cons_of_mem b hm)
    simp [lines, hb, ih hl]

/-- One carriage return at the end of a line belongs to the line's end and not to
    the line. -/
def chopReturn (line : Text) : Text :=
  if line.getLast? = some Byte.carriageReturn then line.dropLast else line

@[simp] theorem chopReturn_nil : chopReturn [] = [] := rfl

@[simp] theorem chopReturn_append_return (t : Text) :
    chopReturn (t ++ [Byte.carriageReturn]) = t := by
  simp [chopReturn]

end Text

end ChainCalc
