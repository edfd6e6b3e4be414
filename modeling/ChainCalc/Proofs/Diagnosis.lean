import ChainCalc.Proofs.Wording

namespace ChainCalc

/-!
# Diagnosis — what the message for an error tells

A message is put together from words, a byte in quotes, a token and decimal numerals, and
nothing marks where one piece ends.  Still two errors of lines have the same message only if
they agree in all that the message is about.

* `Error.Alike` — errors that agree in all that their messages are about.
* `Text.append_digits_inj`, `Text.append_inj_of_take` — where a text can be cut in one way
  only: in front of the digits at its end, and behind words that differ early on.
* `Form`, `Error.Told` — a message as the words for its form, what they are about, and the
  position.
* `message_eq_message_iff` — the errors of two lines have the same message exactly when they
  are alike.
-/

/-- Two errors agree in all that their messages are about: both are the same, or both are
    literals out of range at the same position, which may begin with different digits. -/
inductive Error.Alike : Error → Error → Prop where
  | invalidCharacter (b : Byte) (p : Nat) :
      Alike (.lexical .invalidCharacter b p) (.lexical .invalidCharacter b p)
  | outOfRange (b b' : Byte) (p : Nat) :
      Alike (.lexical .outOfRange b p) (.lexical .outOfRange b' p)
  | unexpected (expected : Role) (found : Token) :
      Alike (.unexpected expected found) (.unexpected expected found)
  | divisionByZero (p : Nat) : Alike (.divisionByZero p) (.divisionByZero p)

/-- Errors that are alike have the same message. -/
theorem Error.Alike.message_eq {e e' : Error} (h : e.Alike e') : e.message = e'.message := by
  cases h <;> rfl

/-! ### Where a text can be cut -/

namespace Text

variable {s t : Text}

/-- The digits at the end of a text come off it in one way. -/
theorem append_digits_inj {d d' : Text} (hs : s.digitBehind = false)
    (ht : t.digitBehind = false) (hd : ∀ b ∈ d, b.isDigit = true)
    (hd' : ∀ b ∈ d', b.isDigit = true) (h : s ++ d = t ++ d') : s = t ∧ d = d' := by
  -- Two cuts differ by digits that stand at the end of one front, and so by nothing.
  have hnothing : ∀ {u m : Text}, (∀ b ∈ m, b.isDigit = true) →
      (u ++ m).digitBehind = false → m = [] := by
    intro u m hm hum
    refine Classical.byContradiction fun hne => ?_
    rw [Digits.digitBehind_append_text u ⟨m, hne, hm⟩] at hum
    cases hum
  rcases List.append_eq_append_iff.1 h with ⟨m, rfl, rfl⟩ | ⟨m, rfl, rfl⟩
  · obtain rfl := hnothing (fun b hb => hd b (List.mem_append_left _ hb)) ht
    simp
  · obtain rfl := hnothing (fun b hb => hd' b (List.mem_append_left _ hb)) hs
    simp

/-- Texts that differ within their first `n` bytes come off the front in one way. -/
theorem append_inj_of_take {α : Type} {f : α → Text} (n : Nat) (hlong : ∀ a, n ≤ (f a).length)
    (hapart : ∀ a b, (f a).take n = (f b).take n → a = b) {a b : α}
    (h : f a ++ s = f b ++ t) : a = b ∧ s = t := by
  have htake := congrArg (List.take n) h
  rw [List.take_append_of_le_length (hlong a), List.take_append_of_le_length (hlong b)] at htake
  obtain rfl := hapart a b htake
  exact ⟨rfl, List.append_cancel_left h⟩

end Text

/-! ### Pieces of a message -/

namespace Numeral

/-- A number can be told from its numeral. -/
theorem ofNat_injective : Function.Injective ofNat := by
  intro m n h
  rw [← value_ofNat m, h, value_ofNat]

/-- No numeral of a natural number begins with a minus sign. -/
theorem ascii_minus_append_ne_ofNat (t : Text) (n : Nat) : ascii "-" ++ t ≠ ofNat n := by
  intro h
  have hmem : 45 ∈ ofNat n := h ▸ List.mem_cons_self
  exact absurd (isDigit_of_mem_ofNat hmem) (by decide)

/-- An integer can be told from its numeral. -/
theorem ofInt_injective : Function.Injective ofInt := by
  intro m n h
  unfold ofInt at h
  by_cases hm : m < 0
  · by_cases hn : n < 0
    · rw [if_pos hm, if_pos hn] at h
      have habs := ofNat_injective (List.append_cancel_left h)
      omega
    · rw [if_pos hm, if_neg hn] at h
      exact absurd h (ascii_minus_append_ne_ofNat _ _)
  · by_cases hn : n < 0
    · rw [if_neg hm, if_pos hn] at h
      exact absurd h.symm (ascii_minus_append_ne_ofNat _ _)
    · rw [if_neg hm, if_neg hn] at h
      have habs := ofNat_injective h
      omega

end Numeral

/-- A hexadecimal digit stands for one number. -/
theorem hexDigit_inj {m n : Nat} (hm : m < 16) (hn : n < 16) (h : hexDigit m = hexDigit n) :
    m = n := by
  have hall : ∀ i j : Fin 16, hexDigit i = hexDigit j → i = j := by decide
  exact congrArg Fin.val (hall ⟨m, hm⟩ ⟨n, hn⟩ h)

/-- A byte can be told from how it is quoted: the two ways to quote differ in length. -/
theorem Byte.quoted_injective : Function.Injective Byte.quoted := by
  intro b b' h
  have hlength := congrArg List.length h
  unfold Byte.quoted at h hlength
  by_cases hb : b.isPrintable = true
  · by_cases hb' : b'.isPrintable = true
    · rw [if_pos hb, if_pos hb'] at h
      simpa using h
    · rw [if_pos hb, if_neg hb'] at hlength
      cases hlength
  · by_cases hb' : b'.isPrintable = true
    · rw [if_neg hb, if_pos hb'] at hlength
      cases hlength
    · rw [if_neg hb, if_neg hb', List.append_cancel_right_eq, List.append_cancel_left_eq] at h
      have hlt : b.toNat < 256 := b.toNat_lt
      have hlt' : b'.toNat < 256 := b'.toNat_lt
      obtain ⟨hhigh, htail⟩ := List.cons.inj h
      obtain ⟨hlow, -⟩ := List.cons.inj htail
      have hhigh := hexDigit_inj (by omega) (by omega) hhigh
      have hlow := hexDigit_inj (by omega) (by omega) hlow
      exact UInt8.toNat_inj.1 (by omega)

/-- An apostrophe and a backslash are quoted as they are, and still told apart. -/
example : (39 : Byte).quoted = [39, 39, 39] ∧ (92 : Byte).quoted = [39, 92, 39] := by decide

/-- A role and what stands behind its word can be told apart. -/
theorem Role.text_append_inj {r r' : Role} {s t : Text} (h : r.text ++ s = r'.text ++ t) :
    r = r' ∧ s = t := by
  refine Text.append_inj_of_take 6 ?_ ?_ h
  · intro r
    cases r <;> decide
  · intro r r'
    cases r <;> cases r' <;> decide

/-- A kind and what stands behind its words can be told apart. -/
theorem Kind.text_append_inj {k k' : Kind} {s t : Text} (h : k.text ++ s = k'.text ++ t) :
    k = k' ∧ s = t := by
  refine Text.append_inj_of_take 2 ?_ ?_ h
  · intro k
    rcases k with _ | (_ | _ | _ | _) | _ <;> decide
  · intro k k'
    rcases k with _ | (_ | _ | _ | _) | _ <;> rcases k' with _ | (_ | _ | _ | _) | _ <;> decide

namespace Token

/-- What the words for a token say behind those for its kind. -/
def valueWords (t : Token) : Text :=
  match t.lexeme with
  | .integer value => ascii " " ++ Numeral.ofInt value.toInt
  | _ => []

theorem describe_eq (t : Token) : t.describe = t.kind.text ++ t.valueWords := by
  obtain ⟨lexeme, position⟩ := t
  rcases lexeme with value | op | _
  · show Kind.integer.text ++ ascii " " ++ Numeral.ofInt value.toInt = _
    rw [List.append_assoc]
    rfl
  · exact (List.append_nil _).symm
  · exact (List.append_nil _).symm

/-- The lexeme of a token can be told from the words for it. -/
theorem lexeme_eq_of_describe_eq {t t' : Token} (h : t.describe = t'.describe) :
    t.lexeme = t'.lexeme := by
  rw [describe_eq, describe_eq] at h
  obtain ⟨hkind, hvalue⟩ := Kind.text_append_inj h
  obtain ⟨lexeme, position⟩ := t
  obtain ⟨lexeme', position'⟩ := t'
  rcases lexeme with value | op | _ <;> rcases lexeme' with value' | op' | _
  all_goals cases hkind
  · have hint := Numeral.ofInt_injective (List.append_cancel_left hvalue)
    exact congrArg Lexeme.integer (Int64.toInt_inj.1 hint)
  · rfl
  · rfl

end Token

/-! ### Messages -/

/-- The forms of the messages for the errors of lines. -/
inductive Form where
  | invalidCharacter
  | outOfRange
  | unexpected
  | divisionByZero
  deriving DecidableEq

/-- The words that a message of a form begins with. -/
def Form.words : Form → Text
  | invalidCharacter => ascii "invalid character "
  | outOfRange => ascii "integer literal out of range"
  | unexpected => ascii "expected "
  | divisionByZero => ascii "division by zero"

/-- A form and what stands behind its words can be told apart. -/
theorem Form.words_append_inj {f f' : Form} {s t : Text} (h : f.words ++ s = f'.words ++ t) :
    f = f' ∧ s = t := by
  refine Text.append_inj_of_take 3 ?_ ?_ h
  · intro f
    cases f <;> decide
  · intro f f'
    cases f <;> cases f' <;> decide

namespace Error

/-- An error of a position has a form, and its message says something behind the words of
    the form. -/
inductive Told : Form → Text → Nat → Error → Prop where
  | invalidCharacter (b : Byte) (p : Nat) :
      Told .invalidCharacter b.quoted p (.lexical .invalidCharacter b p)
  | outOfRange (b : Byte) (p : Nat) : Told .outOfRange [] p (.lexical .outOfRange b p)
  | unexpected (expected : Role) (found : Token) :
      Told .unexpected (expected.text ++ (ascii " but found " ++ found.describe)) found.position
        (.unexpected expected found)
  | divisionByZero (p : Nat) : Told .divisionByZero [] p (.divisionByZero p)

/-- The errors that arise at a position are told by their form. -/
theorem ArisesAt.exists_told {p : Nat} {e : Error} (h : e.ArisesAt p) :
    ∃ f said, Told f said p e := by
  cases h with
  | invalidCharacter b p => exact ⟨_, _, .invalidCharacter b p⟩
  | outOfRange b p => exact ⟨_, _, .outOfRange b p⟩
  | unexpected expected found => exact ⟨_, _, .unexpected expected found⟩
  | divisionByZero p => exact ⟨_, _, .divisionByZero p⟩

variable {f f' : Form} {said said' : Text} {p p' : Nat} {e e' : Error}

/-- The numeral of the position is all of the digits at the end of a message. -/
theorem Told.message_eq (h : Told f said p e) :
    e.message = (f.words ++ said ++ ascii " at position ") ++ Numeral.ofNat p := by
  cases h <;> simp [message, place, Form.words]

/-- The pieces of a message can be told from the message. -/
theorem Told.eq_of_message_eq (h : Told f said p e) (h' : Told f' said' p' e')
    (hmessage : e.message = e'.message) : f = f' ∧ said = said' ∧ p = p' := by
  rw [h.message_eq, h'.message_eq] at hmessage
  have hblank : ∀ t : Text, (t ++ ascii " at position ").digitBehind = false := by
    intro t
    have hlast : (ascii " at position ").getLast? = some 32 := by decide
    rw [Text.digitBehind, List.getLast?_append, hlast]
    rfl
  obtain ⟨hfront, hnumeral⟩ := Text.append_digits_inj (hblank _) (hblank _)
    (fun _ => Numeral.isDigit_of_mem_ofNat) (fun _ => Numeral.isDigit_of_mem_ofNat) hmessage
  have hwords := List.append_cancel_right hfront
  obtain ⟨hform, hsaid⟩ := Form.words_append_inj hwords
  exact ⟨hform, hsaid, Numeral.ofNat_injective hnumeral⟩

/-- Errors that are told alike are alike. -/
theorem Told.alike (h : Told f said p e) (h' : Told f said' p' e') (hsaid : said = said')
    (hp : p = p') : e.Alike e' := by
  cases h with
  | invalidCharacter b =>
    cases h' with
    | invalidCharacter b' =>
      obtain rfl := Byte.quoted_injective hsaid
      obtain rfl := hp
      exact .invalidCharacter b p
  | outOfRange b =>
    cases h' with
    | outOfRange b' =>
      obtain rfl := hp
      exact .outOfRange b b' p
  | unexpected expected found =>
    cases h' with
    | unexpected expected' found' =>
      obtain ⟨rfl, hbehind⟩ := Role.text_append_inj hsaid
      have hlexeme := Token.lexeme_eq_of_describe_eq (List.append_cancel_left hbehind)
      obtain ⟨lexeme, position⟩ := found
      obtain ⟨lexeme', position'⟩ := found'
      obtain rfl : lexeme = lexeme' := hlexeme
      obtain rfl : position = position' := hp
      exact .unexpected expected ⟨lexeme, position⟩
  | divisionByZero =>
    cases h' with
    | divisionByZero =>
      obtain rfl := hp
      exact .divisionByZero p

end Error

/-- **Messages are unambiguous.**  The errors of two lines have the same message exactly when
    they are alike: of the same kind and at the same position, with the same byte if it begins
    no token, and with the same role and the same token if one is out of place. -/
theorem message_eq_message_iff {line line' : Text} {e e' : Error}
    (h : evaluate line = .error e) (h' : evaluate line' = .error e') :
    e.message = e'.message ↔ e.Alike e' := by
  constructor
  · intro hmessage
    obtain ⟨p, hp⟩ := exists_arisesAt h
    obtain ⟨p', hp'⟩ := exists_arisesAt h'
    obtain ⟨f, said, htold⟩ := hp.exists_told
    obtain ⟨f', said', htold'⟩ := hp'.exists_told
    obtain ⟨rfl, hsaid, hposition⟩ := htold.eq_of_message_eq htold' hmessage
    exact htold.alike htold' hsaid hposition
  · exact Error.Alike.message_eq

/-- Two literals out of range begin with different digits and have the same message. -/
theorem message_eq_message_iff_outOfRange :
    let e : Error := .lexical .outOfRange 57 0
    let e' : Error := .lexical .outOfRange 49 0
    evaluate (ascii "9223372036854775808") = .error e
      ∧ evaluate (ascii "10000000000000000000+") = .error e'
      ∧ e ≠ e' ∧ e.message = e'.message ∧ e.Alike e' := by
  intro e e'
  have he : evaluate (ascii "9223372036854775808") = .error e := by decide +kernel
  have he' : evaluate (ascii "10000000000000000000+") = .error e' := by decide +kernel
  have hmessage : e.message = e'.message := by decide +kernel
  exact ⟨he, he', by decide, hmessage, (message_eq_message_iff he he').1 hmessage⟩

end ChainCalc
