import ChainCalc.Proofs.Wording

namespace ChainCalc

/-!
# Spacing — blanks between tokens do not matter

Blanks that are put into a line, other than between two digits, leave its value as it is.
If the line has an error, the error is the same, further on by the blanks in front of it.

* `shifted` — where the positions of a line are behind an insertion.
* `Lexer.Insertion` — a lexer, and the one at the same place of the line with the blanks.
* `Lexer.Insertion.relocation` — these read the same tokens but for positions.
* `evaluate_append_blanks_append` — the value of the line with the blanks.
-/

/-! ### Borders of joined texts -/

namespace Text

/-- A text ends with a digit if what it ends with does. -/
theorem digitBehind_append_of_right (t : Text) {u : Text} (hu : u.digitBehind = true) :
    digitBehind (t ++ u) = true := by
  cases h : u.getLast? with
  | none => simp [digitBehind, h] at hu
  | some b => simpa [digitBehind, List.getLast?_append, h] using hu

/-- Where no run of digits goes from a text into another, none goes there from its end. -/
theorem apart_of_append (t : Text) {u v : Text}
    (h : ¬ (digitBehind (t ++ u) = true ∧ v.digitAhead = true)) :
    ¬ (u.digitBehind = true ∧ v.digitAhead = true) := by
  intro hboth
  exact h ⟨digitBehind_append_of_right t hboth.1, hboth.2⟩

/-- What comes first behind a text is first only if the text is empty. -/
theorem digitAhead_append {t v : Text} (ht : t.digitAhead = false)
    (hv : t = [] → v.digitAhead = false) : digitAhead (t ++ v) = false := by
  cases t with
  | nil => exact hv rfl
  | cons b t => exact ht

end Text

/-- Where a position is behind an insertion of `k` bytes at `n`: positions from there on
    are further on. -/
def shifted (n k p : Nat) : Nat := if p < n then p else p + k

/-- Some bytes in front of the insertion, positions stay. -/
theorem shifted_of_length {a x : Text} {n p : Nat} (ha : a ≠ [])
    (hp : p + (a ++ x).length = n) (k : Nat) : shifted n k p = p := by
  have hlen : 0 < a.length := List.length_pos_iff.2 ha
  rw [List.length_append] at hp
  exact if_pos (by omega)

/-- From the insertion on, all positions move alike. -/
theorem shifted_add (n k m : Nat) : shifted n k (n + m) = n + k + m := by
  rw [shifted, if_neg (by omega)]
  omega

namespace Lexer

/-! ### A lexer in front of an insertion, and behind it -/

/-- A lexer of a line with `v` from position `n` on, and the lexer at the same place of the
    line that has `w` in front of that `v`. -/
inductive Insertion (w v : Text) (n : Nat) : Lexer → Lexer → Prop where
  /-- The insertion is still ahead, behind `x`. -/
  | ahead (x : Text) {p : Nat} (hp : p + x.length = n)
      (hapart : ¬ (x.digitBehind = true ∧ v.digitAhead = true)) :
      Insertion w v n ⟨x ++ v, p⟩ ⟨x ++ (w ++ v), p⟩
  /-- The insertion is passed. -/
  | passed {lx lx' : Lexer} (h : Moved (shifted n w.length) lx lx') : Insertion w v n lx lx'

variable {w v : Text} {n : Nat}

/-- Right in front of the insertion, the blanks are passed over. -/
theorem Insertion.next_here (hw : w.isBlank = true) (v : Text) (n : Nat) :
    ∃ behind, next ⟨w ++ v, n⟩
        = (relocate (shifted n w.length) (Token.relocate (shifted n w.length))
            (next ⟨v, n⟩).1, behind)
      ∧ Insertion w v n (next ⟨v, n⟩).2 behind := by
  have hhere : shifted n w.length n = n + w.length := shifted_add n w.length 0
  have hmoved : Moved (shifted n w.length) ⟨v, n⟩ ⟨v, n + w.length⟩ := by
    refine ⟨by rw [hhere], fun m => ?_⟩
    rw [hhere, shifted_add]
  obtain ⟨behind, hnext, hbehind⟩ := (Moved.relocation (shifted n w.length)).next hmoved
  rw [next_append_blanks hw]
  exact ⟨behind, hnext, .passed hbehind⟩

/-- **Step lemma.**  The lexers read the same token but for its position, and stay at the
    same place. -/
theorem Insertion.relocation (hw : w.isBlank = true) (v : Text) (n : Nat) :
    Relocation (shifted n w.length) (Insertion w v n) where
  next := by
    intro lx lx' h
    cases h with
    | passed h =>
      obtain ⟨behind, hnext, hbehind⟩ := (Moved.relocation (shifted n w.length)).next h
      exact ⟨behind, hnext, .passed hbehind⟩
    | @ahead x p hp hapart =>
      obtain ⟨b, y, rfl, hb, hy⟩ := exists_front x
      rw [List.append_assoc, List.append_assoc, next_append_blanks hb, next_append_blanks hb]
      have hq : p + b.length + y.length = n := by
        rw [List.length_append] at hp
        omega
      have hyapart := Text.apart_of_append b hapart
      generalize p + b.length = q at hq
      cases hy with
      | nothing =>
        -- The blanks in front of the insertion go on with those of the insertion.
        obtain rfl : q = n := hq
        exact Insertion.next_here hw v q
      | symbol op t =>
        have hstay := shifted_of_length (a := [op.symbol]) (by simp) hq w.length
        have htapart := Text.apart_of_append [op.symbol] hyapart
        rw [List.length_cons] at hq
        simp only [List.cons_append, next_symbol, relocate, Token.relocate, hstay]
        exact ⟨_, rfl, .ahead t (by omega) htapart⟩
      | @digits r t ht =>
        have hstay := shifted_of_length r.ne_nil hq w.length
        have htapart := Text.apart_of_append r.text hyapart
        -- The run ends at the insertion, if not before, in either line.
        have hv : t = [] → v.digitAhead = false := by
          intro hnil
          have hbehind : r.text.digitBehind = true := r.digitBehind_append_text []
          rw [hnil, List.append_nil] at hyapart
          simpa [hbehind] using hyapart
        have hend : Text.digitAhead (t ++ v) = false := Text.digitAhead_append ht hv
        have hend' : Text.digitAhead (t ++ (w ++ v)) = false := by
          refine Text.digitAhead_append ht ?_
          intro hnil
          exact Text.digitAhead_blank_append hw fun _ => hv hnil
        rw [List.length_append] at hq
        simp only [List.append_assoc, next_digits r hend, next_digits r hend']
        refine ⟨_, Prod.ext ?_ rfl, .ahead t (by omega) htapart⟩
        split <;> simp only [relocate, Token.relocate, Error.relocate, hstay]
      | @stray b hb t =>
        have hstay := shifted_of_length (a := [b]) (by simp) hq w.length
        simp only [List.cons_append, next_stray hb, relocate, Error.relocate, hstay]
        exact ⟨_, rfl, .ahead (b :: t) hq hyapart⟩

end Lexer

/-- **Blanks between tokens do not matter.**  Blanks that do not part two digits leave a
    line its value.  An error stays the same error, at the position behind the insertion,
    and its message says the same about that position. -/
theorem evaluate_append_blanks_append {u w v : Text} (hw : w.isBlank = true)
    (hapart : ¬ (u.digitBehind = true ∧ v.digitAhead = true)) :
    (∀ result, evaluate (u ++ v) = .ok result → evaluate (u ++ w ++ v) = .ok result)
      ∧ ∀ e, evaluate (u ++ v) = .error e →
        let moved := e.relocate (shifted u.length w.length)
        evaluate (u ++ w ++ v) = .error moved
          ∧ ∃ p, e.position? = some p
            ∧ moved.position? = some (shifted u.length w.length p)
            ∧ e.message = e.complaint ++ Error.place p
            ∧ moved.message = e.complaint ++ Error.place (shifted u.length w.length p) := by
  have hahead : Lexer.Insertion w v u.length (.ofLine (u ++ v)) (.ofLine (u ++ (w ++ v))) :=
    .ahead u (Nat.zero_add _) hapart
  obtain ⟨behind, hevaluate, -⟩ := (Lexer.Insertion.relocation hw v u.length).evaluate hahead
  have heq : evaluate (u ++ w ++ v)
      = relocate (shifted u.length w.length) id (evaluate (u ++ v)) := by
    rw [List.append_assoc, evaluate, hevaluate, evaluate]
  constructor
  · intro result hresult
    rw [heq, hresult]
    rfl
  · intro e he moved
    obtain ⟨p, hp⟩ := exists_arisesAt he
    have hmoved : moved.ArisesAt _ := hp.relocate (shifted u.length w.length)
    have hmessage := hmoved.message_eq
    rw [Error.complaint_relocate] at hmessage
    refine ⟨?_, p, hp.position?_eq, hmoved.position?_eq, hp.message_eq, hmessage⟩
    rw [heq, he]
    rfl

/-- Blanks in front of a zero divisor move its position. -/
theorem evaluate_append_blanks_append_zero :
    (ascii " \t").isBlank = true
      ∧ ¬ ((ascii "1+").digitBehind = true ∧ (ascii "2/0").digitAhead = true)
      ∧ evaluate (ascii "1+" ++ ascii "2/0") = .error (.divisionByZero 4)
      ∧ evaluate (ascii "1+" ++ ascii " \t" ++ ascii "2/0") = .error (.divisionByZero 6) := by
  have hblank : (ascii " \t").isBlank = true := by decide
  have hapart : ¬ ((ascii "1+").digitBehind = true ∧ (ascii "2/0").digitAhead = true) := by
    decide
  have herror : evaluate (ascii "1+" ++ ascii "2/0") = .error (.divisionByZero 4) := by
    decide +kernel
  have hmoved := ((evaluate_append_blanks_append hblank hapart).2 _ herror).1
  exact ⟨hblank, hapart, herror, hmoved⟩

end ChainCalc
