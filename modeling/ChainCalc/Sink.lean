import ChainCalc.Text

namespace ChainCalc

/-!
# Sinks — output that may fail

A sink keeps the bytes that it accepted.  It may have room for so many bytes only; a
write that would pass the limit stores what still fits, and from then on the sink has
failed and accepts nothing more.

* `Sink.accepted` — the bytes that a sink has accepted, in order.
* `Sink.write` — write a text; two writes are one write of both texts (`write_write`).
* `Console` — a sink for results and one for errors.
-/

/-- An output that may have a limit and may have failed.  What it accepted is kept in
    reverse, so that a write costs no more than the length of what is written. -/
structure Sink where
  /-- The accepted bytes, the latest first. -/
  reversed : Text
  /-- How many more bytes fit, if there is a limit. -/
  room : Option Nat
  failed : Bool
  deriving DecidableEq

namespace Sink

/-- An empty sink with room for so many bytes, or without a limit. -/
def ofRoom (room : Option Nat) : Sink := ⟨[], room, false⟩

/-- The bytes that a sink has accepted, in order. -/
def accepted (s : Sink) : Text := s.reversed.reverse

/-- Write a text, as far as it fits.  A text that fits exactly does not fail, and
    neither does an empty one. -/
def write (s : Sink) (t : Text) : Sink :=
  if s.failed then s
  else
    match s.room with
    | none => { s with reversed := t.reverse ++ s.reversed }
    | some n =>
      if t.length ≤ n then
        { s with reversed := t.reverse ++ s.reversed, room := some (n - t.length) }
      else ⟨(t.take n).reverse ++ s.reversed, some 0, true⟩

/-- A failed sink ignores what is written. -/
@[simp] theorem write_of_failed {s : Sink} (h : s.failed = true) (t : Text) :
    s.write t = s := by
  simp [write, h]

/-- Writing nothing changes nothing. -/
@[simp] theorem write_nil (s : Sink) : s.write [] = s := by
  obtain ⟨reversed, room, failed⟩ := s
  cases failed <;> cases room <;> simp [write]

/-- What was accepted stays accepted. -/
theorem accepted_prefix_write (s : Sink) (t : Text) : s.accepted <+: (s.write t).accepted := by
  unfold write accepted
  split
  · exact List.prefix_rfl
  · split
    · simp
    · split <;> simp

/-- A sink without a limit accepts every text. -/
theorem accepted_write_of_room_none {s : Sink} (hf : s.failed = false) (hr : s.room = none)
    (t : Text) : (s.write t).accepted = s.accepted ++ t := by
  simp [write, accepted, hf, hr]

/-- Two writes are one write of both texts. -/
theorem write_write (s : Sink) (t u : Text) : (s.write t).write u = s.write (t ++ u) := by
  obtain ⟨reversed, room, failed⟩ := s
  cases failed
  · cases room with
    | none => simp [write]
    | some n =>
      by_cases ht : t.length ≤ n
      · -- The first text fits whole, so the limit falls into the second if anywhere.
        have htake : t.take n = t := List.take_of_length_le ht
        by_cases hu : u.length ≤ n - t.length
        · have hboth : t.length + u.length ≤ n := by omega
          simp [write, ht, hu, hboth, Nat.sub_sub]
        · have hboth : ¬ t.length + u.length ≤ n := by omega
          simp [write, ht, hu, hboth, List.take_append, htake]
      · -- The limit falls into the first text, and nothing of the second is stored.
        have hboth : ¬ t.length + u.length ≤ n := by omega
        have hnone : n - t.length = 0 := by omega
        simp [write, ht, hboth, List.take_append, hnone]
  · simp [write]

end Sink

/-- Where a calculator writes: results to one sink, errors to another. -/
structure Console where
  out : Sink
  err : Sink
  deriving DecidableEq

namespace Console

/-- A console that has accepted nothing and never fails. -/
def unlimited : Console := ⟨Sink.ofRoom none, Sink.ofRoom none⟩

/-- Write to the results. -/
def print (c : Console) (t : Text) : Console := { c with out := c.out.write t }

/-- Write to the errors. -/
def complain (c : Console) (t : Text) : Console := { c with err := c.err.write t }

/-- A console has failed when either sink has. -/
def failed (c : Console) : Bool := c.out.failed || c.err.failed

end Console

end ChainCalc
