import ChainCalc.Evaluation

namespace ChainCalc

/-!
# Sessions — one line served piece by piece

Requests for the next token and for the value of what is left can take turns on one
line.  Each goes on where the one before it stopped, whether that one succeeded or not.

* `Lexer.serve` — answer one request.
* `Lexer.session` — answer a list of requests.
-/

/-- What can be asked of a place in a line. -/
inductive Request where
  /-- The next token. -/
  | token
  /-- The value of the chain that is left. -/
  | value
  deriving DecidableEq

/-- The answer to a request. -/
inductive Reply where
  | token (outcome : Except Error Token)
  | value (outcome : Except Error Number)
  deriving DecidableEq

namespace Lexer

/-- Answer a request, and stand behind what was read for it. -/
def serve (lx : Lexer) : Request → Reply × Lexer
  | .token => let (outcome, behind) := lx.next; (.token outcome, behind)
  | .value => let (outcome, behind) := lx.evaluate; (.value outcome, behind)

/-- The answers to a list of requests. -/
def session (lx : Lexer) : List Request → List Reply
  | [] => []
  | request :: more => (lx.serve request).1 :: (lx.serve request).2.session more

/-- There is one answer for each request. -/
@[simp] theorem length_session (lx : Lexer) (requests : List Request) :
    (lx.session requests).length = requests.length := by
  induction requests generalizing lx with
  | nil => rfl
  | cons request more ih => simp [session, ih]

end Lexer

end ChainCalc
