import ReversePolish.Execution
import ReversePolish.Text.Lines

/-!
Interactive sessions.

A session is fed lines. What is complete runs at once, and errors are reported and do not end the
session. A form that is still open at the end of a line waits for more lines.
-/

namespace ReversePolish

structure Session where
  machine : Machine
  /-- The text of a form that is still open. -/
  pending : String

/-- What the session has to say after a line. -/
inductive Feed where
  /-- All has been run. -/
  | ready
  /-- A form is open, and the next line continues it. -/
  | needsMore
  /-- The session is over. -/
  | exit
  deriving DecidableEq, Inhabited

namespace Session

def start (m : Machine) : Session := ⟨m, ""⟩

def isPending (s : Session) : Bool := !s.pending.isEmpty

def cancelPending (s : Session) : Session := { s with pending := "" }

/-- Reads and runs what a reader has left. No answer means that something ran for more than
`fuel` steps. -/
def feedFrom (fuel : Nat) (r : Reader) (m : Machine) : Option (Feed × Session) :=
  if m.exiting then some (.exit, start m)
  else if m.interrupted then some (.ready, start m)
  else
    match _h : r.next m.setting with
    | .value d r' =>
      let (v, heap) := d.store none m.heap
      match (Execution.ofTasks { m with heap := heap } [.run v, .report]).run fuel with
      | some p => feedFrom fuel r' p.machine
      | none => none
    | .ended _ => some (.ready, start m)
    | .failed e r' =>
      if e.isIncomplete then some (.needsMore, ⟨m, r'.unitText⟩)
      else some (.ready, start (m.report e))
termination_by r
decreasing_by exact Reader.smaller_of_next _h

/-- Takes a line. An interrupt stops only the line that it came in. -/
def feed (fuel : Nat) (line : String) (s : Session) : Option (Feed × Session) :=
  let text := if s.isPending then s.pending ++ "\n" ++ line else line
  feedFrom fuel (.ofText text) { s.machine with interrupted := false }

/-- Feeds lines until the session is over, having last said `last`. -/
def feedLines (fuel : Nat) (last : Feed) : List String → Session → Option (Feed × Session)
  | [], s => some (last, s)
  | l :: ls, s =>
    match s.feed fuel l with
    | some (.exit, s) => some (.exit, s)
    | some (said, s) => feedLines fuel said ls s
    | none => none

/-- Feeds a whole text. It is an error if the text ends inside a form. -/
def feedText (fuel : Nat) (text : String) (s : Session) : Option (Except Error Feed × Session) :=
  match feedLines fuel .ready (lines text) s with
  | some (.needsMore, s) =>
    some (.error (.unterminated ⟨Mistake.openInput.message, some s.pending, none⟩), s.cancelPending)
  | some (said, s) => some (.ok said, s)
  | none => none

/-- The stack as numbered lines, the deepest value first. The top is level 1. -/
def stackLines (s : Session) : List String :=
  (s.machine.stack.zipIdx 1).reverse.map fun (v, level) =>
    decimal level ++ ": " ++ s.machine.shown v

end Session

end ReversePolish
