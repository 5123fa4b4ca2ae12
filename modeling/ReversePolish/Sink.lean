/-!
Where printed lines go.

A sink is offered lines one after the other. It writes a line, or it refuses it, possibly after
writing a part of it. What it does may depend on all that it was offered before.
-/

namespace ReversePolish

/-- What a sink does with a line. -/
inductive Reception where
  | taken
  /-- Only this part is written. -/
  | refused (part : String) (reason : String)
  deriving DecidableEq, Inhabited

structure Sink where
  /-- All that has been written. -/
  text : String
  /-- All lines that were offered, the first one first. -/
  lines : Array String
  /-- What is done with a line after the lines before it. -/
  receive : Array String → String → Reception

namespace Sink

/-- A sink that takes every line. -/
def empty : Sink := ⟨"", #[], fun _ _ => .taken⟩

instance : Inhabited Sink := ⟨empty⟩

def reception (line : String) (s : Sink) : Reception := s.receive s.lines line

/-- Why the line is refused, if it is. -/
def refusal? (line : String) (s : Sink) : Option String :=
  match s.reception line with
  | .taken => none
  | .refused _ reason => some reason

/-- What is written of a line. -/
def written (line : String) (s : Sink) : String :=
  match s.reception line with
  | .taken => line ++ "\n"
  | .refused part _ => part

def offer (line : String) (s : Sink) : Sink :=
  { s with text := s.text ++ s.written line, lines := s.lines.push line }

end Sink

end ReversePolish
