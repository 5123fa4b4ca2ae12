import ReversePolish.Loader
import ReversePolish.Operator.Arithmetic
import ReversePolish.Operator.Collection
import ReversePolish.Reader
import ReversePolish.Registry
import ReversePolish.Scope
import ReversePolish.Sink

/-!
The machine: everything that running a program can read or change.
-/

namespace ReversePolish

structure Limits where
  /-- How many programs may run one inside the other. -/
  calls : Nat := 128
  /-- How deep forms may nest in a text. -/
  forms : Nat := 64
  /-- How many rounds a loop may make; no number means any number. -/
  rounds : Option Nat := none
  deriving DecidableEq, Inhabited

structure Machine where
  stack : Stack
  heap : Heap
  scope : Scope
  registry : Registry
  loader : Loader
  disk : Disk
  /-- Where lines are printed. -/
  output : Sink
  interrupted : Bool
  exiting : Bool
  /-- How many programs are running. -/
  calls : Nat
  limits : Limits
  display : Display

namespace Machine

/-- A machine before anything has run. -/
def initial (home : String) (registry : Registry) (loader : Loader) (disk : Disk)
    (output : Sink) (limits : Limits) (display : Display) : Machine :=
  ⟨[], .empty, .initial home, registry, loader, disk, output, false, false, 0, limits, display⟩

/-- A stop was asked for, by an interrupt or to end the session. -/
def stopped (m : Machine) : Bool := m.exiting || m.interrupted

/-- What a text read now is read with. -/
def setting (m : Machine) : Setting Command where
  lookup := m.registry.find?
  home := m.scope.current
  load := m.loader m.disk
  maxDepth := m.limits.forms

/-- Reads all values of a text and runs none. -/
def parse (m : Machine) (text : String) : Except Error (List (Datum Command)) :=
  (Reader.ofText text).readAll m.setting

/-- The written form of a value within the display limits. -/
def shown (m : Machine) (v : Value) : String := m.heap.renderWith m.display v

/-- Prints a line, whatever becomes of it. -/
def printLine (line : String) (m : Machine) : Machine := { m with output := m.output.offer line }

/-- The line that reports an error. -/
def reportLine (e : Error) : String := "Error: " ++ e.message

/-- Prints the line that reports an error. It does not matter whether the line is refused. -/
def report (e : Error) (m : Machine) : Machine := m.printLine (reportLine e)

def helpLine (c : Command) : String := c.name ++ " (" ++ c.category ++ "): " ++ c.help

end Machine

/-- Work on the machine that may fail. The machine is then left as it was at the failure. -/
abbrev Action := EStateM Error Machine

namespace Action

def ofExcept {α : Type} : Except Error α → Action α
  | .ok a => pure a
  | .error e => throw e

/-- Reads something off the machine. -/
def ask {α : Type} (f : Machine → α) : Action α := f <$> get

/-- Reads something off the machine that may not be there. -/
def demand {α : Type} (f : Machine → Except Error α) : Action α := do ofExcept (f (← get))

def push (v : Value) : Action Unit := do
  let s ← demand fun m => m.stack.push v
  modify fun m => { m with stack := s }

/-- Drops the top `n` values. -/
def drop (n : Nat) : Action Unit := modify fun m => { m with stack := m.stack.drop n }

def pop : Action Value := do
  let (v, s) ← demand fun m => m.stack.pop
  modify fun m => { m with stack := s }
  return v

/-- The string that lies `n` places below the top. -/
def peekString (n : Nat) : Action String := do
  match ← demand fun m => m.stack.expect n .string with
  | .str s => return s
  | v => throw (.mismatch Kind.string.name v.kind)

/-- The program that lies `n` places below the top. -/
def peekProgram (n : Nat) : Action Program := do
  match ← demand fun m => m.stack.expect n .program with
  | .program p => return p
  | v => throw (.mismatch Kind.program.name v.kind)

def peekInt (n : Nat) : Action Int64 := do
  let v ← demand fun m => m.stack.peek n
  ofExcept v.asInt

/-- Prints a line. It is an error if the line is refused. -/
def printLine (line : String) : Action Unit := do
  let refusal ← ask fun m => m.output.refusal? line
  modify (Machine.printLine line)
  match refusal with
  | none => return
  | some reason => throw (.failed (.unprinted reason))

/-- Lets `f` work on the heap. -/
def onHeap {α : Type} (f : Heap → α × Heap) : Action α :=
  modifyGet fun m =>
    let (a, h) := f m.heap
    (a, { m with heap := h })

/-- Gives storage to what has been read, with no program around it. -/
def store (ds : List (Datum Command)) : Action (List Value) := onHeap (Datum.storeAll ds none)

end Action

end ReversePolish
