import ReversePolish.Invocation
import ReversePolish.Session
import ReversePolish.Configuration

/-!
The shell: what a command line makes the machine do.

A script stops at its first error. A text on the command line and an interactive session go on
after errors, and show the stack.
-/

namespace ReversePolish.Shell

def version : String := "stackrpl 0.1.0\n"

def usage : String := "Usage: stackrpl [OPTIONS] [SCRIPT]\n"

def helpLines : List String :=
  ["",
    "Arguments:",
    "  [SCRIPT]  Script to run instead of starting the interactive shell",
    "",
    "Options:",
    "      --config <PATH>     TOML configuration file",
    "      --namespace <NAME>  Namespace to start in",
    "  -e, --eval <SOURCE>     Evaluate SOURCE, print the resulting stack and exit",
    "  -h, --help              Print help",
    "  -V, --version           Print version"]

def helpText : String :=
  "Stack-based RPN scripting language\n\n" ++ usage ++ String.join (helpLines.map (· ++ "\n"))

/-- What an interactive session begins with. -/
def greeting : String :=
  version ++ "Type HELP for the word list, WORD? for one word, EXIT or Ctrl-D to quit.\n\n"

def farewell : String := "Goodbye!\n"

/-- What a run comes to. -/
structure Outcome where
  /-- Zero is success, one is an error, and two is a command line that is not well formed. -/
  code : Nat
  output : String
  /-- What is printed to the error output. -/
  complaint : String
  disk : Disk

def success (m : Machine) : Outcome := ⟨0, m.output.text, "", m.disk⟩

def failure (message : String) (m : Machine) : Outcome :=
  ⟨1, m.output.text, "Error: " ++ message ++ "\n", m.disk⟩

def ofExcept (r : Except Error Unit) (m : Machine) : Outcome :=
  match r with
  | .ok _ => success m
  | .error e => failure e.message m

/-- The machine that a run starts with. -/
def machine (i : Invocation) (d : Disk) : Except Error Machine := do
  let c ← (i.configuration.map fun path => Configuration.load path d).getD (.ok {})
  return { c with home := i.home.getD c.home }.machine d

/-- Writes a text to where the machine prints its lines. -/
def write (text : String) (m : Machine) : Machine :=
  { m with output := { m.output with text := m.output.text ++ text } }

def showStack (s : Session) : Machine :=
  s.stackLines.foldl (fun m l => write (l ++ "\n") m) s.machine

/-- Runs a text and shows the stack. -/
def evaluate (fuel : Nat) (source : String) (m : Machine) : Option Outcome :=
  match (Session.start m).feedText fuel source with
  | some (.ok _, s) => some (success (showStack s))
  | some (.error e, s) => some (failure e.message s.machine)
  | none => none

/-- Runs a script. -/
def runScript (fuel : Nat) (path : String) (m : Machine) : Option Outcome :=
  match m.disk.read path with
  | .error fault => some (failure (Failure.unreadable path fault).text m)
  | .ok text =>
    match (Execution.ofTasks m [.source (.ofText text)]).run fuel with
    | some p => some (ofExcept (p.error.elim (.ok ()) .error) p.machine)
    | none => none

/-- Feeds a line to a session, and shows the stack once nothing is open. The session is given back
unless it is over. -/
def takeLine (fuel : Nat) (line : String) (s : Session) : Option (Machine × Option Session) :=
  match s.feed fuel line with
  | some (.ready, s) =>
    let m := showStack s
    some (m, some { s with machine := m })
  | some (.needsMore, s) => some (s.machine, some s)
  | some (.exit, s) => some (s.machine, none)
  | none => none

def takeLines (fuel : Nat) (s : Session) : List String → Option Machine
  | [] => some s.machine
  | l :: ls =>
    match takeLine fuel l s with
    | some (_, some s) => takeLines fuel s ls
    | some (m, none) => some m
    | none => none

/-- An interactive session, from its greeting to its end. -/
def interact (fuel : Nat) (input : String) (m : Machine) : Option Outcome :=
  match takeLines fuel (.start (write greeting m)) (lines input) with
  | some m => some (success (write farewell m))
  | none => none

/-- Does what a command line asks for. No answer means that something ran for more than `fuel`
steps. -/
def run (fuel : Nat) (words : List String) (input : String) (d : Disk) : Option Outcome :=
  match Request.of? words with
  | none => some ⟨2, "", usage, d⟩
  | some .help => some ⟨0, helpText, "", d⟩
  | some .version => some ⟨0, version, "", d⟩
  | some (.run i) =>
    match machine i d with
    | .error e => some ⟨1, "", "Error: " ++ e.message ++ "\n", d⟩
    | .ok m =>
      match i.source, i.script with
      | some source, _ => evaluate fuel source m
      | none, some path => runScript fuel path m
      | none, none => interact fuel input m

end ReversePolish.Shell
