/-!
What the words of a command line ask for.

An option is known by a long name or a letter, and a value goes with it in the same word or in the
next one. A word that begins with a minus sign is never a value of the word before it, save for a
minus sign alone. Words are taken in order, and the first one that is wrong, or that asks for the
help text or the version, decides.
-/

namespace ReversePolish

/-- The options that there are. -/
inductive Switch where
  | configuration
  | home
  | source
  | help
  | version
  deriving DecidableEq

namespace Switch

def ofName? : String → Option Switch
  | "config" => some configuration
  | "namespace" => some home
  | "eval" => some source
  | "help" => some help
  | "version" => some version
  | _ => none

def ofLetter? : Char → Option Switch
  | 'e' => some source
  | 'h' => some help
  | 'V' => some version
  | _ => none

end Switch

/-- What a word of a command line is when taken by itself. -/
inductive Argument where
  /-- An option, if there is one of that name, and the value in the same word. -/
  | option (s : Option Switch) (value : Option String)
  /-- Two minus signs, after which there are no more options. -/
  | divider
  | plain (text : String)
  deriving DecidableEq

namespace Argument

/-- The value behind the letter of an option, with or without an equals sign between them. -/
def attached : List Char → Option String
  | [] => none
  | '=' :: cs => some (String.ofList cs)
  | cs => some (String.ofList cs)

def of (word : String) : Argument :=
  match word.toList with
  | ['-', '-'] => divider
  | '-' :: '-' :: cs =>
    let name := cs.takeWhile (· ≠ '=')
    option (Switch.ofName? (String.ofList name)) (attached (cs.drop name.length))
  | '-' :: c :: cs =>
    match Switch.ofLetter? c with
    | some .source => option (some .source) (attached cs)
    | s => option s none
  | _ => plain word

end Argument

/-- A run that is asked for. -/
structure Invocation where
  script : Option String := none
  /-- The file that holds the configuration. -/
  configuration : Option String := none
  /-- The namespace to start in. -/
  home : Option String := none
  /-- A text to run instead of a script. -/
  source : Option String := none
  deriving DecidableEq

inductive Request where
  | run (i : Invocation)
  | help
  | version
  deriving DecidableEq

namespace Invocation

/-- Names the script. There is at most one, and its path is not empty. -/
def setScript (i : Invocation) (path : String) : Option Invocation :=
  if i.script.isSome || path.isEmpty then none else some { i with script := some path }

/-- Gives an option its value, which it may have once. -/
def set (i : Invocation) (s : Switch) (value : String) : Option Invocation :=
  match s with
  | .configuration =>
    if i.configuration.isSome || value.isEmpty then none
    else some { i with configuration := some value }
  | .home => if i.home.isSome then none else some { i with home := some value }
  | .source => if i.source.isSome then none else some { i with source := some value }
  | .help | .version => none

/-- Takes words in order. `plain` tells that there are no more options. A script and a text to run
exclude each other. -/
def take (i : Invocation) (plain : Bool) : List String → Option Request
  | [] => if i.script.isSome && i.source.isSome then none else some (.run i)
  | w :: ws =>
    match if plain then .plain w else Argument.of w with
    | .plain path => do (← i.setScript path).take plain ws
    | .divider => i.take true ws
    | .option (some .help) none => some .help
    | .option (some .version) none => some .version
    | .option (some s) (some value) => do (← i.set s value).take plain ws
    | .option (some s) none =>
      match ws with
      | [] => none
      | v :: ws =>
        match Argument.of v with
        | .plain value => do (← i.set s value).take plain ws
        | _ => none
    | .option none _ => none

end Invocation

/-- What a command line asks for, if it is well formed. -/
def Request.of? (words : List String) : Option Request := Invocation.take {} false words

end ReversePolish
