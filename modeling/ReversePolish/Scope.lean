import ReversePolish.Table
import ReversePolish.Text.Split
import ReversePolish.Value

/-!
Variables.

Global variables belong to modules. A name `m.v` is the variable `v` of the module `m`, split at
the last dot, and any other name is a variable of the current module. Each running program has
local variables of its own, which no other program sees.
-/

namespace ReversePolish

abbrev Variables := Table String Value

/-- A running program and its local variables. -/
structure Activation where
  program : Program
  locals : Variables := ∅

structure Scope where
  modules : Table String Variables
  current : String
  /-- The running programs, innermost first. -/
  frames : List Activation

namespace Scope

def initial (home : String) : Scope := ⟨Table.empty.insert home ∅, home, []⟩

instance : Inhabited Scope := ⟨initial ""⟩

/-- Adds an empty module unless there is a module of that name. -/
def create (name : String) (s : Scope) : Scope :=
  if s.modules.contains name then s else { s with modules := s.modules.insert name ∅ }

def module? (name : String) (s : Scope) : Option Variables := s.modules.find? name

/-- Makes a module the current one, adding it if necessary, and gives the one that was current. -/
def switch (name : String) (s : Scope) : String × Scope :=
  if name = s.current then (name, s) else (s.current, { s.create name with current := name })

/-- The module and the variable that a name means. -/
def resolve (name : String) (s : Scope) : String × String :=
  match splitLast '.' name.toList with
  | some (m, v) => if m.isEmpty || v.isEmpty then (s.current, name) else (.ofList m, .ofList v)
  | none => (s.current, name)

def set (m v : String) (x : Value) (s : Scope) : Scope :=
  { s with modules := s.modules.insert m (((s.modules.find? m).getD ∅).insert v x) }

def get (m v : String) (s : Scope) : Except Error Value :=
  match s.modules.find? m with
  | none => .error (.notFound ("module `" ++ m ++ "`"))
  | some vars =>
    match vars.find? v with
    | none => .error (.notFound (m ++ "." ++ v))
    | some x => .ok x

def store (name : String) (x : Value) (s : Scope) : Scope :=
  let (m, v) := s.resolve name
  s.set m v x

def fetch (name : String) (s : Scope) : Except Error Value :=
  let (m, v) := s.resolve name
  s.get m v

/-- Removes a variable and gives its value. -/
def purge (name : String) (s : Scope) : Except Error (Value × Scope) :=
  let (m, v) := s.resolve name
  match (s.modules.find? m).bind fun vars => (vars.find? v).map fun x => (vars, x) with
  | none => .error (.notFound (m ++ "." ++ v))
  | some (vars, x) => .ok (x, { s with modules := s.modules.insert m (vars.erase v) })

def enter (p : Program) (s : Scope) : Scope := { s with frames := { program := p } :: s.frames }

def leave (s : Scope) : Scope := { s with frames := s.frames.tail }

def program? (s : Scope) : Option Program := s.frames.head?.map (·.program)

def setLocal (name : String) (x : Value) (s : Scope) : Except Error Scope :=
  match s.frames with
  | [] => .error .noFrame
  | f :: fs => .ok { s with frames := { f with locals := f.locals.insert name x } :: fs }

def getLocal (name : String) (s : Scope) : Except Error Value :=
  match s.frames with
  | [] => .error .noFrame
  | f :: _ =>
    match f.locals.find? name with
    | some x => .ok x
    | none => .error (.notFound ("local `" ++ name ++ "`"))

end Scope

end ReversePolish
