import ReversePolish.Key

/-!
What can go wrong, and the one line that says so.
-/

namespace ReversePolish

/-- What sort of value a value is, as diagnostics name it. -/
inductive Kind where
  | integer
  | string
  | none
  | list
  | map
  | program
  | command
  | branch
  | each
  | loop
  deriving DecidableEq, Inhabited

def Kind.name : Kind → String
  | integer => "Integer"
  | string => "String"
  | none => "None"
  | list => "List"
  | map => "Map"
  | program => "Program"
  | command => "Command"
  | branch => "If"
  | each => "For"
  | loop => "While"

/-- A complaint about a source text: what is wrong, the offending token, and an excerpt. -/
structure Complaint where
  message : String
  context : Option String
  found : Option String
  deriving DecidableEq, Inhabited

def Complaint.text (c : Complaint) : String :=
  c.message ++ (c.found.map fun f => " (found `" ++ f ++ "`)").getD "" ++
    (c.context.map fun x => "\n  Context: " ++ x).getD ""

/-- Why a file could not be read or written. -/
inductive DiskFault where
  | notFound
  | notDirectory
  | isDirectory
  | nameTooLong
  | badName
  | notText
  deriving DecidableEq, Inhabited

def DiskFault.text : DiskFault → String
  | notFound => "No such file or directory (os error 2)"
  | notDirectory => "Not a directory (os error 20)"
  | isDirectory => "Is a directory (os error 21)"
  | nameTooLong => "File name too long (os error 36)"
  | badName => "file name contained an unexpected NUL byte"
  | notText => "stream did not contain valid UTF-8"

/-- Why an operation on operands of the right kinds failed. -/
inductive Failure where
  | overflow
  | divisionByZero
  | negativePick (n : Int64)
  | negativeCount (n : Int64)
  | indexOutOfRange (index : Int64) (length : Nat)
  | positionOutOfRange (position : Int64) (length : Nat)
  | keyAbsent (key : Key)
  | rangeTooLong (limit : Nat)
  | emptyNamespace
  | unwritable (path : String) (fault : DiskFault)
  | unreadable (path : String) (fault : DiskFault)
  | invocationsTooDeep (limit : Nat)
  | comparisonTooDeep (limit : Nat)
  | badCommandName (name : String)
  | importsDisabled (name : String)
  | importsTooDeep (name : String) (limit : Nat)
  | badConfiguration
  | disk (fault : DiskFault)
  | unprinted (reason : String)
  deriving DecidableEq, Inhabited

def Failure.text : Failure → String
  | overflow => "integer overflow"
  | divisionByZero => "division by zero"
  | negativePick n => "PICK index " ++ decimal n.toInt ++ " is negative"
  | negativeCount n => "LIST count " ++ decimal n.toInt ++ " is negative"
  | indexOutOfRange i n =>
    "index " ++ decimal i.toInt ++ " out of range for length " ++ decimal n
  | positionOutOfRange i n =>
    "insert position " ++ decimal i.toInt ++ " out of range for length " ++ decimal n
  | keyAbsent key => "key " ++ key.text ++ " not in map"
  | rangeTooLong limit => "RANGE longer than " ++ decimal limit ++ " items"
  | emptyNamespace => "namespace name cannot be empty"
  | unwritable path fault => "cannot write " ++ path ++ ": " ++ fault.text
  | unreadable path fault => "cannot read " ++ path ++ ": " ++ fault.text
  | invocationsTooDeep limit => "program invocations nested deeper than " ++ decimal limit
  | comparisonTooDeep limit =>
    "cannot compare values nested deeper than " ++ decimal limit ++ " levels"
  | badCommandName name => "`" ++ name ++ "` cannot be used as a command name"
  | importsDisabled name => "cannot import `" ++ name ++ "`: imports are disabled"
  | importsTooDeep name limit =>
    "cannot import `" ++ name ++ "`: more than " ++ decimal limit ++ " nested imports"
  | badConfiguration => "invalid configuration"
  | disk fault => fault.text
  | unprinted reason => reason

inductive Error where
  | underflow (needed depth : Nat)
  | mismatch (expected : String) (actual : Kind)
  | notFound (name : String)
  | noFrame
  | malformed (complaint : Complaint)
  | unterminated (complaint : Complaint)
  | failed (failure : Failure)
  deriving DecidableEq, Inhabited

namespace Error

def message : Error → String
  | underflow needed depth =>
    "stack underflow: needed " ++ decimal needed ++ " value(s), stack holds " ++ decimal depth
  | mismatch expected actual => "type mismatch: expected " ++ expected ++ ", got " ++ actual.name
  | notFound name => "name not found: " ++ name
  | noFrame => "no active frame: local variables exist only inside a running program"
  | malformed c => "malformed token: " ++ c.text
  | unterminated c => "unterminated form: " ++ c.text
  | failed f => "operation failed: " ++ f.text

/-- The text ended inside a form, so that more text could complete it. -/
def isIncomplete : Error → Bool
  | unterminated _ => true
  | _ => false

end Error

end ReversePolish
