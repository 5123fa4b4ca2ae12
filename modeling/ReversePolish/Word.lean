/-!
The core words: names, categories and help lines, in the order in which they are listed.
-/

namespace ReversePolish

inductive Word where
  | dup
  | drop
  | swap
  | copyOver
  | rot
  | depth
  | clear
  | pick
  | add
  | sub
  | mul
  | div
  | mod
  | neg
  | eq
  | neq
  | lt
  | gt
  | le
  | ge
  | not
  | and
  | or
  | list
  | size
  | get
  | put
  | append
  | insert
  | keys
  | range
  | clone
  | toStr
  | sto
  | rcl
  | purge
  | lsto
  | lrcl
  | setNs
  | ns
  | vars
  | eval
  | call
  | register
  | unregister
  | tryCatch
  | print
  | help
  | parse
  | save
  | restore
  | exit
  | interrupt
  deriving DecidableEq, Inhabited

namespace Word

/-- How a word presents itself. -/
structure Entry where
  name : String
  category : String
  help : String
  deriving DecidableEq, Inhabited

def entry : Word → Entry
  | dup => ⟨"DUP", "stack", "( a -- a a ) duplicate the top value"⟩
  | drop => ⟨"DROP", "stack", "( a -- ) discard the top value"⟩
  | swap => ⟨"SWAP", "stack", "( a b -- b a ) exchange the top two values"⟩
  | copyOver => ⟨"OVER", "stack", "( a b -- a b a ) copy the second value to the top"⟩
  | rot => ⟨"ROT", "stack", "( a b c -- b c a ) rotate the third value to the top"⟩
  | depth => ⟨"DEPTH", "stack", "( -- n ) number of values on the stack"⟩
  | clear => ⟨"CLEAR", "stack", "( ... -- ) remove every value"⟩
  | pick => ⟨"PICK", "stack", "( ... n -- ... x ) copy the value n below the index"⟩
  | add => ⟨"ADD", "arithmetic", "( a b -- a+b ) add integers, concatenate strings or lists"⟩
  | sub => ⟨"SUB", "arithmetic", "( a b -- a-b ) subtract integers"⟩
  | mul => ⟨"MUL", "arithmetic", "( a b -- a*b ) multiply integers"⟩
  | div => ⟨"DIV", "arithmetic", "( a b -- a/b ) integer division, truncating"⟩
  | mod => ⟨"MOD", "arithmetic", "( a b -- a%b ) remainder of integer division"⟩
  | neg => ⟨"NEG", "arithmetic", "( a -- -a ) negate an integer"⟩
  | eq => ⟨"EQ", "comparison", "( a b -- flag ) equality of two values of the same type"⟩
  | neq => ⟨"NEQ", "comparison", "( a b -- flag ) inequality of two values of the same type"⟩
  | lt => ⟨"LT", "comparison", "( a b -- flag ) a < b for integers or strings"⟩
  | gt => ⟨"GT", "comparison", "( a b -- flag ) a > b for integers or strings"⟩
  | le => ⟨"LE", "comparison", "( a b -- flag ) a <= b for integers or strings"⟩
  | ge => ⟨"GE", "comparison", "( a b -- flag ) a >= b for integers or strings"⟩
  | not => ⟨"NOT", "logic", "( a -- flag ) logical negation"⟩
  | and => ⟨"AND", "logic", "( a b -- flag ) logical and"⟩
  | or => ⟨"OR", "logic", "( a b -- flag ) logical or"⟩
  | list => ⟨"LIST", "collections", "( x1 .. xn n -- list ) pack n values into a list"⟩
  | size => ⟨"SIZE", "collections", "( coll -- n ) length of a list, map or string"⟩
  | get => ⟨"GET", "collections", "( coll key -- value ) list element or map entry"⟩
  | put => ⟨"PUT", "collections", "( coll key value -- coll ) store into a list or map in place"⟩
  | append => ⟨"APPEND", "collections", "( list x -- list ) append in place"⟩
  | insert => ⟨"INSERT", "collections", "( list i x -- list ) insert before position i in place"⟩
  | keys => ⟨"KEYS", "collections", "( map -- list ) keys in iteration order"⟩
  | range => ⟨"RANGE", "collections", "( start end -- list ) integers from start up to end"⟩
  | clone => ⟨"CLONE", "collections", "( a -- copy ) one-level-deep copy"⟩
  | toStr => ⟨"TOSTR", "strings", "( a -- string ) canonical text of a value"⟩
  | sto => ⟨"STO", "variables", "( value name -- ) store a variable"⟩
  | rcl => ⟨"RCL", "variables", "( name -- value ) recall a variable"⟩
  | purge => ⟨"PURGE", "variables", "( name -- ) delete a variable"⟩
  | lsto => ⟨"LSTO", "variables", "( value name -- ) store a local of the running program"⟩
  | lrcl => ⟨"LRCL", "variables", "( name -- value ) recall a local of the running program"⟩
  | setNs => ⟨"SETNS", "variables", "( name -- ) make a namespace current"⟩
  | ns => ⟨"NS", "variables", "( -- name ) the current namespace"⟩
  | vars => ⟨"VARS", "variables", "( -- list ) variable names of the current namespace"⟩
  | eval => ⟨"EVAL", "programs", "( program -- ... ) invoke a program"⟩
  | call => ⟨"CALL", "programs", "( name -- ... ) invoke a variable or command by name"⟩
  | register => ⟨"REGISTER", "programs", "( program name -- ) define a new word"⟩
  | unregister => ⟨"UNREGISTER", "programs", "( name -- ) remove a word"⟩
  | tryCatch => ⟨"TRYCATCH", "programs",
    "( try catch -- ... ) run try; on error push the message and run catch"⟩
  | print => ⟨"PRINT", "io", "( a -- ) print a value"⟩
  | help => ⟨"HELP", "io", "( -- ) list words by category"⟩
  | parse => ⟨"PARSE", "io", "( text -- program ) read text into a program"⟩
  | save => ⟨"SAVE", "io", "( value path -- ) write a value to a file"⟩
  | restore => ⟨"RESTORE", "io", "( path -- values ) read values saved with SAVE"⟩
  | exit => ⟨"EXIT", "session", "( -- ) end the session"⟩
  | interrupt => ⟨"INTERRUPT", "session", "( -- ) stop the running input as Ctrl-C does"⟩

def name (w : Word) : String := w.entry.name

def category (w : Word) : String := w.entry.category

def helpLine (w : Word) : String := w.entry.help

/-- Every word, in listing order. -/
def all : List Word :=
  [.dup, .drop, .swap, .copyOver, .rot, .depth, .clear, .pick, .add, .sub, .mul, .div, .mod, .neg,
    .eq, .neq, .lt, .gt, .le, .ge, .not, .and, .or, .list, .size, .get, .put, .append, .insert,
    .keys, .range, .clone, .toStr, .sto, .rcl, .purge, .lsto, .lrcl, .setNs, .ns, .vars, .eval,
    .call, .register, .unregister, .tryCatch, .print, .help, .parse, .save, .restore, .exit,
    .interrupt]

/-- Finds a word by its name. -/
def ofName? (name : String) : Option Word := all.find? fun w => w.name == name

theorem mem_all (w : Word) : w ∈ all := by cases w <;> decide

end Word

end ReversePolish
