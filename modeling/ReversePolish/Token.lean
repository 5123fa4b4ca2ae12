import ReversePolish.Text.Blank
import ReversePolish.Text.Decimal
import ReversePolish.Text.Quoted

/-!
Tokens: the brackets of the forms, the keywords that divide a form into sections, literals and
words.
-/

namespace ReversePolish

/-- The forms that enclose other values. -/
inductive Form where
  | list
  | map
  | program
  | branch
  | each
  | loop
  deriving DecidableEq, Inhabited

namespace Form

def opening : Form → String
  | list => "["
  | map => "\x7b"
  | program => "<<"
  | branch => "IF"
  | each => "FOR"
  | loop => "WHILE"

def closing : Form → String
  | list => "]"
  | map => "\x7d"
  | program => ">>"
  | branch => "ENDIF"
  | each => "ENDFOR"
  | loop => "ENDWHILE"

/-- How diagnostics call the form. -/
def title : Form → String
  | list => "a list"
  | map => "a map"
  | program => "a program"
  | branch => "IF"
  | each => "FOR"
  | loop => "WHILE"

end Form

/-- Keywords between the sections of a form. -/
inductive Divider where
  | thenPart
  | elsePart
  | repeatPart
  deriving DecidableEq, Inhabited

def Divider.spelling : Divider → String
  | thenPart => "THEN"
  | elsePart => "ELSE"
  | repeatPart => "REPEAT"

inductive Token where
  | opener (f : Form)
  | closer (f : Form)
  | divider (d : Divider)
  | exit
  | int (n : Int64)
  | str (s : String)
  | none
  | importing
  | word (w : String)
  deriving DecidableEq, Inhabited

namespace Token

def exitName : String := "EXIT"
def noneName : String := "None"
def importName : String := "import"

/-- How the token is written. -/
def spelling : Token → String
  | opener f => f.opening
  | closer f => f.closing
  | divider d => d.spelling
  | exit => exitName
  | int n => decimal n.toInt
  | str s => quote s
  | none => noneName
  | importing => importName
  | word w => w

/-- Why no token could be read. Every character begins a token, a gap or a fault of another kind, so
that none is ever `unexpected`. -/
inductive Fault where
  | openString
  | loneAngle (c : Char)
  | tooLarge (digits : String)
  | unexpected (c : Char)
  deriving DecidableEq, Inhabited

def Fault.message : Fault → String
  | openString => "unterminated string literal"
  | loneAngle c =>
    if c = '<' then "`<` must be doubled to start a program (`<<`)"
    else "`>` must be doubled to end a program (`>>`)"
  | tooLarge digits => "integer literal " ++ digits ++ " does not fit in 64 bits"
  | unexpected c => "unexpected character '" ++ c.toString ++ "'"

def isDelimiter (c : Char) : Bool :=
  c == '[' || c == ']' || c == '{' || c == '}' || c == '"' || c == '<' || c == '>'

/-- A character that can be part of a word. -/
def isWordChar (c : Char) : Bool := !isBlank c && !isDelimiter c

/-- The tokens that are written like words. -/
def keyword? (w : String) : Option Token :=
  match w with
  | "IF" => some (opener .branch)
  | "THEN" => some (divider .thenPart)
  | "ELSE" => some (divider .elsePart)
  | "ENDIF" => some (closer .branch)
  | "FOR" => some (opener .each)
  | "ENDFOR" => some (closer .each)
  | "WHILE" => some (opener .loop)
  | "REPEAT" => some (divider .repeatPart)
  | "ENDWHILE" => some (closer .loop)
  | "EXIT" => some exit
  | "None" => some none
  | "import" => some importing
  | _ => Option.none

/-- The token that a run of word characters is. -/
def ofWord (cs : List Char) : Except Fault Token :=
  match integer? cs with
  | some n =>
    match int64? n with
    | some i => .ok (int i)
    | Option.none => .error (.tooLarge (String.ofList cs))
  | Option.none => .ok ((keyword? (String.ofList cs)).getD (word (String.ofList cs)))

/-- Whether a name, standing alone, would be read as a word or a keyword. -/
def isWordText (name : String) : Bool :=
  let cs := name.toList
  !cs.isEmpty && cs.head? != some '#' && cs.all isWordChar && (integer? cs).isNone

/-- The word that a word ending in `?` asks about. -/
def askedName? (w : String) : Option String :=
  match w.toList.reverse with
  | '?' :: cs => some (String.ofList cs.reverse)
  | _ => Option.none

end Token

end ReversePolish
