import ReversePolish.Datum
import ReversePolish.Token.Scan

/-!
Building values out of tokens.

The forms that are open around the current token lie on a stack, innermost first. An opener puts
a form on it, a divider starts the next section of the innermost form, and a closer takes the
form off and makes it a value of the form around it, or, on an empty stack, the value read.
-/

namespace ReversePolish

/-- Mistakes in the arrangement of tokens. -/
inductive Mistake where
  | importWithoutName
  | tooDeep (limit : Nat)
  | strayTerminator
  | oddMap
  | missingThen
  | repeatedThen
  | afterElse
  | missingRepeat
  | repeatedRepeat
  | openForm (f : Form)
  | openInput
  deriving DecidableEq, Inhabited

def Mistake.message : Mistake → String
  | importWithoutName => "`import` must be followed by a module name"
  | tooDeep limit => "forms nested deeper than " ++ decimal limit ++ " levels"
  | strayTerminator => "terminator without a matching opening form"
  | oddMap => "map literal needs key/value pairs"
  | missingThen => "IF needs THEN before ELSE or ENDIF"
  | repeatedThen => "THEN repeated inside IF"
  | afterElse => "THEN or ELSE after ELSE inside IF"
  | missingRepeat => "WHILE needs REPEAT before ENDWHILE"
  | repeatedRepeat => "REPEAT repeated inside WHILE"
  | openForm f => "end of input inside " ++ f.title ++ ", expected `" ++ f.closing ++ "`"
  | openInput => "input ended inside an open form"

/-- A complaint that shows a place of a text. -/
def Complaint.of (message : String) (place : Cursor) (found : Option String) : Complaint :=
  ⟨message, some place.excerpt, found⟩

/-- What the reader is told: the meaning of words, the namespace that programs are read in, the
texts that can be imported, and how deep forms may nest. -/
structure Setting (κ : Type) where
  lookup : String → Option κ
  home : String
  load : String → Except Error String
  maxDepth : Nat

/-- An open form: the sections that are complete, in order, and the values of the section being
read, latest first. -/
structure OpenForm (κ : Type) where
  form : Form
  /-- Where in the root text the form was opened, unless it was opened in an imported text. -/
  origin : Option Cursor
  sections : List (List (Datum κ))
  values : List (Datum κ)

namespace OpenForm

variable {κ : Type}

/-- The values of the section being read, in order. -/
def items (o : OpenForm κ) : List (Datum κ) := o.values.reverse

def push (o : OpenForm κ) (d : Datum κ) : OpenForm κ := { o with values := d :: o.values }

def nextSection (o : OpenForm κ) : OpenForm κ :=
  { o with sections := o.sections ++ [o.items], values := [] }

/-- The error for input that ends inside this form. -/
def unterminated (o : OpenForm κ) : Error :=
  .unterminated ⟨(Mistake.openForm o.form).message, o.origin.map Cursor.excerpt, none⟩

/-- Takes the values of a map two by two; of two values for one key the last counts. -/
def pairs : List (Datum κ) → Except Error (List (Key × Datum κ))
  | k :: v :: rest => do
    let key ← k.key
    let es ← pairs rest
    return (key, v) :: es
  | _ => .ok []

/-- The value that the form makes when it is closed. Without a value the section being read is not
the last one that the form needs. -/
def close (home : String) (o : OpenForm κ) : Except Mistake (Except Error (Datum κ)) :=
  match o.form, o.sections with
  | .list, _ => .ok (.ok (.list o.items))
  | .map, _ =>
    if o.items.length % 2 = 0 then
      .ok ((pairs o.items).map fun es => .map (Table.ofList es).entries)
    else .error .oddMap
  | .program, _ => .ok (.ok (.program home o.items))
  | .branch, [] => .error .missingThen
  | .branch, [cond] => .ok (.ok (.branch cond o.items []))
  | .branch, cond :: thn :: _ => .ok (.ok (.branch cond thn o.items))
  | .each, _ => .ok (.ok (.each o.items))
  | .loop, [] => .error .missingRepeat
  | .loop, cond :: _ => .ok (.ok (.loop cond o.items))

/-- Starts the section that the divider announces. -/
def divide (d : Divider) (o : OpenForm κ) : Except Mistake (OpenForm κ) :=
  match o.form, d, o.sections with
  | .branch, .thenPart, [] => .ok o.nextSection
  | .branch, .elsePart, [_] => .ok o.nextSection
  | .branch, .elsePart, [] => .error .missingThen
  | .branch, .thenPart, [_] => .error .repeatedThen
  | .branch, .thenPart, _ => .error .afterElse
  | .branch, .elsePart, _ => .error .afterElse
  | .loop, .repeatPart, [] => .ok o.nextSection
  | .loop, .repeatPart, _ => .error .repeatedRepeat
  | _, _, _ => .error .strayTerminator

end OpenForm

/-- What becomes of the open forms when a token is read: more to read, or a value. -/
inductive Shift (κ : Type) where
  | more (forms : List (OpenForm κ))
  | value (d : Datum κ)

namespace Shift

variable {κ : Type}

/-- A value goes into the innermost open form; with none open it is the value read. -/
def emit (d : Datum κ) : List (OpenForm κ) → Shift κ
  | [] => value d
  | o :: os => more (o.push d :: os)

end Shift

namespace Setting

variable {κ : Type}

/-- A known word stands for its command, `NAME?` for the help on a known `NAME`, and any other
word for itself as a string. -/
def resolve (s : Setting κ) (w : String) : Datum κ :=
  match s.lookup w with
  | some c => .command c false
  | none =>
    match (Token.askedName? w).bind s.lookup with
    | some c => .command c true
    | none => .str w

/-- Reads the token `t` that stands at `place`, which is in the root text if `inRoot` holds. -/
def shift (s : Setting κ) (inRoot : Bool) (place : Cursor) (t : Token)
    (forms : List (OpenForm κ)) : Except Error (Shift κ) :=
  let complain (m : Mistake) : Except Error (Shift κ) :=
    .error (.malformed (.of m.message place (some t.spelling)))
  match t with
  | .opener f =>
    if s.maxDepth < forms.length + 1 then complain (.tooDeep s.maxDepth)
    else .ok (.more (⟨f, if inRoot then some place else none, [], []⟩ :: forms))
  | .closer f =>
    match forms with
    | [] => complain .strayTerminator
    | o :: os =>
      if o.form = f then
        match o.close s.home with
        | .ok (.ok d) => .ok (.emit d os)
        | .ok (.error e) => .error e
        | .error m => complain m
      else complain .strayTerminator
  | .divider d =>
    match forms with
    | [] => complain .strayTerminator
    | o :: os =>
      match o.divide d with
      | .ok o => .ok (.more (o :: os))
      | .error m => complain m
  | .exit =>
    match s.lookup Token.exitName with
    | some c => .ok (.emit (.command c false) forms)
    | none => .error (.notFound Token.exitName)
  | .int n => .ok (.emit (.int n) forms)
  | .str v => .ok (.emit (.str v) forms)
  | .none => .ok (.emit .none forms)
  | .word w => .ok (.emit (s.resolve w) forms)
  | .importing => complain .importWithoutName

end Setting

end ReversePolish
