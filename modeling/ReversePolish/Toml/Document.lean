import ReversePolish.Toml.Scalar
import ReversePolish.Toml.Table

/-!
Reading TOML documents.

A document is a run of lines. A line is blank, or opens a table, or binds a key; a comment may end
it. Arrays may run over several lines, and inline tables may not.
-/

namespace ReversePolish.Toml

/-- How many keys a path may have, and how deep arrays and inline tables may nest. -/
def maxDepth : Nat := 79

def skipSpace (cs : Rest) : Rest := cs.dropWhile isSpace

/-- Drops spaces, line ends and comments. -/
def skipBlank (inComment : Bool) : Rest → Rest
  | [] => []
  | '\r' :: '\n' :: cs => skipBlank false cs
  | c :: cs =>
    if c = '\n' then skipBlank false cs
    else if c = '#' then skipBlank true cs
    else if isSpace c || (inComment && isTextChar c) then skipBlank inComment cs
    else c :: cs

/-- Drops what may follow on a line that is complete, and the line end. -/
def endLine? (cs : Rest) : Option Rest :=
  let cs := skipSpace cs
  match if cs.head? = some '#' then cs.dropWhile isTextChar else cs with
  | [] => some []
  | cs => newline? cs

def isBareKeyChar (c : Char) : Bool := c.isAlphanum || c == '_' || c == '-'

def readKey (cs : Rest) : Option (String × Rest) :=
  match cs.takeWhile isBareKeyChar with
  | [] => readQuotedKey cs
  | name => some (String.ofList name, cs.drop name.length)

/-- Reads keys with dots between them, at most as many as the first argument says, and the spaces
around them. -/
def readPath : Nat → Rest → Option (List String × Rest)
  | 0, _ => none
  | n + 1, cs => do
    let (k, cs) ← readKey (skipSpace cs)
    match skipSpace cs with
    | '.' :: cs =>
      let (ks, cs) ← readPath n cs
      some (k :: ks, cs)
    | cs => some ([k], cs)

/-- Reads a path and the equals sign behind it. -/
def readBinder (cs : Rest) : Option (List String × Rest) := do
  match ← readPath maxDepth cs with
  | (path, '=' :: cs) => some (path, skipSpace cs)
  | _ => none

/-- Reads what follows the opening bracket of an array. Reading takes at most as many steps as
there are characters. -/
def readItems (value : Rest → Option (Value × Rest)) : Nat → Rest → Option (List Value × Rest)
  | 0, _ => none
  | n + 1, cs =>
    match skipBlank false cs with
    | ']' :: cs => some ([], cs)
    | cs => do
      let (v, cs) ← value cs
      match skipBlank false cs with
      | ']' :: cs => some ([v], cs)
      | ',' :: cs =>
        let (vs, cs) ← readItems value n cs
        some (v :: vs, cs)
      | _ => none

/-- Reads the bindings of an inline table, of which there is at least one. -/
def readBindings (value : Rest → Option (Value × Rest)) :
    Nat → Entries → Rest → Option (Entries × Rest)
  | 0, _, _ => none
  | n + 1, es, cs => do
    let (path, cs) ← readBinder cs
    let (v, cs) ← value cs
    let es ← es.bind path v
    match skipSpace cs with
    | '}' :: cs => some (es, cs)
    | ',' :: cs => readBindings value n es cs
    | _ => none

/-- Reads a value in which arrays and inline tables nest at most `depth` deep. -/
def readValue (depth : Nat) (cs : Rest) : Option (Value × Rest) :=
  match cs with
  | '"' :: _ | '\'' :: _ => do
    let (s, cs) ← readString cs
    some (.str s, cs)
  | '[' :: cs =>
    match depth with
    | 0 => none
    | d + 1 => do
      let (vs, cs) ← readItems (readValue d) (cs.length + 1) cs
      some (.array vs, cs)
  | '{' :: cs =>
    match depth, skipSpace cs with
    | 0, _ => none
    | _ + 1, '}' :: cs => some (.table [], cs)
    | d + 1, cs => do
      let (es, cs) ← readBindings (readValue d) (cs.length + 1) [] cs
      some (.table (entriesToValues es), cs)
  | cs => readScalar cs

/-- Reads the lines of a document, of which there are fewer than the first argument. -/
def readDocument : Nat → Document → Rest → Option Document
  | 0, _, _ => none
  | n + 1, d, cs =>
    match skipBlank false cs with
    | [] => some d
    | '[' :: '[' :: cs => do
      match ← readPath maxDepth cs with
      | (path, ']' :: ']' :: cs) => readDocument n (← d.openArray path) (← endLine? cs)
      | _ => none
    | '[' :: cs => do
      match ← readPath maxDepth cs with
      | (path, ']' :: cs) => readDocument n (← d.openTable path) (← endLine? cs)
      | _ => none
    | cs => do
      let (path, cs) ← readBinder cs
      let (v, cs) ← readValue maxDepth cs
      readDocument n (← d.bind path v) (← endLine? cs)

/-- The bindings of a document. A byte order mark in front does not count. -/
def parse? (text : String) : Option (List (String × Value)) := do
  let cs := text.toList
  let cs := if cs.head? = some '\uFEFF' then cs.drop 1 else cs
  let d ← readDocument (cs.length + 1) {} cs
  return entriesToValues (← d.finish)

end ReversePolish.Toml
