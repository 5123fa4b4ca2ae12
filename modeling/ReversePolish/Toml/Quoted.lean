import ReversePolish.Toml.Value

/-!
TOML strings.

A string between double quotes has escapes, one between single quotes has none. Quotes of either
sort may be tripled, and the string may then run over several lines.
-/

namespace ReversePolish.Toml

/-- A character that may stand in a comment or in a string on one line. -/
def isTextChar (c : Char) : Bool := c == '\t' || (c.toNat ≥ 0x20 && c.toNat != 0x7F)

def isSpace (c : Char) : Bool := c == ' ' || c == '\t'

def hexValue? (c : Char) : Option Nat :=
  if '0' ≤ c && c ≤ '9' then some (c.toNat - '0'.toNat)
  else if 'a' ≤ c && c ≤ 'f' then some (c.toNat - 'a'.toNat + 10)
  else if 'A' ≤ c && c ≤ 'F' then some (c.toNat - 'A'.toNat + 10)
  else none

/-- Reads a code point of `n` hexadecimal digits. -/
def readCodePoint (n : Nat) (cs : Rest) : Option (Char × Rest) := do
  let digits ← (cs.take n).mapM hexValue?
  if digits.length < n then none
  let code := digits.foldl (fun a d => 16 * a + d) 0
  if code.isValidChar then some (Char.ofNat code, cs.drop n) else none

/-- Reads what follows a backslash. -/
def readEscape : Rest → Option (Char × Rest)
  | 'b' :: cs => some ('\x08', cs)
  | 't' :: cs => some ('\t', cs)
  | 'n' :: cs => some ('\n', cs)
  | 'f' :: cs => some ('\x0c', cs)
  | 'r' :: cs => some ('\r', cs)
  | '"' :: cs => some ('"', cs)
  | '\\' :: cs => some ('\\', cs)
  | 'u' :: cs => readCodePoint 4 cs
  | 'U' :: cs => readCodePoint 8 cs
  | _ => none

/-- Drops a line end. -/
def newline? : Rest → Option Rest
  | '\n' :: cs => some cs
  | '\r' :: '\n' :: cs => some cs
  | _ => none

/-- Drops spaces and line ends. -/
def skipSpaceLines : Rest → Rest
  | '\r' :: '\n' :: cs => skipSpaceLines cs
  | c :: cs => if isSpace c || c == '\n' then skipSpaceLines cs else c :: cs
  | [] => []

/-- Reads a string on one line after its opening quote `q`; `text` is what has been read, latest
first. Reading takes at most as many steps as there are characters. -/
def readLineString (q : Char) : Nat → List Char → Rest → Option (String × Rest)
  | 0, _, _ => none
  | _ + 1, _, [] => none
  | n + 1, text, c :: cs =>
    if c = q then some (String.ofList text.reverse, cs)
    else if c = '\\' ∧ q = '"' then do
      let (e, cs) ← readEscape cs
      readLineString q n (e :: text) cs
    else if isTextChar c then readLineString q n (c :: text) cs
    else none

/-- Reads a string over several lines after its opening quotes. Up to two quotes may stand before
the closing ones. -/
def readLinesString (q : Char) : Nat → List Char → Rest → Option (String × Rest)
  | 0, _, _ => none
  | _ + 1, _, [] => none
  | n + 1, text, c :: cs =>
    if c = q then
      let quotes := (c :: cs).takeWhile (· == q)
      let more := min (quotes.length - 3) 2
      if 3 ≤ quotes.length then
        some (String.ofList (List.replicate more q ++ text).reverse, (c :: cs).drop (more + 3))
      else readLinesString q n (quotes ++ text) ((c :: cs).drop quotes.length)
    else if c = '\\' ∧ q = '"' then
      match newline? (cs.dropWhile isSpace) with
      | some cs => readLinesString q n text (skipSpaceLines cs)
      | none => do
        let (e, cs) ← readEscape cs
        readLinesString q n (e :: text) cs
    else
      match newline? (c :: cs) with
      | some cs => readLinesString q n ('\n' :: text) cs
      | none => if isTextChar c then readLinesString q n (c :: text) cs else none

/-- Reads a string on one line at its opening quote. -/
def readQuotedKey (cs : Rest) : Option (String × Rest) :=
  match cs with
  | '"' :: cs => readLineString '"' (cs.length + 1) [] cs
  | '\'' :: cs => readLineString '\'' (cs.length + 1) [] cs
  | _ => none

/-- Reads a string at its opening quotes. A line end right after three quotes does not count. -/
def readString (cs : Rest) : Option (String × Rest) :=
  match cs with
  | '"' :: '"' :: '"' :: cs => readLinesString '"' (cs.length + 1) [] ((newline? cs).getD cs)
  | '\'' :: '\'' :: '\'' :: cs => readLinesString '\'' (cs.length + 1) [] ((newline? cs).getD cs)
  | cs => readQuotedKey cs

end ReversePolish.Toml
