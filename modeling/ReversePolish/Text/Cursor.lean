import ReversePolish.Text.Blank

/-!
A place in a text, and the excerpt that shows it in a diagnostic.

The excerpt starts at most 20 characters before the place, is at most 100 characters long, and
carries `[...]` on each side where text was left out.
-/

namespace ReversePolish

/-- A text cut in two: what lies before a place, latest character first, and what follows it. -/
structure Cursor where
  before : List Char
  after : List Char
  deriving DecidableEq, Inhabited

namespace Cursor

def start (text : String) : Cursor := ⟨[], text.toList⟩

/-- The text that follows. -/
def rest (c : Cursor) : String := String.ofList c.after

/-- The whole text, before and after. -/
def chars (c : Cursor) : List Char := c.before.reverse ++ c.after

/-- Steps over the characters from here on that satisfy `p`. -/
def skipWhile (p : Char → Bool) (c : Cursor) : Cursor :=
  ⟨(c.after.takeWhile p).reverse ++ c.before, c.after.dropWhile p⟩

@[simp] theorem chars_skipWhile (p : Char → Bool) (c : Cursor) :
    (c.skipWhile p).chars = c.chars := by
  simp [chars, skipWhile, List.append_assoc]

/-- Moves over whole characters while `bytes` of UTF-8 suffice for them. -/
def advanceBytes (bytes : Nat) (before : List Char) : List Char → Cursor
  | [] => ⟨before, []⟩
  | c :: cs =>
    if c.utf8Size ≤ bytes then advanceBytes (bytes - c.utf8Size) (c :: before) cs
    else ⟨before, c :: cs⟩

/-- The last character boundary at or before the given byte offset. -/
def atByte (text : String) (offset : Nat) : Cursor := advanceBytes offset [] text.toList

theorem chars_advanceBytes (n : Nat) (before after : List Char) :
    (advanceBytes n before after).chars = before.reverse ++ after := by
  induction after generalizing n before with
  | nil => rfl
  | cons c cs ih =>
    unfold advanceBytes
    split
    · rw [ih]; simp
    · rfl

def excerptLead : Nat := 20

def excerptLength : Nat := 100

/-- The characters that an excerpt shows. -/
def window (c : Cursor) : List Char :=
  ((c.before.take excerptLead).reverse ++ c.after).take excerptLength

/-- Line feeds are spelled out and carriage returns left out, so an excerpt is one line. -/
def flatten (cs : List Char) : List Char :=
  cs.flatMap fun c => if c = '\n' then ['\\', 'n'] else if c = '\r' then [] else [c]

def ellipsis : String := "[...]"

def excerpt (c : Cursor) : String :=
  let lead := if excerptLead < c.before.length then ellipsis else ""
  let tail :=
    if excerptLength < (c.before.take excerptLead).length + c.after.length then ellipsis else ""
  lead ++ String.ofList (flatten c.window) ++ tail

end Cursor

end ReversePolish
