import ReversePolish.Heap

/-!
The written form of a value: its lexemes, one space between neighbours.

The form is the one that is read back. Past a depth of 64 a value is written `...`, which also
ends the writing of a value that contains itself, and a display limit writes `...` for the rest
of a list, map or program that is longer.
-/

namespace ReversePolish

/-- How many elements are shown of a collection and of a program; no number means all. -/
structure Display where
  items : Option Nat := some 32
  words : Option Nat := some 24
  deriving DecidableEq, Inhabited

def Display.unlimited : Display := ⟨none, none⟩

def renderDepth : Nat := 64

def elision : String := "..."

/-- The lexemes of the first elements, and an elision for the others. -/
def elide {α : Type} (limit : Option Nat) (f : α → List String) (xs : List α) : List String :=
  match limit with
  | none => xs.flatMap f
  | some n => (xs.take n).flatMap f ++ if (xs.drop n).isEmpty then [] else [elision]

namespace Heap

def lexemes (limits : Display) (h : Heap) : Nat → Value → List String
  | 0, _ => [elision]
  | n + 1, v =>
    let all := elide none (lexemes limits h n)
    match v with
    | .int i => [decimal i.toInt]
    | .str s => [quote s]
    | .none => ["None"]
    | .list c => "[" :: elide limits.items (lexemes limits h n) (h.items c).toList ++ ["]"]
    | .map c =>
      let entry := fun (e : Key × Value) => e.1.text :: lexemes limits h n e.2
      "\x7b" :: elide limits.items entry (h.entries c).entries ++ ["\x7d"]
    | .program p => "<<" :: elide limits.words (lexemes limits h n) p.body ++ [">>"]
    | .command c help => [if help then c.name ++ "?" else c.name]
    | .branch cond thn els =>
      "IF" :: all cond ++ "THEN" :: all thn
        ++ (if els.isEmpty then [] else "ELSE" :: all els) ++ ["ENDIF"]
    | .each body => "FOR" :: all body ++ ["ENDFOR"]
    | .loop cond body => "WHILE" :: all cond ++ "REPEAT" :: all body ++ ["ENDWHILE"]

def renderWith (limits : Display) (h : Heap) (v : Value) : String :=
  " ".intercalate (lexemes limits h renderDepth v)

/-- The written form without display limits. -/
def render (h : Heap) (v : Value) : String := h.renderWith .unlimited v

end Heap

end ReversePolish
