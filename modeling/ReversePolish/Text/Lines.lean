import ReversePolish.Text.Split

/-!
The lines of a text. A line ends with a line feed, or with a carriage return and a line feed; the
last line may have no end.
-/

namespace ReversePolish

/-- Drops a carriage return at the end. -/
def chomp (cs : List Char) : List Char :=
  match cs.reverse with
  | '\r' :: r => r.reverse
  | _ => cs

/-- Lines out of the parts between line feeds. -/
def linesOf : List (List Char) → List (List Char)
  | [] => []
  | [last] => if last.isEmpty then [] else [last]
  | l :: ls => chomp l :: linesOf ls

def lines (text : String) : List String :=
  (linesOf (splitChars '\n' text.toList)).map String.ofList

end ReversePolish
