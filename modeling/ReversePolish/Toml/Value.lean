/-!
Values of TOML documents.

Floats, truth values, dates and times are told from malformed text but not from each other, as
no setting takes one.
-/

namespace ReversePolish.Toml

inductive Value where
  | str (s : String)
  | int (n : Int64)
  | other
  | array (items : List Value)
  | table (entries : List (String × Value))
  deriving Inhabited

/-- A place in the text of a document, as the characters that follow. -/
abbrev Rest := List Char

end ReversePolish.Toml
