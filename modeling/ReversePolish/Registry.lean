import ReversePolish.Heap
import ReversePolish.Token
import ReversePolish.Value.Rendering

/-!
The commands that words stand for.

A name can be registered when it would be read as a word: it is written with word characters, is
no integer, starts no comment, asks for no help and is no keyword. The one keyword that can be
registered is `EXIT`.
-/

namespace ReversePolish

abbrev Registry := Table String Command

/-- The category of commands that are made of programs. -/
def userCategory : String := "user"

/-- A command that runs a program. Its help line is the program's text at this moment. -/
def Command.ofProgram (h : Heap) (name : String) (p : Program) : Command :=
  ⟨name, userCategory, "user program " ++ h.render (.program p), .user p⟩

namespace Registry

/-- Whether a command can have this name. -/
def accepts (name : String) : Bool :=
  Token.isWordText name && (Token.askedName? name).isNone &&
    match Token.keyword? name with
    | none => true
    | some t => t == .exit

/-- Adds a command, in place of one of the same name. -/
def register (c : Command) (r : Registry) : Except Error Registry :=
  if accepts c.name then .ok (r.insert c.name c) else .error (.failed (.badCommandName c.name))

/-- All core words. -/
def core : Registry := .ofList (Word.all.map fun w => (w.name, .ofWord w))

/-- Command names by category, both in order. -/
def categories (r : Registry) : Table String (List String) :=
  r.values.foldr (fun c t => t.insert c.category (c.name :: (t.find? c.category).getD [])) ∅

end Registry

end ReversePolish
