import ReversePolish.Error
import ReversePolish.Word

/-!
Values of the language.

Lists and maps live in the heap and a value only names their cell, so that copies of the value
share the contents. Everything else is in the value itself: a program and a control form carry
the values they are made of. A program has a cell, too, unless it comes from outside, but no word looks
at what is in it: it tells which programs are one and the same.
-/

namespace ReversePolish

mutual

inductive Value where
  | int (n : Int64)
  | str (s : String)
  | none
  | list (cell : Nat)
  | map (cell : Nat)
  | program (p : Program)
  | command (c : Command) (help : Bool)
  | branch (cond thn els : List Value)
  | each (body : List Value)
  | loop (cond body : List Value)

/-- A body to be run later, and the namespace that was current where it was read. -/
structure Program where
  body : List Value
  home : String
  cell : Option Nat

/-- What a word means. A value that refers to a command keeps the meaning that the word had when
it was read. -/
structure Command where
  name : String
  category : String
  help : String
  behavior : Behavior

inductive Behavior where
  | core (w : Word)
  | user (p : Program)
  | idle

end

instance : Inhabited Value := ⟨.none⟩
instance : Inhabited Program := ⟨⟨[], "", none⟩⟩
instance : Inhabited Behavior := ⟨.idle⟩
instance : Inhabited Command := ⟨⟨"", "", "", .idle⟩⟩

namespace Value

def kind : Value → Kind
  | int _ => .integer
  | str _ => .string
  | none => .none
  | list _ => .list
  | map _ => .map
  | program _ => .program
  | command _ _ => .command
  | branch _ _ _ => .branch
  | each _ => .each
  | loop _ _ => .loop

def ofKey : Key → Value
  | .int n => int n
  | .str s => str s

def ofBool (b : Bool) : Value := int (if b then 1 else 0)

/-- Only integers and strings can be keys. -/
def key? : Value → Option Key
  | int n => some (.int n)
  | str s => some (.str s)
  | _ => Option.none

def key (v : Value) : Except Error Key :=
  match v.key? with
  | some k => .ok k
  | Option.none => .error (.mismatch Key.title v.kind)

@[simp] theorem key?_ofKey (k : Key) : (ofKey k).key? = some k := by cases k <;> rfl

end Value

namespace Command

def ofWord (w : Word) : Command := ⟨w.name, w.category, w.helpLine, .core w⟩

end Command

end ReversePolish
