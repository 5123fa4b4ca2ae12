import ReversePolish.Disk

/-!
Where imported texts come from.

A module name is looked up in search directories, in order. Its dots separate directories, so
`math.trig` is the file `math/trig.rpn` of the first search directory that has it.
-/

namespace ReversePolish

/-- Gives the text of a module, from the disk as it is when the import is read. -/
abbrev Loader := Disk → String → Except Error String

namespace Loader

def disabled : Loader := fun _ name => .error (.failed (.importsDisabled name))

/-- Modules that are kept in memory. -/
def ofTexts (texts : Table String String) : Loader := fun _ name =>
  match texts.find? name with
  | some text => .ok text
  | none => .error (.notFound name)

/-- Goes on from the path `base` to `next`. A path from the root replaces what was before it. -/
def join (base next : String) : String :=
  if next.startsWith "/" then next
  else if base = "" ∨ base.endsWith "/" then base ++ next
  else base ++ "/" ++ next

/-- The extension of module files. -/
def fileExtension : String := ".rpn"

/-- Adds the extension to the last name of a path that has one. -/
def withExtension (path : String) : String :=
  match path.toList.reverse.dropWhile (· == '/') with
  | [] => path
  | cs => String.ofList cs.reverse ++ fileExtension

/-- The path of a module below a search directory. -/
def relativePath (name : String) : String := withExtension ((splitText '.' name).foldl join "")

/-- The path that is tried for a module in one search directory. -/
def candidate (dir name : String) : String := join dir (relativePath name)

def inDirectories (dirs : List String) : Loader := fun d name =>
  match dirs.find? fun dir => d.isFile (candidate dir name) with
  | some dir =>
    match d.read (candidate dir name) with
    | .ok text => .ok text
    | .error fault => .error (.failed (.unreadable (candidate dir name) fault))
  | none =>
    .error (.notFound
      ("module `" ++ name ++ "` (" ++ relativePath name ++ " not found in import paths)"))

end Loader

end ReversePolish
