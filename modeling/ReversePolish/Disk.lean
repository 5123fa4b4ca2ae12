import ReversePolish.Error
import ReversePolish.Table
import ReversePolish.Text.Split

/-!
Files, and the directories that hold them.

A path is walked from the working directory, or from the root if it begins with `/`, one name at
a time, and every place but the last must be a directory. A directory exists when a file lies
below it. Nothing is known about what lies outside the working directory, so there the disk is
empty until something is written.
-/

namespace ReversePolish

/-- A file's content: a text, or bytes that are no UTF-8. -/
inductive Content where
  | text (s : String)
  | bytes
  deriving DecidableEq, Inhabited

/-- Files by location; see `locate`. -/
abbrev Disk := Table String Content

namespace Disk

/-- A place on the disk: the names that lead to it. An absolute place begins with an empty name,
and a place above the working directory with `..`. -/
abbrev Location := List String

def Location.key (l : Location) : String := "/".intercalate l

/-- The place above. -/
def Location.parent (l : Location) : Location :=
  match l.getLast? with
  | none | some ".." => l ++ [".."]
  | some "" => l
  | some _ => l.dropLast

inductive Node where
  | file (c : Content)
  | directory
  | absent
  deriving DecidableEq

def node (d : Disk) (l : Location) : Node :=
  match d.find? l.key with
  | some c => .file c
  | none =>
    if l.all (· == "..") || l == [""] || d.keys.any (·.startsWith (l.key ++ "/")) then .directory
    else .absent

def maxNameBytes : Nat := 255

def maxPathBytes : Nat := 4095

/-- Follows the names of a path from a place. -/
def walk (d : Disk) (l : Location) : List String → Except DiskFault Location
  | [] => .ok l
  | n :: ns =>
    match d.node l with
    | .absent => .error .notFound
    | .file _ => .error .notDirectory
    | .directory =>
      if maxNameBytes < n.utf8ByteSize then .error .nameTooLong
      else if n = "" ∨ n = "." then d.walk l ns
      else if n = ".." then d.walk l.parent ns
      else d.walk (l ++ [n]) ns

/-- Where the walk along a path starts. -/
def start (path : String) : Location := if path.startsWith "/" then [""] else []

/-- The place that a path leads to, there or not. -/
def locate (d : Disk) (path : String) : Except DiskFault Location :=
  if path.toList.contains '\x00' then .error .badName
  else if path = "" then .error .notFound
  else if maxPathBytes < path.utf8ByteSize then .error .nameTooLong
  else d.walk (start path) (splitText '/' path)

/-- Reads a text file. -/
def read (d : Disk) (path : String) : Except DiskFault String := do
  match d.node (← d.locate path) with
  | .file (.text s) => return s
  | .file .bytes => throw .notText
  | .directory => throw .isDirectory
  | .absent => throw .notFound

/-- Writes a text file, over what was there. A path that ends in a slash names a directory. -/
def write (d : Disk) (path : String) (text : String) : Except DiskFault Disk := do
  if path.toList.contains '\x00' then throw .badName
  if path = "" then throw .notFound
  if maxPathBytes < path.utf8ByteSize then throw .nameTooLong
  let names := ((splitText '/' path).reverse.dropWhile (· == "")).reverse
  let dir ← d.walk (start path) names.dropLast
  let place ← d.walk dir [names.getLastD ""]
  if path.endsWith "/" then throw .isDirectory
  match d.node place with
  | .directory => throw .isDirectory
  | _ => return d.insert place.key (.text text)

/-- The place that a path means where all directories on the way are there. -/
def place (path : String) : Location :=
  (splitText '/' path).foldl
    (fun l n => if n = "" ∨ n = "." then l else if n = ".." then Location.parent l else l ++ [n])
    (start path)

/-- A disk with the given files and the directories that they need. -/
def ofFiles (files : List (String × Content)) : Disk :=
  .ofList (files.map fun f => ((place f.1).key, f.2))

def isFile (d : Disk) (path : String) : Bool :=
  match d.locate path with
  | .ok l =>
    match d.node l with
    | .file _ => true
    | _ => false
  | .error _ => false

end Disk

end ReversePolish
