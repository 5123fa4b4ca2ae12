import ReversePolish.Toml.Value

/-!
Building the tables of a document.

A table may be opened once. It may be there before, made on the way to a table inside it, but not
after a dotted key has made it; and a dotted key adds only to tables that dotted keys have made.
-/

namespace ReversePolish.Toml

inductive Node where
  | value (v : Value)
  /-- `opened` tells whether a header has opened the table, and `dotted` whether a dotted key has
  made it. -/
  | table (opened dotted : Bool) (entries : List (String × Node))
  /-- The tables that headers in double brackets have opened, latest first. -/
  | tables (ts : List (List (String × Node)))
  deriving Inhabited

abbrev Entries := List (String × Node)

namespace Entries

def find? (es : Entries) (k : String) : Option Node := es.lookup k

/-- Puts a node in the place of the one of that name. -/
def replace (es : Entries) (k : String) (n : Node) : Entries :=
  es.map fun e => if e.1 = k then (k, n) else e

def remove (es : Entries) (k : String) : Entries := es.filter fun e => e.1 ≠ k

/-- Goes down a path, making the tables that are missing, and changes the entries of the table at
its end, of which `f` is also told whether a dotted key has made it. -/
def descend (viaKey : Bool) (f : Bool → Entries → Option Entries) :
    List String → Bool → Entries → Option Entries
  | [], dotted, es => f dotted es
  | k :: ks, _, es =>
    match es.find? k with
    | none => do
      let inner ← descend viaKey f ks viaKey []
      some (es ++ [(k, .table false viaKey inner)])
    | some (.value _) => none
    | some (.tables []) => none
    | some (.tables (t :: ts)) => do
      let inner ← descend viaKey f ks false t
      some (es.replace k (.tables (inner :: ts)))
    | some (.table opened dotted inner) => do
      if viaKey && opened then none
      let inner ← descend viaKey f ks dotted inner
      some (es.replace k (.table opened dotted inner))

/-- Binds a key to a value. -/
def bind (path : List String) (v : Value) (es : Entries) : Option Entries :=
  descend true (fun dotted es =>
      if dotted == path.dropLast.isEmpty then none
      else
        match path.getLast? with
        | none => none
        | some k => if (es.find? k).isSome then none else some (es ++ [(k, .value v)]))
    path.dropLast false es

end Entries

mutual

/-- The value that a finished node is. -/
def Node.toValue : Node → Value
  | .value v => v
  | .table _ _ es => .table (entriesToValues es)
  | .tables ts => .array (tablesToValues ts)

def entriesToValues : List (String × Node) → List (String × Value)
  | [] => []
  | (k, n) :: es => (k, n.toValue) :: entriesToValues es

def tablesToValues : List (List (String × Node)) → List Value
  | [] => []
  | t :: ts => tablesToValues ts ++ [.table (entriesToValues t)]

end

/-- A document being read: the tables that are finished, and the one that the latest header has
opened. -/
structure Document where
  root : Entries := []
  path : List String := []
  inArray : Bool := false
  current : Entries := []

namespace Document

/-- Puts the current table in its place. -/
def finish (d : Document) : Option Entries :=
  match d.path.getLast? with
  | none => some d.current
  | some k =>
    d.root.descend false (fun _ es =>
        match d.inArray, es.find? k with
        | true, none => some (es ++ [(k, .tables [d.current])])
        | true, some (.tables ts) => some (es.replace k (.tables (d.current :: ts)))
        | false, none => some (es ++ [(k, .table true false d.current)])
        | _, _ => none)
      d.path.dropLast false

/-- Opens the table of a header. -/
def openTable (path : List String) (d : Document) : Option Document := do
  let k ← path.getLast?
  let root ← d.finish
  match find root path with
  | none => some { root := root, path := path }
  | some (.table false false es) =>
    let root ← root.descend false (fun _ es => some (es.remove k)) path.dropLast false
    some { root := root, path := path, current := es }
  | some _ => none
where
  /-- The node at the end of a path. -/
  find (es : Entries) : List String → Option Node
    | [] => none
    | [k] => es.find? k
    | k :: ks =>
      match es.find? k with
      | some (.table _ _ es) => find es ks
      | some (.tables (t :: _)) => find t ks
      | _ => none

/-- Opens one more table of an array of tables. -/
def openArray (path : List String) (d : Document) : Option Document := do
  let root ← d.finish
  let k ← path.getLast?
  let _ ← root.descend false (fun _ es =>
      match es.find? k with
      | none | some (.tables _) => some es
      | some _ => none)
    path.dropLast false
  some { root := root, path := path, inArray := true }

def bind (path : List String) (v : Value) (d : Document) : Option Document := do
  let es ← d.current.bind path v
  some { d with current := es }

end Document

end ReversePolish.Toml
