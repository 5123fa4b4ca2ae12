import ReversePolish.Heap

/-!
What a text says, before it has any storage: a tree.

A command in the tree is of some type `κ` of meanings, which the reader finds for a word and
does not look into.
-/

namespace ReversePolish

inductive Datum (κ : Type) where
  | int (n : Int64)
  | str (s : String)
  | none
  | list (items : List (Datum κ))
  /-- The entries ascend by key. -/
  | map (entries : List (Key × Datum κ))
  | program (home : String) (body : List (Datum κ))
  | command (c : κ) (help : Bool)
  | branch (cond thn els : List (Datum κ))
  | each (body : List (Datum κ))
  | loop (cond body : List (Datum κ))
  deriving Inhabited

namespace Datum

def kind {κ : Type} : Datum κ → Kind
  | int _ => .integer
  | str _ => .string
  | none => .none
  | list _ => .list
  | map _ => .map
  | program _ _ => .program
  | command _ _ => .command
  | branch _ _ _ => .branch
  | each _ => .each
  | loop _ _ => .loop

def key {κ : Type} : Datum κ → Except Error Key
  | int n => .ok (.int n)
  | str s => .ok (.str s)
  | d => .error (.mismatch Key.title d.kind)

mutual

/-- Gives a tree storage: a new cell for each list and map in it, inner ones first, and for each
program, before what is in it. The innermost program around the tree is the one that lies in the cell
`around`; its programs are linked to it, and what is in them to them. -/
def store : Datum Command → (around : Option Nat) → Heap → Value × Heap
  | int n, _, h => (.int n, h)
  | str s, _, h => (.str s, h)
  | none, _, h => (.none, h)
  | list items, around, h =>
    let (vs, h) := storeAll items around h
    h.newList vs.toArray
  | map entries, around, h =>
    let (es, h) := storeEntries entries around h
    h.newMap (.ofList es)
  | program home body, around, h =>
    let (cell, h) := h.newLink around
    let (vs, h) := storeAll body (some cell) h
    (.program ⟨vs, home, some cell⟩, h)
  | command c help, _, h => (.command c help, h)
  | branch cond thn els, around, h =>
    let (cs, h) := storeAll cond around h
    let (ts, h) := storeAll thn around h
    let (es, h) := storeAll els around h
    (.branch cs ts es, h)
  | each body, around, h =>
    let (vs, h) := storeAll body around h
    (.each vs, h)
  | loop cond body, around, h =>
    let (cs, h) := storeAll cond around h
    let (vs, h) := storeAll body around h
    (.loop cs vs, h)

def storeAll : List (Datum Command) → (around : Option Nat) → Heap → List Value × Heap
  | [], _, h => ([], h)
  | d :: ds, around, h =>
    let (v, h) := store d around h
    let (vs, h) := storeAll ds around h
    (v :: vs, h)

def storeEntries :
    List (Key × Datum Command) → (around : Option Nat) → Heap → List (Key × Value) × Heap
  | [], _, h => ([], h)
  | (k, d) :: es, around, h =>
    let (v, h) := store d around h
    let (es, h) := storeEntries es around h
    ((k, v) :: es, h)

end

end Datum

end ReversePolish
