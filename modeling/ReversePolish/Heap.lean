import ReversePolish.Table
import ReversePolish.Value

/-!
Storage of lists and maps, and of the links between programs.

A cell is named by its position. Cells are added and overwritten but never removed, so a cell
that a value names stays the same cell for as long as the value is around. The cell of a program
holds a link to the program that it was written in. The link does not keep that program.
-/

namespace ReversePolish

structure Heap where
  lists : Array (Array Value)
  maps : Array (Table Key Value)
  /-- For each program the cell of the one around it. -/
  links : Array (Option Nat)
  deriving Inhabited

namespace Heap

def empty : Heap := ⟨#[], #[], #[]⟩

/-- The items of a list. -/
def items (h : Heap) (cell : Nat) : Array Value := h.lists.getD cell #[]

/-- The entries of a map. -/
def entries (h : Heap) (cell : Nat) : Table Key Value := h.maps.getD cell ∅

/-- The cell of the program that one was written in. -/
def link (h : Heap) (cell : Nat) : Option Nat := h.links.getD cell none

def newList (items : Array Value) (h : Heap) : Value × Heap :=
  (.list h.lists.size, { h with lists := h.lists.push items })

def newMap (entries : Table Key Value) (h : Heap) : Value × Heap :=
  (.map h.maps.size, { h with maps := h.maps.push entries })

/-- A cell for a program with this one around it. -/
def newLink (around : Option Nat) (h : Heap) : Nat × Heap :=
  (h.links.size, { h with links := h.links.push around })

/-- A change of storage: at most one cell is added or has its contents changed. -/
inductive Edit where
  | keep
  | addList (items : Array Value)
  | addMap (entries : Table Key Value)
  | addLink (around : Option Nat)
  | setItem (cell i : Nat) (v : Value)
  | addItem (cell : Nat) (v : Value)
  | insertItem (cell i : Nat) (v : Value)
  | bind (cell : Nat) (k : Key) (v : Value)

def apply (h : Heap) : Edit → Heap
  | .keep => h
  | .addList items => (h.newList items).2
  | .addMap entries => (h.newMap entries).2
  | .addLink around => (h.newLink around).2
  | .setItem cell i v => { h with lists := h.lists.modify cell fun xs => xs.setIfInBounds i v }
  | .addItem cell v => { h with lists := h.lists.modify cell fun xs => xs.push v }
  | .insertItem cell i v =>
    { h with lists := h.lists.modify cell fun xs => xs.insertIdxIfInBounds i v }
  | .bind cell k v => { h with maps := h.maps.modify cell fun t => t.insert k v }

/-- Nonzero integers and nonempty strings, lists and maps are true, and all else is false. A
command has no truth value. -/
def truth (h : Heap) : Value → Except Error Bool
  | .int n => .ok (n != 0)
  | .str s => .ok !s.isEmpty
  | .list c => .ok !(h.items c).isEmpty
  | .map c => .ok !(h.entries c).isEmpty
  | .command _ _ => .error (.mismatch "a value with a truth value" .command)
  | _ => .ok false

/-- A copy with storage of its own, one level deep: the elements are shared. A copy of a program was
written where the program was. -/
def copy (h : Heap) : Value → Except Error (Value × Edit)
  | .list c => .ok (.list h.lists.size, .addList (h.items c))
  | .map c => .ok (.map h.maps.size, .addMap (h.entries c))
  | .program p => .ok (.program { p with cell := some h.links.size }, .addLink (p.cell.bind h.link))
  | .command _ _ => .error (.mismatch "a clonable value" .command)
  | v => .ok (v, .keep)

end Heap

end ReversePolish
