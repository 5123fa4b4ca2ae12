import ReversePolish.Heap

/-!
What is still there.

A list, a map or a program is there as long as something holds it: a value that is held from outside, or
a list or map that is there itself. Lists and maps that hold each other stay. The link from a program
to the one around it holds nothing, and leads nowhere once that program has gone.
-/

namespace ReversePolish

/-- A cell of the heap. -/
inductive Cell where
  | list (c : Nat)
  | map (c : Nat)
  | program (c : Nat)
  deriving DecidableEq

mutual

/-- The cells that a value holds: all that it names, and all that the programs in it name. -/
def Value.cells : Value → List Cell
  | .int _ | .str _ | .none => []
  | .list c => [.list c]
  | .map c => [.map c]
  | .program p => p.cells
  | .command c _ => c.cells
  | .branch cond thn els => cellsOfAll cond ++ cellsOfAll thn ++ cellsOfAll els
  | .each body => cellsOfAll body
  | .loop cond body => cellsOfAll cond ++ cellsOfAll body

def Program.cells : Program → List Cell
  | ⟨body, _, cell⟩ => cell.toList.map .program ++ cellsOfAll body

def Command.cells : Command → List Cell
  | ⟨_, _, _, behavior⟩ => behavior.cells

def Behavior.cells : Behavior → List Cell
  | .user p => p.cells
  | .core _ | .idle => []

def cellsOfAll : List Value → List Cell
  | [] => []
  | v :: vs => v.cells ++ cellsOfAll vs

end

namespace Heap

/-- The cells that are held by what lies in a cell. -/
def contents (h : Heap) : Cell → List Cell
  | .list c => cellsOfAll (h.items c).toList
  | .map c => cellsOfAll ((h.entries c).entries.map Prod.snd)
  | .program _ => []

/-- Those of the cells that are held from outside or by one of them. -/
def held (h : Heap) (outside cs : List Cell) : List Cell :=
  cs.filter fun c => outside.contains c || cs.any fun c' => (h.contents c').contains c

/-- Lets cells go that nothing holds, until there are no more of them. -/
def release (h : Heap) (outside cs : List Cell) : List Cell :=
  if (h.held outside cs).length < cs.length then h.release outside (h.held outside cs) else cs
termination_by cs.length

/-- The cells that lists and maps hold. -/
def inner (h : Heap) : List Cell :=
  (List.range h.lists.size).flatMap (fun c => h.contents (.list c)) ++
    (List.range h.maps.size).flatMap fun c => h.contents (.map c)

/-- The cells that are there while these values are held from outside. -/
def alive (h : Heap) (roots : List Value) : List Cell :=
  h.release (cellsOfAll roots) (cellsOfAll roots ++ h.inner)

/-- The program that the one in this cell was written in, if it is among the cells that are there. -/
def enclosing? (h : Heap) (there : List Cell) (cell : Nat) : Option Nat :=
  (h.link cell).filter fun e => there.contains (.program e)

/-- How many programs lie around the one in this cell, up to the first one that has gone. The count
ends, since a program has a later cell than the one around it. -/
def nestingDepth (h : Heap) (there : List Cell) (cell : Nat) : Nat :=
  match h.enclosing? there cell with
  | some e => if e < cell then h.nestingDepth there e + 1 else 0
  | none => 0
termination_by cell

end Heap

/-- How many programs lie around a program, up to the first one that has gone. -/
def Program.nestingDepth (h : Heap) (there : List Cell) (p : Program) : Nat :=
  p.cell.elim 0 (h.nestingDepth there)

end ReversePolish
