import ReversePolish.Machine

/-!
Words for variables and namespaces.
-/

namespace ReversePolish

namespace Action

def modifyScope (f : Scope → Scope) : Action Unit := modify fun m => { m with scope := f m.scope }

def storeVariable : Action Unit := do
  let name ← peekString 0
  demand fun m => m.stack.require 2
  drop 1
  let v ← pop
  modifyScope fun s => s.store name v

def recallVariable : Action Unit := do
  let name ← peekString 0
  let v ← demand fun m => m.scope.fetch name
  drop 1
  push v

def purgeVariable : Action Unit := do
  let name ← peekString 0
  let (_, s) ← demand fun m => m.scope.purge name
  modifyScope fun _ => s
  drop 1

def storeLocal : Action Unit := do
  let name ← peekString 0
  let v ← demand fun m => m.stack.peek 1
  let s ← demand fun m => m.scope.setLocal name v
  modifyScope fun _ => s
  drop 2

def recallLocal : Action Unit := do
  let name ← peekString 0
  let v ← demand fun m => m.scope.getLocal name
  drop 1
  push v

def setNamespace : Action Unit := do
  let name ← peekString 0
  if name.isEmpty then throw (.failed .emptyNamespace)
  drop 1
  modifyScope fun s => (s.switch name).2

def currentNamespace : Action Unit := do
  let name ← ask fun m => m.scope.current
  push (.str name)

/-- Pushes the names of the variables of the current namespace, in order. -/
def variableNames : Action Unit := do
  let names ← ask fun m => ((m.scope.module? m.scope.current).getD ∅).keys
  let v ← onHeap (Heap.newList (names.map Value.str).toArray)
  push v

end Action

end ReversePolish
