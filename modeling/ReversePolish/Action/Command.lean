import ReversePolish.Machine

/-!
Words that add and remove commands, print, and read and write texts.
-/

namespace ReversePolish

namespace Action

def modifyRegistry (f : Registry → Registry) : Action Unit :=
  modify fun m => { m with registry := f m.registry }

def registerProgram : Action Unit := do
  let name ← peekString 0
  let p ← peekProgram 1
  let r ← demand fun m => m.registry.register (.ofProgram m.heap name p)
  modifyRegistry fun _ => r
  drop 2

def unregister : Action Unit := do
  let name ← peekString 0
  if !(← ask fun m => m.registry.contains name) then throw (.notFound name)
  modifyRegistry fun r => r.erase name
  drop 1

/-- Prints a string as it is and any other value in its written form. -/
def print : Action Unit := do
  let v ← demand fun m => m.stack.peek 0
  match v with
  | .str s => printLine s
  | v => printLine (← ask fun m => m.shown v)
  drop 1

/-- Lists the commands by category. -/
def help : Action Unit := do
  let groups ← ask fun m => m.registry.categories
  groups.entries.forM fun g => printLine (g.1 ++ ": " ++ " ".intercalate g.2)
  printLine "Append ? to a word (e.g. ADD?) for its description."

/-- Makes a text into a program that belongs to the current namespace. -/
def parse : Action Unit := do
  let text ← peekString 0
  let ds ← demand fun m => m.parse text
  drop 1
  let body ← store ds
  let home ← ask fun m => m.scope.current
  let cell ← onHeap (Heap.newLink none)
  push (.program ⟨body, home, some cell⟩)

/-- Writes a value to a file, on a line of its own. -/
def save : Action Unit := do
  let path ← peekString 0
  let v ← demand fun m => m.stack.peek 1
  if v.kind = .command then throw (.mismatch "a data value" .command)
  match (← get).disk.write path ((← get).heap.render v ++ "\n") with
  | .ok d => modify fun m => { m with disk := d }
  | .error fault => throw (.failed (.unwritable path fault))
  drop 2

/-- Reads the values in a file. None of them may be a command. -/
def restore : Action Unit := do
  let path ← peekString 0
  match (← get).disk.read path with
  | .error fault => throw (.failed (.unreadable path fault))
  | .ok text =>
    let ds ← demand fun m => m.parse text
    if ds.any fun d => d.kind == .command then
      throw (.mismatch ("data values in " ++ path) .command)
    drop 1
    let vs ← store ds
    vs.forM push

def exit : Action Unit := modify fun m => { m with exiting := true }

def interrupt : Action Unit := modify fun m => { m with interrupted := true }

end Action

end ReversePolish
