import ReversePolish.Shell

/-!
The command line program.

The files below the working directory are read before a run, and those that the run has changed
are written back. In an interactive session this is done line by line.
-/

namespace ReversePolish.Main

/-- More steps than anyone waits for. -/
def fuel : Nat := 4611686018427387904

def contentOf (bytes : ByteArray) : Content :=
  match String.fromUTF8? bytes with
  | some s => .text s
  | none => .bytes

/-- The files below the working directory. Those that cannot be read are left out. -/
def readDisk : IO Disk := do
  let here ← IO.currentDir
  let mut files := #[]
  for path in ← here.walkDir do
    let name := (path.toString.drop (here.toString.length + 1)).toString
    unless ← path.isDir do
      try files := files.push (name, contentOf (← IO.FS.readBinFile path)) catch _ => pure ()
  return .ofFiles files.toList

/-- Writes the texts that differ from before. -/
def writeChanges (before after : Disk) : IO Unit := do
  for (name, content) in after.entries do
    match content with
    | .text s => unless before.find? name = some content do IO.FS.writeFile name s
    | .bytes => pure ()

partial def repeatLines (input output : IO.FS.Stream) (s : Session) : IO Unit := do
  if ← input.isTty then
    output.putStr (if s.isPending then "...> " else "rpl> ")
    output.flush
  let before := s.machine.disk
  match lines (← input.getLine) with
  | [] => pure ()
  | line :: _ =>
    match Shell.takeLine fuel line s with
    | none => pure ()
    | some (m, next) =>
      output.putStr m.output.text
      output.flush
      writeChanges before m.disk
      match next with
      | some s => repeatLines input output { s with machine := { s.machine with output := .empty } }
      | none => pure ()

/-- An interactive session that reads and answers line by line. -/
def interact (m : Machine) : IO UInt32 := do
  let output ← IO.getStdout
  output.putStr Shell.greeting
  repeatLines (← IO.getStdin) output (.start m)
  output.putStr Shell.farewell
  return 0

def finish (before : Disk) (o : Shell.Outcome) : IO UInt32 := do
  (← IO.getStdout).putStr o.output
  (← IO.getStderr).putStr o.complaint
  writeChanges before o.disk
  return o.code.toUInt32

def start (words : List String) : IO UInt32 := do
  let disk ← readDisk
  match Request.of? words with
  | some (.run i@{ script := none, source := none, .. }) =>
    match Shell.machine i disk with
    | .ok m => return ← interact m
    | .error _ => pure ()
  | _ => pure ()
  match Shell.run fuel words "" disk with
  | some o => finish disk o
  | none => return 1

end ReversePolish.Main

def main (words : List String) : IO UInt32 := ReversePolish.Main.start words
