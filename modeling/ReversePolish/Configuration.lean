import ReversePolish.Machine
import ReversePolish.Toml.Document

/-!
The configuration of the shell, as a TOML document gives it.

A setting that the document does not mention keeps its default, and a key that names no setting is
refused. A table of settings may also be written as an array of their values in order.
-/

namespace ReversePolish

structure Configuration where
  /-- What is logged. -/
  logFilter : String := "warn"
  display : Display := {}
  limits : Limits := {}
  /-- The namespace that a session starts in. -/
  home : String := "interactive"
  historyFile : String := ".stackrpl_history"
  /-- The directories that imports are looked for in. -/
  importPaths : List String := ["."]

namespace Configuration

/-- A setting in a table of settings: its name, and how a value sets it. -/
structure Field (σ : Type) where
  name : String
  set : Toml.Value → σ → Option σ

def Field.ofText {σ : Type} (name : String) (put : String → σ → σ) : Field σ where
  name := name
  set
    | .str s, x => some (put s x)
    | _, _ => none

def Field.ofCount {σ : Type} (name : String) (put : Nat → σ → σ) : Field σ where
  name := name
  set
    | .int n, x => if 0 ≤ n.toInt then some (put n.toInt.toNat x) else none
    | _, _ => none

def textOf? : Toml.Value → Option String
  | .str s => some s
  | _ => none

def Field.ofTexts {σ : Type} (name : String) (put : List String → σ → σ) : Field σ where
  name := name
  set
    | .array vs, x => (vs.mapM textOf?).map (put · x)
    | _, _ => none

/-- Sets what a table mentions. An array sets the first fields, and more values than fields do not
matter. -/
def setAll {σ : Type} (fields : List (Field σ)) : Toml.Value → σ → Option σ
  | .table es, x =>
    es.foldlM (fun x e => do (← fields.find? (·.name = e.1)).set e.2 x) x
  | .array vs, x => (fields.zip vs).foldlM (fun x e => e.1.set e.2 x) x
  | _, _ => none

def displayFields : List (Field Display) :=
  [.ofCount "max_list_items" fun n d => { d with items := some n },
    .ofCount "max_program_items" fun n d => { d with words := some n }]

def limitFields : List (Field Limits) :=
  [.ofCount "max_call_depth" fun n l => { l with calls := n },
    .ofCount "max_read_depth" fun n l => { l with forms := n }]

def sessionFields : List (Field Configuration) :=
  [.ofText "namespace" fun t c => { c with home := t },
    .ofText "history_file" fun t c => { c with historyFile := t },
    .ofTexts "import_paths" fun ts c => { c with importPaths := ts }]

def fields : List (Field Configuration) :=
  [.ofText "log_filter" fun t c => { c with logFilter := t },
    ⟨"display", fun v c => (setAll displayFields v c.display).map fun d => { c with display := d }⟩,
    ⟨"limits", fun v c => (setAll limitFields v c.limits).map fun l => { c with limits := l }⟩,
    ⟨"session", setAll sessionFields⟩]

def ofText (text : String) : Except Error Configuration :=
  match (do setAll fields (.table (← Toml.parse? text)) {}) with
  | some c => .ok c
  | none => .error (.failed .badConfiguration)

def load (path : String) (d : Disk) : Except Error Configuration :=
  match d.read path with
  | .ok text => ofText text
  | .error fault => .error (.failed (.unreadable path fault))

/-- A machine with these settings and all words. -/
def machine (c : Configuration) (d : Disk) : Machine :=
  .initial c.home .core (.inDirectories c.importPaths) d .empty c.limits c.display

end Configuration

end ReversePolish
