import ReversePolish.Meaning

/-!
Running programs, one small step at a time.

An execution is a machine, the tasks that are still to do, and the error that is being passed on, if
any. An error undoes tasks until it comes to one that stops it: a control form, which reports it,
or the handler of `TRYCATCH`, which runs with the message of the error. When a stop has been asked
for, tasks are given up one after the other without doing anything more, save that programs that
were entered are left.
-/

namespace ReversePolish

/-- Something still to do. -/
inductive Task where
  /-- Run a value, even if a stop has been asked for. -/
  | run (v : Value)
  /-- Run values one after the other. -/
  | sequence (vs : List Value)
  /-- Read the next value of a text, run it, and go on with the text. -/
  | source (r : Reader)
  /-- Leave the program that was entered from this namespace. -/
  | leave (home : String)
  /-- Report an error that comes out of a control form. -/
  | report
  /-- Hand an error to this program. -/
  | rescue (handler : Program)
  /-- Choose between branches by the value on top of the stack. -/
  | choose (thn els : List Value)
  /-- Push each item in turn and run the body after it. -/
  | iterate (items body : List Value)
  /-- Begin the next round of a loop, this many having been begun. -/
  | round (begun : Nat) (cond body : List Value)
  /-- Go on with the body of a loop if the value on top of the stack is true. -/
  | test (begun : Nat) (cond body : List Value)

/-- Whether the task is given up when a stop has been asked for. -/
def Task.yields : Task → Bool
  | .run _ | .leave _ | .report | .rescue _ => false
  | _ => true

structure Execution where
  machine : Machine
  /-- The next task comes first. -/
  tasks : List Task
  error : Option Error

namespace Execution

def ofTasks (m : Machine) (ts : List Task) : Execution := ⟨m, ts, none⟩

def ofError (m : Machine) (ts : List Task) (e : Error) : Execution := ⟨m, ts, some e⟩

/-- Nothing is left to do. -/
def finished (p : Execution) : Bool := p.tasks.isEmpty

/-- Carries out an action and goes on with tasks that its result decides. -/
def after {α : Type} (a : Action α) (m : Machine) (ts : List Task) (f : α → List Task) :
    Execution :=
  match a.run m with
  | .ok x m => ofTasks m (f x ++ ts)
  | .error e m => ofError m ts e

/-- Carries out an action before the tasks. -/
def act (a : Action Unit) (m : Machine) (ts : List Task) : Execution := after a m ts fun _ => []

/-- Applies an operator. The task `again` is to apply it, and stays to be done where the work on
it has no end. -/
def operate (op : Operator) (again : Task) (m : Machine) (ts : List Task) : Execution :=
  match op.apply m.stack m.heap with
  | .results below vs edit =>
    act (vs.forM Action.push) { m with stack := below, heap := m.heap.apply edit } ts
  | .failed e => ofError m ts e
  | .endless => ofTasks m (again :: ts)

/-- Enters a program, in its own namespace and with local variables of its own. -/
def invoke (p : Program) (m : Machine) (ts : List Task) : Execution :=
  if m.limits.calls ≤ m.calls then ofError m ts (.failed (.invocationsTooDeep m.limits.calls))
  else
    let (saved, scope) := m.scope.switch p.home
    ofTasks { m with scope := scope.enter p, calls := m.calls + 1 }
      (.sequence p.body :: .leave saved :: ts)

/-- Goes back to the namespace that a program was entered from. -/
def leave (home : String) (m : Machine) : Machine :=
  { m with scope := (m.scope.leave.switch home).2, calls := m.calls - 1 }

/-- Takes the collection from the top of the stack and gives its items: the elements of a list, or
a new list of key and value for each entry of a map. -/
def takeItems : Action (List Value) := do
  match ← Action.demand fun m => m.stack.peek 0 with
  | .list c =>
    Action.drop 1
    Action.ask fun m => (m.heap.items c).toList
  | .map c =>
    Action.drop 1
    let es ← Action.ask fun m => (m.heap.entries c).entries
    es.mapM fun e => Action.onHeap (Heap.newList #[.ofKey e.1, e.2])
  | v => throw (.mismatch "List or Map" v.kind)

/-- Pops the value on top of the stack and tells whether it is true. -/
def takeTruth : Action Bool := do
  let v ← Action.pop
  Action.demand fun m => m.heap.truth v

/-- What a name calls: the program in the variable of that name, any other value of that variable,
or else the command of that name. -/
def callee? (name : String) (m : Machine) : Option (Program ⊕ Value) :=
  match m.scope.fetch name with
  | .ok (.program p) => some (.inl p)
  | .ok v => some (.inr v)
  | .error _ => (m.registry.find? name).map fun c => .inr (.command c false)

def call (name : String) (m : Machine) (ts : List Task) : Execution :=
  match callee? name m with
  | some (.inl p) => invoke p m ts
  | some (.inr v) => ofTasks m (.run v :: ts)
  | none => ofError m ts (.notFound name)

/-- Calls what the string on top of the stack names. The string stays where it names nothing. -/
def callTop (m : Machine) (ts : List Task) : Execution :=
  match (Action.peekString 0).run m with
  | .ok name m =>
    match callee? name m with
    | some _ => call name { m with stack := m.stack.drop 1 } ts
    | none => ofError m ts (.notFound name)
  | .error e m => ofError m ts e

/-- Runs the program on top of the stack. -/
def evaluateTop (m : Machine) (ts : List Task) : Execution :=
  match (Action.peekProgram 0).run m with
  | .ok p m => invoke p { m with stack := m.stack.drop 1 } ts
  | .error e m => ofError m ts e

/-- Takes two programs and runs the deeper one, the other one being the handler of its errors. -/
def attemptTop (m : Machine) (ts : List Task) : Execution :=
  match (do return (← Action.peekProgram 1, ← Action.peekProgram 0) : Action _).run m with
  | .ok (attempt, handler) m =>
    invoke attempt { m with stack := m.stack.drop 2 } (.rescue handler :: ts)
  | .error e m => ofError m ts e

/-- Begins to run a value. Data goes onto the stack, a control form is set going, and a command
does what it means or prints its help. -/
def runValue (v : Value) (m : Machine) (ts : List Task) : Execution :=
  match v with
  | .branch cond thn els => ofTasks m (.sequence cond :: .choose thn els :: .report :: ts)
  | .each body => after takeItems m (.report :: ts) fun items => [.iterate items body]
  | .loop cond body => ofTasks m (.round 0 cond body :: .report :: ts)
  | .command c true => act (Action.printLine (Machine.helpLine c)) m ts
  | .command c false =>
    match c.behavior with
    | .user p => invoke p m ts
    | .idle => ofTasks m ts
    | .core w =>
      match w.meaning with
      | .operator op => operate op (.run v) m ts
      | .action a => act a m ts
      | .eval => evaluateTop m ts
      | .call => callTop m ts
      | .tryCatch => attemptTop m ts
  | v => act (Action.push v) m ts

/-- Whether a loop that has begun this many rounds has used up its limit. -/
def roundsUsed (m : Machine) (begun : Nat) : Bool :=
  match m.limits.rounds with
  | some n => n ≤ begun
  | none => false

/-- Works on a task, before the tasks `ts`. -/
def perform (t : Task) (m : Machine) (ts : List Task) : Execution :=
  match t with
  | .run v => runValue v m ts
  | .sequence [] => ofTasks m ts
  | .sequence (v :: vs) => runValue v m (.sequence vs :: ts)
  | .source r =>
    match r.next m.setting with
    | .value d r =>
      let (v, h) := d.store none m.heap
      runValue v { m with heap := h } (.source r :: ts)
    | .ended _ => ofTasks m ts
    | .failed e _ => ofError m ts e
  | .leave home => ofTasks (leave home m) ts
  | .report => ofTasks m ts
  | .rescue _ => ofTasks m ts
  | .choose thn els => after takeTruth m ts fun b => [.sequence (if b then thn else els)]
  | .iterate [] _ => ofTasks m ts
  | .iterate (v :: vs) body =>
    after (Action.push v) m ts fun _ => [.sequence body, .iterate vs body]
  | .round begun cond body =>
    if roundsUsed m begun then ofTasks m ts
    else ofTasks m (.sequence cond :: .test begun cond body :: ts)
  | .test begun cond body =>
    after takeTruth m ts fun b =>
      if b then [.sequence body, .round (begun + 1) cond body] else []

/-- Undoes a task because of an error. -/
def unwind (t : Task) (e : Error) (m : Machine) (ts : List Task) : Execution :=
  match t with
  | .leave home => ofError (leave home m) ts e
  | .report => ofTasks (m.report e) ts
  | .rescue handler => invoke handler { m with stack := .str e.message :: m.stack } ts
  | _ => ofError m ts e

/-- One step. An execution that has finished stays as it is. -/
def step : Execution → Execution
  | ⟨m, [], e⟩ => ⟨m, [], e⟩
  | ⟨m, t :: ts, some e⟩ => unwind t e m ts
  | ⟨m, t :: ts, none⟩ => if m.stopped && t.yields then ofTasks m ts else perform t m ts

/-- Runs until nothing is left to do, for at most `fuel` steps. -/
def run : Nat → Execution → Option Execution
  | 0, p => if p.finished then some p else none
  | fuel + 1, p => if p.finished then some p else run fuel p.step

end Execution

end ReversePolish
