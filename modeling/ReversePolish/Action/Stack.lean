import ReversePolish.Machine

/-!
Words that look at the whole stack.
-/

namespace ReversePolish

namespace Action

/-- A count or depth as a natural number. -/
def natural (n : Int64) (negative : Failure) : Action Nat :=
  if n.toInt < 0 then throw (.failed negative) else pure n.toInt.toNat

def depth : Action Unit := do
  let n ← demand fun m => Arithmetic.fit m.stack.length
  push (.int n)

def clear : Action Unit := modify fun m => { m with stack := [] }

/-- Copies the value that lies `n` places below the index `n`. -/
def pick : Action Unit := do
  let index ← peekInt 0
  let n ← natural index (.negativePick index)
  let v ← demand fun m => m.stack.peek (n + 1)
  drop 1
  push v

/-- Packs the `n` values below the count `n` into a list. -/
def list : Action Unit := do
  let count ← peekInt 0
  let n ← natural count (.negativeCount count)
  demand fun m => m.stack.require (n + 1)
  drop 1
  let vs ← demand fun m => m.stack.top n
  drop n
  let v ← onHeap (Heap.newList vs.toArray)
  push v

end Action

end ReversePolish
