import ReversePolish.Heap

/-!
Equality of values.

Lists and maps are equal when they are the same cell or hold equal elements, compared to a depth
of 64. Program and control bodies are compared element by element, each element from depth zero
again, and count as different where an element lies too deep. A cycle that passes through such a
body is therefore followed without end.
-/

namespace ReversePolish

def compareDepth : Nat := 64

inductive Verdict where
  | same
  | different
  | tooDeep
  | endless
  deriving DecidableEq, Inhabited

namespace Verdict

def ofBool (b : Bool) : Verdict := if b then same else different

/-- The first verdict other than `same` decides. -/
def andThen (a : Verdict) (b : Unit → Verdict) : Verdict :=
  match a with
  | same => b ()
  | v => v

/-- Inside a body, what lies too deep counts as different. -/
def decided : Verdict → Verdict
  | tooDeep => different
  | v => v

@[simp] theorem andThen_same (b : Unit → Verdict) : andThen same b = b () := rfl

end Verdict

mutual

/-- Compares values at a depth, given the verdict on a pair of list cells and on a pair of map
cells at that depth. -/
def Value.equate (lists maps : Nat → Nat → Nat → Verdict) (depth : Nat) :
    Value → Value → Verdict
  | v, w =>
    if compareDepth ≤ depth then .tooDeep
    else match v, w with
      | .int a, .int b => .ofBool (a == b)
      | .str a, .str b => .ofBool (a == b)
      | .none, .none => .same
      | .list a, .list b => if a = b then .same else lists depth a b
      | .map a, .map b => if a = b then .same else maps depth a b
      | .program p, .program q => Program.equate lists maps p q
      | .command c b, .command d e => .ofBool (c.name == d.name && b == e)
      | .branch c₁ t₁ e₁, .branch c₂ t₂ e₂ =>
        (equateBodies lists maps c₁ c₂).andThen fun _ =>
          (equateBodies lists maps t₁ t₂).andThen fun _ => equateBodies lists maps e₁ e₂
      | .each b₁, .each b₂ => equateBodies lists maps b₁ b₂
      | .loop c₁ b₁, .loop c₂ b₂ =>
        (equateBodies lists maps c₁ c₂).andThen fun _ => equateBodies lists maps b₁ b₂
      | _, _ => .different

def Program.equate (lists maps : Nat → Nat → Nat → Verdict) : Program → Program → Verdict
  | ⟨b₁, _, _⟩, ⟨b₂, _, _⟩ => equateBodies lists maps b₁ b₂

/-- Bodies of different length differ, whatever is in them. -/
def equateBodies (lists maps : Nat → Nat → Nat → Verdict) (vs ws : List Value) : Verdict :=
  if vs.length = ws.length then equateItems lists maps vs ws else .different

def equateItems (lists maps : Nat → Nat → Nat → Verdict) :
    List Value → List Value → Verdict
  | [], _ => .same
  | _, [] => .same
  | v :: vs, w :: ws =>
    (Value.equate lists maps 0 v w).decided.andThen fun _ => equateItems lists maps vs ws

end

namespace Heap

/-- Compares elements in order, one level down. -/
def equateElements (eq : Value → Value → Verdict) : List Value → List Value → Verdict
  | v :: vs, w :: ws => (eq v w).andThen fun _ => equateElements eq vs ws
  | _, _ => .same

def equateEntries (eq : Value → Value → Verdict) :
    List (Key × Value) → List (Key × Value) → Verdict
  | (k, v) :: es, (l, w) :: fs =>
    if k = l then (eq v w).andThen fun _ => equateEntries eq es fs else .different
  | _, _ => .same

mutual

/-- The verdict on two list cells, following at most `fuel` cells one inside the other. -/
def equateLists (h : Heap) : Nat → Nat → Nat → Nat → Verdict
  | 0, _, _, _ => .endless
  | fuel + 1, depth, a, b =>
    let xs := h.items a
    let ys := h.items b
    if xs.size = ys.size then
      equateElements (Value.equate (equateLists h fuel) (equateMaps h fuel) (depth + 1))
        xs.toList ys.toList
    else .different

def equateMaps (h : Heap) : Nat → Nat → Nat → Nat → Verdict
  | 0, _, _, _ => .endless
  | fuel + 1, depth, a, b =>
    let es := (h.entries a).entries
    let fs := (h.entries b).entries
    if es.length = fs.length then
      equateEntries (Value.equate (equateLists h fuel) (equateMaps h fuel) (depth + 1)) es fs
    else .different

end

/-- More cells than a comparison can follow without coming back, at the same depth, to a pair of
cells that it is still comparing. -/
def comparisonFuel (h : Heap) : Nat :=
  compareDepth * (h.lists.size * h.lists.size + h.maps.size * h.maps.size) + 1

def equate (h : Heap) (depth : Nat) (v w : Value) : Verdict :=
  v.equate (h.equateLists h.comparisonFuel) (h.equateMaps h.comparisonFuel) depth w

/-- The test inside bodies, under which values that lie too deep are different. -/
def looselyEqual (h : Heap) (v w : Value) : Verdict := (h.equate 0 v w).decided

/-- The test that the language offers: both values must be of one kind. No answer means that the
comparison does not end. -/
def equal? (h : Heap) (v w : Value) : Option (Except Error Bool) :=
  if v.kind = w.kind then
    match h.equate 0 v w with
    | .same => some (.ok true)
    | .different => some (.ok false)
    | .tooDeep => some (.error (.failed (.comparisonTooDeep compareDepth)))
    | .endless => none
  else some (.error (.mismatch v.kind.name w.kind))

end Heap

end ReversePolish
