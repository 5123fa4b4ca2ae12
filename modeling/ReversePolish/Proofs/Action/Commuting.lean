import ReversePolish.Proofs.Action

/-!
Actions that do the same on a machine that has been changed in something they do not look at. What
they leave is then what they would have left, changed in the same way.
-/

namespace ReversePolish

namespace Action

variable {α β : Type} {T : Machine → Machine} {m : Machine} {a : Action α} {f : α → Action β}

/-- The result, on the changed machine. -/
def resultOn (T : Machine → Machine) :
    EStateM.Result Error Machine α → EStateM.Result Error Machine α
  | .ok x m => .ok x (T m)
  | .error e m => .error e (T m)

/-- The action does on the changed machine as it does on this one. -/
def Commutes (T : Machine → Machine) (m : Machine) (a : Action α) : Prop :=
  a.run (T m) = resultOn T (a.run m)

lemma commutes_pure (x : α) : Commutes T m (pure x) := rfl

lemma commutes_throw (e : Error) : Commutes T m (throw e : Action α) := rfl

lemma commutes_throw_bind (e : Error) : Commutes T m (throw e >>= f) := rfl

lemma commutes_ofExcept (x : Except Error α) : Commutes T m (ofExcept x) := by
  cases x with
  | ok x => exact commutes_pure x
  | error e => exact commutes_throw e

lemma Commutes.bind (ha : Commutes T m a)
    (hf : ∀ x m', a.run m = .ok x m' → Commutes T m' (f x)) : Commutes T m (a >>= f) := by
  unfold Commutes at ha ⊢
  cases hr : a.run m with
  | ok x m' =>
    rw [hr] at ha
    rw [run_bind_ok ha, run_bind_ok hr, hf x m' hr]
  | error e m' =>
    rw [hr] at ha
    rw [run_bind_error ha, run_bind_error hr]
    rfl

/-- What follows a look at the machine starts from the same machine. -/
lemma Commutes.look_bind (ha : Commutes T m a) (hk : Keeps (· = m) a)
    (hf : ∀ x, Commutes T m (f x)) : Commutes T m (a >>= f) :=
  ha.bind fun x _ hr => (eq_of_ok hk hr).symm ▸ hf x

lemma Commutes.guard {c : Prop} [Decidable c] {e : Error} {b : PUnit → Action β}
    (hb : Commutes T m (b ⟨⟩)) : Commutes T m (if c then throw e >>= b else b ⟨⟩) := by
  split
  · exact commutes_throw_bind e
  · exact hb

lemma commutes_get_bind {g : Machine → Action α} (hg : g (T m) = g m) (h : Commutes T m (g m)) :
    Commutes T m (get >>= g) := by
  show (g (T m)).run (T m) = resultOn T ((g m).run m)
  rw [hg, h]

lemma commutes_ask {g : Machine → α} (hg : g (T m) = g m) : Commutes T m (ask g) := by
  show EStateM.Result.ok (g (T m)) (T m) = _
  rw [hg]
  rfl

lemma commutes_demand {g : Machine → Except Error α} (hg : g (T m) = g m) :
    Commutes T m (demand g) :=
  commutes_get_bind (g := fun m => ofExcept (g m)) (by rw [hg]) (commutes_ofExcept _)

/-- What is looked at may be changed too, if what follows makes up for it. -/
lemma commutes_demand_bind {g : Machine → Except Error α} {k : α → α}
    (hg : g (T m) = (g m).map k)
    (hf : ∀ x, g m = .ok x → (f (k x)).run (T m) = resultOn T ((f x).run m)) :
    Commutes T m (demand g >>= f) := by
  unfold Commutes
  cases hx : g m with
  | ok x =>
    rw [hx] at hg
    rw [run_bind_ok (run_demand_ok hg), run_bind_ok (run_demand_ok hx), hf x hx]
  | error e =>
    rw [hx] at hg
    rw [run_bind_error (run_demand_error hg), run_bind_error (run_demand_error hx)]
    rfl

lemma commutes_modify {g : Machine → Machine} (hg : g (T m) = T (g m)) :
    Commutes T m (modify g) := by
  show EStateM.Result.ok PUnit.unit (g (T m)) = _
  rw [hg]
  rfl

lemma Commutes.modify_bind {g : Machine → Machine} {f : PUnit → Action β}
    (hf : Commutes T (g m) (f ⟨⟩)) (hg : g (T m) = T (g m)) :
    Commutes T m (modify g >>= f) :=
  (commutes_modify hg).bind fun _ m' hr => by cases hr; exact hf

lemma commutes_forM {xs : List α} {g : α → Action Unit} (hg : ∀ x m, Commutes T m (g x)) :
    Commutes T m (xs.forM g) := by
  induction xs generalizing m with
  | nil => exact commutes_pure ()
  | cons x xs ih => exact (hg x m).bind fun _ _ _ => ih

lemma commutes_mapM {xs : List α} (hf : ∀ x m, Commutes T m (f x)) :
    Commutes T m (xs.mapM f) := by
  induction xs generalizing m with
  | nil =>
    rw [List.mapM_nil]
    exact commutes_pure []
  | cons x xs ih =>
    rw [List.mapM_cons]
    exact (hf x m).bind fun y _ _ => ih.bind fun ys _ _ => commutes_pure (y :: ys)

lemma commutes_natural (n : Int64) (negative : Failure) : Commutes T m (natural n negative) := by
  unfold natural
  split
  · exact commutes_throw _
  · exact commutes_pure _

/-! ### Data and files -/

/-- The change is to none of what values are kept in, shown with and written to. -/
structure Beside (T : Machine → Machine) : Prop where
  stack : ∀ m, (T m).stack = m.stack
  heap : ∀ m, (T m).heap = m.heap
  disk : ∀ m, (T m).disk = m.disk
  display : ∀ m, (T m).display = m.display
  output : ∀ m, (T m).output = m.output
  withStack : ∀ m s, { T m with stack := s } = T { m with stack := s }
  withHeap : ∀ m h, { T m with heap := h } = T { m with heap := h }
  withDisk : ∀ m d, { T m with disk := d } = T { m with disk := d }
  withLine : ∀ m line, (T m).printLine line = T (m.printLine line)

namespace Beside

variable (hT : Beside T)

include hT

lemma stack_demand (g : Stack → Except Error α) : Commutes T m (demand fun m => g m.stack) :=
  commutes_demand (by rw [hT.stack])

lemma peekString (n : Nat) : Commutes T m (peekString n) := by
  refine (hT.stack_demand _).look_bind (keeps_demand _) fun v => ?_
  split
  · exact commutes_pure _
  · exact commutes_throw _

lemma peekProgram (n : Nat) : Commutes T m (peekProgram n) := by
  refine (hT.stack_demand _).look_bind (keeps_demand _) fun v => ?_
  split
  · exact commutes_pure _
  · exact commutes_throw _

lemma peekInt (n : Nat) : Commutes T m (peekInt n) :=
  (hT.stack_demand _).look_bind (keeps_demand _) fun _ => commutes_ofExcept _

lemma drop (n : Nat) : Commutes T m (drop n) :=
  commutes_modify (by rw [hT.stack, hT.withStack])

lemma push (v : Value) : Commutes T m (push v) :=
  (hT.stack_demand _).look_bind (keeps_demand _) fun s => commutes_modify (hT.withStack m s)

lemma pop : Commutes T m pop :=
  (hT.stack_demand _).look_bind (keeps_demand _) fun (_, s) =>
    .modify_bind (commutes_pure _) (hT.withStack m s)

lemma onHeap (g : Heap → α × Heap) : Commutes T m (onHeap g) := by
  show EStateM.Result.ok (g (T m).heap).1 { T m with heap := (g (T m).heap).2 } = _
  rw [hT.heap, hT.withHeap]
  rfl

/-! ### Words that look at nothing else -/

lemma pick : Commutes T m pick := by
  refine (hT.peekInt 0).look_bind (keeps_peekInt 0) fun index => ?_
  refine (commutes_natural _ _).look_bind (keeps_natural _ _) fun n => ?_
  refine (hT.stack_demand _).look_bind (keeps_demand _) fun v => ?_
  exact (hT.drop 1).bind fun _ _ _ => hT.push v

lemma list : Commutes T m list := by
  refine (hT.peekInt 0).look_bind (keeps_peekInt 0) fun count => ?_
  refine (commutes_natural _ _).look_bind (keeps_natural _ _) fun n => ?_
  refine (hT.stack_demand _).look_bind (keeps_demand _) fun _ => ?_
  refine (hT.drop 1).bind fun _ m₁ _ => ?_
  refine (hT.stack_demand (fun s => s.top n)).bind fun vs m₂ _ => ?_
  refine (hT.drop n).bind fun _ _ _ => (hT.onHeap _).bind fun v _ _ => hT.push v

lemma printLine (line : String) : Commutes T m (Action.printLine line) := by
  unfold Commutes
  rw [run_printLine, run_printLine, hT.output, hT.withLine]
  cases m.output.refusal? line <;> rfl

lemma print : Commutes T m print := by
  have hshown (v : Value) : (T m).shown v = m.shown v := by
    rw [Machine.shown, hT.display, hT.heap, Machine.shown]
  refine (hT.stack_demand _).look_bind (keeps_demand _) fun v => ?_
  cases v with
  | str s => exact (hT.printLine s).bind fun _ _ _ => hT.drop 1
  | _ =>
    refine (commutes_ask (hshown _)).look_bind (keeps_ask _) fun line => ?_
    exact (hT.printLine line).bind fun _ _ _ => hT.drop 1

lemma save : Commutes T m save := by
  refine (hT.peekString 0).look_bind (keeps_peekString 0) fun path => ?_
  refine (hT.stack_demand _).look_bind (keeps_demand _) fun v => .guard ?_
  refine commutes_get_bind (by rw [hT.disk]) (commutes_get_bind (by rw [hT.heap]) ?_)
  split
  · exact .modify_bind (hT.drop 2) (hT.withDisk m _)
  · exact commutes_throw_bind _

end Beside

end Action

end ReversePolish
