import Mathlib.Tactic.Lemma
import ReversePolish.Meaning

/-!
What an action keeps, and what it gives. An action that fails leaves the machine as it was at the
failure, so that what is kept holds then too.
-/

namespace ReversePolish

namespace Action

variable {α β : Type} {P : Machine → Prop} {a : Action α} {f : α → Action β}

/-- The machine that an action leaves. -/
def machine : EStateM.Result Error Machine α → Machine
  | .ok _ m | .error _ m => m

/-- Whatever becomes of the action, the machine keeps this. -/
def Keeps (P : Machine → Prop) (a : Action α) : Prop := ∀ m, P m → P (machine (a.run m))

lemma keeps_pure (x : α) : Keeps P (pure x) := fun _ h => h

lemma keeps_throw (e : Error) : Keeps P (throw e : Action α) := fun _ h => h

lemma keeps_ofExcept (x : Except Error α) : Keeps P (ofExcept x) := by
  cases x with
  | ok x => exact keeps_pure x
  | error e => exact keeps_throw e

lemma keeps_get : Keeps P (get : Action Machine) := fun _ h => h

lemma keeps_modify {g : Machine → Machine} (hg : ∀ m, P m → P (g m)) :
    Keeps P (modify g : Action Unit) := hg

lemma Keeps.bind (ha : Keeps P a) (hf : ∀ x, Keeps P (f x)) : Keeps P (a >>= f) := by
  intro m h
  have ha := ha m h
  show P (machine (EStateM.bind a f m))
  unfold EStateM.bind
  change P (machine (a m)) at ha
  cases hr : a m with
  | ok x m' =>
    rw [hr] at ha
    exact hf x m' ha
  | error e m' =>
    rw [hr] at ha
    exact ha

lemma Keeps.map (ha : Keeps P a) (g : α → β) : Keeps P (g <$> a) := by
  intro m h
  have ha := ha m h
  show P (machine (EStateM.map g a m))
  unfold EStateM.map
  change P (machine (a m)) at ha
  cases hr : a m with
  | ok x m' =>
    rw [hr] at ha
    exact ha
  | error e m' =>
    rw [hr] at ha
    exact ha

lemma keeps_ask (g : Machine → α) : Keeps P (ask g) := keeps_get.map g

lemma keeps_demand (g : Machine → Except Error α) : Keeps P (demand g) :=
  keeps_get.bind fun m => keeps_ofExcept (g m)

lemma keeps_throw_bind (e : Error) : Keeps P (throw e >>= f) := fun _ h => h

/-- Where an action gives up early, what follows is not reached. -/
lemma keeps_guard {c : Prop} [Decidable c] {e : Error} {b : PUnit → Action β}
    (hb : ¬ c → Keeps P (b ⟨⟩)) : Keeps P (if c then throw e >>= b else b ⟨⟩) := by
  split
  · exact keeps_throw_bind e
  · next hc => exact hb hc

/-- What follows may rely on what was read off the machine. -/
lemma keeps_demand_bind {g : Machine → Except Error α}
    (hf : ∀ m x, P m → g m = .ok x → P (machine ((f x).run m))) : Keeps P (demand g >>= f) := by
  intro m h
  have hdemand : demand g m = ofExcept (g m) m := rfl
  show P (machine (EStateM.bind (demand g) f m))
  unfold EStateM.bind
  rw [hdemand]
  cases hg : g m with
  | ok x => exact hf m x h hg
  | error e => exact h

lemma keeps_forM {xs : List α} {g : α → Action Unit} (hg : ∀ x, Keeps P (g x)) :
    Keeps P (xs.forM g) := by
  induction xs with
  | nil => exact keeps_pure ()
  | cons x xs ih => exact (hg x).bind fun _ => ih

lemma keeps_mapM {xs : List α} (hf : ∀ x, Keeps P (f x)) : Keeps P (xs.mapM f) := by
  induction xs with
  | nil =>
    rw [List.mapM_nil]
    exact keeps_pure []
  | cons x xs ih =>
    rw [List.mapM_cons]
    exact (hf x).bind fun y => ih.bind fun ys => keeps_pure (y :: ys)

/-! ### Runs -/

variable {m m' : Machine} {x : α} {e : Error}

lemma run_bind_ok (h : a.run m = .ok x m') : (a >>= f).run m = (f x).run m' := by
  show EStateM.bind a f m = f x m'
  unfold EStateM.bind
  rw [show a m = .ok x m' from h]

lemma run_bind_error (h : a.run m = .error e m') : (a >>= f).run m = .error e m' := by
  show EStateM.bind a f m = .error e m'
  unfold EStateM.bind
  rw [show a m = .error e m' from h]

lemma run_demand_ok {g : Machine → Except Error α} (h : g m = .ok x) :
    (demand g).run m = .ok x m := by
  show ofExcept (g m) m = .ok x m
  rw [h]
  rfl

lemma run_demand_error {g : Machine → Except Error α} (h : g m = .error e) :
    (demand g).run m = .error e m := by
  show ofExcept (g m) m = .error e m
  rw [h]
  rfl

lemma eq_ok_of_run_demand {g : Machine → Except Error α} (h : (demand g).run m = .ok x m') :
    g m = .ok x := by
  cases hg : g m with
  | ok y =>
    rw [run_demand_ok hg] at h
    cases h
    rfl
  | error e =>
    rw [run_demand_error hg] at h
    cases h

lemma run_pop_nil (h : m.stack = []) : pop.run m = .error (.underflow 1 0) m :=
  run_bind_error (run_demand_error (by rw [h]; rfl))

lemma run_pop_cons {v : Value} {s : Stack} (h : m.stack = v :: s) :
    pop.run m = .ok v { m with stack := s } := by
  have hpop : (demand fun m => m.stack.pop).run m = .ok (v, s) m :=
    run_demand_ok (by rw [h]; rfl)
  exact run_bind_ok hpop

lemma run_peekString {name : String} {s : Stack} (h : m.stack = .str name :: s) :
    (peekString 0).run m = .ok name m := by
  have hexpect : (demand fun m => m.stack.expect 0 .string).run m = .ok (.str name) m :=
    run_demand_ok (by rw [h]; rfl)
  exact run_bind_ok hexpect

/-- A string that is found is on top of the stack. -/
lemma stack_of_peekString {name : String} (h : (peekString 0).run m = .ok name m') :
    ∃ s, m.stack = .str name :: s := by
  cases hs : m.stack with
  | nil =>
    rw [peekString, run_bind_error (run_demand_error (by rw [hs]; rfl))] at h
    cases h
  | cons v s =>
    cases v with
    | str text =>
      rw [run_peekString hs] at h
      cases h
      exact ⟨s, rfl⟩
    | _ =>
      rw [peekString, run_bind_error (run_demand_error (by rw [hs]; rfl))] at h
      cases h

/-- A line is printed, and it is an error if it is refused. -/
lemma run_printLine (line : String) (m : Machine) : (printLine line).run m =
    match m.output.refusal? line with
    | none => .ok () (m.printLine line)
    | some reason => .error (.failed (.unprinted reason)) (m.printLine line) := by
  show (match m.output.refusal? line with
    | none => return
    | some reason => throw (.failed (.unprinted reason)) : Action Unit) (m.printLine line) = _
  cases m.output.refusal? line <;> rfl

lemma keeps_printLine {line : String} (hP : ∀ m, P m → P (m.printLine line)) :
    Keeps P (printLine line) := by
  intro m h
  rw [run_printLine]
  cases m.output.refusal? line <;> exact hP m h

/-! ### What only looks -/

lemma keeps_peekString (n : Nat) : Keeps P (peekString n) := by
  refine (keeps_demand _).bind fun v => ?_
  split
  · exact keeps_pure _
  · exact keeps_throw _

lemma keeps_peekProgram (n : Nat) : Keeps P (peekProgram n) := by
  refine (keeps_demand _).bind fun v => ?_
  split
  · exact keeps_pure _
  · exact keeps_throw _

lemma keeps_peekInt (n : Nat) : Keeps P (peekInt n) :=
  (keeps_demand _).bind fun _ => keeps_ofExcept _

lemma keeps_natural (n : Int64) (negative : Failure) : Keeps P (natural n negative) := by
  unfold natural
  split
  · exact keeps_throw _
  · exact keeps_pure _

/-- Looking leaves the machine as it is. -/
lemma eq_of_ok (ha : Keeps (· = m) a) (h : a.run m = .ok x m') : m' = m := by
  have := ha m rfl
  rwa [h] at this

lemma eq_of_error (ha : Keeps (· = m) a) (h : a.run m = .error e m') : m' = m := by
  have := ha m rfl
  rwa [h] at this

/-! ### What actions give -/

variable {Q : α → Prop} {R : β → Prop}

/-- The machine keeps the one property, and what the action gives has the other. -/
def Yields (P : Machine → Prop) (Q : α → Prop) (a : Action α) : Prop :=
  Keeps P a ∧ ∀ m x m', P m → a.run m = .ok x m' → Q x

lemma yields_demand {g : Machine → Except Error α} (hg : ∀ m x, P m → g m = .ok x → Q x) :
    Yields P Q (demand g) :=
  ⟨keeps_demand g, fun m x _ hm hr => hg m x hm (eq_ok_of_run_demand hr)⟩

lemma Yields.bind (ha : Yields P Q a) (hf : ∀ x, Q x → Keeps P (f x)) : Keeps P (a >>= f) := by
  intro m hm
  have hkeeps := ha.1 m hm
  cases hr : a.run m with
  | ok x m' =>
    rw [hr] at hkeeps
    rw [run_bind_ok hr]
    exact hf x (ha.2 m x m' hm hr) m' hkeeps
  | error e m' =>
    rw [hr] at hkeeps
    rw [run_bind_error hr]
    exact hkeeps

/-- What the last of several actions gives. -/
lemma Yields.andThen (ha : Yields P Q a) (hf : ∀ x, Q x → Yields P R (f x)) :
    Yields P R (a >>= f) := by
  refine ⟨ha.bind fun x hx => (hf x hx).1, fun m y m' hm hr => ?_⟩
  have hkeeps := ha.1 m hm
  cases hra : a.run m with
  | ok x m₁ =>
    rw [hra] at hkeeps
    rw [run_bind_ok hra] at hr
    exact (hf x (ha.2 m x m₁ hm hra)).2 m₁ y m' hkeeps hr
  | error e m₁ =>
    rw [run_bind_error hra] at hr
    cases hr

lemma yields_pure {x : α} (hx : Q x) : Yields P Q (pure x) :=
  ⟨keeps_pure x, fun _ _ _ _ hr => by cases hr; exact hx⟩

lemma yields_throw (e : Error) : Yields P Q (throw e) :=
  ⟨keeps_throw e, fun _ _ _ _ hr => nomatch hr⟩

lemma yields_ask {g : Machine → α} (hg : ∀ m, P m → Q (g m)) : Yields P Q (ask g) :=
  ⟨keeps_ask g, fun m _ _ hm hr => by cases hr; exact hg m hm⟩

lemma Keeps.yields (ha : Keeps P a) : Yields P (fun _ => True) a := ⟨ha, fun _ _ _ _ _ => trivial⟩

end Action

end ReversePolish
