import ReversePolish.Proofs.Execution.Atomic

/-!
More values at the bottom of the stack. A word reaches down from the top, so values that lie below
all that it looks at make no difference to it. Only `DEPTH` and `CLEAR` look at the whole stack,
and a word that finds too few values would look at those below.
-/

namespace ReversePolish

namespace Error

/-- The stack held too few values. -/
def isUnderflow : Error → Bool
  | underflow _ _ => true
  | _ => false

end Error

/-- The machine with more values at the bottom of its stack. -/
def Machine.onto (base : Stack) (m : Machine) : Machine := { m with stack := m.stack ++ base }

@[simp] lemma Machine.stack_onto (base : Stack) (m : Machine) :
    (m.onto base).stack = m.stack ++ base := rfl

/-! ### The stack -/

/-- With more values at the bottom this comes to the same, unless there were too few. -/
def Stack.Reaching {α : Type} (base : Stack) (f : Stack → Except Error α) (s : Stack) : Prop :=
  (∃ e, f s = .error e ∧ e.isUnderflow = true) ∨ f (s ++ base) = f s

namespace Stack

variable {s base : Stack} {v : Value} {n : Nat} {k : Kind}

lemma length_of_peek (h : s.peek n = .ok v) : n < s.length :=
  (List.getElem?_eq_some_iff.mp (peek_eq_ok_iff.mp h)).1

lemma length_of_expect (h : s.expect n k = .ok v) : n < s.length := by
  unfold expect at h
  cases hp : s.peek n with
  | ok w => exact length_of_peek hp
  | error e => rw [hp] at h; cases h

lemma reaching_peek (base s : Stack) (n : Nat) : Reaching base (peek n) s := by
  rcases Nat.lt_or_ge n s.length with h | h
  · have hv : s.peek n = .ok s[n] := peek_eq_ok_iff.mpr (List.getElem?_eq_getElem h)
    refine .inr ?_
    rw [hv, peek_eq_ok_iff, List.getElem?_append_left h, List.getElem?_eq_getElem h]
  · exact .inl ⟨.underflow (n + 1) s.length, by simp [peek, List.getElem?_eq_none h], rfl⟩

lemma reaching_expect (base s : Stack) (n : Nat) (k : Kind) : Reaching base (expect n k) s := by
  rcases reaching_peek base s n with ⟨e, he, hu⟩ | h
  · exact .inl ⟨e, by rw [expect, he]; rfl, hu⟩
  · exact .inr (by rw [expect, expect, h])

lemma reaching_require (base s : Stack) (n : Nat) : Reaching base (require n) s := by
  rcases Nat.lt_or_ge s.length n with h | h
  · exact .inl ⟨.underflow n s.length, by simp [require, h], rfl⟩
  · exact .inr ((require_eq_ok_iff.mpr (by simp; omega)).trans (require_eq_ok_iff.mpr h).symm)

lemma reaching_top (base s : Stack) (n : Nat) : Reaching base (top n) s := by
  rcases Nat.lt_or_ge s.length n with h | h
  · exact .inl ⟨.underflow n s.length, by simp [top, require, h, bind, Except.bind], rfl⟩
  · refine .inr ?_
    rw [top_of_le h, top_of_le (by simp; omega), List.take_append_of_le_length h]

end Stack

/-! ### Actions -/

namespace Action

variable {α β : Type} {base : Stack} {m : Machine} {a : Action α} {f : α → Action β}

/-- The result, with more values at the bottom of the stack. -/
def ontoResult (base : Stack) :
    EStateM.Result Error Machine α → EStateM.Result Error Machine α
  | .ok x m => .ok x (m.onto base)
  | .error e m => .error e (m.onto base)

/-- The action does on this machine as it does with more values at the bottom of the stack, unless
it finds too few. -/
def Local (base : Stack) (m : Machine) (a : Action α) : Prop :=
  (∃ e m', a.run m = .error e m' ∧ e.isUnderflow = true) ∨
    a.run (m.onto base) = ontoResult base (a.run m)

lemma local_pure (x : α) : Local base m (pure x) := .inr rfl

lemma local_throw (e : Error) : Local base m (throw e : Action α) := .inr rfl

lemma Local.bind (ha : Local base m a)
    (hf : ∀ x m', a.run m = .ok x m' → Local base m' (f x)) : Local base m (a >>= f) := by
  rcases ha with ⟨e, m', hr, he⟩ | ha
  · exact .inl ⟨e, m', run_bind_error hr, he⟩
  · cases hr : a.run m with
    | ok x m' =>
      rw [hr] at ha
      rcases hf x m' hr with ⟨e, m'', hr', he⟩ | hf
      · exact .inl ⟨e, m'', (run_bind_ok hr).trans hr', he⟩
      · exact .inr (by rw [run_bind_ok ha, run_bind_ok hr, hf])
    | error e m' =>
      rw [hr] at ha
      exact .inr (by rw [run_bind_error ha, run_bind_error hr]; rfl)

/-- What follows a look at the machine starts from the same machine. -/
lemma Local.look_bind (ha : Local base m a) (hk : Keeps (· = m) a)
    (hf : ∀ x, Local base m (f x)) : Local base m (a >>= f) :=
  ha.bind fun x _ hr => (eq_of_ok hk hr).symm ▸ hf x

lemma local_throw_bind (e : Error) : Local base m (throw e >>= f) := .inr rfl

lemma Local.guard {c : Prop} [Decidable c] {e : Error} {b : PUnit → Action β}
    (hb : Local base m (b ⟨⟩)) : Local base m (if c then throw e >>= b else b ⟨⟩) := by
  split
  · exact local_throw_bind e
  · exact hb

/-- What is read off the machine beside the stack. -/
lemma local_ask {g : Machine → α} (hg : g (m.onto base) = g m) : Local base m (ask g) := by
  refine .inr ?_
  show EStateM.Result.ok (g (m.onto base)) (m.onto base) = _
  rw [hg]
  rfl

lemma local_get_bind {g : Machine → Action α} (hg : g (m.onto base) = g m)
    (h : Local base m (g m)) : Local base m (get >>= g) := by
  rcases h with ⟨e, m', hr, he⟩ | h
  · exact .inl ⟨e, m', hr, he⟩
  · refine .inr ?_
    show (g (m.onto base)).run (m.onto base) = ontoResult base ((g m).run m)
    rw [hg, h]

lemma local_ofExcept (x : Except Error α) : Local base m (ofExcept x) := by
  cases x with
  | ok x => exact local_pure x
  | error e => exact local_throw e

lemma local_demand {g : Machine → Except Error α} (hg : g (m.onto base) = g m) :
    Local base m (demand g) :=
  local_get_bind (g := fun m => ofExcept (g m)) (by rw [hg]) (local_ofExcept _)

/-- What is read off the stack. -/
lemma local_demand_stack {g : Stack → Except Error α} (hg : Stack.Reaching base g m.stack) :
    Local base m (demand fun m => g m.stack) := by
  rcases hg with ⟨e, hr, he⟩ | hg
  · exact .inl ⟨e, m, run_demand_error hr, he⟩
  · exact local_demand hg

lemma local_modify {g : Machine → Machine} (hg : g (m.onto base) = (g m).onto base) :
    Local base m (modify g) := by
  refine .inr ?_
  show EStateM.Result.ok PUnit.unit (g (m.onto base)) = _
  rw [hg]
  rfl

/-- A change of something beside the stack. -/
lemma Local.modify_bind {g : Machine → Machine} {f : PUnit → Action β}
    (hf : Local base (g m) (f ⟨⟩)) (hg : g (m.onto base) = (g m).onto base) :
    Local base m (modify g >>= f) :=
  (local_modify hg).bind fun _ m' hr => by cases hr; exact hf

lemma local_onHeap (g : Heap → α × Heap) : Local base m (onHeap g) := .inr rfl

lemma local_drop {n : Nat} (hn : n ≤ m.stack.length) : Local base m (drop n) :=
  local_modify (by simp [Machine.onto, List.drop_append_of_le_length hn])

lemma local_push (v : Value) : Local base m (push v) := by
  by_cases hv : v.IsData
  · exact .inr (by rw [run_push hv, run_push hv]; rfl)
  · obtain ⟨c, help, rfl⟩ := Value.not_isData_iff.mp hv
    exact .inr rfl

lemma local_pop : Local base m pop := by
  cases hs : m.stack with
  | nil => exact .inl ⟨_, m, run_pop_nil hs, rfl⟩
  | cons v s =>
    have hs' : (m.onto base).stack = v :: (s ++ base) := by simp [hs]
    exact .inr (by rw [run_pop_cons hs', run_pop_cons hs]; rfl)

lemma local_forM {xs : List α} {g : α → Action Unit} (hg : ∀ x m, Local base m (g x)) :
    Local base m (xs.forM g) := by
  induction xs generalizing m with
  | nil => exact local_pure ()
  | cons x xs ih => exact (hg x m).bind fun _ _ _ => ih

lemma local_mapM {xs : List α} (hf : ∀ x m, Local base m (f x)) : Local base m (xs.mapM f) := by
  induction xs generalizing m with
  | nil =>
    rw [List.mapM_nil]
    exact local_pure []
  | cons x xs ih =>
    rw [List.mapM_cons]
    exact (hf x m).bind fun y _ _ => ih.bind fun ys _ _ => local_pure (y :: ys)

lemma local_natural (n : Int64) (negative : Failure) : Local base m (natural n negative) := by
  unfold natural
  split
  · exact local_throw _
  · exact local_pure _

/-! ### Looking at operands -/

/-- A value that was found lies on the stack. -/
lemma Local.peek_bind {n : Nat} {f : Value → Action β}
    (hf : ∀ v, n < m.stack.length → Local base m (f v)) :
    Local base m ((demand fun m => m.stack.peek n) >>= f) := by
  refine (local_demand_stack (Stack.reaching_peek base m.stack n)).bind fun v m' hr => ?_
  obtain rfl := eq_of_ok (keeps_demand _) hr
  exact hf v (Stack.length_of_peek (eq_ok_of_run_demand hr))

lemma Local.expect_bind {n : Nat} {k : Kind} {f : Value → Action β}
    (hf : ∀ v, n < m.stack.length → Local base m (f v)) :
    Local base m ((demand fun m => m.stack.expect n k) >>= f) := by
  refine (local_demand_stack (Stack.reaching_expect base m.stack n k)).bind fun v m' hr => ?_
  obtain rfl := eq_of_ok (keeps_demand _) hr
  exact hf v (Stack.length_of_expect (eq_ok_of_run_demand hr))

lemma local_peekString (n : Nat) : Local base m (peekString n) := by
  refine .expect_bind fun v _ => ?_
  split
  · exact local_pure _
  · exact local_throw _

lemma local_peekProgram (n : Nat) : Local base m (peekProgram n) := by
  refine .expect_bind fun v _ => ?_
  split
  · exact local_pure _
  · exact local_throw _

lemma length_of_peekString {n : Nat} {name : String} {m' : Machine}
    (h : (peekString n).run m = .ok name m') : n < m.stack.length := by
  cases hv : m.stack.expect n .string with
  | ok v => exact Stack.length_of_expect hv
  | error e =>
    rw [peekString, run_bind_error (run_demand_error hv)] at h
    cases h

lemma length_of_peekProgram {n : Nat} {g : Program} {m' : Machine}
    (h : (peekProgram n).run m = .ok g m') : n < m.stack.length := by
  cases hv : m.stack.expect n .program with
  | ok v => exact Stack.length_of_expect hv
  | error e =>
    rw [peekProgram, run_bind_error (run_demand_error hv)] at h
    cases h

lemma Local.peekString_bind {n : Nat} {f : String → Action β}
    (hf : ∀ name, n < m.stack.length → Local base m (f name)) :
    Local base m (peekString n >>= f) := by
  refine (local_peekString n).bind fun name m' hr => ?_
  obtain rfl := eq_of_ok (keeps_peekString n) hr
  exact hf name (length_of_peekString hr)

lemma Local.peekProgram_bind {n : Nat} {f : Program → Action β}
    (hf : ∀ g, n < m.stack.length → Local base m (f g)) :
    Local base m (peekProgram n >>= f) := by
  refine (local_peekProgram n).bind fun g m' hr => ?_
  obtain rfl := eq_of_ok (keeps_peekProgram n) hr
  exact hf g (length_of_peekProgram hr)

lemma local_printLine (line : String) : Local base m (printLine line) := by
  have houtput : (m.onto base).output = m.output := rfl
  refine .inr ?_
  rw [run_printLine, run_printLine, houtput]
  cases m.output.refusal? line <;> rfl

lemma Local.printLine_bind {line : String} {f : Unit → Action β}
    (hf : Local base (m.printLine line) (f ())) : Local base m (printLine line >>= f) := by
  refine (local_printLine line).bind fun _ m' hr => ?_
  rw [run_printLine] at hr
  split at hr
  · cases hr
    exact hf
  · cases hr

/-! ### Words -/

lemma local_pick : Local base m pick := by
  unfold pick peekInt
  rw [bind_assoc]
  refine .peek_bind fun v hv => .look_bind (local_ofExcept _) (keeps_ofExcept _) fun index => ?_
  refine .look_bind (local_natural _ _) (keeps_natural _ _) fun n => .peek_bind fun v _ => ?_
  exact (local_drop (by omega)).bind fun _ _ _ => local_push v

/-- Once it is known that so many values are there, taking them stays above the base. -/
lemma local_list : Local base m list := by
  unfold list peekInt
  rw [bind_assoc]
  refine .peek_bind fun v hv => .look_bind (local_ofExcept _) (keeps_ofExcept _) fun count => ?_
  refine .look_bind (local_natural _ _) (keeps_natural _ _) fun n => ?_
  refine (local_demand_stack (Stack.reaching_require base m.stack (n + 1))).bind fun _ m' hr => ?_
  obtain rfl := eq_of_ok (keeps_demand _) hr
  have hn : n + 1 ≤ m'.stack.length := Stack.require_eq_ok_iff.mp (eq_ok_of_run_demand hr)
  refine (local_drop (by omega)).bind fun _ m₁ hr => ?_
  cases hr
  refine .look_bind (local_demand_stack (Stack.reaching_top base _ n)) (keeps_demand _) fun vs => ?_
  refine (local_drop (by simp only [List.length_drop]; omega)).bind fun _ _ _ => ?_
  exact (local_onHeap _).bind fun v _ _ => local_push v

lemma local_storeVariable : Local base m storeVariable := by
  refine .peekString_bind fun name _ => ?_
  refine (local_demand_stack (Stack.reaching_require base m.stack 2)).bind fun _ m' hr => ?_
  obtain rfl := eq_of_ok (keeps_demand _) hr
  have hn : 2 ≤ m'.stack.length := Stack.require_eq_ok_iff.mp (eq_ok_of_run_demand hr)
  refine (local_drop (by omega)).bind fun _ m₁ hr => ?_
  cases hr
  exact local_pop.bind fun v _ _ => local_modify rfl

lemma local_recallVariable : Local base m recallVariable := by
  refine .peekString_bind fun name hn => .look_bind (local_demand rfl) (keeps_demand _) fun v => ?_
  exact (local_drop hn).bind fun _ _ _ => local_push v

lemma local_recallLocal : Local base m recallLocal := by
  refine .peekString_bind fun name hn => .look_bind (local_demand rfl) (keeps_demand _) fun v => ?_
  exact (local_drop hn).bind fun _ _ _ => local_push v

lemma local_purgeVariable : Local base m purgeVariable := by
  refine .peekString_bind fun name hn => .look_bind (local_demand rfl) (keeps_demand _) fun x => ?_
  exact .modify_bind (local_drop hn) rfl

lemma local_storeLocal : Local base m storeLocal := by
  refine .peekString_bind fun name _ => .peek_bind fun v hv => ?_
  refine .look_bind (local_demand rfl) (keeps_demand _) fun s => ?_
  exact .modify_bind (local_drop hv) rfl

lemma local_setNamespace : Local base m setNamespace := by
  refine .peekString_bind fun name hn => .guard ?_
  exact (local_drop hn).bind fun _ _ _ => local_modify rfl

lemma local_registerProgram : Local base m registerProgram := by
  refine .peekString_bind fun name _ => .peekProgram_bind fun p hp => ?_
  refine .look_bind (local_demand rfl) (keeps_demand _) fun r => ?_
  exact .modify_bind (local_drop hp) rfl

lemma local_unregister : Local base m unregister := by
  refine .peekString_bind fun name hn => .look_bind (local_ask rfl) (keeps_ask _) fun known => ?_
  exact .guard (.modify_bind (local_drop hn) rfl)

lemma local_print : Local base m print := by
  refine .peek_bind fun v hv => ?_
  cases v with
  | str s => exact .printLine_bind (local_drop hv)
  | _ =>
    refine .look_bind (local_ask rfl) (keeps_ask _) fun line => ?_
    exact .printLine_bind (local_drop hv)

lemma local_help : Local base m help := by
  refine .look_bind (local_ask rfl) (keeps_ask _) fun groups => ?_
  exact (local_forM fun _ _ => local_printLine _).bind fun _ _ _ => local_printLine _

lemma local_parse : Local base m parse := by
  refine .peekString_bind fun text hn => .look_bind (local_demand rfl) (keeps_demand _) fun ds => ?_
  refine (local_drop hn).bind fun _ _ _ => (local_onHeap _).bind fun body _ _ => ?_
  refine (local_ask rfl).bind fun home _ _ => (local_onHeap _).bind fun cell _ _ => ?_
  exact local_push _

lemma local_save : Local base m save := by
  refine .peekString_bind fun path _ => .peek_bind fun v hv => .guard ?_
  refine local_get_bind rfl (local_get_bind rfl ?_)
  split
  · exact .modify_bind (local_drop hv) rfl
  · exact local_throw_bind _

lemma local_restore : Local base m restore := by
  refine .peekString_bind fun path hn => local_get_bind rfl ?_
  cases m.disk.read path with
  | error fault => exact local_throw _
  | ok text =>
    refine .look_bind (local_demand rfl) (keeps_demand _) fun ds => .guard ?_
    refine (local_drop hn).bind fun _ _ _ => (local_onHeap _).bind fun vs _ _ => ?_
    exact local_forM fun v _ => local_push v

/-- **Words other than `DEPTH` and `CLEAR` do not look at the whole stack.** -/
theorem local_meaning {w : Word} {a : Action Unit} (hw : w.meaning = .action a)
    (hdepth : w ≠ .depth) (hclear : w ≠ .clear) : Local base m a := by
  cases w <;> cases hw
  case depth => exact (hdepth rfl).elim
  case clear => exact (hclear rfl).elim
  case pick => exact local_pick
  case list => exact local_list
  case sto => exact local_storeVariable
  case rcl => exact local_recallVariable
  case purge => exact local_purgeVariable
  case lsto => exact local_storeLocal
  case lrcl => exact local_recallLocal
  case setNs => exact local_setNamespace
  case ns => exact .look_bind (local_ask rfl) (keeps_ask _) fun name => local_push (.str name)
  case vars =>
    refine .look_bind (local_ask rfl) (keeps_ask _) fun names => ?_
    exact (local_onHeap _).bind fun v _ _ => local_push v
  case register => exact local_registerProgram
  case unregister => exact local_unregister
  case print => exact local_print
  case help => exact local_help
  case parse => exact local_parse
  case save => exact local_save
  case restore => exact local_restore
  case exit => exact local_modify rfl
  case interrupt => exact local_modify rfl

end Action

end ReversePolish
