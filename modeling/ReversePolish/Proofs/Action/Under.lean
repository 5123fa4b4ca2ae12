import ReversePolish.Proofs.Action.Commuting
import ReversePolish.Proofs.Scope

/-!
Words that are run inside a program see the frame of that program and none below it.
-/

namespace ReversePolish

namespace Scope

variable {s : Scope} {fs : List Activation}

/-- The scope with more programs running, outside those that run. -/
def under (fs : List Activation) (s : Scope) : Scope := { s with frames := s.frames ++ fs }

@[simp] lemma modules_under : (s.under fs).modules = s.modules := rfl

@[simp] lemma current_under : (s.under fs).current = s.current := rfl

@[simp] lemma resolve_under (name : String) : (s.under fs).resolve name = s.resolve name := rfl

@[simp] lemma fetch_under (name : String) : (s.under fs).fetch name = s.fetch name := rfl

@[simp] lemma store_under (name : String) (v : Value) :
    (s.under fs).store name v = (s.store name v).under fs := rfl

lemma purge_under (name : String) :
    (s.under fs).purge name = (s.purge name).map (Prod.map id (under fs)) := by
  simp only [purge, resolve_under, modules_under]
  split <;> rfl

lemma create_under (name : String) : (s.under fs).create name = (s.create name).under fs := by
  unfold create
  rw [modules_under]
  split <;> rfl

@[simp] lemma switch_under (name : String) :
    ((s.under fs).switch name).2 = (s.switch name).2.under fs := by
  unfold switch
  rw [current_under, create_under]
  split <;> rfl

@[simp] lemma enter_under (p : Program) : (s.under fs).enter p = (s.enter p).under fs := rfl

/-- Of the programs that run, the innermost one is left. -/
lemma leave_under (h : s.frames ≠ []) : (s.under fs).leave = s.leave.under fs := by
  simp [leave, under, List.tail_append_of_ne_nil h]

lemma getLocal_under (h : s.frames ≠ []) (name : String) :
    (s.under fs).getLocal name = s.getLocal name := by
  obtain ⟨f, gs, hfs⟩ := List.exists_cons_of_ne_nil h
  simp [getLocal, under, hfs]

lemma setLocal_under (h : s.frames ≠ []) (name : String) (v : Value) :
    (s.under fs).setLocal name v = (s.setLocal name v).map (under fs) := by
  obtain ⟨f, gs, hfs⟩ := List.exists_cons_of_ne_nil h
  simp [setLocal, under, hfs, Except.map]

end Scope

/-- The machine with more programs running, outside those that run. -/
def Machine.under (fs : List Activation) (m : Machine) : Machine :=
  { m with scope := m.scope.under fs }

namespace Action

variable {fs : List Activation} {m : Machine}

lemma beside_under (fs : List Activation) : Beside (Machine.under fs) :=
  ⟨fun _ => rfl, fun _ => rfl, fun _ => rfl, fun _ => rfl, fun _ => rfl, fun _ _ => rfl,
    fun _ _ => rfl, fun _ _ => rfl, fun _ _ => rfl⟩

/-- The action does as it does with more programs running outside. -/
abbrev Inside (fs : List Activation) (m : Machine) (a : Action Unit) : Prop :=
  Commutes (Machine.under fs) m a

lemma inside_storeVariable : Inside fs m storeVariable := by
  have hbeside := beside_under fs
  refine (hbeside.peekString 0).look_bind (keeps_peekString 0) fun name => ?_
  refine (hbeside.stack_demand _).look_bind (keeps_demand _) fun _ => ?_
  refine (hbeside.drop 1).bind fun _ _ _ => hbeside.pop.bind fun v _ _ => ?_
  exact commutes_modify rfl

lemma inside_recallVariable : Inside fs m recallVariable := by
  have hbeside := beside_under fs
  refine (hbeside.peekString 0).look_bind (keeps_peekString 0) fun name => ?_
  refine (commutes_demand rfl).look_bind (keeps_demand _) fun v => ?_
  exact (hbeside.drop 1).bind fun _ _ _ => hbeside.push v

lemma inside_purgeVariable : Inside fs m purgeVariable := by
  have hbeside := beside_under fs
  refine (hbeside.peekString 0).look_bind (keeps_peekString 0) fun name => ?_
  exact commutes_demand_bind (Scope.purge_under name) fun _ _ => rfl

/-- The innermost program gets the local variable. -/
lemma inside_storeLocal (hm : m.scope.frames ≠ []) : Inside fs m storeLocal := by
  have hbeside := beside_under fs
  refine (hbeside.peekString 0).look_bind (keeps_peekString 0) fun name => ?_
  refine (hbeside.stack_demand _).look_bind (keeps_demand _) fun v => ?_
  exact commutes_demand_bind (Scope.setLocal_under hm name v) fun _ _ => rfl

lemma inside_recallLocal (hm : m.scope.frames ≠ []) : Inside fs m recallLocal := by
  have hbeside := beside_under fs
  refine (hbeside.peekString 0).look_bind (keeps_peekString 0) fun name => ?_
  refine (commutes_demand (Scope.getLocal_under hm name)).look_bind (keeps_demand _) fun v => ?_
  exact (hbeside.drop 1).bind fun _ _ _ => hbeside.push v

lemma inside_setNamespace : Inside fs m setNamespace := by
  have hbeside := beside_under fs
  refine (hbeside.peekString 0).look_bind (keeps_peekString 0) fun name => .guard ?_
  refine (hbeside.drop 1).bind fun _ m₁ _ => commutes_modify ?_
  simp [Machine.under]

lemma inside_registerProgram : Inside fs m registerProgram := by
  have hbeside := beside_under fs
  refine (hbeside.peekString 0).look_bind (keeps_peekString 0) fun name => ?_
  refine (hbeside.peekProgram 1).look_bind (keeps_peekProgram 1) fun p => ?_
  refine (commutes_demand rfl).look_bind (keeps_demand _) fun r => ?_
  exact .modify_bind (hbeside.drop 2) rfl

lemma inside_unregister : Inside fs m unregister := by
  have hbeside := beside_under fs
  refine (hbeside.peekString 0).look_bind (keeps_peekString 0) fun name => ?_
  refine (commutes_ask rfl).look_bind (keeps_ask _) fun known => ?_
  exact .guard (.modify_bind (hbeside.drop 1) rfl)

lemma inside_help : Inside fs m help := by
  refine (commutes_ask rfl).look_bind (keeps_ask _) fun groups => ?_
  have hbeside := beside_under fs
  exact (commutes_forM fun _ _ => hbeside.printLine _).bind fun _ _ _ => hbeside.printLine _

/-- A text is read in the current namespace. -/
lemma inside_parse : Inside fs m parse := by
  have hbeside := beside_under fs
  refine (hbeside.peekString 0).look_bind (keeps_peekString 0) fun text => ?_
  refine (commutes_demand rfl).look_bind (keeps_demand _) fun ds => ?_
  refine (hbeside.drop 1).bind fun _ _ _ => (hbeside.onHeap _).bind fun body _ _ => ?_
  refine (commutes_ask rfl).bind fun home _ _ => ?_
  exact (hbeside.onHeap _).bind fun cell _ _ => hbeside.push _

lemma inside_restore : Inside fs m restore := by
  have hbeside := beside_under fs
  refine (hbeside.peekString 0).look_bind (keeps_peekString 0) fun path => ?_
  refine commutes_get_bind rfl ?_
  cases m.disk.read path with
  | error fault => exact commutes_throw _
  | ok text =>
    refine (commutes_demand rfl).look_bind (keeps_demand _) fun ds => .guard ?_
    refine (hbeside.drop 1).bind fun _ _ _ => (hbeside.onHeap _).bind fun vs _ _ => ?_
    exact commutes_forM fun v _ => hbeside.push v

/-- **Words see the innermost program and none outside it.** -/
theorem inside_meaning {w : Word} {a : Action Unit} (hw : w.meaning = .action a)
    (hm : m.scope.frames ≠ []) : Inside fs m a := by
  have hbeside := beside_under fs
  cases w <;> cases hw
  case depth =>
    exact (commutes_demand rfl).look_bind (keeps_demand _) fun n => hbeside.push (.int n)
  case clear => exact commutes_modify rfl
  case pick => exact hbeside.pick
  case list => exact hbeside.list
  case sto => exact inside_storeVariable
  case rcl => exact inside_recallVariable
  case purge => exact inside_purgeVariable
  case lsto => exact inside_storeLocal hm
  case lrcl => exact inside_recallLocal hm
  case setNs => exact inside_setNamespace
  case ns => exact (commutes_ask rfl).look_bind (keeps_ask _) fun name => hbeside.push (.str name)
  case vars =>
    refine (commutes_ask rfl).look_bind (keeps_ask _) fun names => ?_
    exact (hbeside.onHeap _).bind fun v _ _ => hbeside.push v
  case register => exact inside_registerProgram
  case unregister => exact inside_unregister
  case print => exact hbeside.print
  case help => exact inside_help
  case parse => exact inside_parse
  case save => exact hbeside.save
  case restore => exact inside_restore
  case exit => exact commutes_modify rfl
  case interrupt => exact commutes_modify rfl

end Action

end ReversePolish
