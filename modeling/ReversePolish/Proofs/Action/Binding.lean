import ReversePolish.Proofs.Action.Commuting

/-!
Words that do not ask what is registered. What a name in a text stands for is settled when the text
is read, so only words that read texts, that look names up or that are about the commands
themselves have to ask.
-/

namespace ReversePolish

/-- To look at the registered commands, or to change them. -/
def Word.asksRegistry : Word → Bool
  | .call | .register | .unregister | .help | .parse | .restore => true
  | _ => false

namespace Machine

/-- The machine with other commands registered. -/
def withRegistry (r : Registry) (m : Machine) : Machine := { m with registry := r }

end Machine

namespace Action

variable {r : Registry} {m : Machine}

lemma beside_withRegistry (r : Registry) : Beside (Machine.withRegistry r) :=
  ⟨fun _ => rfl, fun _ => rfl, fun _ => rfl, fun _ => rfl, fun _ => rfl, fun _ _ => rfl,
    fun _ _ => rfl, fun _ _ => rfl, fun _ _ => rfl⟩

/-- The action does as it does with these commands registered. -/
abbrev Unasking (r : Registry) (m : Machine) (a : Action Unit) : Prop :=
  Commutes (Machine.withRegistry r) m a

lemma unasking_storeVariable : Unasking r m storeVariable := by
  have hbeside := beside_withRegistry r
  refine (hbeside.peekString 0).look_bind (keeps_peekString 0) fun name => ?_
  refine (hbeside.stack_demand _).look_bind (keeps_demand _) fun _ => ?_
  exact (hbeside.drop 1).bind fun _ _ _ => hbeside.pop.bind fun v _ _ => commutes_modify rfl

/-- Recalling looks at the variables, whichever they are. -/
lemma unasking_recall {g : String → Machine → Except Error Value}
    (hg : ∀ name, g name (m.withRegistry r) = g name m) :
    Unasking r m (do
      let name ← peekString 0
      let v ← demand (g name)
      drop 1
      push v) := by
  have hbeside := beside_withRegistry r
  refine (hbeside.peekString 0).look_bind (keeps_peekString 0) fun name => ?_
  refine (commutes_demand (hg name)).look_bind (keeps_demand _) fun v => ?_
  exact (hbeside.drop 1).bind fun _ _ _ => hbeside.push v

lemma unasking_purgeVariable : Unasking r m purgeVariable := by
  have hbeside := beside_withRegistry r
  refine (hbeside.peekString 0).look_bind (keeps_peekString 0) fun name => ?_
  refine (commutes_demand rfl).look_bind (keeps_demand _) fun (v, s) => ?_
  exact .modify_bind (hbeside.drop 1) rfl

lemma unasking_storeLocal : Unasking r m storeLocal := by
  have hbeside := beside_withRegistry r
  refine (hbeside.peekString 0).look_bind (keeps_peekString 0) fun name => ?_
  refine (hbeside.stack_demand _).look_bind (keeps_demand _) fun v => ?_
  refine (commutes_demand rfl).look_bind (keeps_demand _) fun s => ?_
  exact .modify_bind (hbeside.drop 2) rfl

lemma unasking_setNamespace : Unasking r m setNamespace := by
  have hbeside := beside_withRegistry r
  refine (hbeside.peekString 0).look_bind (keeps_peekString 0) fun name => .guard ?_
  exact (hbeside.drop 1).bind fun _ _ _ => commutes_modify rfl

/-- **All other words do the same whatever is registered.** -/
theorem unasking_meaning {w : Word} {a : Action Unit} (hw : w.meaning = .action a)
    (hasks : w.asksRegistry = false) : Unasking r m a := by
  have hbeside := beside_withRegistry r
  cases w <;> cases hw
  case depth =>
    exact (commutes_demand rfl).look_bind (keeps_demand _) fun n => hbeside.push (.int n)
  case clear => exact commutes_modify rfl
  case pick => exact hbeside.pick
  case list => exact hbeside.list
  case sto => exact unasking_storeVariable
  case rcl => exact unasking_recall fun _ => rfl
  case purge => exact unasking_purgeVariable
  case lsto => exact unasking_storeLocal
  case lrcl => exact unasking_recall fun _ => rfl
  case setNs => exact unasking_setNamespace
  case ns => exact (commutes_ask rfl).look_bind (keeps_ask _) fun name => hbeside.push (.str name)
  case vars =>
    refine (commutes_ask rfl).look_bind (keeps_ask _) fun names => ?_
    exact (hbeside.onHeap _).bind fun v _ _ => hbeside.push v
  case print => exact hbeside.print
  case save => exact hbeside.save
  case exit => exact commutes_modify rfl
  case interrupt => exact commutes_modify rfl
  all_goals exact (nomatch hasks)

end Action

end ReversePolish
