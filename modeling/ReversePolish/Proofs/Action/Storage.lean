import ReversePolish.Proofs.Action
import ReversePolish.Proofs.Value.Cells

/-!
What is not at stake when a word works on the machine. Words that look at more than their operands
leave the contents of every cell as they are. Where they need storage, they add cells.
-/

namespace ReversePolish

namespace Action

/-- The property says nothing of the stack, the variables, the commands, the files and the flags, and
more cells do it no harm. -/
structure Aloof (P : Machine → Prop) : Prop where
  stack : ∀ m s, P m → P { m with stack := s }
  grown : ∀ m h, m.heap.Extends h → P m → P { m with heap := h }
  scope : ∀ m s, P m → P { m with scope := s }
  registry : ∀ m r, P m → P { m with registry := r }
  disk : ∀ m d, P m → P { m with disk := d }
  exiting : ∀ m b, P m → P { m with exiting := b }
  interrupted : ∀ m b, P m → P { m with interrupted := b }

namespace Aloof

variable {α : Type} {P : Machine → Prop} (hP : Aloof P)

include hP

lemma drop (n : Nat) : Keeps P (drop n) := keeps_modify fun m => hP.stack m _

lemma push (v : Value) : Keeps P (push v) :=
  (keeps_demand _).bind fun s => keeps_modify fun m => hP.stack m s

lemma pop : Keeps P pop :=
  (keeps_demand _).bind fun (v, s) =>
    (keeps_modify fun m => hP.stack m s).bind fun _ => keeps_pure v

lemma onHeap {f : Heap → α × Heap} (hf : ∀ h : Heap, h.Extends (f h).2) : Keeps P (onHeap f) :=
  fun m h => hP.grown m _ (hf m.heap) h

lemma newList (items : Array Value) : Keeps P (Action.onHeap (Heap.newList items)) :=
  hP.onHeap (Heap.extends_newList items)

lemma newLink (around : Option Nat) : Keeps P (Action.onHeap (Heap.newLink around)) :=
  hP.onHeap (Heap.extends_newLink around)

lemma store (ds : List (Datum Command)) : Keeps P (store ds) :=
  hP.onHeap (Datum.extends_storeAll ds none)

lemma modifyScope (f : Scope → Scope) : Keeps P (modifyScope f) :=
  keeps_modify fun m => hP.scope m _

lemma modifyRegistry (f : Registry → Registry) : Keeps P (modifyRegistry f) :=
  keeps_modify fun m => hP.registry m _

/-- Recalling puts a value on the stack that there is already. -/
lemma recalling (g : String → Machine → Except Error Value) : Keeps P (do
    let name ← peekString 0
    let v ← demand (g name)
    Action.drop 1
    Action.push v) := by
  refine (keeps_peekString 0).bind fun name => (keeps_demand _).bind fun v => ?_
  exact (hP.drop 1).bind fun _ => hP.push v

lemma storeVariable : Keeps P storeVariable := by
  refine (keeps_peekString 0).bind fun name => (keeps_demand _).bind fun _ => ?_
  exact (hP.drop 1).bind fun _ => hP.pop.bind fun v => hP.modifyScope _

lemma storeLocal : Keeps P storeLocal := by
  refine (keeps_peekString 0).bind fun name => (keeps_demand _).bind fun v => ?_
  exact (keeps_demand _).bind fun s => (hP.modifyScope _).bind fun _ => hP.drop 2

lemma purgeVariable : Keeps P purgeVariable := by
  refine (keeps_peekString 0).bind fun name => (keeps_demand _).bind fun (v, s) => ?_
  exact (hP.modifyScope _).bind fun _ => hP.drop 1

lemma setNamespace : Keeps P setNamespace := by
  refine (keeps_peekString 0).bind fun name => keeps_guard fun _ => ?_
  exact (hP.drop 1).bind fun _ => hP.modifyScope _

lemma registerProgram : Keeps P registerProgram := by
  refine (keeps_peekString 0).bind fun name => (keeps_peekProgram 1).bind fun p => ?_
  exact (keeps_demand _).bind fun r => (hP.modifyRegistry _).bind fun _ => hP.drop 2

lemma unregister : Keeps P unregister := by
  refine (keeps_peekString 0).bind fun name => (keeps_ask _).bind fun known => ?_
  exact keeps_guard fun _ => (hP.modifyRegistry _).bind fun _ => hP.drop 1

lemma parse : Keeps P parse := by
  refine (keeps_peekString 0).bind fun text => (keeps_demand _).bind fun ds => ?_
  refine (hP.drop 1).bind fun _ => (hP.store ds).bind fun body => ?_
  refine (keeps_ask _).bind fun home => (hP.newLink none).bind fun cell => ?_
  exact hP.push (.program ⟨body, home, some cell⟩)

lemma save : Keeps P save := by
  refine (keeps_peekString 0).bind fun path => (keeps_demand _).bind fun v => ?_
  refine keeps_guard fun _ => keeps_get.bind fun m => keeps_get.bind fun m' => ?_
  split
  · exact (keeps_modify fun m => hP.disk m _).bind fun _ => hP.drop 2
  · exact keeps_throw_bind _

lemma restore : Keeps P restore := by
  refine (keeps_peekString 0).bind fun path => keeps_get.bind fun m => ?_
  cases m.disk.read path with
  | error fault => exact keeps_throw _
  | ok text =>
    refine (keeps_demand _).bind fun ds => keeps_guard fun _ => (hP.drop 1).bind fun _ => ?_
    exact (hP.store ds).bind fun vs => keeps_forM hP.push

/-- **Words that are no operators keep what is not at stake**, whether they succeed or fail. Two of
them print. -/
theorem meaning {w : Word} {a : Action Unit} (hw : w.meaning = .action a)
    (hline : w = .print ∨ w = .help → ∀ m line, P m → P (m.printLine line)) : Keeps P a := by
  cases w <;> cases hw
  case depth => exact (keeps_demand _).bind fun n => hP.push (.int n)
  case clear => exact keeps_modify fun m => hP.stack m []
  case pick =>
    refine (keeps_peekInt 0).bind fun index => (keeps_natural _ _).bind fun n => ?_
    exact (keeps_demand _).bind fun v => (hP.drop 1).bind fun _ => hP.push v
  case list =>
    refine (keeps_peekInt 0).bind fun count => (keeps_natural _ _).bind fun n => ?_
    refine (keeps_demand _).bind fun _ => (hP.drop 1).bind fun _ => ?_
    refine (keeps_demand _).bind fun vs => (hP.drop n).bind fun _ => ?_
    exact (hP.newList _).bind fun v => hP.push v
  case sto => exact hP.storeVariable
  case rcl => exact hP.recalling _
  case purge => exact hP.purgeVariable
  case lsto => exact hP.storeLocal
  case lrcl => exact hP.recalling _
  case setNs => exact hP.setNamespace
  case ns => exact (keeps_ask _).bind fun name => hP.push (.str name)
  case vars =>
    exact (keeps_ask _).bind fun names => (hP.newList _).bind fun v => hP.push v
  case register => exact hP.registerProgram
  case unregister => exact hP.unregister
  case print =>
    have hprint (line : String) : Keeps P (printLine line) :=
      keeps_printLine fun m => hline (.inl rfl) m line
    refine (keeps_demand _).bind fun v => ?_
    cases v with
    | str s => exact (hprint s).bind fun _ => hP.drop 1
    | _ => exact ((keeps_ask _).bind fun s => hprint s).bind fun _ => hP.drop 1
  case help =>
    have hprint (line : String) : Keeps P (printLine line) :=
      keeps_printLine fun m => hline (.inr rfl) m line
    refine (keeps_ask _).bind fun groups => ?_
    exact (keeps_forM fun g => hprint _).bind fun _ => hprint _
  case parse => exact hP.parse
  case save => exact hP.save
  case restore => exact hP.restore
  case exit => exact keeps_modify fun m => hP.exiting m true
  case interrupt => exact keeps_modify fun m => hP.interrupted m true

end Aloof

variable {α : Type} {h₀ : Heap}

/-- Whatever becomes of the action, all cells of this heap are still there with their contents. -/
abbrev OnlyAdds (h₀ : Heap) (a : Action α) : Prop := Keeps (fun m => h₀.Extends m.heap) a

lemma aloof_extends (h₀ : Heap) : Aloof fun m => h₀.Extends m.heap :=
  ⟨fun _ _ h => h, fun _ _ hh h => h.trans hh, fun _ _ h => h, fun _ _ h => h, fun _ _ h => h,
    fun _ _ h => h, fun _ _ h => h⟩

lemma onlyAdds_drop (n : Nat) : OnlyAdds h₀ (drop n) := (aloof_extends h₀).drop n

lemma onlyAdds_push (v : Value) : OnlyAdds h₀ (push v) := (aloof_extends h₀).push v

lemma onlyAdds_pop : OnlyAdds h₀ pop := (aloof_extends h₀).pop

lemma onlyAdds_newList (items : Array Value) : OnlyAdds h₀ (onHeap (Heap.newList items)) :=
  (aloof_extends h₀).newList items

lemma onlyAdds_newLink (around : Option Nat) : OnlyAdds h₀ (onHeap (Heap.newLink around)) :=
  (aloof_extends h₀).newLink around

lemma onlyAdds_store (ds : List (Datum Command)) : OnlyAdds h₀ (store ds) :=
  (aloof_extends h₀).store ds

/-- **Words that are no operators only add cells**, whether they succeed or fail. -/
theorem onlyAdds_meaning {w : Word} {a : Action Unit} (hw : w.meaning = .action a) :
    OnlyAdds h₀ a :=
  (aloof_extends h₀).meaning hw fun _ _ _ h => h

end Action

end ReversePolish
