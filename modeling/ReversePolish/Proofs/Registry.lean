import ReversePolish.Proofs.Table
import ReversePolish.Registry

/-!
Registries stay well named: each command is found under its own name, which is a name that a
command can have.
-/

namespace ReversePolish

namespace Registry

def WellNamed (r : Registry) : Prop := ∀ e ∈ r.entries, e.2.name = e.1 ∧ accepts e.1 = true

variable {r r' : Registry} {c : Command} {name : String}

lemma wellNamed_empty : WellNamed ∅ := fun e he => (List.not_mem_nil (a := e) he).elim

lemma WellNamed.insert (h : r.WellNamed) (hc : accepts c.name = true) :
    WellNamed (r.insert c.name c) :=
  Table.forall_insert h ⟨rfl, hc⟩

/-- Registering keeps a registry well named. -/
theorem WellNamed.register (h : r.WellNamed) (hr : r.register c = .ok r') : r'.WellNamed := by
  unfold Registry.register at hr
  split at hr
  · next hc =>
    cases hr
    exact h.insert hc
  · cases hr

/-- Unregistering keeps a registry well named. -/
theorem WellNamed.erase (h : r.WellNamed) (name : String) : WellNamed (r.erase name) :=
  fun e he => h e (List.mem_of_mem_filter he)

lemma accepts_word (w : Word) : accepts w.name = true := by
  cases w <;> decide

theorem wellNamed_core : core.WellNamed := by
  refine Table.forall_ofList fun e he => ?_
  obtain ⟨w, -, rfl⟩ := List.mem_map.mp he
  exact ⟨rfl, accepts_word w⟩

lemma WellNamed.find? (h : r.WellNamed) (hf : r.find? name = some c) :
    c.name = name ∧ accepts name = true :=
  h _ (Table.mem_of_find? hf)

end Registry

end ReversePolish
