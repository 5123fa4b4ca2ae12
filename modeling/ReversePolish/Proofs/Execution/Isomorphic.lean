import ReversePolish.Proofs.Execution.Renamed
import ReversePolish.Proofs.Execution.Unrolling

/-!
Executions that are the same up to the identity of lists, maps and programs. Two executions agree
when the ends that they come to are the same in this way, and if the one comes to an end, then so
does the other.
-/

namespace ReversePolish

variable {ρ σ : Renaming} {h h₁ h₂ h' k k' : Heap}

/-! ### One renaming after the other -/

namespace Heap.Renamed

lemma refl (h : Heap) : h.Renamed .refl h h where
  newLists _ := rfl
  newMaps _ := rfl
  newLinks _ := rfl
  listInjective := Function.injective_id
  mapInjective := Function.injective_id
  programInjective := Function.injective_id
  items c := by
    rw [Value.rename_refl_eq, Array.map_id]
    rfl
  entries c := by
    rw [Value.rename_refl_eq, Table.map_id]
    rfl
  links c := by
    rw [Renaming.refl, Option.map_id]
    rfl
  otherItems _ _ := rfl
  otherEntries _ _ := rfl
  otherLinks _ _ := rfl

/-- What lies in other cells may be forgotten. -/
lemma forget (hh : h.Renamed ρ h' k) : h.Renamed ρ h' h' :=
  { hh with
    otherItems := fun _ _ => rfl
    otherEntries := fun _ _ => rfl
    otherLinks := fun _ _ => rfl }

lemma trans (hh : h.Renamed ρ h₁ k) (hh' : h₁.Renamed σ h₂ k') :
    h.Renamed (ρ.trans σ) h₂ h₂ where
  newLists i := (congrArg σ.list (hh.newLists i)).trans (hh'.newLists i)
  newMaps i := (congrArg σ.map (hh.newMaps i)).trans (hh'.newMaps i)
  newLinks i := (congrArg σ.program (hh.newLinks i)).trans (hh'.newLinks i)
  listInjective := hh'.listInjective.comp hh.listInjective
  mapInjective := hh'.mapInjective.comp hh.mapInjective
  programInjective := hh'.programInjective.comp hh.programInjective
  items c := by
    have hitems := hh'.items (ρ.list c)
    rwa [hh.items, Array.map_map, Value.rename_comp] at hitems
  entries c := by
    have hentries := hh'.entries (ρ.map c)
    rwa [hh.entries, Table.map_map, Value.rename_comp] at hentries
  links c := by
    have hlinks := hh'.links (ρ.program c)
    rwa [hh.links, Option.map_map] at hlinks
  otherItems _ _ := rfl
  otherEntries _ _ := rfl
  otherLinks _ _ := rfl

end Heap.Renamed

lemma Variables.rename_refl (vars : Variables) : vars.rename .refl = vars := by
  rw [rename, Value.rename_refl_eq, Table.map_id]

lemma Variables.rename_rename (ρ σ : Renaming) (vars : Variables) :
    (vars.rename ρ).rename σ = vars.rename (ρ.trans σ) := by
  rw [rename, rename, Table.map_map, Value.rename_comp]

lemma Activation.rename_refl (a : Activation) : a.rename .refl = a := by
  rw [rename, Program.rename_refl, Variables.rename_refl]

lemma Activation.rename_rename (ρ σ : Renaming) (a : Activation) :
    (a.rename ρ).rename σ = a.rename (ρ.trans σ) := by
  simp only [rename, Program.rename_rename, Variables.rename_rename]

lemma Registry.rename_refl (r : Registry) : r.rename .refl = r := by
  rw [rename, funext Command.rename_refl]
  exact Table.map_id r

lemma Registry.rename_rename (ρ σ : Renaming) (r : Registry) :
    (r.rename ρ).rename σ = r.rename (ρ.trans σ) := by
  rw [rename, rename, Table.map_map]
  exact congrArg r.map (funext (Command.rename_rename ρ σ))

namespace Scope

lemma rename_refl (s : Scope) : s.rename .refl = s := by
  have hmodules : s.modules.map (Variables.rename .refl) = s.modules := by
    rw [funext Variables.rename_refl]
    exact Table.map_id _
  rw [rename, hmodules, funext Activation.rename_refl, List.map_id']

lemma rename_rename (ρ σ : Renaming) (s : Scope) :
    (s.rename ρ).rename σ = s.rename (ρ.trans σ) := by
  have hvariables : Variables.rename σ ∘ Variables.rename ρ = Variables.rename (ρ.trans σ) :=
    funext (Variables.rename_rename ρ σ)
  have hactivation : Activation.rename σ ∘ Activation.rename ρ = Activation.rename (ρ.trans σ) :=
    funext (Activation.rename_rename ρ σ)
  simp only [rename, Table.map_map, List.map_map, hvariables, hactivation]

end Scope

namespace Machine

variable {m : Machine}

lemma rename_refl (m : Machine) (h' : Heap) : m.rename .refl h' = { m with heap := h' } := by
  rw [rename, Value.rename_refl_eq, List.map_id, Scope.rename_refl, Registry.rename_refl]

lemma rename_rename (ρ σ : Renaming) (h₁ h₂ : Heap) (m : Machine) :
    (m.rename ρ h₁).rename σ h₂ = m.rename (ρ.trans σ) h₂ := by
  simp only [rename, List.map_map, Value.rename_comp, Scope.rename_rename, Registry.rename_rename]

end Machine

lemma Task.rename_refl (t : Task) : t.rename .refl = t := by
  cases t <;> simp [rename, Value.rename_refl_eq, Program.rename_refl]

lemma Task.rename_rename (ρ σ : Renaming) (t : Task) :
    (t.rename ρ).rename σ = t.rename (ρ.trans σ) := by
  cases t <;> simp [rename, Value.rename_comp, Value.rename_rename, Program.rename_rename]

namespace Execution

variable {p p' p'' : Execution} {ts ts' : List Task}

/-- The second execution is the first one with its lists, maps and programs in other cells: the same
error is being passed on, and the machines differ in nothing else. -/
def Isomorphic (p p' : Execution) : Prop := ∃ ρ, Renamed ρ p'.machine.heap p p'

lemma Renamed.isomorphic (hp : Renamed ρ k p p') : p.Isomorphic p' := by
  obtain ⟨ts, e, hh⟩ := hp
  exact ⟨ρ, .intro ts e hh.forget⟩

lemma Isomorphic.refl (p : Execution) : p.Isomorphic p := by
  obtain ⟨m, ts, e⟩ := p
  have hrenamed := Renamed.intro ts e (Heap.Renamed.refl m.heap)
  rw [Machine.rename_refl, funext Task.rename_refl, List.map_id'] at hrenamed
  exact ⟨.refl, hrenamed⟩

lemma Isomorphic.trans (h : p.Isomorphic p') (h' : p'.Isomorphic p'') : p.Isomorphic p'' := by
  obtain ⟨ρ, ⟨ts, e, hh⟩⟩ := h
  obtain ⟨σ, hrenamed⟩ := h'
  obtain ⟨_, _, hh'⟩ := hrenamed
  have htasks : (ts.map (Task.rename ρ)).map (Task.rename σ) = ts.map (Task.rename (ρ.trans σ)) := by
    rw [List.map_map]
    exact List.map_congr_left fun t _ => t.rename_rename ρ σ
  rw [htasks, Machine.rename_rename]
  exact ⟨ρ.trans σ, .intro ts e (hh.trans hh')⟩

/-! ### Runs that agree -/

/-- To each end that the one execution comes to, the other one comes to an isomorphic one. -/
structure Agrees (p p' : Execution) : Prop where
  left : ∀ q, p.Reaches q → q.tasks = [] → ∃ q', p'.Reaches q' ∧ q'.tasks = [] ∧ q.Isomorphic q'
  right : ∀ q', p'.Reaches q' → q'.tasks = [] → ∃ q, p.Reaches q ∧ q.tasks = [] ∧ q.Isomorphic q'

lemma Agrees.refl (p : Execution) : p.Agrees p :=
  ⟨fun q h hq => ⟨q, h, hq, .refl q⟩, fun q h hq => ⟨q, h, hq, .refl q⟩⟩

lemma Agrees.trans (h : p.Agrees p') (h' : p'.Agrees p'') : p.Agrees p'' where
  left q hreach hq := by
    obtain ⟨q', hreach', hq', hiso⟩ := h.left q hreach hq
    obtain ⟨q'', hreach'', hq'', hiso'⟩ := h'.left q' hreach' hq'
    exact ⟨q'', hreach'', hq'', hiso.trans hiso'⟩
  right q'' hreach'' hq'' := by
    obtain ⟨q', hreach', hq', hiso'⟩ := h'.right q'' hreach'' hq''
    obtain ⟨q, hreach, hq, hiso⟩ := h.right q' hreach' hq'
    exact ⟨q, hreach, hq, hiso.trans hiso'⟩

/-- Executions that have made a step agree, and so they did before. -/
lemma Agrees.of_step (hp : p.tasks ≠ []) (hp' : p'.tasks ≠ []) (h : p.step.Agrees p'.step) :
    p.Agrees p' where
  left q hreach hq := by
    obtain ⟨q', hreach', hq', hiso⟩ := h.left q ((reaches_iff_step hp hq).mp hreach) hq
    exact ⟨q', (reaches_iff_step hp' hq').mpr hreach', hq', hiso⟩
  right q' hreach' hq' := by
    obtain ⟨q, hreach, hq, hiso⟩ := h.right q' ((reaches_iff_step hp' hq').mp hreach') hq'
    exact ⟨q, (reaches_iff_step hp hq).mpr hreach, hq, hiso⟩

/-- Where runs agree, if the one ends, then so does the other. -/
lemma Agrees.runs (h : p.Agrees p') :
    (∀ n q, p.run n = some q → ∃ n' q', p'.run n' = some q' ∧ q.Isomorphic q') ∧
    ∀ n' q', p'.run n' = some q' → ∃ n q, p.run n = some q ∧ q.Isomorphic q' := by
  constructor
  · intro n q hn
    obtain ⟨hreach, hq⟩ := reaches_of_run hn
    obtain ⟨q', hreach', hq', hiso⟩ := h.left q hreach hq
    obtain ⟨n', hn'⟩ := run_of_reaches hreach' hq'
    exact ⟨n', q', hn', hiso⟩
  · intro n' q' hn'
    obtain ⟨hreach', hq'⟩ := reaches_of_run hn'
    obtain ⟨q, hreach, hq, hiso⟩ := h.right q' hreach' hq'
    obtain ⟨n, hn⟩ := run_of_reaches hreach hq
    exact ⟨n, q, hn, hiso⟩

/-- **Renamed executions come to renamed ends.** -/
lemma Renamed.ends (hp : Renamed ρ k p p') :
    (∀ q, p.Reaches q → q.tasks = [] →
      ∃ q', p'.Reaches q' ∧ q'.tasks = [] ∧ Renamed ρ k q q') ∧
    ∀ q', p'.Reaches q' → q'.tasks = [] →
      ∃ q, p.Reaches q ∧ q.tasks = [] ∧ Renamed ρ k q q' := by
  constructor
  · rintro _ ⟨n, rfl⟩ hq
    exact ⟨_, ⟨n, rfl⟩, (hp.iterate n).tasks_iff.mpr hq, hp.iterate n⟩
  · rintro _ ⟨n, rfl⟩ hq
    exact ⟨_, ⟨n, rfl⟩, (hp.iterate n).tasks_iff.mp hq, hp.iterate n⟩

lemma Renamed.agrees (hp : Renamed ρ k p p') : p.Agrees p' where
  left q hreach hq := by
    obtain ⟨q', hreach', hq', hrenamed⟩ := hp.ends.1 q hreach hq
    exact ⟨q', hreach', hq', hrenamed.isomorphic⟩
  right q' hreach' hq' := by
    obtain ⟨q, hreach, hq, hrenamed⟩ := hp.ends.2 q' hreach' hq'
    exact ⟨q, hreach, hq, hrenamed.isomorphic⟩

/-- **What comes after renamed executions** decides whether the whole agrees: the ends that they come to
are renamed, and the tasks below need to agree from there on. -/
lemma Renamed.agrees_above (hp : Renamed ρ k p p')
    (hrest : ∀ q q', p.Reaches q → q.tasks = [] → Renamed ρ k q q' →
      (⟨q.machine, ts, q.error⟩ : Execution).Agrees ⟨q'.machine, ts', q'.error⟩) :
    (p.above ts).Agrees (p'.above ts') where
  left q hreach hq := by
    obtain ⟨q₁, hunit, hq₁, hafter⟩ := (reaches_append_iff hq).mp hreach
    obtain ⟨q₁', hunit', hq₁', hrenamed⟩ := hp.ends.1 q₁ hunit hq₁
    obtain ⟨q', hafter', hq', hiso⟩ := (hrest q₁ q₁' hunit hq₁ hrenamed).left q hafter hq
    exact ⟨q', (reaches_append_iff hq').mpr ⟨q₁', hunit', hq₁', hafter'⟩, hq', hiso⟩
  right q' hreach' hq' := by
    obtain ⟨q₁', hunit', hq₁', hafter'⟩ := (reaches_append_iff hq').mp hreach'
    obtain ⟨q₁, hunit, hq₁, hrenamed⟩ := hp.ends.2 q₁' hunit' hq₁'
    obtain ⟨q, hafter, hq, hiso⟩ := (hrest q₁ q₁' hunit hq₁ hrenamed).right q' hafter' hq'
    exact ⟨q, (reaches_append_iff hq).mpr ⟨q₁, hunit, hq₁, hafter⟩, hq, hiso⟩

end Execution

end ReversePolish
