import ReversePolish.Proofs.Table
import ReversePolish.Scope

/-!
The modules that there are, and the programs that run.
-/

namespace ReversePolish

namespace Scope

variable {s s' : Scope} {name m : String} {v : Value} {P : Value → Prop}

/-! ### Modules -/

/-- There is a module of this name. -/
def Has (s : Scope) (name : String) : Prop := s.modules.contains name = true

/-- The current namespace is that of a module. -/
def Grounded (s : Scope) : Prop := s.Has s.current

lemma has_of_find? {vars : Variables} (h : s.modules.find? name = some vars) : s.Has name := by
  simp [Has, Table.contains, h]

lemma has_initial (home : String) : (initial home).Has name ↔ name = home :=
  (Table.contains_insert _ _ _ _).trans (or_iff_left Bool.false_ne_true)

lemma has_create : (s.create m).Has name ↔ name = m ∨ s.Has name := by
  unfold create
  split
  · next h => exact ⟨.inr, fun hname => hname.elim (fun heq => heq ▸ h) id⟩
  · exact Table.contains_insert _ _ _ _

/-- Where the namespace is already current, going to it adds no module. -/
lemma has_switch (h : s.Grounded) : (s.switch m).2.Has name ↔ name = m ∨ s.Has name := by
  unfold switch
  split
  · next heq =>
    show s.Has name ↔ _
    exact ⟨.inr, fun hname => hname.elim (fun hm => hm ▸ heq ▸ h) id⟩
  · exact has_create

lemma Has.switch (h : s.Has name) : (s.switch m).2.Has name := by
  unfold Scope.switch
  split
  · exact h
  · exact has_create.mpr (.inr h)

lemma create_of_has (h : s.Has m) : s.create m = s := if_pos h

/-- Where there is the module already, only the current namespace changes. -/
lemma switch_of_has (h : s.Has m) : (s.switch m).2 = { s with current := m } := by
  unfold switch
  split
  · next heq => rw [heq]
  · rw [create_of_has h]

lemma modules_switch (h : s.Grounded) : (s.switch m).2.modules = (s.create m).modules := by
  unfold switch
  split
  · next heq => rw [create_of_has (heq ▸ h)]
  · rfl

lemma modules_create_congr (h : s'.modules = s.modules) :
    (s'.create m).modules = (s.create m).modules := by
  unfold create
  rw [h]
  split
  · exact h
  · rfl

lemma has_set {w : String} : (s.set m w v).Has name ↔ name = m ∨ s.Has name :=
  Table.contains_insert _ _ _ _

/-- A variable is removed from a module that there is. -/
lemma has_purge (h : s.purge m = .ok (v, s')) : s'.Has name ↔ s.Has name := by
  unfold purge at h
  simp only at h
  split at h <;> cases h
  next vars hfound =>
  obtain ⟨vars', hvars, -⟩ := Option.bind_eq_some_iff.mp hfound
  refine (Table.contains_insert _ _ _ _).trans ⟨fun hname => ?_, .inr⟩
  exact hname.elim (fun heq => heq ▸ has_of_find? hvars) id

lemma modules_of_setLocal (h : s.setLocal m v = .ok s') : s'.modules = s.modules := by
  unfold setLocal at h
  split at h <;> cases h
  rfl

/-! ### The current namespace and the programs that run -/

/-- The namespace that is gone back to is the one that was current. -/
@[simp] lemma saved_switch : (s.switch m).1 = s.current := by
  unfold switch
  split
  · next h => exact h
  · rfl

@[simp] lemma current_switch : (s.switch m).2.current = m := by
  unfold switch
  split
  · next h => exact h.symm
  · rfl

lemma current_of_purge (h : s.purge m = .ok (v, s')) : s'.current = s.current := by
  unfold purge at h
  simp only at h
  split at h <;> cases h
  rfl

lemma current_of_setLocal (h : s.setLocal m v = .ok s') : s'.current = s.current := by
  unfold setLocal at h
  split at h <;> cases h
  rfl

@[simp] lemma frames_store : (s.store name v).frames = s.frames := rfl

@[simp] lemma frames_switch : (s.switch m).2.frames = s.frames := by
  unfold switch create
  split
  · rfl
  · split <;> rfl

lemma frames_of_purge (h : s.purge m = .ok (v, s')) : s'.frames = s.frames := by
  unfold purge at h
  simp only at h
  split at h <;> cases h
  rfl

/-- Only the innermost program gets a local variable. -/
lemma tail_frames_of_setLocal (h : s.setLocal m v = .ok s') : s'.frames.tail = s.frames.tail := by
  unfold setLocal at h
  split at h <;> cases h
  next hfs => simp [hfs]

lemma length_frames_of_setLocal (h : s.setLocal m v = .ok s') :
    s'.frames.length = s.frames.length := by
  unfold setLocal at h
  split at h <;> cases h
  next hfs => simp [hfs]

lemma programs_of_setLocal (h : s.setLocal m v = .ok s') :
    s'.frames.map (·.program) = s.frames.map (·.program) := by
  unfold setLocal at h
  split at h <;> cases h
  next hfs => simp [hfs]

/-! ### Names of namespaces -/

/-- The current namespace and all modules have such names. -/
structure Names (home : String → Prop) (s : Scope) : Prop where
  current : home s.current
  modules : ∀ name, s.Has name → home name

variable {home : String → Prop}

lemma names_initial (h : home name) : (initial name).Names home :=
  ⟨h, fun _ hhas => (has_initial name).mp hhas ▸ h⟩

/-- A dot at the beginning of a name does not split it. -/
lemma Names.resolve (h : s.Names home) (hnamed : ∀ name, name ≠ "" → home name) (name : String) :
    home (s.resolve name).1 := by
  unfold Scope.resolve
  split
  · split
    · exact h.current
    · next hempty =>
      refine hnamed _ fun heq => ?_
      simp_all
  · exact h.current

lemma Names.store (h : s.Names home) (hnamed : ∀ name, name ≠ "" → home name) (name : String)
    (v : Value) : (s.store name v).Names home :=
  ⟨h.current, fun other hhas =>
    (has_set.mp hhas).elim (fun heq => heq ▸ h.resolve hnamed name) (h.modules other)⟩

lemma Names.purge (h : s.Names home) (hs : s.purge name = .ok (v, s')) : s'.Names home :=
  ⟨current_of_purge hs ▸ h.current, fun other hhas => h.modules other ((has_purge hs).mp hhas)⟩

lemma Names.setLocal (h : s.Names home) (hs : s.setLocal name v = .ok s') : s'.Names home :=
  ⟨current_of_setLocal hs ▸ h.current, by
    simp only [Has, modules_of_setLocal hs]
    exact h.modules⟩

lemma Names.switch (h : s.Names home) (hname : home name) : (s.switch name).2.Names home := by
  refine ⟨by rwa [current_switch], ?_⟩
  unfold Scope.switch
  split
  · exact h.modules
  · exact fun other hhas => (has_create.mp hhas).elim (fun heq => heq ▸ hname) (h.modules other)

/-- The current namespace has a name, and so have all modules. -/
structure Named (s : Scope) : Prop where
  current : s.current ≠ ""
  modules : ¬ s.Has ""

lemma named_iff_names : s.Named ↔ s.Names (· ≠ "") :=
  ⟨fun h => ⟨h.current, fun _ hhas hname => h.modules (hname ▸ hhas)⟩,
    fun h => ⟨h.current, fun hhas => h.modules "" hhas rfl⟩⟩

/-! ### What holds of variables -/

/-- The property holds of all variables, of modules and of the programs that run. -/
structure Holds (P : Value → Prop) (s : Scope) : Prop where
  modules : ∀ e ∈ s.modules.entries, ∀ x ∈ e.2.entries, P x.2
  locals : ∀ f ∈ s.frames, ∀ x ∈ f.locals.entries, P x.2

lemma holds_initial (home : String) : (initial home).Holds P where
  modules := Table.forall_insert (fun _ he => (List.not_mem_nil he).elim)
    fun _ hx => (List.not_mem_nil hx).elim
  locals _ hf := (List.not_mem_nil hf).elim

lemma Holds.module (h : s.Holds P) (m : String) :
    ∀ x ∈ ((s.modules.find? m).getD ∅).entries, P x.2 := by
  cases hm : s.modules.find? m with
  | none => exact fun _ hx => (List.not_mem_nil hx).elim
  | some vars => exact h.modules _ (Table.mem_of_find? hm)

lemma Holds.store (h : s.Holds P) (hv : P v) : (s.store name v).Holds P :=
  ⟨Table.forall_insert h.modules (Table.forall_insert (h.module _) hv), h.locals⟩

lemma Holds.purge (h : s.Holds P) (hs : s.purge name = .ok (v, s')) : s'.Holds P := by
  unfold Scope.purge at hs
  simp only at hs
  split at hs <;> cases hs
  next vars hfound =>
  obtain ⟨vars', hvars, hx⟩ := Option.bind_eq_some_iff.mp hfound
  obtain ⟨x, -, heq⟩ := Option.map_eq_some_iff.mp hx
  obtain ⟨rfl, rfl⟩ := Prod.mk.inj heq
  refine ⟨Table.forall_insert h.modules fun y hy => ?_, h.locals⟩
  exact h.modules _ (Table.mem_of_find? hvars) y (List.mem_of_mem_filter hy)

lemma Holds.setLocal (h : s.Holds P) (hv : P v)
    (hs : s.setLocal name v = .ok s') : s'.Holds P := by
  unfold Scope.setLocal at hs
  split at hs <;> cases hs
  next f fs hfs =>
  refine ⟨h.modules, fun g hg => ?_⟩
  have hold := h.locals
  simp only [hfs, List.forall_mem_cons] at hold
  rcases List.mem_cons.mp hg with rfl | hg
  · exact Table.forall_insert hold.1 hv
  · exact hold.2 g hg

lemma Holds.switch (h : s.Holds P) : (s.switch name).2.Holds P := by
  unfold Scope.switch create
  split
  · exact h
  · split
    · exact ⟨h.modules, h.locals⟩
    · refine ⟨Table.forall_insert h.modules ?_, h.locals⟩
      exact fun _ hx => (List.not_mem_nil hx).elim

lemma Holds.enter (h : s.Holds P) (p : Program) : (s.enter p).Holds P := by
  refine ⟨h.modules, fun f hf => ?_⟩
  rcases List.mem_cons.mp hf with rfl | hf
  · exact fun _ hx => (List.not_mem_nil hx).elim
  · exact h.locals f hf

lemma Holds.leave (h : s.Holds P) : s.leave.Holds P :=
  ⟨h.modules, fun f hf => h.locals f (List.mem_of_mem_tail hf)⟩

lemma Holds.fetch (h : s.Holds P) (hv : s.fetch name = .ok v) : P v := by
  unfold Scope.fetch Scope.get at hv
  simp only at hv
  split at hv
  · cases hv
  · next vars hvars =>
    split at hv <;> cases hv
    next hx =>
    exact h.modules _ (Table.mem_of_find? hvars) _ (Table.mem_of_find? hx)

lemma Holds.getLocal (h : s.Holds P) (hv : s.getLocal name = .ok v) : P v := by
  unfold Scope.getLocal at hv
  split at hv
  · cases hv
  · next f fs hfs =>
    split at hv <;> cases hv
    next hx =>
    exact h.locals f (by simp [hfs]) _ (Table.mem_of_find? hx)

end Scope

end ReversePolish
