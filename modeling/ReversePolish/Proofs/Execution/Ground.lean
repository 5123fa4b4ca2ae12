import ReversePolish.Proofs.Execution.Caller
import ReversePolish.Proofs.Execution.Data

/-!
What every step leaves standing: there is a module for the current namespace, modules are never
removed, and there is a frame for every program that is to be left.
-/

namespace ReversePolish

namespace Machine

variable {m₀ m : Machine} {name : String}

/-! ### Words -/

lemma Changes.grounded (h : m₀.Changes m) (hm₀ : m₀.scope.Grounded) : m.scope.Grounded := by
  induction h with
  | refl => exact hm₀
  | store name _ _ ih => exact Scope.has_set.mpr (.inr ih)
  | purge _ hs ih =>
    rw [Scope.Grounded, Scope.current_of_purge hs]
    exact (Scope.has_purge hs).mpr ih
  | setLocal _ _ hs ih =>
    rw [Scope.Grounded, Scope.Has, Scope.current_of_setLocal hs, Scope.modules_of_setLocal hs]
    exact ih
  | switch _ _ ih =>
    rw [Scope.Grounded, Scope.current_switch]
    exact (Scope.has_switch ih).mpr (.inl rfl)
  | _ => assumption

lemma Changes.has (h : m₀.Changes m) (hm₀ : m₀.scope.Has name) : m.scope.Has name := by
  induction h with
  | refl => exact hm₀
  | store _ _ _ ih => exact Scope.has_set.mpr (.inr ih)
  | purge _ hs ih => exact (Scope.has_purge hs).mpr ih
  | setLocal _ _ hs ih =>
    rw [Scope.Has, Scope.modules_of_setLocal hs]
    exact ih
  | switch _ _ ih => exact ih.switch
  | _ => assumption

lemma Changes.length_frames (h : m₀.Changes m) :
    m.scope.frames.length = m₀.scope.frames.length := by
  induction h with
  | refl => rfl
  | store _ _ _ ih => simpa using ih
  | purge _ hs ih => rw [← ih, Scope.frames_of_purge hs]
  | setLocal _ _ hs ih => rw [← ih, Scope.length_frames_of_setLocal hs]
  | switch _ _ ih => simpa using ih
  | _ => assumption

end Machine

namespace Execution

variable {m : Machine} {ts : List Task} {p q : Execution} {name : String} {k : Nat}

/-! ### Modules -/

lemma grounded_switch {s : Scope} (h : s.Grounded) : (s.switch name).2.Grounded := by
  rw [Scope.Grounded, Scope.current_switch]
  exact (Scope.has_switch h).mpr (.inl rfl)

/-- A step keeps a module for the current namespace. -/
lemma grounded_step (h : p.machine.scope.Grounded) : p.step.machine.scope.Grounded :=
  keeps_step (P := fun m => m.scope.Grounded) (fun _ _ hm => hm.grounded)
    (fun _ _ h => grounded_switch h) (fun _ _ h => grounded_switch h) h

/-- **Modules stay.** -/
theorem has_step (h : p.machine.scope.Has name) : p.step.machine.scope.Has name :=
  keeps_step (P := fun m => m.scope.Has name) (fun _ _ hm => hm.has) (fun _ _ h => h.switch)
    (fun m _ h => Scope.Has.switch (s := m.scope.leave) h) h

lemma Reaches.has (hreach : p.Reaches q) (h : p.machine.scope.Has name) :
    q.machine.scope.Has name :=
  hreach.keeps (P := fun p => p.machine.scope.Has name) (fun _ => has_step) h

/-! ### Frames -/

/-- There are `k` frames beside those of the programs that are to be left. -/
def Level (k : Nat) (p : Execution) : Prop := p.machine.scope.frames.length = depth p.tasks + k

/-- Where a program is entered, there is a frame for it. -/
lemma Proceeds.level (hp : Proceeds m ts p) (h : m.scope.frames.length = depth ts + k) :
    Level k p := by
  unfold Level
  cases hp with
  | works hm hnew => rw [depth_append hnew.1, hm.length_frames, h]
  | @enters m' g handlers hm _ hh =>
    have hd : depth (handlers ++ ts) = depth ts := depth_append fun u hu => (hh u hu).1
    unfold invoke
    split
    · simp only [ofError, hd, hm.length_frames, h]
    · have hbody : (Task.sequence g.body).leaves = false := rfl
      simp only [ofTasks, depth_cons hbody, depth_leave, hd, Scope.enter, Scope.frames_switch,
        List.length_cons, hm.length_frames, h]
      omega

/-- **A step that enters a program adds its frame, and one that leaves it takes the frame away.** -/
theorem level_step (h : Level k p) : Level k p.step := by
  obtain ⟨m, tasks, e⟩ := p
  cases tasks with
  | nil => exact h
  | cons t ts =>
    unfold Level at h
    rcases step_cases m t ts e with ⟨home, rfl, hstep⟩ | ⟨ht, hp⟩
    · rw [hstep]
      simp only [depth_leave] at h
      simp only [Level, leave, Scope.leave, Scope.frames_switch, List.length_tail]
      omega
    · exact hp.level (depth_cons ht ▸ h)

end Execution

/-- On a machine that can be reached, there is a module for the current namespace. -/
lemma Machine.Reachable.grounded {m : Machine} (h : m.Reachable) : m.scope.Grounded := by
  induction h with
  | initial home => exact (Scope.has_initial home).mpr rfl
  | step _ ih => exact Execution.grounded_step ih
  | outside _ _ hscope ih => exact hscope ▸ ih

end ReversePolish
