import ReversePolish.Proofs.Execution.Contained
import ReversePolish.Proofs.Execution.Isomorphic

/-!
A text that is run as it is read, and a text that is read first. In the one case a value is given
its cells when its turn comes, behind the cells that the values before it have made, and in the
other case all values are given their cells at once. So the lists and maps lie in other cells, and
this is all the difference, as long as nothing changes between values that a text is read with.
-/

namespace ReversePolish

variable {ρ σ : Renaming} {h k : Heap}

/-! ### Machines that contain all that they speak of -/

namespace Machine.Contained

variable {m : Machine}

/-- **Such a machine is renamed alike** by what agrees on the cells that there are. -/
lemma rename_congr (hm : m.Contained) (hρσ : Renaming.AgreeOn m.heap ρ σ) (h' : Heap) :
    m.rename ρ h' = m.rename σ h' := by
  have hvariables {vars : Variables} (hvars : ∀ x ∈ vars.entries, Value.Stored m.heap x.2) :
      vars.rename ρ = vars.rename σ :=
    Table.map_congr fun x hx => (hvars x hx).rename_congr hρσ
  have hstack : m.stack.map (Value.rename ρ) = m.stack.map (Value.rename σ) :=
    List.map_congr_left fun v hv => (hm.stack v hv).rename_congr hρσ
  have hmodules : m.scope.modules.map (Variables.rename ρ) =
      m.scope.modules.map (Variables.rename σ) :=
    Table.map_congr fun e he => hvariables (hm.scope.modules e he)
  have hframes : m.scope.frames.map (Activation.rename ρ) =
      m.scope.frames.map (Activation.rename σ) := by
    refine List.map_congr_left fun f hf => ?_
    rw [Activation.rename, hvariables (hm.scope.locals f hf),
      Program.rename_congr (hm.programs _ (List.mem_map_of_mem hf)) hρσ]
    rfl
  have hregistry : m.registry.rename ρ = m.registry.rename σ :=
    Table.map_congr fun e he => Command.Stored.rename_congr (hm.registry e he) hρσ
  simp only [rename, Scope.rename, hstack, hmodules, hframes, hregistry]

/-- Cells that are added mean nothing to the machine. -/
lemma rename_skipTo (hm : m.Contained) (h h' : Heap) :
    m.rename (Heap.skipTo m.heap h) h' = { m with heap := h' } := by
  rw [hm.rename_congr (Heap.agreeOn_skipTo m.heap h), Machine.rename_refl]

lemma setting_translate (hm : m.Contained) (h : Heap) :
    m.setting.translate (Command.rename (Heap.skipTo m.heap h)) = m.setting := by
  rw [← Machine.setting_rename _ h, hm.rename_skipTo]
  rfl

/-- What is read knows nothing of cells that are added. -/
lemma readAll_rename {r : Reader} {ds : List (Datum Command)} (hm : m.Contained)
    (hr : r.readAll m.setting = .ok ds) (h : Heap) :
    ds.map (Datum.rename (Heap.skipTo m.heap h)) = ds := by
  have htranslate := Reader.readAll_translate r (f := Command.rename (Heap.skipTo m.heap h))
    (s := m.setting)
  rw [hm.setting_translate, hr] at htranslate
  exact (Except.ok.inj htranslate).symm

/-- What has been read is put into new cells. -/
lemma store (hm : m.Contained) {d : Datum Command} {r r' : Reader}
    (hr : r.next m.setting = .value d r') :
    ({ m with heap := (d.store none m.heap).2 } : Machine).Contained ∧
      (d.store none m.heap).1.Stored (d.store none m.heap).2 := by
  have hw : m.heap.Within (d.store none m.heap).2 := (d.extends_store none m.heap).within
  have hcarries := hm.mono fun _ => hw.stored
  obtain ⟨hv, hh⟩ := hcarries.made (Value.hereditary_stored _) (Reader.made_next hr) none
    m.heap nofun hcarries.heap (Heap.fits_stored _)
  exact ⟨hcarries.of_heap hh, hv⟩

lemma storeAll (hm : m.Contained) {ds : List (Datum Command)} {r : Reader}
    (hr : r.readAll m.setting = .ok ds) :
    (∀ v ∈ (Datum.storeAll ds none m.heap).1, v.Stored (Datum.storeAll ds none m.heap).2) ∧
      (Datum.storeAll ds none m.heap).2.AllHold (Value.Stored (Datum.storeAll ds none m.heap).2) := by
  have hw : m.heap.Within (Datum.storeAll ds none m.heap).2 :=
    (Datum.extends_storeAll ds none m.heap).within
  have hcarries := hm.mono fun _ => hw.stored
  have hds : ∀ d ∈ ds, d.Carries (Value.Stored (Datum.storeAll ds none m.heap).2) := fun d hd =>
    hcarries.made (Value.hereditary_stored _) (Reader.made_readAll _ _ hr d hd)
  exact Datum.carries_storeAll hds nofun hcarries.heap (Heap.fits_stored _)

end Machine.Contained

namespace Execution

variable {m : Machine} {r : Reader} {ds : List (Datum Command)} {v : Value} {p q : Execution}

/-! ### One value after the other -/

/-- The next value of a text is given its cells and run. -/
lemma step_source {d : Datum Command} {r' : Reader} (hm : m.stopped = false)
    (hr : r.next m.setting = .value d r') (ts : List Task) :
    step (ofTasks m (.source r :: ts)) =
      runValue (d.store none m.heap).1 { m with heap := (d.store none m.heap).2 }
        (.source r' :: ts) := by
  simp [step, ofTasks, hm, perform, hr]

/-- Between the values of the text nothing changes that it is read with, unless a stop is asked for. -/
def Steady (m : Machine) (r : Reader) : Prop :=
  ∀ m' r', (ofTasks m [.source r]).Reaches (ofTasks m' [.source r']) → m'.stopped = false →
    m'.setting = m.setting

/-- A unit runs as it does where other cells have been added before, and leaves those as they are. -/
lemma renamed_unit (hm : m.Contained) (hv : v.Stored m.heap) (hx : m.heap.Extends h) :
    Renamed (Heap.skipTo m.heap h) h (runValue v m []) (runValue v { m with heap := h } []) := by
  have hrun := renamed_runValue v (Heap.renamed_skipTo hx hm.heap) []
  rwa [hm.rename_skipTo, hv.rename_congr (Heap.agreeOn_skipTo _ _), Value.rename_refl] at hrun

/-- **The values that come after a unit.** On the one side they are put behind the cells that the
unit has made, on the other side they have had their cells before it, and the unit was run behind
them. -/
lemma renamed_rest {m₀ : Machine} (hm₀ : m₀.Contained) (hr : r.readAll m₀.setting = .ok ds)
    (hm : m.Contained) (hw : m₀.heap.Within m.heap) {h' : Heap}
    (hh : m.heap.Renamed (Heap.skipTo m₀.heap (Datum.storeAll ds none m₀.heap).2) h'
      (Datum.storeAll ds none m₀.heap).2) :
    Renamed (Heap.exchanged m₀.heap m.heap (Datum.storeAll ds none m₀.heap).2) h'
      (ofTasks { m with heap := (Datum.storeAll ds none m.heap).2 }
        [.sequence (Datum.storeAll ds none m.heap).1])
      (ofTasks (m.rename (Heap.skipTo m₀.heap (Datum.storeAll ds none m₀.heap).2) h')
        [.sequence (Datum.storeAll ds none m₀.heap).1]) := by
  have hx := Datum.extends_storeAll ds none m₀.heap
  obtain ⟨hvs, hearly⟩ := hm₀.storeAll hr
  obtain ⟨hlater, hgrown⟩ := Datum.placed_storeAll ds none (Heap.matched_skipTo hw)
  rw [hm₀.readAll_rename hr, Option.map_none] at hlater hgrown
  have hrenamed := Heap.renamed_exchanged hx hw hh hgrown hm.heap hearly
  have hmachine := hm.rename_congr
    (Heap.agreeOn_exchanged m₀.heap (Datum.storeAll ds none m₀.heap).2 m.heap) h'
  have hvalues : (Datum.storeAll ds none m.heap).1.map
      (Value.rename (Heap.exchanged m₀.heap m.heap (Datum.storeAll ds none m₀.heap).2)) =
        (Datum.storeAll ds none m₀.heap).1 := by
    rw [hlater, List.map_map, Value.rename_comp]
    refine (List.map_congr_left fun v hv => ?_).trans (List.map_id _)
    rw [(hvs v hv).rename_congr (Heap.agreeOn_back hx hw), Value.rename_refl]
    rfl
  have hends := renamed_ofTasks
    (m := { m with heap := (Datum.storeAll ds none m.heap).2 }) hrenamed
    [.sequence (Datum.storeAll ds none m.heap).1]
  rw [hmachine, ← hvalues]
  exact hends

/-- Where nothing more is run, it does not matter what there was to run. -/
lemma Renamed.agrees_given_up (hp : Renamed ρ k p q) (hq : p.tasks = []) {t t' : Task}
    (ht : t.yields = true) (ht' : t'.yields = true)
    (hup : p.error ≠ none ∨ p.machine.stopped = true) :
    (⟨p.machine, [t], p.error⟩ : Execution).Agrees ⟨q.machine, [t'], q.error⟩ := by
  cases hp with
  | @intro m h' ts e hh =>
    obtain rfl : ts = [] := hq
    have hleft : Execution.step ⟨m, [t], e⟩ = ⟨m, [], e⟩ := step_given_up ht hup
    have hright : Execution.step ⟨m.rename ρ h', [t'], e⟩ = ⟨m.rename ρ h', [], e⟩ :=
      step_given_up ht' hup
    refine .of_step (List.cons_ne_nil _ _) (List.cons_ne_nil _ _) ?_
    rw [hleft, hright]
    exact (Renamed.intro [] e hh).agrees

/-- The values that come first in the text have been run. -/
lemma Steady.rest {m' : Machine} {r' : Reader} (hsteady : Steady m r)
    (hreach : (ofTasks m [.source r]).Reaches (ofTasks m' [.source r']))
    (hstop : m'.stopped = false) : m'.setting = m.setting ∧ Steady m' r' := by
  have hset := hsteady m' r' hreach hstop
  exact ⟨hset, fun m'' r'' h hstop' => (hsteady m'' r'' (hreach.trans h) hstop').trans hset.symm⟩

/-- **To run a text as it is read and to read it first come to the same.** -/
theorem source_agrees (hm : m.Contained) (hr : r.readAll m.setting = .ok ds) (hsteady : Steady m r) :
    (ofTasks m [.source r]).Agrees (ofTasks { m with heap := (Datum.storeAll ds none m.heap).2 }
      [.sequence (Datum.storeAll ds none m.heap).1]) := by
  induction ds generalizing m r with
  | nil =>
    obtain ⟨r', hnext⟩ := Reader.next_of_readAll_nil hr
    refine .of_step (List.cons_ne_nil _ _) (List.cons_ne_nil _ _) ?_
    have hsource : step (ofTasks m [.source r]) = ofTasks m [] := by
      cases hstop : m.stopped <;> simp [step, ofTasks, hstop, Task.yields, perform, hnext]
    have hsequence : step (ofTasks m [.sequence []]) = ofTasks m [] := by
      cases hstop : m.stopped <;> simp [step, ofTasks, hstop, Task.yields, perform]
    exact hsource ▸ hsequence ▸ .refl _
  | cons d ds ih =>
    have hx := Datum.extends_storeAll (d :: ds) none m.heap
    cases hstop : m.stopped with
    | true =>
      have hrenamed := Renamed.intro [] none (Heap.renamed_skipTo hx hm.heap)
      rw [hm.rename_skipTo] at hrenamed
      exact hrenamed.agrees_given_up rfl rfl rfl (.inr hstop)
    | false =>
      obtain ⟨r', hnext, hr'⟩ := Reader.next_of_readAll_cons hr
      obtain ⟨hm₁, hv⟩ := hm.store hnext
      let v := (d.store none m.heap).1
      let m₁ : Machine := { m with heap := (d.store none m.heap).2 }
      let vs := (Datum.storeAll ds none m₁.heap).1
      let h := (Datum.storeAll ds none m₁.heap).2
      have hsource : step (ofTasks m [.source r]) = (runValue v m₁ []).above [.source r'] := by
        rw [above_runValue]
        exact step_source hstop hnext []
      have hsequence : step (ofTasks { m with heap := h } [.sequence (v :: vs)]) =
          (runValue v { m with heap := h } []).above [.sequence vs] := by
        rw [above_runValue]
        exact step_sequence (m := { m with heap := h }) hstop v vs []
      refine .of_step (List.cons_ne_nil _ _) (List.cons_ne_nil _ _) ?_
      show (step _).Agrees (step (ofTasks { m with heap := h } [.sequence (v :: vs)]))
      rw [hsource, hsequence]
      refine (renamed_unit hm₁ hv (Datum.extends_storeAll ds none m₁.heap)).agrees_above ?_
      intro q q' hreach hq hrenamed
      -- After a unit that fails or asks for a stop, both give up what is left.
      by_cases hrun : q.error = none ∧ q.machine.stopped = false
      · obtain ⟨hm', hw⟩ := contained_after hm₁ hv hreach
        obtain ⟨n, hn⟩ := run_of_reaches hreach hq
        have hunits : (ofTasks m [.source r]).Reaches ⟨q.machine, [.source r'], q.error⟩ :=
          .head (hsource ▸ reaches_above hn [.source r'])
        cases hrenamed with
        | @intro m' h' ts e hh =>
          obtain ⟨rfl : e = none, hstop'⟩ := hrun
          obtain rfl : ts = [] := hq
          obtain ⟨hset, hsteady'⟩ := hsteady.rest hunits hstop'
          exact (ih hm' (hset ▸ hr') hsteady').trans (renamed_rest hm₁ hr' hm' hw hh).agrees
      · exact hrenamed.agrees_given_up hq rfl rfl (by simpa [imp_iff_not_or] using hrun)

end Execution

end ReversePolish
