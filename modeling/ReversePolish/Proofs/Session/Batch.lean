import Mathlib
import ReversePolish.Proofs.Execution.Batch
import ReversePolish.Proofs.Session.Collections

/-!
A text that is run as it is read comes to the same as the values that are read from it beforehand. This
holds of every machine on which all is in storage, and so of every machine that anything has been asked
of.
-/

namespace ReversePolish

/-- What is read is parsed first, and then put into new cells. -/
lemma Action.of_run_readAll {text : String} {m m' : Machine} {vs : List Value}
    (h : (readAll text).run m = .ok vs m') : ∃ ds, m.parse text = .ok ds ∧
      vs = (Datum.storeAll ds none m.heap).1 ∧
      m' = { m with heap := (Datum.storeAll ds none m.heap).2 } := by
  cases hparse : m.parse text with
  | ok ds =>
    rw [readAll, run_bind_ok (run_demand_ok hparse)] at h
    cases h
    exact ⟨ds, rfl, rfl, rfl⟩
  | error e =>
    rw [readAll, run_bind_error (run_demand_error hparse)] at h
    cases h

/-- A machine that anything has been asked of contains all that it speaks of, if all is in storage that
comes from outside. -/
lemma Driver.contained_of_leads {P : Value → Prop} {d : Driver} {home : String} {registry : Registry}
    {loader : Loader} {disk : Disk} {limits : Limits} {display : Display}
    (hP : ∀ v, P v → v.Stored d.machine.heap)
    (hr : ∀ e ∈ registry.entries, e.2.Stored d.machine.heap)
    (hd : Leads P (waiting (.start (.initial home registry loader disk output limits display))) d)
    : d.machine.Contained := (stored_of_leads hP hr hd).machine

namespace Execution

/-- **To run a text as it is read and to run what has been read from it come to the same.** Take any
machine, on which there is a cell for each list, map and program that it speaks of, save for
programs that came from outside without one, and a text that can be read to its end on it. Suppose
that between the values of the text, as they are run one after the other, the registry, the current
namespace and what the loader answers are always the same, as long as no stop has been asked for.
Then if the text comes to an end, so do the values, and if the values do, so does the text. Both
then end with the same error or with none, and the machines are the same but for the names of the
cells in which lists, maps and programs lie. -/
theorem incremental_agrees_with_batch {m m' : Machine} {text : String} {vs : List Value}
    (hm : m.Contained) (hread : (Action.readAll text).run m = .ok vs m')
    (hsteady : ∀ m₁ r₁, (ofTasks m [.source (.ofText text)]).Reaches (ofTasks m₁ [.source r₁]) →
      m₁.stopped = false → m₁.registry = m.registry ∧ m₁.scope.current = m.scope.current ∧
        m₁.loader m₁.disk = m.loader m.disk) :
    let incremental := ofTasks m [.source (.ofText text)]
    let batch := ofTasks m' [.sequence vs]
    (∀ n q, incremental.run n = some q → ∃ n' q', batch.run n' = some q' ∧ q.Isomorphic q') ∧
    (∀ n' q', batch.run n' = some q' → ∃ n q, incremental.run n = some q ∧ q.Isomorphic q') := by
  intro incremental batch
  obtain ⟨ds, hds, rfl, rfl⟩ := Action.of_run_readAll hread
  have hset : Steady m (.ofText text) := fun m₁ r₁ hreach hstop => by
    obtain ⟨hregistry, hcurrent, hload⟩ := hsteady m₁ r₁ hreach hstop
    have hlimits : m₁.limits = m.limits :=
      hreach.keeps (P := fun p => p.machine.limits = m.limits)
        (fun p hp => (limits_step p).trans hp) rfl
    rw [Machine.setting, Machine.setting, hregistry, hcurrent, hload, hlimits]
  exact (source_agrees hm hds hset).runs

/-- A text with a copy in it, and with a unit that fails. As the text is read, the copy is made
before the list behind it has a cell; when the text is read first, it is made after that. -/
theorem copies_run_both_ways :
    let word (w : Word) : Value := .command (.ofWord w) false
    let m : Machine := .initial "main" (.ofList [("CLONE", .ofWord .clone), ("DIV", .ofWord .div)])
      Loader.disabled default .empty {} {}
    let text := "[ 1 ] CLONE [ ] DIV"
    let m' : Machine := { m with heap := ⟨#[#[.int 1], #[]], #[], #[]⟩ }
    let vs := [.list 0, word .clone, .list 1, word .div]
    (Action.readAll text).run m = .ok vs m' ∧
      ∃ q q', (∃ n, (ofTasks m [.source (.ofText text)]).run n = some q) ∧
        (∃ n, (ofTasks m' [.sequence vs]).run n = some q') ∧ q.Isomorphic q' ∧
        q.error = some (.mismatch "Integer" .list) ∧
        q.machine.stack = [.list 2, .list 1] ∧ q'.machine.stack = [.list 1, .list 2] := by
  intro word m text m' vs
  obtain ⟨r₁, r₂, r₃, r₄, r₅, h₁, h₂, h₃, h₄, h₅⟩ : ∃ r₁ r₂ r₃ r₄ r₅,
      (Reader.ofText text).next m.setting = .value (.list [.int 1]) r₁ ∧
      r₁.next m.setting = .value (.command (.ofWord .clone) false) r₂ ∧
      r₂.next m.setting = .value (.list []) r₃ ∧
      r₃.next m.setting = .value (.command (.ofWord .div) false) r₄ ∧
      r₄.next m.setting = .ended r₅ := by
    refine ⟨?_, ?_, ?_, ?_, ?_, ?h₁, ?h₂, ?h₃, ?h₄, ?h₅⟩
    case h₁ | h₂ | h₃ | h₄ | h₅ =>
      cbv
      rfl
  have hparse : m.parse text = .ok [.list [.int 1], .command (.ofWord .clone) false, .list [],
      .command (.ofWord .div) false] := by
    simp only [Machine.parse, Reader.readAll_value h₁, Reader.readAll_value h₂,
      Reader.readAll_value h₃, Reader.readAll_value h₄, Reader.readAll_ended h₅]
    rfl
  have hread : (Action.readAll text).run m = .ok vs m' := by
    rw [Action.readAll, Action.run_bind_ok (Action.run_demand_ok hparse)]
    rfl
  let m₁ : Machine := { m with stack := [.list 0], heap := ⟨#[#[.int 1]], #[], #[]⟩ }
  let m₂ : Machine := { m with stack := [.list 1], heap := ⟨#[#[.int 1], #[.int 1]], #[], #[]⟩ }
  let m₃ : Machine :=
    { m with stack := [.list 2, .list 1], heap := ⟨#[#[.int 1], #[.int 1], #[]], #[], #[]⟩ }
  let m₄ : Machine :=
    { m with stack := [.list 1, .list 2], heap := ⟨#[#[.int 1], #[], #[.int 1]], #[], #[]⟩ }
  let e : Error := .mismatch "Integer" .list
  let states : List Execution := [ofTasks m [.source (.ofText text)], ofTasks m₁ [.source r₁],
    ofTasks m₂ [.source r₂], ofTasks m₃ [.source r₃], ofError m₃ [.source r₄] e]
  have hstates (n : Nat) : step^[n] (ofTasks m [.source (.ofText text)]) =
      states.getD n (ofError m₃ [] e) := by
    induction n with
    | zero => rfl
    | succ n ih =>
      rw [Function.iterate_succ_apply', ih]
      rcases n with _ | _ | _ | _ | _ | n
      · exact (step_source (m := m) rfl h₁ []).trans rfl
      · exact (step_source (m := m₁) rfl h₂ []).trans rfl
      · exact (step_source (m := m₂) rfl h₃ []).trans rfl
      · exact (step_source (m := m₃) rfl h₄ []).trans rfl
      · rfl
      · rfl
  have hsteady : ∀ m₀ r₀, (ofTasks m [.source (.ofText text)]).Reaches
      (ofTasks m₀ [.source r₀]) → m₀.stopped = false →
      m₀.registry = m.registry ∧ m₀.scope.current = m.scope.current ∧
        m₀.loader m₀.disk = m.loader m.disk := by
    rintro m₀ r₀ ⟨n, hn⟩ -
    rw [hstates n] at hn
    rcases n with _ | _ | _ | _ | _ | n <;> cases hn <;> exact ⟨rfl, rfl, rfl⟩
  have hr : ∀ e ∈ m.registry.entries, e.2.Stored m.heap := by
    refine Table.forall_ofList fun e he => ?_
    rcases List.mem_pair.mp he with rfl | rfl <;> exact Command.carries_ofWord _
  have hm : m.Contained := Driver.contained_of_leads (d := .waiting (.start m))
    (P := fun _ => False) (fun _ => False.elim) hr .refl
  obtain ⟨n, hn⟩ := run_of_reaches ⟨5, hstates 5⟩ rfl
  obtain ⟨n', q', hn', hiso⟩ := (incremental_agrees_with_batch hm hread hsteady).1 n _ hn
  have hbatch : (ofTasks m' [.sequence vs]).Reaches (ofError m₄ [] e) := ⟨5, rfl⟩
  obtain ⟨hreach', hq'⟩ := reaches_of_run hn'
  obtain rfl := eq_of_reaches hreach' hq' hbatch rfl
  exact ⟨hread, _, _, ⟨n, hn⟩, ⟨n', hn'⟩, hiso, rfl, rfl, rfl⟩

end Execution

end ReversePolish
