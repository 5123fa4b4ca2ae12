import Mathlib
import ReversePolish.Proofs.Execution.Atomic
import ReversePolish.Proofs.Execution.Ending

/-!
`FOR` unrolled. The collection is taken from the stack with what it holds at that moment, and then each
item is pushed and the body run after it, just as in a sequence in which the body stands behind every
item. What the body does to the collection meanwhile changes nothing about that.

Lists of tasks are the same here when they come to the same end, from every machine and with every error
that is being passed on. What is the same stays so between other tasks.
-/

namespace ReversePolish

namespace Heap

/-- What `FOR` finds in a collection, and the heap that it goes on with. The elements of a list must be
such that to run one is to push it. For the entries of a map, lists of key and value are made, in order
of keys. -/
inductive Snapshot (h : Heap) : Value → List Value → Heap → Prop where
  | list {c : Nat} : (∀ v ∈ (h.items c).toList, v.IsData ∧ v.isForm = false) →
      Snapshot h (.list c) (h.items c).toList h
  | map {c : Nat} : Snapshot h (.map c)
      ((List.range (h.entries c).size).map fun i => .list (h.lists.size + i))
      { h with lists := h.lists ++ (h.entries c).entries.map fun e => #[.ofKey e.1, e.2] }

lemma Snapshot.data {h h' : Heap} {coll : Value} {items : List Value}
    (hitems : h.Snapshot coll items h') : ∀ v ∈ items, v.IsData ∧ v.isForm = false := by
  cases hitems with
  | list hdata => exact hdata
  | map => simp [Value.isForm]

end Heap

namespace Execution

variable {m : Machine} {e : Option Error} {t : Task} {ts us ts' us' below : List Task}
  {p q q' : Execution} {v : Value} {vs ws items body : List Value}

/-! ### Tasks that come to the same -/

/-- To come to an end is to come to it from the next step on. -/
lemma reaches_iff_step (hp : p.tasks ≠ []) (hq : q.tasks = []) : p.Reaches q ↔ p.step.Reaches q :=
  ⟨fun h => h.tail fun heq => hp (heq ▸ hq), .head⟩

/-- Tasks come to their end, and then those below them. -/
lemma reaches_append_iff (hq : q.tasks = []) :
    (⟨m, ts ++ us, e⟩ : Execution).Reaches q ↔ ∃ q₁, (⟨m, ts, e⟩ : Execution).Reaches q₁ ∧
      q₁.tasks = [] ∧ (⟨q₁.machine, us, q₁.error⟩ : Execution).Reaches q := by
  constructor
  · intro h
    obtain ⟨n, hn⟩ := run_of_reaches h hq
    obtain ⟨q₁, ⟨k, hk⟩, l, hl⟩ := run_split (p := ⟨m, ts, e⟩) hn
    exact ⟨q₁, (reaches_of_run hk).1, (reaches_of_run hk).2, (reaches_of_run hl).1⟩
  · rintro ⟨q₁, h, hq₁, hrest⟩
    obtain ⟨n, hn⟩ := run_of_reaches h hq₁
    exact (reaches_above hn us).trans hrest

/-- The tasks come to the same end, whatever the machine and whether an error is being passed on. -/
def SameEnds (ts us : List Task) : Prop :=
  ∀ m e q, q.tasks = [] →
    ((⟨m, ts, e⟩ : Execution).Reaches q ↔ (⟨m, us, e⟩ : Execution).Reaches q)

lemma SameEnds.refl (ts : List Task) : SameEnds ts ts := fun _ _ _ _ => .rfl

lemma SameEnds.symm (h : SameEnds ts us) : SameEnds us ts := fun m e q hq => (h m e q hq).symm

lemma SameEnds.trans (h : SameEnds ts us) (h' : SameEnds us ts') : SameEnds ts ts' :=
  fun m e q hq => (h m e q hq).trans (h' m e q hq)

/-- Parts that come to the same make wholes that do. -/
lemma SameEnds.append (h : SameEnds ts us) (h' : SameEnds ts' us') :
    SameEnds (ts ++ ts') (us ++ us') := by
  intro m e q hq
  rw [reaches_append_iff hq, reaches_append_iff hq]
  refine exists_congr fun q₁ => ⟨fun ⟨hts, hq₁, hts'⟩ => ?_, fun ⟨hus, hq₁, hus'⟩ => ?_⟩
  · exact ⟨(h m e q₁ hq₁).mp hts, hq₁, (h' _ _ q hq).mp hts'⟩
  · exact ⟨(h m e q₁ hq₁).mpr hus, hq₁, (h' _ _ q hq).mpr hus'⟩

/-- A task that can wait does nothing when an error is passed on or a stop has been asked for. -/
lemma step_given_up (ht : t.yields = true) (h : e ≠ none ∨ m.stopped = true) :
    step ⟨m, t :: ts, e⟩ = ⟨m, ts, e⟩ := by
  cases e with
  | some e => cases t <;> first | rfl | cases ht
  | none =>
    have hm : m.stopped = true := h.resolve_left (· rfl)
    simp [step, hm, ht, ofTasks]

lemma reaches_given_up (hts : ∀ t ∈ ts, t.yields = true) (h : e ≠ none ∨ m.stopped = true) :
    (⟨m, ts, e⟩ : Execution).Reaches ⟨m, [], e⟩ := by
  induction ts with
  | nil => exact ⟨0, rfl⟩
  | cons t ts ih =>
    obtain ⟨ht, hts⟩ := List.forall_mem_cons.mp hts
    refine .head ?_
    rw [step_given_up ht h]
    exact ih hts

/-- For tasks that can wait, it is enough to look at what they do when nothing stops them. -/
lemma sameEnds_of_running (hts : ∀ t ∈ ts, t.yields = true) (hus : ∀ t ∈ us, t.yields = true)
    (h : ∀ m q, m.stopped = false → q.tasks = [] →
      ((ofTasks m ts).Reaches q ↔ (ofTasks m us).Reaches q)) : SameEnds ts us := by
  intro m e q hq
  by_cases hrun : e = none ∧ m.stopped = false
  · obtain ⟨rfl, hm⟩ := hrun
    exact h m q hm hq
  · have hup : e ≠ none ∨ m.stopped = true := by simpa [imp_iff_not_or] using hrun
    have hends (ws : List Task) (hws : ∀ t ∈ ws, t.yields = true) :
        (⟨m, ws, e⟩ : Execution).Reaches q ↔ q = ⟨m, [], e⟩ := by
      have hreach := reaches_given_up hws hup
      exact ⟨fun hq' => eq_of_reaches hq' hq hreach rfl, fun heq => heq ▸ hreach⟩
    rw [hends ts hts, hends us hus]

/-! ### Sequences -/

lemma step_sequence (hm : m.stopped = false) (v : Value) (vs : List Value) (ts : List Task) :
    step (ofTasks m (.sequence (v :: vs) :: ts)) = runValue v m (.sequence vs :: ts) := by
  simp [step, ofTasks, hm, perform]

/-- **A sequence is run one part after the other.** -/
theorem sequence_append (vs ws : List Value) :
    SameEnds [.sequence (vs ++ ws)] [.sequence vs, .sequence ws] := by
  induction vs with
  | nil =>
    refine fun m e q hq => Iff.trans ?_ (reaches_iff_step (by simp) hq).symm
    have hstep : step ⟨m, [.sequence [], .sequence ws], e⟩ = ⟨m, [.sequence ws], e⟩ := by
      cases e with
      | some e => rfl
      | none => cases hm : m.stopped <;> simp [step, hm, Task.yields, perform, ofTasks]
    rw [hstep]
    exact .rfl
  | cons v vs ih =>
    refine sameEnds_of_running (by simp [Task.yields]) (by simp [Task.yields]) fun m q hm hq => ?_
    rw [reaches_iff_step (by simp [ofTasks]) hq,
      reaches_iff_step (p := ofTasks m [_, _]) (by simp [ofTasks]) hq, List.cons_append,
      step_sequence hm, step_sequence hm]
    -- What running the value brings in lies on top of the same tasks on both sides.
    have hsame := (SameEnds.refl (runValue v m []).tasks).append ih
    have habove (below : List Task) : runValue v m below =
        ⟨(runValue v m []).machine, (runValue v m []).tasks ++ below, (runValue v m []).error⟩ :=
      (above_runValue v m [] below).symm
    rw [habove [_], habove [_, _]]
    exact hsame _ _ q hq

/-! ### Loops over collections -/

/-- To run data that is no control form is to push it. -/
lemma runValue_of_data (hv : v.IsData) (hform : v.isForm = false) (m : Machine) (ts : List Task) :
    runValue v m ts = ofTasks { m with stack := v :: m.stack } ts := by
  have hpush (hrun : runValue v m ts = act (Action.push v) m ts) :
      runValue v m ts = ofTasks { m with stack := v :: m.stack } ts := by
    rw [hrun, act, after, Action.run_push hv]
    rfl
  cases v with
  | command c help => exact (hv rfl).elim
  | branch _ _ _ | each _ | loop _ _ => cases hform
  | _ => exact hpush rfl

/-- The body behind every item. -/
def unrolled (items body : List Value) : List Value := items.flatMap fun v => v :: body

/-- **The loop over items runs as the sequence does** in which the body stands behind every item. -/
theorem iterate_unrolled (hitems : ∀ v ∈ items, v.IsData ∧ v.isForm = false) (body : List Value) :
    SameEnds [.iterate items body] [.sequence (unrolled items body)] := by
  induction items with
  | nil =>
    refine sameEnds_of_running (by simp [Task.yields]) (by simp [Task.yields]) fun m q hm hq => ?_
    rw [reaches_iff_step (by simp [ofTasks]) hq,
      reaches_iff_step (p := ofTasks m [.sequence _]) (by simp [ofTasks]) hq]
    simp [step, ofTasks, hm, perform, unrolled]
  | cons v items ih =>
    obtain ⟨⟨hv, hform⟩, hitems⟩ := List.forall_mem_cons.mp hitems
    refine sameEnds_of_running (by simp [Task.yields]) (by simp [Task.yields]) fun m q hm hq => ?_
    have hiterate : step (ofTasks m [.iterate (v :: items) body]) =
        ofTasks { m with stack := v :: m.stack } [.sequence body, .iterate items body] := by
      simp [step, ofTasks, hm, perform, after, Action.run_push hv]
    have hsequence : step (ofTasks m [.sequence (unrolled (v :: items) body)]) =
        ofTasks { m with stack := v :: m.stack } [.sequence (body ++ unrolled items body)] :=
      (step_sequence hm v _ []).trans (runValue_of_data hv hform m _)
    rw [reaches_iff_step (by simp [ofTasks]) hq,
      reaches_iff_step (p := ofTasks m [.sequence _]) (by simp [ofTasks]) hq, hiterate, hsequence]
    have hsame : SameEnds [.sequence body, .iterate items body]
        [.sequence (body ++ unrolled items body)] :=
      ((SameEnds.refl [.sequence body]).append (ih hitems)).trans (sequence_append _ _).symm
    exact hsame _ none q hq

lemma run_mapM_newList (es : List (Key × Value)) (m : Machine) :
    (es.mapM fun e => Action.onHeap (Heap.newList #[.ofKey e.1, e.2])).run m =
      .ok ((List.range es.length).map fun i => .list (m.heap.lists.size + i))
        { m with heap.lists := m.heap.lists ++ es.map fun e => #[.ofKey e.1, e.2] } := by
  induction es generalizing m with
  | nil => simp [EStateM.run_pure]
  | cons e es ih =>
    let m' : Machine := { m with heap.lists := m.heap.lists.push #[.ofKey e.1, e.2] }
    have hnew : (Action.onHeap (Heap.newList #[.ofKey e.1, e.2])).run m =
        .ok (.list m.heap.lists.size) m' := rfl
    rw [List.mapM_cons, Action.run_bind_ok hnew, Action.run_bind_ok (ih m')]
    simp [m', List.range_succ_eq_map, Function.comp_def, Nat.add_assoc, Nat.add_comm 1]

/-- The collection is taken with what it holds. -/
lemma run_takeItems {coll : Value} {below : Stack} {h' : Heap} (hs : m.stack = coll :: below)
    (hitems : m.heap.Snapshot coll items h') :
    takeItems.run m = .ok items { m with stack := below, heap := h' } := by
  have hpeek : (Action.demand fun m => m.stack.peek 0).run m = .ok coll m :=
    Action.run_demand_ok (by rw [hs]; rfl)
  have hdrop : (Action.drop 1).run m = .ok () { m with stack := below } := by
    rw [show (Action.drop 1).run m = .ok () { m with stack := m.stack.drop 1 } from rfl, hs]
    rfl
  rw [takeItems, Action.run_bind_ok hpeek]
  cases hitems with
  | list _ => exact Action.run_bind_ok hdrop
  | @map c =>
    refine (Action.run_bind_ok hdrop).trans ?_
    exact run_mapM_newList (m.heap.entries c).entries { m with stack := below }

/-- **`FOR` is its unrolling.** Where a list of data or a map lies on top of the stack, running
`FOR` with any body comes to the same as taking the collection off and running, under the same
boundary for errors, each item with the body behind it: if the one ends, so does the other, with the
same machine and the same error, whatever is to be done afterwards. -/
theorem each_unrolled {coll : Value} {below : Stack} {h' : Heap} (hs : m.stack = coll :: below)
    (hitems : m.heap.Snapshot coll items h') (body : List Value) (ts : List Task) (q : Execution) :
    (∃ n, (ofTasks m (.run (.each body) :: ts)).run n = some q) ↔
      ∃ n, (ofTasks { m with stack := below, heap := h' }
        (.sequence (unrolled items body) :: .report :: ts)).run n = some q := by
  have hends {p : Execution} : (∃ n, p.run n = some q) ↔ p.Reaches q ∧ q.tasks = [] :=
    ⟨fun ⟨_, hn⟩ => reaches_of_run hn, fun ⟨h, hq⟩ => run_of_reaches h hq⟩
  have htake : step (ofTasks m (.run (.each body) :: ts)) =
      ofTasks { m with stack := below, heap := h' } (.iterate items body :: .report :: ts) := by
    rw [step_run, runValue, after, run_takeItems hs hitems]
    rfl
  rw [hends, hends]
  refine and_congr_left fun hq => ?_
  rw [reaches_iff_step (by simp [ofTasks]) hq, htake]
  exact (iterate_unrolled hitems.data body).append (.refl (.report :: ts)) _ none q hq

/-- A loop over a list that grows in the loop, with a division that fails in the last round. -/
theorem growing_list_unrolled :
    let word (w : Word) : Value := .command (.ofWord w) false
    let body : List Value := [word .dup, word .rot, word .swap, word .append, word .swap, .int 12,
      word .swap, word .div, word .drop]
    let m : Machine := { Machine.initial "main" ∅ Loader.disabled default .empty {} {} with
      stack := [.list 0, .list 0], heap := ⟨#[#[.int 1, .int 0]], #[], #[]⟩ }
    let looped := ofTasks m [.run (.each body)]
    let sequence := ofTasks { m with stack := [.list 0] }
      [.sequence (.int 1 :: body ++ .int 0 :: body), .report]
    ∃ q, (∃ n, looped.run n = some q) ∧ (∃ n, sequence.run n = some q) ∧
      q.machine.heap.items 0 = #[.int 1, .int 0, .int 1, .int 0] ∧
      q.machine.stack = [.int 0, .int 12, .list 0] ∧
      q.machine.output.text = "Error: " ++ Error.message (.failed .divisionByZero) ++ "\n" := by
  intro word body m looped sequence
  let m' : Machine := { m with
    stack := [.int 0, .int 12, .list 0], heap := ⟨#[#[.int 1, .int 0, .int 1, .int 0]], #[], #[]⟩ }
  have hfails : step^[21] looped = ⟨m', [.sequence [word .drop], .iterate [] body, .report],
      some (.failed .divisionByZero)⟩ := by cbv
  have hlooped : looped.Reaches ⟨m'.report (.failed .divisionByZero), [], none⟩ :=
    .trans ⟨21, hfails⟩ ⟨3, rfl⟩
  have hitems : m.heap.Snapshot (.list 0) [.int 1, .int 0] m.heap :=
    .list (c := 0) (by simp [m, Heap.items, Value.isForm])
  have hruns := run_of_reaches hlooped rfl
  exact ⟨_, hruns, (each_unrolled (m := m) rfl hitems body [] _).mp hruns, rfl, rfl, rfl⟩

end Execution

end ReversePolish
