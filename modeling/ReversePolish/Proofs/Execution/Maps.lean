import ReversePolish.Proofs.Execution.Integers
import ReversePolish.Proofs.Execution.Storage
import ReversePolish.Proofs.Execution.Unrolling
import ReversePolish.Proofs.Key
import ReversePolish.Proofs.Operator.Collection
import ReversePolish.Proofs.Value.Canonical
import ReversePolish.Proofs.Value.Pairs

/-!
Maps are canonical. Whatever is run, a map binds each key to what the key was given last, and it has
its keys in order. So all words that look at a map see the same, and it does not matter in which
order things were put there.
-/

namespace ReversePolish

open Datum (ofPairs)

/-! ### What is put into a map -/

namespace Execution

variable {es : List (Key × Datum Command)} {around : Option Nat} {h : Heap}
  {puts : List (Key × Value)} {k : Key} {x : Value} {c : Nat} {p : Execution}

/-- The next step puts this value into the map of the cell, for this key. -/
def Puts (c : Nat) (k : Key) (x : Value) (p : Execution) : Prop :=
  p.Runs .put ∧ ∃ below, p.machine.stack = x :: .ofKey k :: .map c :: below

/-- The map of the cell was read with these pairs, in whatever program, and stored on top of this heap,
and this is what was put into it since, whatever else was run. -/
inductive Fills (c : Nat) (es : List (Key × Datum Command)) (around : Option Nat) (h : Heap) :
    List (Key × Value) → Execution → Prop where
  | read {p : Execution} : ((ofPairs es).store around h).1 = .map c →
      ((ofPairs es).store around h).2.Extends p.machine.heap → Fills c es around h [] p
  | put {p : Execution} {puts : List (Key × Value)} {k : Key} {x : Value} : Fills c es around h puts p →
      p.Puts c k x → Fills c es around h (puts ++ [(k, x)]) p.step
  | other {p : Execution} {puts : List (Key × Value)} : Fills c es around h puts p →
      (∀ k x, ¬ p.Puts c k x) → Fills c es around h puts p.step

/-- A map that a text has as its next value goes onto the stack. -/
lemma fills_of_source {m : Machine} {r r' : Reader} {ts : List Task} (hm : m.stopped = false)
    (hr : r.next m.setting = .value (ofPairs es) r') : ∃ c,
      (step (ofTasks m (.source r :: ts))).machine.stack = .map c :: m.stack ∧
        Fills c es none m.heap [] (step (ofTasks m (.source r :: ts))) := by
  have hstep : step (ofTasks m (.source r :: ts)) =
      ofTasks { m with
        stack := ((ofPairs es).store none m.heap).1 :: m.stack
        heap := ((ofPairs es).store none m.heap).2 } (.source r' :: ts) := by
    simp only [step, ofTasks, hm, perform, hr]
    rfl
  rw [hstep]
  exact ⟨_, rfl, .read rfl (.refl _)⟩

/-- However far one goes on, there is something that was put into the map on the way. -/
lemma Fills.exists_iterate (hp : Fills c es around h puts p) (n : Nat) :
    ∃ more, Fills c es around h (puts ++ more) (step^[n] p) := by
  induction n with
  | zero => exact ⟨[], by rwa [List.append_nil]⟩
  | succ n ih =>
    obtain ⟨more, hmore⟩ := ih
    rw [Function.iterate_succ_apply']
    by_cases hput : ∃ k x, (step^[n] p).Puts c k x
    · obtain ⟨k, x, hput⟩ := hput
      exact ⟨more ++ [(k, x)], List.append_assoc .. ▸ hmore.put hput⟩
    · exact ⟨more, hmore.other fun k x hkx => hput ⟨k, x, hkx⟩⟩

lemma not_puts (hw : p.word? = none) (k : Key) (x : Value) : ¬ p.Puts c k x := by
  rintro ⟨hruns, -⟩
  rw [hruns.word?] at hw
  cases hw

lemma edit_of_puts (hp : p.Puts c k x) : p.edit = .bind c k x := by
  obtain ⟨hruns, below, hs⟩ := hp
  have hput : Operator.put.apply (x :: .ofKey k :: .map c :: below) p.machine.heap =
      .results below [.map c] (.bind c k x) := by
    cases k <;> rfl
  simp only [edit, hruns.word?, Option.elim, Word.edit, Word.meaning, hs, hput]

/-- A step that changes a map puts something into it. -/
lemma puts_of_target (hp : p.edit.target? = some (.map c)) : ∃ k x, p.Puts c k x := by
  obtain ⟨w, i, hruns, hi, hc⟩ := writesTo_of_target hp
  have hw : w = .put ∨ w = .append ∨ w = .insert := by cases w <;> cases hi <;> simp
  obtain ⟨op, hop⟩ : ∃ op, w.meaning = .operator op := by
    rcases hw with rfl | rfl | rfl <;> exact ⟨_, rfl⟩
  rcases Operator.takes_or_failed hw hop p.machine.stack p.machine.heap with
    ⟨coll, operands, below, hs, ht⟩ | ⟨e, he⟩
  · -- Only `PUT` is given a map.
    rw [hs] at hc
    cases ht <;> cases hi <;> cases hc
    next key x hkey =>
    obtain ⟨k, rfl⟩ := Value.exists_key_of_kind hkey
    exact ⟨k, x, hruns, below, hs⟩
  · simp only [edit, hruns.word?, Option.elim, Word.edit, hop, he] at hp
    cases hp

/-- The entries are those of all pairs and puts in turn. -/
lemma Fills.entries_eq (hp : Fills c es around h puts p) : c < p.machine.heap.maps.size ∧
    p.machine.heap.entries c = Table.ofList (Datum.storedPairs es around h ++ puts) := by
  induction hp with
  | read hc hx =>
    rw [List.append_nil]
    exact Datum.entries_of_store hc hx
  | @put p puts k x _ hputs ih =>
    obtain ⟨hc, hentries⟩ := ih
    refine ⟨hc.trans_le (size_maps_step p), ?_⟩
    rw [entries_step hc, edit_of_puts hputs, Heap.Edit.onEntries, if_pos rfl, hentries,
      ← List.append_assoc, Table.ofList_concat]
  | @other p puts _ hputs ih =>
    obtain ⟨hc, hentries⟩ := ih
    refine ⟨hc.trans_le (size_maps_step p), ?_⟩
    rw [entries_step hc, Heap.Edit.onEntries_of_ne, hentries]
    intro htarget
    obtain ⟨k, x, hput⟩ := puts_of_target htarget
    exact hputs k x hput

/-- **A map binds each key to what it was given last.** -/
theorem Fills.find?_eq_some_iff (hp : Fills c es around h puts p) :
    (p.machine.heap.entries c).find? k = some x ↔ LastGiven es around h puts k x := by
  rw [hp.entries_eq.2, Table.find?_ofList_eq_some_iff, lastGiven_iff]

lemma Fills.mem_keys_iff (hp : Fills c es around h puts p) :
    k ∈ (p.machine.heap.entries c).keys ↔ k ∈ es.map Prod.fst ∨ k ∈ puts.map Prod.fst := by
  simp only [Table.mem_keys_iff, hp.find?_eq_some_iff, exists_lastGiven]

end Execution

/-! ### What is seen of a map -/

namespace Word

variable {h : Heap} {v w x : Value} {c : Nat} {k l : Key} {i : Int64}

lemma get_apply (hk : (h.entries c).find? k = some x) (below : Stack) :
    Operator.get.apply (.ofKey k :: .map c :: below) h = .results below [x] .keep := by
  cases k <;>
    simp [Operator.apply, Operator.get, Value.ofKey, Value.key, Value.key?, hk, bind, Except.bind,
      pure, Except.pure, Operator.Applied.of]

lemma get_gives (hk : (h.entries c).find? k = some x) (hx : x.IsData) :
    get.GivesIn h [.map c, .ofKey k] x h :=
  givesIn_of_apply .get .keep rfl hx (get_apply hk)

/-- A command is found, but it cannot be pushed. -/
lemma get_fails_on_command (hk : (h.entries c).find? k = some x) (hx : ¬ x.IsData) :
    get.FailsIn h [.map c, .ofKey k] := by
  obtain ⟨command, help, rfl⟩ := Value.not_isData_iff.mp hx
  rintro d m below ts hd rfl hs
  have hget : Execution.GetsCommand m command := ⟨help, by rw [hs]; exact get_apply hk below⟩
  exact ⟨_, _, (Execution.runValue_operator hd rfl).trans (Execution.operate_getsCommand hget)⟩

/-- It does not matter whether the operand can be a key at all. -/
lemma get_fails_on_absent (hv : ∀ k x, v = .ofKey k → (h.entries c).find? k ≠ some x) :
    get.FailsIn h [.map c, v] := by
  cases hkey : v.key with
  | error e =>
    refine failsIn_of_apply .get e rfl fun below => ?_
    simp [Operator.apply, Operator.get, hkey, bind, Except.bind, Operator.Applied.of]
  | ok k =>
    obtain rfl := Value.key_eq_ok_iff.mp hkey
    have hnone : (h.entries c).find? k = none :=
      Option.eq_none_iff_forall_ne_some.mpr fun x => hv k x rfl
    refine failsIn_of_apply .get (.failed (.keyAbsent k)) rfl fun below => ?_
    simp [Operator.apply, Operator.get, hkey, hnone, bind, Except.bind, Operator.Applied.of, throw,
      throwThe, MonadExceptOf.throw]

lemma keys_gives (h : Heap) (c : Nat) : keys.GivesIn h [.map c]
    (h.newList ((h.entries c).keys.map .ofKey).toArray).1
    (h.newList ((h.entries c).keys.map .ofKey).toArray).2 :=
  givesIn_of_apply _ (.addList _) rfl (by simp [Heap.newList]) fun _ => rfl

lemma size_gives (hi : i.toInt = (h.entries c).size) : size.GivesIn h [.map c] (.int i) h := by
  refine givesIn_of_apply .size .keep rfl (by simp) fun below => ?_
  simp [Operator.apply, Operator.size, Operator.length, ← hi, Arithmetic.fit_toInt, bind, Except.bind,
    pure, Except.pure, Operator.Applied.of]

lemma size_fails (hfits : ¬ Arithmetic.Fits (h.entries c).size) : size.FailsIn h [.map c] := by
  refine failsIn_of_apply .size (.failed .overflow) rfl fun below => ?_
  simp [Operator.apply, Operator.size, Operator.length, Arithmetic.fit_of_not_fits hfits, bind,
    Except.bind, Operator.Applied.of]

/-- Keys of one kind compare as they are ordered. -/
lemma lt_gives (hkl : Arithmetic.compare (.ofKey k) (.ofKey l) = .ok (compare k l)) (h : Heap) :
    lt.GivesIn h [.ofKey k, .ofKey l] (.ofBool (k.Precedes l)) h := by
  refine givesIn_of_apply (.ofOrder (· == .lt)) .keep rfl (by simp [Value.ofBool]) fun below => ?_
  have hless : decide (k.Precedes l) = (compare k l == .lt) := by
    simp [Key.precedes_iff, Bool.beq_eq_decide_eq]
  rw [hless]
  simp [Operator.apply, Operator.ofOrder, hkl, Transform.given, Transform.results, Operator.Applied.of]

lemma eq_gives (hkind : v.kind = w.kind) (hvw : h.Same 0 v w) :
    eq.GivesIn h [v, w] (.ofBool true) h := by
  refine givesIn_of_apply (.equality fun same => same) .keep rfl (by simp [Value.ofBool])
    fun below => ?_
  have hequal := (Heap.equal?_eq_ok_true hkind).mpr (Heap.verdict_eq_same_iff.mpr hvw)
  simp only [Operator.apply, List.reverse_cons, List.reverse_nil, List.nil_append, List.cons_append,
    hequal]
  rfl

end Word

namespace Heap

variable {h : Heap} {c c' : Nat}

/-- `FOR` with this collection on top of the stack takes it off and goes over lists of key and
value, one for each of these entries in turn. -/
def Visits (h : Heap) (coll : Value) (entries : List (Key × Value)) : Prop :=
  ∀ (m : Machine) (below : Stack) (body : List Value) (ts : List Task), m.heap = h →
    m.stack = coll :: below → ∃ items h', h.Extends h' ∧
      List.Forall₂ (fun v e => ∃ c, v = .list c ∧ h'.items c = #[.ofKey e.1, e.2]) items entries ∧
      Execution.runValue (.each body) m ts =
        .ofTasks { m with stack := below, heap := h' } (.iterate items body :: .report :: ts)

/-- `KEYS`, `FOR`, `SIZE` and the written form show these entries of the map, in this order. -/
structure Shows (h : Heap) (c : Nat) (entries : List (Key × Value)) : Prop where
  keys : Word.keys.GivesIn h [.map c] (h.newList ((entries.map Prod.fst).map .ofKey).toArray).1
    (h.newList ((entries.map Prod.fst).map .ofKey).toArray).2
  loop : h.Visits (.map c) entries
  written (limits : Display) (n : Nat) : h.lexemes limits (n + 1) (.map c) =
    "\x7b" :: elide limits.items (fun e => e.1.text :: h.lexemes limits n e.2) entries ++ ["\x7d"]
  size {i : Int64} : i.toInt = entries.length → Word.size.GivesIn h [.map c] (.int i) h
  sizeless : ¬ Arithmetic.Fits entries.length → Word.size.FailsIn h [.map c]

lemma exists_snapshot_map (h : Heap) (c : Nat) : ∃ items h', h.Snapshot (.map c) items h' ∧
    h.Extends h' ∧ List.Forall₂ (fun v e => ∃ c, v = .list c ∧ h'.items c = #[.ofKey e.1, e.2]) items
      (h.entries c).entries := by
  refine ⟨_, _, .map, ⟨by simp, List.prefix_refl _, List.prefix_refl _⟩, ?_⟩
  refine List.forall₂_iff_get.mpr ⟨by simp [Table.size], fun i hi hi' => ?_⟩
  refine ⟨h.lists.size + i, by simp, ?_⟩
  have hget : (h.lists ++ (h.entries c).entries.map fun e => #[.ofKey e.1, e.2])[h.lists.size + i]? =
      some #[.ofKey (h.entries c).entries[i].1, (h.entries c).entries[i].2] := by
    rw [← Array.getElem?_toList, Array.toList_appendList, List.getElem?_append_right (by simp)]
    simp [hi']
  simp [items, Array.getD_eq_getD_getElem?, hget]

lemma visits_map (h : Heap) (c : Nat) : h.Visits (.map c) (h.entries c).entries := by
  rintro m below body ts rfl hs
  obtain ⟨items, h', hsnapshot, hx, hitems⟩ := exists_snapshot_map m.heap c
  refine ⟨items, h', hx, hitems, ?_⟩
  rw [Execution.runValue, Execution.after, Execution.run_takeItems hs hsnapshot]
  rfl

lemma shows_entries (h : Heap) (c : Nat) : h.Shows c (h.entries c).entries where
  keys := Word.keys_gives h c
  loop := visits_map h c
  written _ _ := rfl
  size := Word.size_gives
  sizeless := Word.size_fails

/-- Maps with the same keys and the same values are the same. -/
lemma same_maps (hkeys : (h.entries c).keys = (h.entries c').keys)
    (hvalues : ∀ k x y, (h.entries c).find? k = some x → (h.entries c').find? k = some y →
      h.Same 1 x y) : h.Same 0 (.map c) (.map c') := by
  refine .made (by decide) (congrArg Head.map hkeys) fun e he => ?_
  have he : e ∈ (h.entries c).values.zip (h.entries c').values := by
    simpa [inside, elements, Value.bodyItems, Table.values] using he
  obtain ⟨k, hx, hy⟩ := exists_key_of_zip hkeys he
  exact hvalues k e.1 e.2 (Table.find?_eq_some_iff.mpr hx) (Table.find?_eq_some_iff.mpr hy)

end Heap

namespace Execution

variable {es : List (Key × Datum Command)} {around : Option Nat} {h : Heap}
  {puts : List (Key × Value)} {c : Nat} {p : Execution}

/-- **Maps are canonical.** Take a map that was read with any pairs, whatever was then put into it
by any way that leads to it. `GET` gives what the key was given last, unless this is a command,
which is no data and on which it fails; and it fails on all else. The keys that were given
something, in their order, are what `KEYS`, `FOR` and the written form go through and `SIZE` counts.
This is the order in which `LT` has integers, and strings. Two maps whose keys were given the same
are equal and are written alike. -/
theorem maps_are_canonical (hp : Fills c es around h puts p) :
    (∀ home (o : OpenForm Command), o.form = .map → Grammar.Entries o.items es →
      o.close home = .ok (.ok (ofPairs es))) ∧
    (∀ k x, LastGiven es around h puts k x → x.IsData →
      Word.get.GivesIn p.machine.heap [.map c, .ofKey k] x p.machine.heap) ∧
    (∀ k x, LastGiven es around h puts k x → ¬ x.IsData →
      Word.get.FailsIn p.machine.heap [.map c, .ofKey k]) ∧
    (∀ v, (∀ k, v = .ofKey k → k ∉ es.map Prod.fst ∧ k ∉ puts.map Prod.fst) →
      Word.get.FailsIn p.machine.heap [.map c, v]) ∧
    (∃ entries : List (Key × Value), p.machine.heap.Shows c entries ∧
      (entries.map Prod.fst).Pairwise Key.Precedes ∧
      (∀ k, k ∈ entries.map Prod.fst ↔ k ∈ es.map Prod.fst ∨ k ∈ puts.map Prod.fst) ∧
      ∀ k x, (k, x) ∈ entries ↔ LastGiven es around h puts k x) ∧
    (∀ a b : Int64, Word.lt.GivesIn p.machine.heap [.int a, .int b]
      (.ofBool ((Key.int a).Precedes (.int b))) p.machine.heap) ∧
    (∀ s t : String, Word.lt.GivesIn p.machine.heap [.str s, .str t]
      (.ofBool ((Key.str s).Precedes (.str t))) p.machine.heap) ∧
    ∀ c' es' around' h' puts', Fills c' es' around' h' puts' p →
      (∀ k, k ∈ es.map Prod.fst ∨ k ∈ puts.map Prod.fst ↔
        k ∈ es'.map Prod.fst ∨ k ∈ puts'.map Prod.fst) →
      (∀ k x y, LastGiven es around h puts k x → LastGiven es' around' h' puts' k y →
        x = y ∨ p.machine.heap.equate 1 x y = .same) →
      Word.eq.GivesIn p.machine.heap [.map c, .map c'] (.ofBool true) p.machine.heap ∧
        ∀ limits, p.machine.heap.renderWith limits (.map c) =
          p.machine.heap.renderWith limits (.map c') := by
  refine ⟨fun home o ho he => Datum.close_map ho he home,
    fun k x hx => Word.get_gives (hp.find?_eq_some_iff.mpr hx),
    fun k x hx => Word.get_fails_on_command (hp.find?_eq_some_iff.mpr hx), fun v hv => ?_,
    ⟨_, Heap.shows_entries _ c, ?_, fun k => hp.mem_keys_iff,
      fun k x => Table.find?_eq_some_iff.symm.trans hp.find?_eq_some_iff⟩,
    fun a b => Word.lt_gives (k := .int a) (l := .int b) rfl _,
    fun s t => Word.lt_gives (k := .str s) (l := .str t) rfl _,
    fun c' es' around' h' puts' hp' hkeys hsame => ?_⟩
  · refine Word.get_fails_on_absent fun k x hk hx => ?_
    have hgiven := exists_lastGiven.mp ⟨x, hp.find?_eq_some_iff.mp hx⟩
    exact hgiven.elim (hv k hk).1 (hv k hk).2
  · exact (ascending_iff_keys.mp (p.machine.heap.entries c).ascending).imp Key.precedes_iff.mpr
  · have hmaps : p.machine.heap.Same 0 (.map c) (.map c') := by
      refine Heap.same_maps (Table.keys_eq fun k => ?_) fun k x y hx hy => ?_
      · rw [hp.mem_keys_iff, hp'.mem_keys_iff, hkeys]
      · rcases hsame k x y (hp.find?_eq_some_iff.mp hx) (hp'.find?_eq_some_iff.mp hy) with rfl | hxy
        · exact .refl _ (by decide) x
        · exact (Heap.verdict_eq_same_iff (c := ⟨1, x, y⟩)).mp hxy
    refine ⟨Word.eq_gives rfl hmaps, fun limits => ?_⟩
    rw [Heap.renderWith, Heap.renderWith, hmaps.lexemes_eq]

/-- One map is read with all pairs, of which one does not count, and another one with one pair. What it
lacks is then put into this one. -/
theorem two_ways_to_one_map :
    let es : List (Key × Datum Command) := [(.str "b", .int 1), (.int 2, .int 0), (.int 2, .int 3)]
    let es' : List (Key × Datum Command) := [(.str "b", .int 1)]
    let h := ((ofPairs es).store none .empty).2
    let h' := ((ofPairs es').store none h).2
    let p := ofTasks { Machine.initial "main" ∅ Loader.disabled default .empty {} {} with heap := h' }
      [.sequence [.map 1, .int 2, .int 3, .command (.ofWord .put) false]]
    let q := p.step.step.step.step
    Fills 0 es none .empty [] q ∧ Fills 1 es' none h [(.int 2, .int 3)] q ∧
      Word.get.GivesIn q.machine.heap [.map 0, .int 2] (.int 3) q.machine.heap ∧
      Word.eq.GivesIn q.machine.heap [.map 0, .map 1] (.ofBool true) q.machine.heap := by
  intro es es' h h' p q
  have hput : p.step.step.step.Puts 1 (.int 2) (.int 3) := ⟨.sequence rfl rfl, [], rfl⟩
  have hnot : ∀ k x, ¬ p.step.step.step.Puts 0 k x := by
    rintro k x ⟨-, below, hs⟩
    cases (List.cons.inj (List.cons.inj (List.cons.inj hs).2).2).1
  have hleft : Fills 0 es none .empty [] q := by
    have hread : Fills 0 es none .empty [] p := .read rfl (Datum.extends_store _ none h)
    exact .other (.other (.other (.other hread (not_puts rfl)) (not_puts rfl)) (not_puts rfl)) hnot
  have hright : Fills 1 es' none h [(.int 2, .int 3)] q := by
    have hread : Fills 1 es' none h [] p := .read rfl (.refl h')
    exact .put (.other (.other (.other hread (not_puts rfl)) (not_puts rfl)) (not_puts rfl)) hput
  obtain ⟨-, hget, -, -, -, -, -, hsame⟩ := maps_are_canonical hleft
  refine ⟨hleft, hright, hget (.int 2) (.int 3) (hleft.find?_eq_some_iff.mp (by cbv)) (by simp), ?_⟩
  refine (hsame 1 es' none h _ hright (fun k => by simp [es, es']) fun k x y hx hy => ?_).1
  rw [← hleft.find?_eq_some_iff] at hx
  rw [← hright.find?_eq_some_iff] at hy
  have hentries : q.machine.heap.entries 0 = q.machine.heap.entries 1 := by cbv
  rw [hentries, hy] at hx
  exact .inl (Option.some.inj hx).symm

/-- `{ 1 DUP } 1 GET` finds the value of the one pair that there is, and fails on it. -/
theorem get_of_command_in_map_fails :
    let dup : Datum Command := .command (.ofWord .dup) false
    let es : List (Key × Datum Command) := [(.int 1, dup)]
    let m := { Machine.initial "main" ∅ Loader.disabled default .empty {} {} with
      heap := ((ofPairs es).store none .empty).2
      stack := [.int 1, ((ofPairs es).store none .empty).1] }
    LastBound es (.int 1) dup ∧ m.stack = [.int 1, .map 0] ∧
      (runValue (.command (.ofWord .get) false) m []).error =
        some (.mismatch "a data value (`DUP` must be invoked, not pushed)" .command) := by
  exact ⟨⟨[], [], rfl, by simp⟩, rfl, rfl⟩

end Execution

end ReversePolish
