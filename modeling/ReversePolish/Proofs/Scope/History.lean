import ReversePolish.Proofs.Scope

/-!
The variables of modules as one map. A place is a module and a variable of it. What has been asked so
far decides which namespace is current, hence what place a name means, and what value is in each place:
the last one stored there, unless the place was purged since.
-/

namespace ReversePolish

section

variable {sep : Char} {cs before after : List Char}

lemma splitLast_append (h : sep ∉ after) :
    splitLast sep (before ++ sep :: after) = some (before, after) := by
  have hafter : ∀ c ∈ after.reverse, (c != sep) = true := fun c hc => by
    simp only [bne_iff_ne]
    exact fun heq => h (heq ▸ List.mem_reverse.mp hc)
  have hreverse : (before ++ sep :: after).reverse = after.reverse ++ sep :: before.reverse := by
    simp
  rw [splitLast, hreverse, List.dropWhile_append_of_pos hafter,
    List.takeWhile_append_of_pos hafter]
  simp

lemma eq_append_of_splitLast (h : splitLast sep cs = some (before, after)) :
    cs = before ++ sep :: after ∧ sep ∉ after := by
  unfold splitLast at h
  split at h
  · cases h
  · next c rest hdrop =>
    cases h
    have hc : c = sep := by
      have hhead := List.head_dropWhile_not (l := cs.reverse) (· != sep) (by simp [hdrop])
      simpa [hdrop] using hhead
    have hwhole := List.takeWhile_append_dropWhile (p := (· != sep)) (l := cs.reverse)
    rw [hdrop, hc] at hwhole
    refine ⟨?_, fun hmem => ?_⟩
    · simpa using (congrArg List.reverse hwhole).symm
    · have htake := List.all_takeWhile (p := (· != sep)) (l := cs.reverse)
      rw [List.all_eq_true] at htake
      simpa using htake sep (List.mem_reverse.mp hmem)

end

namespace Scope

variable {s : Scope} {home current name m : String} {p : String × String} {v x : Value}

/-! ### Places -/

/-- The name is written as that of a variable of a module. -/
def Dotted (name m v : String) : Prop :=
  name = m ++ "." ++ v ∧ m ≠ "" ∧ v ≠ "" ∧ '.' ∉ v.toList

/-- The place that a name means where this namespace is current. -/
inductive Means (current : String) : String → String × String → Prop where
  | dotted {name m v : String} : Dotted name m v → Means current name (m, v)
  | plain {name : String} : (∀ m v, ¬ Dotted name m v) → Means current name (current, name)

lemma splitLast_of_dotted {v : String} (h : Dotted name m v) :
    splitLast '.' name.toList = some (m.toList, v.toList) := by
  obtain ⟨rfl, -, -, hv⟩ := h
  have hlist : (m ++ "." ++ v).toList = m.toList ++ '.' :: v.toList := by simp
  rw [hlist, splitLast_append hv]

lemma dotted_of_splitLast {before after : List Char}
    (h : splitLast '.' name.toList = some (before, after)) (hbefore : before ≠ [])
    (hafter : after ≠ []) : Dotted name (.ofList before) (.ofList after) := by
  obtain ⟨hname, hmem⟩ := eq_append_of_splitLast h
  refine ⟨?_, by simpa using hbefore, by simpa using hafter, by simpa using hmem⟩
  rw [← String.toList_inj]
  simpa using hname

/-- **Names are resolved by their last dot.** -/
theorem means_resolve (name : String) (s : Scope) : Means s.current name (s.resolve name) := by
  unfold resolve
  cases h : splitLast '.' name.toList with
  | none =>
    refine .plain fun m v hdotted => ?_
    rw [splitLast_of_dotted hdotted] at h
    cases h
  | some parts =>
    obtain ⟨before, after⟩ := parts
    simp only
    split
    · next hempty =>
      refine .plain fun m v hdotted => ?_
      rw [splitLast_of_dotted hdotted] at h
      cases h
      obtain ⟨-, hm, hv, -⟩ := hdotted
      simp_all
    · next hempty =>
      simp only [Bool.or_eq_true, List.isEmpty_iff, not_or] at hempty
      exact .dotted (dotted_of_splitLast h hempty.1 hempty.2)

lemma Means.unique {q : String × String} (h : Means current name p) (h' : Means current name q) :
    p = q := by
  cases h with
  | dotted hd =>
    cases h' with
    | dotted hd' =>
      have hparts := (splitLast_of_dotted hd).symm.trans (splitLast_of_dotted hd')
      simpa [String.toList_inj] using hparts
    | plain hno => exact (hno _ _ hd).elim
  | plain hno =>
    cases h' with
    | dotted hd => exact (hno _ _ hd).elim
    | plain _ => rfl

lemma means_iff : Means s.current name p ↔ s.resolve name = p :=
  ⟨(means_resolve name s).unique, fun h => h ▸ means_resolve name s⟩

/-- What is in a place. -/
def binding? (p : String × String) (s : Scope) : Option Value :=
  (s.modules.find? p.1).bind fun vars => vars.find? p.2

lemma get_eq_ok_iff {v : String} : s.get m v = .ok x ↔ s.binding? (m, v) = some x := by
  unfold get binding?
  cases s.modules.find? m with
  | none => simp
  | some vars =>
    cases hv : vars.find? v <;> simp [hv]

lemma fetch_eq_ok_iff : s.fetch name = .ok x ↔ s.binding? (s.resolve name) = some x := get_eq_ok_iff

/-! ### What is asked of the variables -/

/-- What can be asked of the variables of modules. -/
inductive Operation where
  | store (name : String) (x : Value)
  | fetch (name : String)
  | purge (name : String)
  | switch (name : String)
  | create (name : String)
  | set (m v : String) (x : Value)

inductive Answer where
  | done
  | value (x : Value)
  | home (name : String)

namespace Operation

variable {op : Operation}

/-- What an operation answers, and what it makes of the scope. -/
def perform : Operation → Scope → Except Error Answer × Scope
  | store name x, s => (.ok .done, s.store name x)
  | fetch name, s => ((s.fetch name).map .value, s)
  | purge name, s =>
    match s.purge name with
    | .ok (x, s') => (.ok (.value x), s')
    | .error e => (.error e, s)
  | switch name, s =>
    let (saved, s') := s.switch name
    (.ok (.home saved), s')
  | create name, s => (.ok .done, s.create name)
  | set m v x, s => (.ok .done, s.set m v x)

def switched? : Operation → Option String
  | switch name => some name
  | _ => none

/-- Where this namespace is current, the operation stores the value in the place. -/
inductive Stores (current : String) : Operation → String × String → Value → Prop where
  | store {name : String} {p : String × String} {x : Value} :
      Means current name p → Stores current (.store name x) p x
  | set {m v : String} {x : Value} : Stores current (.set m v x) (m, v) x

/-- Where this namespace is current, the operation purges the place. -/
inductive Purges (current : String) : Operation → String × String → Prop where
  | purge {name : String} {p : String × String} :
      Means current name p → Purges current (.purge name) p

/-- The operation leaves alone what is in the place. -/
def Spares (current : String) (op : Operation) (p : String × String) : Prop :=
  (∀ x, ¬ op.Stores current p x) ∧ ¬ op.Purges current p

end Operation

/-- The scope after these operations, where this namespace was the first. -/
def run (home : String) (ops : List Operation) : Scope :=
  ops.foldl (fun s op => (op.perform s).2) (initial home)

/-- The namespace that was switched to last. -/
def lastNamespace (home : String) (ops : List Operation) : String :=
  (ops.filterMap Operation.switched?).getLastD home

/-- Some operation did the first, where the namespace was as it had come to be, and every later one
did the second. -/
def Since (home : String) (first second : String → Operation → Prop) (ops : List Operation) : Prop :=
  ∃ before op after, ops = before ++ op :: after ∧ first (lastNamespace home before) op ∧
    ∀ between later rest, after = between ++ later :: rest →
      second (lastNamespace home (before ++ op :: between)) later

/-- The value was stored in the place, and what came after that left the place alone. -/
def LastStored (home : String) (ops : List Operation) (p : String × String) (x : Value) : Prop :=
  Since home (fun current op => op.Stores current p x) (fun current op => op.Spares current p) ops

/-- Something was stored in the place, and what came after that did not purge the place. -/
def Unpurged (home : String) (ops : List Operation) (p : String × String) : Prop :=
  Since home (fun current op => ∃ x, op.Stores current p x) (fun current op => ¬ op.Purges current p)
    ops

variable {op : Operation} {ops : List Operation}

lemma since_concat {first second : String → Operation → Prop} :
    Since home first second (ops ++ [op]) ↔
      first (lastNamespace home ops) op ∨
        second (lastNamespace home ops) op ∧ Since home first second ops := by
  constructor
  · rintro ⟨before, op', after, hops, hfirst, hsecond⟩
    rcases concat_eq_append_cons_iff.mp hops with ⟨rfl, rfl, -⟩ | ⟨mid, rfl, rfl⟩
    · exact .inl hfirst
    · refine .inr ⟨hsecond mid op [] rfl, before, op', mid, rfl, hfirst, ?_⟩
      rintro between later rest rfl
      exact hsecond between later (rest ++ [op]) (by simp)
  · rintro (hfirst | ⟨hsecond, before, op', after, rfl, hfirst, hafter⟩)
    · exact ⟨ops, op, [], rfl, hfirst, by simp⟩
    · refine ⟨before, op', after ++ [op], by simp, hfirst, fun between later rest hrest => ?_⟩
      rcases concat_eq_append_cons_iff.mp hrest with ⟨rfl, rfl, -⟩ | ⟨mid, hmid, -⟩
      · exact hsecond
      · exact hafter between later mid hmid

lemma not_since_nil {first second : String → Operation → Prop} : ¬ Since home first second [] := by
  rintro ⟨before, op, after, hops, -⟩
  simp at hops

/-! ### One operation -/

lemma binding?_set (m v : String) (x : Value) (s : Scope) (p : String × String) :
    (s.set m v x).binding? p = if p = (m, v) then some x else s.binding? p := by
  obtain ⟨m', v'⟩ := p
  simp only [binding?, set, Table.find?_insert, Prod.mk.injEq]
  by_cases hm : m' = m
  · subst hm
    cases s.modules.find? m' <;> simp [Table.find?_insert]
  · simp [hm]

lemma binding?_create (name : String) (s : Scope) : (s.create name).binding? p = s.binding? p := by
  unfold create
  split
  · rfl
  · next hnot =>
    simp only [binding?, Table.find?_insert]
    split
    · next hp =>
      have hnone : s.modules.find? name = none := by simpa [Table.contains] using hnot
      simp [hp, hnone]
    · rfl

lemma binding?_switch (name : String) (s : Scope) : (s.switch name).2.binding? p = s.binding? p := by
  unfold switch
  split
  · rfl
  · exact binding?_create name s

lemma purge_eq_ok {s' : Scope} (h : s.purge name = .ok (x, s')) :
    s.binding? (s.resolve name) = some x ∧
      ∀ p, s'.binding? p = if p = s.resolve name then none else s.binding? p := by
  unfold purge at h
  simp only at h
  split at h <;> cases h
  next vars hfound =>
  obtain ⟨vars', hvars, hx⟩ := Option.bind_eq_some_iff.mp hfound
  obtain ⟨x', hx, heq⟩ := Option.map_eq_some_iff.mp hx
  cases heq
  refine ⟨by simp [binding?, hvars, hx], fun p => ?_⟩
  simp only [binding?, Table.find?_insert, Prod.ext_iff]
  by_cases hm : p.1 = (s.resolve name).1
  · simp [hm, hvars, Table.find?_erase]
  · simp [hm]

lemma purge_eq_error {e : Error} (h : s.purge name = .error e) :
    s.binding? (s.resolve name) = none := by
  unfold purge at h
  simp only at h
  split at h
  · next hnone => simpa [binding?, Option.bind_eq_none_iff] using hnone
  · cases h

namespace Operation

lemma current_perform (op : Operation) (s : Scope) :
    (op.perform s).2.current = op.switched?.getD s.current := by
  cases op with
  | purge name =>
    simp only [perform]
    split
    · next hp => exact current_of_purge hp
    · rfl
  | switch name => exact current_switch
  | create name =>
    simp only [perform, Scope.create]
    split <;> rfl
  | _ => rfl

/-- An operation that fails changes nothing. -/
lemma perform_error {e : Error} (h : (op.perform s).1 = .error e) : (op.perform s).2 = s := by
  cases op with
  | fetch name => rfl
  | purge name =>
    simp only [perform] at h ⊢
    split at h
    · cases h
    · rfl
  | _ => cases h

lemma binding?_of_stores (h : op.Stores s.current p x) : (op.perform s).2.binding? p = some x := by
  cases h with
  | store hmeans =>
    obtain rfl := means_iff.mp hmeans
    exact (binding?_set _ _ _ _ _).trans (if_pos rfl)
  | set => exact (binding?_set _ _ _ _ _).trans (if_pos rfl)

lemma binding?_of_purges (h : op.Purges s.current p) : (op.perform s).2.binding? p = none := by
  obtain ⟨hmeans⟩ := h
  obtain rfl := means_iff.mp hmeans
  simp only [perform]
  split
  · next hp => rw [(purge_eq_ok hp).2, if_pos rfl]
  · next hp => exact purge_eq_error hp

lemma binding?_of_spares (h : op.Spares s.current p) :
    (op.perform s).2.binding? p = s.binding? p := by
  obtain ⟨hstores, hpurges⟩ := h
  cases op with
  | store name x =>
    refine (binding?_set _ _ _ _ _).trans (if_neg ?_)
    rintro rfl
    exact hstores x (.store (means_resolve name s))
  | set m v x =>
    refine (binding?_set _ _ _ _ _).trans (if_neg ?_)
    rintro rfl
    exact hstores x .set
  | purge name =>
    simp only [perform]
    split
    · next hp =>
      refine ((purge_eq_ok hp).2 p).trans (if_neg ?_)
      rintro rfl
      exact hpurges (.purge (means_resolve name s))
    · rfl
  | fetch name => rfl
  | switch name => exact binding?_switch name s
  | create name => exact binding?_create name s

/-- What is asked of one place leaves every other alone. -/
lemma spares_of_ne {q : String × String} (hop : (∃ x, op.Stores current p x) ∨ op.Purges current p)
    (hq : q ≠ p) : op.Spares current q := by
  refine ⟨fun y hy => ?_, fun hpurges => ?_⟩
  · rcases hop with ⟨x, hx⟩ | hpurge
    · cases hx with
      | store hmeans =>
        cases hy with
        | store hmeans' => exact hq (hmeans'.unique hmeans)
      | set =>
        cases hy
        exact hq rfl
    · cases hpurge
      cases hy
  · rcases hop with ⟨x, hx⟩ | hpurge
    · cases hpurges
      cases hx
    · obtain ⟨hmeans⟩ := hpurge
      obtain ⟨hmeans'⟩ := hpurges
      exact hq (hmeans'.unique hmeans)

lemma spares_or (op : Operation) (current : String) (p : String × String) :
    (∃ x, op.Stores current p x) ∨ op.Purges current p ∨ op.Spares current p := by
  by_cases hstores : ∃ x, op.Stores current p x
  · exact .inl hstores
  · by_cases hpurges : op.Purges current p
    · exact .inr (.inl hpurges)
    · exact .inr (.inr ⟨not_exists.mp hstores, hpurges⟩)

end Operation

lemma Has.perform (h : s.Has m) (op : Operation) : (op.perform s).2.Has m := by
  cases op with
  | store name x => exact has_set.mpr (.inr h)
  | set m v x => exact has_set.mpr (.inr h)
  | switch name => exact h.switch
  | create name => exact has_create.mpr (.inr h)
  | fetch name => exact h
  | purge name =>
    simp only [Operation.perform]
    split
    · next hp => exact (has_purge hp).mpr h
    · exact h

/-! ### Histories -/

lemma run_concat : run home (ops ++ [op]) = (op.perform (run home ops)).2 := by
  simp [run]

lemma lastNamespace_concat :
    lastNamespace home (ops ++ [op]) = op.switched?.getD (lastNamespace home ops) := by
  unfold lastNamespace
  cases hop : op.switched? <;> simp [hop]

lemma current_run : (run home ops).current = lastNamespace home ops := by
  induction ops using List.reverseRecOn with
  | nil => rfl
  | append_singleton ops op ih =>
    rw [run_concat, op.current_perform, ih, lastNamespace_concat]

lemma Has.run {more : List Operation} (h : (run home ops).Has m) : (run home (ops ++ more)).Has m := by
  induction more using List.reverseRecOn with
  | nil => rwa [List.append_nil]
  | append_singleton more op ih =>
    rw [← List.append_assoc, run_concat]
    exact ih.perform op

lemma binding?_initial (home : String) (p : String × String) : (initial home).binding? p = none := by
  simp only [initial, binding?, Table.find?_insert]
  split <;> rfl

/-- **A place has in it what was stored there last.** -/
theorem binding?_run : (run home ops).binding? p = some x ↔ LastStored home ops p x := by
  induction ops using List.reverseRecOn generalizing x with
  | nil => exact iff_of_false (by simp [run, binding?_initial]) not_since_nil
  | append_singleton ops op ih =>
    rw [run_concat, LastStored, since_concat, ← current_run]
    rcases op.spares_or (run home ops).current p with ⟨y, hy⟩ | hpurges | hspares
    · rw [Operation.binding?_of_stores hy]
      refine ⟨fun h => .inl (Option.some.inj h ▸ hy), fun h => ?_⟩
      rcases h with hx | ⟨hspares, -⟩
      · rw [← Operation.binding?_of_stores hy, Operation.binding?_of_stores hx]
      · exact (hspares.1 y hy).elim
    · rw [Operation.binding?_of_purges hpurges]
      refine ⟨nofun, fun h => ?_⟩
      rcases h with hx | ⟨hspares, -⟩
      · rw [← Operation.binding?_of_purges hpurges, Operation.binding?_of_stores hx]
      · exact (hspares.2 hpurges).elim
    · rw [Operation.binding?_of_spares hspares, ih]
      exact ⟨fun h => .inr ⟨hspares, h⟩, fun h => h.elim (fun hx => (hspares.1 x hx).elim) (·.2)⟩

/-- There is such a value when what was stored in the place is not purged. -/
lemma exists_lastStored : (∃ x, LastStored home ops p x) ↔ Unpurged home ops p := by
  induction ops using List.reverseRecOn with
  | nil => exact iff_of_false (fun ⟨_, h⟩ => not_since_nil h) not_since_nil
  | append_singleton ops op ih =>
    simp only [LastStored, Unpurged, since_concat] at ih ⊢
    rw [exists_or, ← ih, exists_and_left]
    by_cases hstores : ∃ x, op.Stores (lastNamespace home ops) p x
    · exact iff_of_true (.inl hstores) (.inl hstores)
    · have hspares : op.Spares (lastNamespace home ops) p ↔ ¬ op.Purges (lastNamespace home ops) p :=
        and_iff_right (not_exists.mp hstores)
      rw [hspares]

lemma fetch_run {name : String} :
    (run home ops).fetch name = .ok x ↔
      ∃ p, Means (lastNamespace home ops) name p ∧ LastStored home ops p x := by
  simp only [fetch_eq_ok_iff, binding?_run, ← current_run, means_iff, exists_eq_left']

lemma Operation.perform_purge_eq_ok {name : String} :
    ((Operation.purge name).perform s).1 = .ok (.value x) ↔ s.fetch name = .ok x := by
  rw [fetch_eq_ok_iff]
  simp only [perform]
  split
  · next hp => simp [(purge_eq_ok hp).1]
  · next hp => simp [purge_eq_error hp]

/-- **Variables are one map.** Whatever has been asked of them, a name is recalled and purged just when
something was stored in the place it means now and has not been purged since, and its value is then the
last that was stored there. What is asked of one place leaves every other alone, a failure changes
nothing, going to another namespace answers the one left and leaves every place alone, and modules
stay. -/
theorem variables_are_one_map (home : String) (ops : List Operation) :
    (∀ name, (∃ x, (run home ops).fetch name = .ok x) ↔
      ∃ p, Means (lastNamespace home ops) name p ∧ Unpurged home ops p) ∧
    (∀ name x, (run home ops).fetch name = .ok x ↔
      ∃ p, Means (lastNamespace home ops) name p ∧ LastStored home ops p x) ∧
    (∀ name x, ((Operation.purge name).perform (run home ops)).1 = .ok (.value x) ↔
      ∃ p, Means (lastNamespace home ops) name p ∧ LastStored home ops p x) ∧
    (∀ m v x, (run home ops).get m v = .ok x ↔ LastStored home ops (m, v) x) ∧
    (∀ (op : Operation) p q,
      (∃ x, op.Stores (lastNamespace home ops) p x) ∨ op.Purges (lastNamespace home ops) p → q ≠ p →
        (op.perform (run home ops)).2.binding? q = (run home ops).binding? q) ∧
    (∀ (op : Operation) e, (op.perform (run home ops)).1 = .error e →
      (op.perform (run home ops)).2 = run home ops) ∧
    (∀ name, ((Operation.switch name).perform (run home ops)).1 =
        .ok (.home (lastNamespace home ops)) ∧
      ∀ p, ((run home ops).switch name).2.binding? p = (run home ops).binding? p) ∧
    ∀ more m, (run home ops).Has m → (run home (ops ++ more)).Has m := by
  refine ⟨fun name => ?_, fun name x => fetch_run,
    fun name x => Operation.perform_purge_eq_ok.trans fetch_run,
    fun m v x => get_eq_ok_iff.trans binding?_run, fun op p q hop hq => ?_,
    fun op e => Operation.perform_error, fun name => ⟨?_, fun p => binding?_switch name _⟩,
    fun more m => Has.run⟩
  · simp only [fetch_run, ← exists_lastStored]
    exact ⟨fun ⟨x, p, hmeans, hx⟩ => ⟨p, hmeans, x, hx⟩, fun ⟨p, hmeans, x, hx⟩ => ⟨x, p, hmeans, hx⟩⟩
  · exact Operation.binding?_of_spares (current_run ▸ Operation.spares_of_ne hop hq)
  · simp only [Operation.perform, saved_switch, current_run]

/-- In its own module a variable goes by the second part of its name. -/
example (x : Value) : (run "a" [.store "m.n.v" x, .switch "m.n"]).fetch "v" = .ok x := by
  cbv

end Scope

end ReversePolish
