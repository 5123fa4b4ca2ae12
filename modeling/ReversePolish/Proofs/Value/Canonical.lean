import ReversePolish.Proofs.Value.Answers

/-!
Equality and the written form agree.

Values that are the same are written alike, to any depth and under any limits, since both only look
at what the values show and at what they are made of. The other way round, what is written within the
limit is read back, so that it tells the tree of the value, and values of one tree are equal when
nothing in them lies at the limit.
-/

namespace ReversePolish

open Comparison Verdict

namespace Registry

/-- A registry can have any names that it accepts. -/
lemma exists_allKnown {names : List String} (hnames : ∀ name ∈ names, accepts name = true) :
    ∃ reg : Registry, reg.WellNamed ∧ AllKnown reg names := by
  induction names with
  | nil => exact ⟨∅, wellNamed_empty, fun _ hname => (List.not_mem_nil hname).elim⟩
  | cons name names ih =>
    obtain ⟨hname, hnames⟩ := List.forall_mem_cons.mp hnames
    obtain ⟨reg, hreg, hknown⟩ := ih hnames
    let c : Command := ⟨name, "", "", .idle⟩
    refine ⟨reg.insert c.name c, hreg.insert hname, fun other hother => ?_⟩
    by_cases hsame : other = name
    · subst hsame
      simp [c]
    · rw [Table.find?_insert_of_ne (Ne.symm hsame)]
      exact hknown other ((List.mem_cons.mp hother).resolve_left hsame)

end Registry

namespace Heap

variable {h : Heap} {v w : Value} {n depth : Nat} {c : Comparison} {u u' : Shape}
  {limits : Display}

/-! ### Writing -/

lemma elide_eq {α : Type} {f : α → List String} {limit : Option Nat} {xs ys : List α}
    (hmap : xs.map f = ys.map f) : elide limit f xs = elide limit f ys := by
  have htexts (xs : List α) : elide limit f xs = elide limit id (xs.map f) := by
    cases limit <;> simp [elide, List.flatMap_def, List.map_take, ← List.map_drop]
  rw [htexts xs, htexts ys, hmap]

/-- Entries with the same keys are written alike if what the keys are bound to is. -/
lemma map_entries_eq {f : Value → List String} {es fs : List (Key × Value)}
    (hkeys : es.map Prod.fst = fs.map Prod.fst)
    (hvalues : (es.map Prod.snd).map f = (fs.map Prod.snd).map f) :
    (es.map fun e => e.1.text :: f e.2) = fs.map fun e => e.1.text :: f e.2 := by
  have hrows (es : List (Key × Value)) : (es.map fun e => e.1.text :: f e.2) =
      List.zipWith (fun k ls => k.text :: ls) (es.map Prod.fst) ((es.map Prod.snd).map f) := by
    simp [List.zipWith_map, List.zipWith_self]
  rw [hrows es, hrows fs, hkeys, hvalues]

/-- A value is written as what it is made of is written, under what it shows. -/
lemma lexemes_succ_eq (hhead : h.head v = h.head w)
    (hinside : (h.inside v).map (h.lexemes limits n) = (h.inside w).map (h.lexemes limits n)) :
    h.lexemes limits (n + 1) v = h.lexemes limits (n + 1) w := by
  cases v <;> cases w <;> try (cases hhead; done)
  case list.list a b =>
    have hitems : (h.items a).toList.map (h.lexemes limits n) =
        (h.items b).toList.map (h.lexemes limits n) := by
      simpa [inside, elements, Value.bodyItems] using hinside
    simp only [lexemes, elide_eq hitems]
  case map.map a b =>
    have hentries := map_entries_eq (f := h.lexemes limits n) (Head.map.inj hhead)
      (by simpa [inside, elements, Value.bodyItems] using hinside)
    simp only [lexemes, elide_eq hentries]
  case program.program p q =>
    have hbody : p.body.map (h.lexemes limits n) = q.body.map (h.lexemes limits n) := hinside
    simp only [lexemes, elide_eq hbody]
  case each.each body body' =>
    have hbody : body.map (h.lexemes limits n) = body'.map (h.lexemes limits n) := hinside
    simp only [lexemes, elide_eq hbody]
  case loop.loop cond body cond' body' =>
    obtain ⟨hcond, hbody⟩ := Head.loop.inj hhead
    have hrows : cond.map (h.lexemes limits n) ++ body.map (h.lexemes limits n) =
        cond'.map (h.lexemes limits n) ++ body'.map (h.lexemes limits n) := by
      simpa [inside, elements, Value.bodyItems] using hinside
    obtain ⟨hcond, hbody⟩ := List.append_inj hrows (by simpa using hcond)
    simp only [lexemes, elide_eq hcond, elide_eq hbody]
  case branch.branch cond thn els cond' thn' els' =>
    obtain ⟨hcond, hthn, hels⟩ := Head.branch.inj hhead
    have hrows : cond.map (h.lexemes limits n) ++
          (thn.map (h.lexemes limits n) ++ els.map (h.lexemes limits n)) =
        cond'.map (h.lexemes limits n) ++
          (thn'.map (h.lexemes limits n) ++ els'.map (h.lexemes limits n)) := by
      simpa [inside, elements, Value.bodyItems] using hinside
    obtain ⟨hcond, hrows⟩ := List.append_inj hrows (by simpa using hcond)
    obtain ⟨hthn, hrow⟩ := List.append_inj hrows (by simpa using hthn)
    have hempty : els.isEmpty = els'.isEmpty := by
      rw [Bool.eq_iff_iff, List.isEmpty_iff_length_eq_zero, List.isEmpty_iff_length_eq_zero, hels]
    simp only [lexemes, elide_eq hcond, elide_eq hthn, elide_eq hrow, hempty]
  case command.command c help c' help' =>
    obtain ⟨hname, rfl⟩ := Head.command.inj hhead
    simp only [lexemes, hname]
  all_goals
    cases hhead
    rfl

/-- **Values that are the same are written alike**, whatever is elided. -/
theorem Same.lexemes_eq (hvw : h.Same depth v w) (n : Nat) :
    h.lexemes limits n v = h.lexemes limits n w := by
  induction hvw generalizing n with
  | shared => rfl
  | made _ hhead _ ih =>
    cases n with
    | zero => rfl
    | succ n =>
      exact lexemes_succ_eq hhead <|
        map_eq_of_zip (length_inside_of_head hhead) fun e he => ih e he n

/-! ### Reading back -/

/-- **What is written tells the tree of a value**, if the value lies within the limit. -/
theorem shape_of_render (hv : h.shape? renderDepth v = some u)
    (hw : h.shape? renderDepth w = some u')
    (hnames : ∀ name ∈ h.commandNames renderDepth v, Registry.accepts name = true)
    (hnames' : ∀ name ∈ h.commandNames renderDepth w, Registry.accepts name = true)
    (htext : h.render v = h.render w) : u = u' := by
  obtain ⟨reg, hreg, hknown⟩ :=
    Registry.exists_allKnown (List.forall_mem_append.mpr ⟨hnames, hnames'⟩)
  obtain ⟨hknown, hknown'⟩ := allKnown_append.mp hknown
  let s : Setting Command := ⟨reg.find?, "", Loader.disabled default, ({} : Limits).forms⟩
  have hden : Denotes s s.maxDepth _ u := denotes_lexemes rfl hreg hv hknown
  have hden' : Denotes s s.maxDepth _ u' := denotes_lexemes rfl hreg hw hknown'
  obtain ⟨d, hread, hst⟩ := hden.readAll
  obtain ⟨d', hread', hst'⟩ := hden'.readAll
  have hboth : (Reader.ofText (h.render w)).readAll s = .ok [d] := htext ▸ hread
  obtain rfl : d = d' := by simpa using Except.ok.inj (hboth.symm.trans hread')
  have hu := (hst none .empty).2 _ (.refl _)
  have hu' := (hst' none .empty).2 _ (.refl _)
  exact Option.some.inj (hu.symm.trans hu')

/-! ### Within the limit -/

/-- What lies within the limit does not come to it in a comparison. -/
lemma not_reachesLimit_of_shape? (hn : c.depth + n ≤ compareDepth)
    (hleft : h.shape? n c.left = some u) : ¬ h.ReachesLimit c := by
  rintro ⟨d, hcd, hlimit⟩
  have hwithin : ∃ m u, d.depth + m ≤ compareDepth ∧ h.shape? m d.left = some u := by
    clear hlimit
    induction hcd with
    | refl => exact ⟨n, u, hn, hleft⟩
    | @tail a b _ hask ih =>
      obtain ⟨m, u, hm, hu⟩ := ih
      cases m with
      | zero => cases hu
      | succ m =>
        obtain ⟨u', hu'⟩ := part_of_shape? hu hask.holds.1
        refine ⟨m, u', ?_, hu'⟩
        by_cases hcells : a.OfCells
        · have hdepth := (of_mem_parts_of_cells hcells hask.mem_parts).1
          omega
        · have hdepth := (of_mem_parts_of_not_cells hcells hask.mem_parts).1
          omega
  obtain ⟨m, u, hm, hu⟩ := hwithin
  cases m with
  | zero => cases hu
  | succ m => omega

/-- **Two values are equal exactly when they are written alike**, if nothing in them lies at the
limit and their commands have names that a registry accepts. -/
theorem looselyEqual_iff_render (hv : h.shape? renderDepth v = some u)
    (hw : h.shape? renderDepth w = some u')
    (hnames : ∀ name ∈ h.commandNames renderDepth v, Registry.accepts name = true)
    (hnames' : ∀ name ∈ h.commandNames renderDepth w, Registry.accepts name = true) :
    (h.looselyEqual v w = same ∨ h.looselyEqual v w = different) ∧
      (h.looselyEqual v w = same ↔ h.render v = h.render w) := by
  have hacyclic : h.Acyclic v := exists_shape?_iff_acyclic.mp ⟨renderDepth, u, hv⟩
  refine ⟨looselyEqual_answers hacyclic.not_holdsKnot w, ?_⟩
  rw [looselyEqual_eq_same_iff]
  constructor
  · intro hvw
    rw [render, render, renderWith, renderWith, hvw.lexemes_eq]
  · intro htext
    obtain rfl := shape_of_render hv hw hnames hnames' htext
    have hlimit : ¬ h.ReachesLimit ⟨0, v, w⟩ :=
      not_reachesLimit_of_shape? (Nat.le_of_eq (Nat.zero_add _)) hv
    have hsame : h.verdict ⟨0, v, w⟩ = same := verdict_of_identical hv hw hlimit
    exact verdict_eq_same_iff.mp hsame

/-- Two lists of their own, each with the help on a word in it, are written alike. -/
theorem looselyEqual_of_two_lists :
    let help := Value.command (.ofWord .dup) true
    let h : Heap := ⟨#[#[help], #[help]], #[], #[]⟩
    h.shape? renderDepth (.list 0) = some (.list [.command "DUP" true]) ∧
      h.commandNames renderDepth (.list 0) = ["DUP"] ∧ Registry.accepts "DUP" = true ∧
      h.render (.list 0) = h.render (.list 1) ∧ h.looselyEqual (.list 0) (.list 1) = same := by
  intro help h
  have hv : h.shape? renderDepth (.list 0) = some (.list [.command "DUP" true]) := rfl
  have hw : h.shape? renderDepth (.list 1) = some (.list [.command "DUP" true]) := rfl
  have haccepts : Registry.accepts "DUP" = true := by decide
  have hnames : ∀ name ∈ ["DUP"], Registry.accepts name = true := by simpa using haccepts
  have htext : h.render (.list 0) = h.render (.list 1) := rfl
  exact ⟨hv, rfl, haccepts, htext, (looselyEqual_iff_render hv hw hnames hnames).2.mpr htext⟩

end Heap

end ReversePolish
