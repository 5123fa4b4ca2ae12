import ReversePolish.Proofs.Reader.Continuation
import ReversePolish.Proofs.Session.Feeding

/-!
What the answer to a line tells about the session.

The text that waits for more lines is the root text from where the open form began to be read. A
form that began in an imported text, behind the end of the line, is therefore not kept.
-/

namespace ReversePolish

namespace Reader

variable {κ : Type} {s : Setting κ} {r r' : Reader}

/-- Imported texts that are used up do not matter. -/
lemma readInside_gaps (forms : List (OpenForm κ)) (root : Cursor) (imports : List Cursor)
    (few : imports.length < maxSources) (unit : Cursor)
    (h : ∀ c ∈ imports, c.skipTrivia.after = []) :
    readInside s forms ⟨root, imports, few, unit⟩ =
      readInside s forms ⟨root, [], by decide, unit⟩ := by
  induction imports with
  | nil => rfl
  | cons c cs ih =>
    have hgap := h c List.mem_cons_self
    have hscan : (Reader.mk root (c :: cs) few unit).place.scan = .finished c.skipTrivia := by
      exact Cursor.scanToken_nil hgap
    obtain ⟨few', hadv⟩ := advance_of_finished_import s.load hscan rfl
    rw [readInside_moved hadv]
    exact ih few' fun d hd => h d (List.mem_cons_of_mem c hd)

/-- The next value begins in the root text, no imported text having anything left. -/
def AtRoot (r : Reader) : Prop := ∀ c ∈ r.imports, c.skipTrivia.after = []

lemma next_of_atRoot (h : r.AtRoot) :
    r.next s = (Reader.mk r.root [] (by decide) r.unit).next s :=
  readInside_gaps [] r.root.skipTrivia r.imports r.few r.root.skipTrivia h

/-- What begins in the root text is read again off what is left of the root text. -/
lemma next_again (h : r.AtRoot) :
    Follows [] (r.next s) ((Reader.ofText r.root.skipTrivia.rest).next s) := by
  rw [next_of_atRoot h]
  refine next_congr ⟨rfl, ?_, .nil, fun hw => (hw rfl).elim⟩
  have hagain : (Cursor.start r.root.skipTrivia.rest).skipTrivia.after =
      r.root.skipTrivia.skipTrivia.after := by
    refine Cursor.after_skipTrivia_congr ?_
    simp [Cursor.start, Cursor.rest]
  simpa [startUnit, ofText] using hagain

/-- Where reading a value fails that begins in the root text, something is left of that. -/
lemma left_of_next_failed {e : Error} (h : r.AtRoot) (hnext : r.next s = .failed e r') :
    r.root.skipTrivia.after ≠ [] := by
  intro hgap
  obtain ⟨r₁, hended⟩ := next_of_gap (s := s) (r := ⟨r.root, [], by decide, r.unit⟩) rfl hgap
  rw [next_of_atRoot h, hended] at hnext
  cases hnext

end Reader

namespace Session

/-- Feeding comes to this place with this machine, where a form begins that stays open. -/
inductive OpensAt (fuel : Nat) : Reader → Machine → Reader → Machine → Prop where
  | here {r r' : Reader} {m : Machine} {e : Error} :
      m.stopped = false → r.next m.setting = .failed e r' → e.isIncomplete = true →
        OpensAt fuel r m r m
  | later {r r' r₁ : Reader} {m m₁ : Machine} {d : Datum Command} {p : Execution} :
      m.stopped = false → r.next m.setting = .value d r' →
        (Execution.ofDatum d m [.report]).run fuel = some p →
        OpensAt fuel r' p.machine r₁ m₁ → OpensAt fuel r m r₁ m₁

variable {fuel : Nat} {r r₁ : Reader} {m m₁ : Machine} {hs : List Mishap} {said : Feed}
  {line : String} {s s' : Session}

/-- Then the session asks for more, and keeps the root text from that place on. -/
lemma OpensAt.feedFrom_eq (h : OpensAt fuel r m r₁ m₁) :
    feedFrom fuel r m = some (.needsMore, ⟨m₁, r₁.root.skipTrivia.rest⟩) := by
  induction h with
  | here hm hnext he =>
    rw [feedFrom_failed hm hnext, if_pos he, Reader.unitText_of_failed hnext]
  | later hm hnext hp _ ih => rw [feedFrom_value hm hnext hp, ih]

lemma Feeds.opensAt (h : Feeds fuel r m hs said s) (hsaid : said = .needsMore) :
    ∃ r₁ m₁, OpensAt fuel r m r₁ m₁ := by
  induction h with
  | value hm hnext hp _ ih =>
    obtain ⟨r₁, m₁, h₁⟩ := ih hsaid
    exact ⟨r₁, m₁, .later hm hnext hp h₁⟩
  | opened hm hnext he => exact ⟨_, _, .here hm hnext he⟩
  | _ => cases hsaid

/-- Without being asked to, the session waits for nothing. -/
lemma Feeds.not_isPending (h : Feeds fuel r m hs said s) (hsaid : said ≠ .needsMore) :
    s.isPending = false := by
  induction h with
  | value _ _ _ _ ih => exact ih hsaid
  | opened => exact (hsaid rfl).elim
  | _ => rfl

lemma OpensAt.next_failed (h : OpensAt fuel r m r₁ m₁) :
    ∃ e r₂, r₁.next m₁.setting = .failed e r₂ ∧ e.isIncomplete = true := by
  induction h with
  | here _ hnext he => exact ⟨_, _, hnext, he⟩
  | later _ _ _ _ ih => exact ih

lemma Feeds.eq_of_opensAt (h : Feeds fuel r m hs said s) (h₁ : OpensAt fuel r m r₁ m₁) :
    said = .needsMore ∧ s = ⟨m₁, r₁.root.skipTrivia.rest⟩ := by
  have := h₁.feedFrom_eq
  rw [h.feedFrom_eq] at this
  simpa using this

/-- What is asked for waits, unless nothing is left of the root text where the open form begins. -/
lemma Feeds.needsMore_iff (h : Feeds fuel r m hs said s) :
    (said = .needsMore ↔ s.isPending = true) ↔
      ∀ r₁ m₁, OpensAt fuel r m r₁ m₁ → r₁.root.skipTrivia.after ≠ [] := by
  constructor
  · intro hiff r₁ m₁ h₁
    obtain ⟨hsaid, rfl⟩ := h.eq_of_opensAt h₁
    exact isPending_rest.mp (hiff.mp hsaid)
  · refine fun hall => ⟨fun hsaid => ?_, fun hpending => ?_⟩
    · obtain ⟨r₁, m₁, h₁⟩ := h.opensAt hsaid
      obtain ⟨-, rfl⟩ := h.eq_of_opensAt h₁
      exact isPending_rest.mpr (hall r₁ m₁ h₁)
    · by_contra hsaid
      simp [h.not_isPending hsaid] at hpending

/-- An open form that begins in the root text is read again off what is left of that. -/
lemma OpensAt.next_again (h : OpensAt fuel r m r₁ m₁) (hroot : r₁.AtRoot) :
    ∃ e r₂, (Reader.ofText r₁.root.skipTrivia.rest).next m₁.setting = .failed e r₂ ∧
      e.isIncomplete = true := by
  obtain ⟨e, r₂, hnext, he⟩ := h.next_failed
  have hagain := Reader.next_again (s := m₁.setting) hroot
  rw [hnext] at hagain
  generalize (Reader.ofText r₁.root.skipTrivia.rest).next m₁.setting = x at hagain
  cases hagain with
  | failed he' => simp [he] at he'
  | opened _ _ he' => exact ⟨_, _, rfl, he'⟩
  | openGoesOn hw => exact (hw rfl).elim

/-- **What the answer to a line tells.** The session is over exactly if it says so. What waits for
more lines is asked for. The converse holds exactly if every form that stays open is read from
where something is left of the line. If it begins in the line, and not in a text that the line
imports, then it is kept: it is read again off the text that waits. -/
theorem feed_answer (hfeed : s.feed fuel line = some (said, s')) :
    (said = .exit ↔ s'.machine.exiting = true) ∧
    (s'.isPending = true → said = .needsMore) ∧
    ((said = .needsMore ↔ s'.isPending = true) ↔
      ∀ r m, OpensAt fuel (.ofText (s.continued line)) s.cleared r m →
        r.root.skipTrivia.after ≠ []) ∧
    ∀ r m, OpensAt fuel (.ofText (s.continued line)) s.cleared r m → r.AtRoot →
      said = .needsMore ∧ s'.isPending = true ∧ s'.pending = r.root.skipTrivia.rest ∧
        ∃ e r', (Reader.ofText s'.pending).next s'.machine.setting = .failed e r' ∧
          e.isIncomplete = true := by
  have hfeeds : Feeds fuel (.ofText (s.continued line)) s.cleared _ said s' :=
    feeds_of_feedFrom hfeed
  refine ⟨hfeeds.exit_iff.1, fun hpending => ?_, hfeeds.needsMore_iff, fun r m h hroot => ?_⟩
  · by_contra hsaid
    simp [hfeeds.not_isPending hsaid] at hpending
  · obtain ⟨e, r', hnext, -⟩ := h.next_failed
    obtain ⟨hsaid, rfl⟩ := hfeeds.eq_of_opensAt h
    have hleft := Reader.left_of_next_failed hroot hnext
    exact ⟨hsaid, isPending_rest.mpr hleft, rfl, h.next_again hroot⟩

/-- A list that the line leaves open waits for more lines. -/
theorem feed_open_list :
    let s := start (.initial "main" ∅ Loader.disabled default .empty {} {})
    ∃ s', s.feed 5 "[" = some (.needsMore, s') ∧ s'.machine.exiting = false ∧
      s'.isPending = true ∧ s'.pending = "[" := by
  intro s
  let r₁ : Reader := ⟨⟨['['], []⟩, [], by decide, .start "["⟩
  have hlist : (Reader.ofText "[").startUnit.advance s.cleared.setting.load =
      .token (.opener .list) (.start "[") r₁ := rfl
  have hend : r₁.advance s.cleared.setting.load = .ended r₁ := rfl
  let o : OpenForm Command := ⟨.list, some (.start "["), [], []⟩
  have hfail : (Reader.ofText "[").next s.cleared.setting = .failed o.unterminated r₁ := by
    rw [Reader.next, Reader.readInside_token hlist]
    show Reader.readInside s.cleared.setting [o] r₁ = _
    rw [Reader.readInside_ended hend]
  have hopens : OpensAt 5 (.ofText "[") s.cleared (.ofText "[") s.cleared := .here rfl hfail rfl
  have hfeed : s.feed 5 "[" = some (.needsMore, ⟨s.cleared, "["⟩) := hopens.feedFrom_eq
  obtain ⟨hexit, -, -, hkept⟩ := feed_answer hfeed
  obtain ⟨-, hpending, htext, -⟩ := hkept _ _ hopens fun c hc => (List.not_mem_nil hc).elim
  exact ⟨_, hfeed, by simpa using hexit, hpending, htext⟩

/-- A list that an imported text leaves open behind the end of the line. The session asks for more,
and waits for nothing. -/
theorem feed_import_of_open_list :
    let s := start (.initial "interactive" ∅ (fun _ _ => .ok "1 [ 2") default .empty {} {})
    ∃ s', s.feed 5 "import m" = some (.needsMore, s') ∧ s'.isPending = false := by
  intro s
  let root : Cursor := ⟨"import m".toList.reverse, []⟩
  let r₁ : Reader := ⟨root, [.start "1 [ 2"], by decide, .start "import m"⟩
  let r₂ : Reader := ⟨root, [⟨['1'], " [ 2".toList⟩], by decide, .start "import m"⟩
  let m : Machine := { s.cleared with stack := [.int 1] }
  have himport : (Reader.ofText "import m").startUnit.advance s.cleared.setting.load =
      .moved r₁ := rfl
  have hone : r₁.advance s.cleared.setting.load = .token (.int 1) (.start "1 [ 2") r₂ := rfl
  have hvalue : (Reader.ofText "import m").next s.cleared.setting = .value (.int 1) r₂ := by
    rw [Reader.next, Reader.readInside_moved himport]
    exact Reader.readInside_token hone
  have hrun : (Execution.ofDatum (.int 1) s.cleared [.report]).run 5 = some ⟨m, [], none⟩ := rfl
  -- From here on nothing is left of the line, and the list is read from the import.
  let r₃ : Reader := ⟨root, [⟨['[', ' ', '1'], " 2".toList⟩], by decide, root⟩
  let r₄ : Reader := ⟨root, [⟨['2', ' ', '[', ' ', '1'], []⟩], by decide, root⟩
  let r₅ : Reader := ⟨root, [], by decide, root⟩
  have hlist : r₂.startUnit.advance m.setting.load =
      .token (.opener .list) ⟨[' ', '1'], "[ 2".toList⟩ r₃ := rfl
  have htwo : r₃.advance m.setting.load = .token (.int 2) ⟨[' ', '[', ' ', '1'], ['2']⟩ r₄ := rfl
  have hback : r₄.advance m.setting.load = .moved r₅ := rfl
  have hend : r₅.advance m.setting.load = .ended r₅ := rfl
  let o : OpenForm Command := ⟨.list, none, [], [.int 2]⟩
  have hfail : r₂.next m.setting = .failed o.unterminated r₅ := by
    rw [Reader.next, Reader.readInside_token hlist]
    show Reader.readInside m.setting [⟨.list, none, [], []⟩] r₃ = _
    rw [Reader.readInside_token htwo]
    show Reader.readInside m.setting [o] r₄ = _
    rw [Reader.readInside_moved hback, Reader.readInside_ended hend]
  have hopens : OpensAt 5 (.ofText "import m") s.cleared r₂ m :=
    .later rfl hvalue hrun (.here rfl hfail rfl)
  exact ⟨⟨m, r₂.root.skipTrivia.rest⟩, hopens.feedFrom_eq, rfl⟩

end Session

end ReversePolish
