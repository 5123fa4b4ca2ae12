import ReversePolish.Proofs.Execution.Below
import ReversePolish.Proofs.Reader.Continuation
import ReversePolish.Proofs.Session.Feeding

/-!
Feeding a text line by line comes to the same as feeding it whole.

A value that is complete before the cut is read and run the same. One that is not is read again
with the line that follows, by the machine that would have read it in the whole text.
-/

namespace ReversePolish

namespace Session

/-- Feeds lines one after the other, whatever is said in between, and gives the last answer. -/
def feedEach (fuel : Nat) (lines : List String) (s : Session) : Option (Feed × Session) :=
  lines.foldlM (fun a line => a.2.feed fuel line) (.ready, s)

/-- Nothing is wrong with the text save that its end is missing. -/
def OnlyOpen (hs : List Mishap) : Prop := ∀ e, .unreadable e ∈ hs → e.isIncomplete = true

/-- All values run without an error. -/
def AllRun (hs : List Mishap) : Prop := ∀ e, .failed e ∉ hs

variable {fuel : Nat} {r r' : Reader} {m : Machine} {hs hs' : List Mishap} {said : Feed}
  {s s' : Session} {ys : List Char}

lemma onlyOpen_append : OnlyOpen (hs ++ hs') ↔ OnlyOpen hs ∧ OnlyOpen hs' := by
  simp only [OnlyOpen, List.mem_append]
  exact ⟨fun h => ⟨fun e he => h e (.inl he), fun e he => h e (.inr he)⟩,
    fun h e he => he.elim (h.1 e) (h.2 e)⟩

lemma onlyOpen_unitMishaps (fuel : Nat) (d : Datum Command) (m : Machine) :
    OnlyOpen (unitMishaps fuel d m) := by
  intro e he
  unfold unitMishaps at he
  split at he <;> simp at he

/-! ### The same text in another place -/

/-- Feeding goes the same for a reader with the same texts before it. -/
lemma Feeds.congr (h : Feeds fuel r m hs said s) (ho : OnlyOpen hs)
    (hr : Continues [] r.startUnit r'.startUnit) :
    ∃ hs', Feeds fuel r' m hs' said s ∧ OnlyOpen hs' := by
  induction h generalizing r' with
  | exit hexit => exact ⟨_, .exit hexit, ho⟩
  | interrupted hexit hint => exact ⟨_, .interrupted hexit hint, ho⟩
  | @value r r₁ m d p hs said s hm hnext hp _ ih =>
    have hfollows := Reader.next_congr (s := m.setting) hr
    rw [hnext] at hfollows
    generalize hnext' : r'.next m.setting = x at hfollows
    cases hfollows with
    | value h₁ =>
      obtain ⟨hs', h', ho'⟩ := ih (onlyOpen_append.mp ho).2 h₁.startUnit
      exact ⟨_, .value hm hnext' hp h',
        onlyOpen_append.mpr ⟨onlyOpen_unitMishaps fuel d m, ho'⟩⟩
  | @ended r r₁ m hm hnext =>
    have hfollows := Reader.next_congr (s := m.setting) hr
    rw [hnext] at hfollows
    generalize hnext' : r'.next m.setting = x at hfollows
    cases hfollows with
    | ended => exact ⟨_, .ended hm hnext', ho⟩
    | endGoesOn hw => exact (hw rfl).elim
  | @opened r r₁ m e hm hnext he =>
    have hfollows := Reader.next_congr (s := m.setting) hr
    rw [hnext] at hfollows
    generalize hnext' : r'.next m.setting = x at hfollows
    cases hfollows with
    | failed he' => simp [he] at he'
    | @opened _ e' _ r₁' _ _ he' =>
      have hunit : r₁'.unitText = r₁.unitText := by
        rw [Reader.unitText_of_failed hnext, Reader.unitText_of_failed hnext']
        exact congrArg String.ofList (by simpa [Reader.startUnit] using hr.root)
      have hopened : Feeds fuel r' m [.unreadable e'] .needsMore ⟨m, r₁.unitText⟩ :=
        hunit ▸ .opened hm hnext' he'
      refine ⟨_, hopened, fun e hmem => ?_⟩
      obtain rfl : e = e' := by simpa using hmem
      exact he'
    | openGoesOn hw => exact (hw rfl).elim
  | @refused r r₁ m e hm hnext he =>
    have := ho e (List.mem_singleton_self _)
    simp [he] at this

/-! ### A cut at a new line -/

/-- From this session on, the rest of the text comes to this. -/
def Resumes (fuel : Nat) (ys : List Char) (s₀ : Session) (said : Feed) (s : Session) : Prop :=
  s₀.machine.stopped = false ∧
    .importing ∉ (Cursor.start (s₀.continued (String.ofList ys))).lex.1 ∧
    ∃ hs, Feeds fuel (.ofText (s₀.continued (String.ofList ys))) s₀.machine hs said s ∧
      OnlyOpen hs

/-- Feeding what comes before a cut stops the session as feeding the whole text does, or leaves a
session that the rest of the text is fed to. -/
def CutsTo (fuel : Nat) (ys : List Char) (r : Reader) (m : Machine) (said : Feed) (s : Session) :
    Prop :=
  ∃ hs₀ said₀ s₀, Feeds fuel r m hs₀ said₀ s₀ ∧
    ((said₀ = said ∧ s₀ = s ∧ s.machine.stopped = true) ∨ Resumes fuel ys s₀ said s)

/-- The rest of the text is fed to a session that stopped to read where this reader is. -/
lemma resumes_of_same {s₀ : Session} (hm : s₀.machine.stopped = false)
    (h : Feeds fuel r' s₀.machine hs said s) (ho : OnlyOpen hs) (hr' : r'.imports = [])
    (hplain : .importing ∉ r'.root.lex.1)
    (hsame : (Cursor.start (s₀.continued (String.ofList ys))).skipTrivia.after =
      r'.root.skipTrivia.after) :
    Resumes fuel ys s₀ said s := by
  refine ⟨hm, fun himp => hplain ?_, ?_⟩
  · exact Cursor.mem_lex_congr hsame.symm himp
  · exact h.congr ho ⟨by simp [Reader.startUnit, Reader.ofText, hr'],
      hsame.trans (List.append_nil _).symm, .nil, fun hw => (hw rfl).elim⟩

lemma continued_rest {c : Cursor} (h : c.after ≠ []) :
    (Session.mk m c.rest).continued (String.ofList ys) = String.ofList (c.after ++ '\n' :: ys) := by
  rw [continued, if_pos (isPending_rest.mpr h)]
  apply String.ext
  simp [Cursor.rest]

/-- The first text comes to its end, or to an open form, before anything more is run. -/
lemma Feeds.cut_here (h : Feeds fuel r' m hs said s) (ho : OnlyOpen hs) (hm : m.stopped = false)
    (hr : r.imports = []) (hr' : r'.imports = [])
    (hroot : r'.root.after = r.root.after ++ '\n' :: ys) (hplain : .importing ∉ r'.root.lex.1)
    (hend : (∃ r₁, r.next m.setting = .ended r₁) ∨
      ∃ e r₁, r.next m.setting = .failed e r₁ ∧ e.isIncomplete = true) :
    CutsTo fuel ys r m said s := by
  have hplain₀ : .importing ∉ r.root.lex.1 := fun himp =>
    hplain ((Cursor.lex_prefix (.line ys) hroot).subset himp)
  rcases hend with ⟨r₁, hnext⟩ | ⟨e, r₁, hnext, he⟩
  · have hgap := Reader.gap_of_next_ended hr hplain₀ hnext
    refine ⟨_, _, _, .ended hm hnext, .inr (resumes_of_same hm h ho hr' hplain ?_)⟩
    have hcont : (start m).continued (String.ofList ys) = String.ofList ys := by
      simp [continued, start, isPending]
    rw [hcont, Cursor.after_skipTrivia_line hroot hgap [], Cursor.start, String.toList_ofList]
  · have hleft : r.root.skipTrivia.after ≠ [] := by
      intro hgap
      obtain ⟨r₂, hended⟩ := Reader.next_of_gap (s := m.setting) hr hgap
      rw [hnext] at hended
      cases hended
    refine ⟨_, _, _, .opened hm hnext he, .inr (resumes_of_same hm h ho hr' hplain ?_)⟩
    rw [Reader.unitText_of_failed hnext, Cursor.after_skipTrivia_append hroot hleft]
    rw [continued_rest hleft, Cursor.start, String.toList_ofList, Cursor.skipTrivia_of_head]
    intro c hc
    obtain ⟨d, cs, hcs⟩ := List.exists_cons_of_ne_nil hleft
    rw [hcs] at hc
    obtain rfl : d = c := by simpa using hc
    exact Cursor.skipTriviaFrom_head hcs

/-- What becomes of the next value when the text is cut at a new line. -/
lemma next_cut (m : Machine) (hr : r.imports = []) (hr' : r'.imports = [])
    (hroot : r'.root.after = r.root.after ++ '\n' :: ys) (hplain : .importing ∉ r'.root.lex.1) :
    ((∃ r₁, r.next m.setting = .ended r₁) ∨
      ∃ e r₁, r.next m.setting = .failed e r₁ ∧ e.isIncomplete = true) ∨
    (∃ d r₁ r₁', r.next m.setting = .value d r₁ ∧ r'.next m.setting = .value d r₁' ∧
      Continues ('\n' :: ys) r₁ r₁') ∨
    ∃ e r₁', r'.next m.setting = .failed e r₁' ∧ e.isIncomplete = false := by
  by_cases hgap : r.root.skipTrivia.after = []
  · exact .inl (.inl (Reader.next_of_gap hr hgap))
  · have hfollows := Reader.next_follows (s := m.setting) hr hr'
      (Cursor.after_skipTrivia_append hroot hgap) (.line ys) fun _ => hplain
    generalize hx : r.next m.setting = x at hfollows
    generalize hx' : r'.next m.setting = x' at hfollows
    cases hfollows with
    | value h₁ => exact .inr (.inl ⟨_, _, _, rfl, rfl, h₁⟩)
    | failed _ he' => exact .inr (.inr ⟨_, _, rfl, he'⟩)
    | opened _ he _ => exact .inl (.inr ⟨_, _, rfl, he⟩)
    | ended _ => exact .inl (.inl ⟨_, rfl⟩)
    | openGoesOn _ he => exact .inl (.inr ⟨_, _, rfl, he⟩)
    | endGoesOn _ => exact .inl (.inl ⟨_, rfl⟩)

/-- **A text can be cut at a new line.** -/
theorem Feeds.cut (h : Feeds fuel r' m hs said s) (ho : OnlyOpen hs) (hr : r.imports = [])
    (hr' : r'.imports = []) (hroot : r'.root.after = r.root.after ++ '\n' :: ys)
    (hplain : .importing ∉ r'.root.lex.1) : CutsTo fuel ys r m said s := by
  induction h generalizing r with
  | exit hexit =>
    exact ⟨_, _, _, .exit hexit, .inl ⟨rfl, rfl, by simp [start, Machine.stopped, hexit]⟩⟩
  | interrupted hexit hint =>
    exact ⟨_, _, _, .interrupted hexit hint,
      .inl ⟨rfl, rfl, by simp [start, Machine.stopped, hint]⟩⟩
  | @value r' r₁' m d p hs said s hm hnext hp hrest ih =>
    rcases next_cut m hr hr' hroot hplain with
      hend | ⟨d', r₁, r₂', hval, hval', h₁⟩ | ⟨e, r₂', hfail, -⟩
    · exact cut_here (.value hm hnext hp hrest) ho hm hr hr' hroot hplain hend
    · obtain ⟨rfl, rfl⟩ : d = d' ∧ r₁' = r₂' := by simpa [hnext] using hval'
      obtain ⟨himp, hplain₁⟩ := h₁.plain (by simp)
      obtain ⟨hs₀, said₀, s₀, h₀, hend⟩ := ih (onlyOpen_append.mp ho).2 himp
        (h₁.imports_nil_iff.mpr himp) h₁.root hplain₁
      exact ⟨_, said₀, s₀, .value hm hval hp h₀, hend⟩
    · simp [hnext] at hfail
  | @ended r' r₁' m hm hnext =>
    rcases next_cut m hr hr' hroot hplain with
      hend | ⟨d', r₁, r₂', hval, hval', h₁⟩ | ⟨e, r₂', hfail, -⟩
    · exact cut_here (.ended hm hnext) ho hm hr hr' hroot hplain hend
    · simp [hnext] at hval'
    · simp [hnext] at hfail
  | @opened r' r₁' m e hm hnext he =>
    rcases next_cut m hr hr' hroot hplain with
      hend | ⟨d', r₁, r₂', hval, hval', h₁⟩ | ⟨e', r₂', hfail, he'⟩
    · exact cut_here (.opened hm hnext he) ho hm hr hr' hroot hplain hend
    · simp [hnext] at hval'
    · obtain ⟨rfl, -⟩ : e = e' ∧ r₁' = r₂' := by simpa [hnext] using hfail
      simp [he] at he'
  | @refused r' r₁' m e hm hnext he =>
    have := ho e (List.mem_singleton_self _)
    simp [he] at this

/-! ### All lines -/

/-- A text has no separator, or it is cut at the first one. -/
lemma splitChars_cut (sep : Char) (cs : List Char) :
    splitChars sep cs = [cs] ∨
      ∃ xs ys, cs = xs ++ sep :: ys ∧ splitChars sep cs = xs :: splitChars sep ys := by
  induction cs with
  | nil => exact .inl rfl
  | cons c cs ih =>
    by_cases hc : c = sep
    · exact .inr ⟨[], cs, by simp [hc], by simp [splitChars, hc]⟩
    · rcases ih with h | ⟨xs, ys, rfl, h⟩
      · exact .inl (by simp [splitChars, hc, h])
      · exact .inr ⟨c :: xs, ys, rfl, by simp [splitChars, hc, h]⟩

lemma toList_continued_cut (s : Session) (xs ys : List Char) :
    (s.continued (String.ofList (xs ++ '\n' :: ys))).toList =
      (s.continued (String.ofList xs)).toList ++ '\n' :: ys := by
  unfold continued
  split <;> simp

lemma cleared_of_not_interrupted (h : s.machine.interrupted = false) : s.cleared = s.machine := by
  unfold cleared
  rw [← h]

lemma foldlM_feed_exiting (hexit : s.machine.exiting = true)
    (hint : s.machine.interrupted = false) (hstart : s = start s.machine) (lines : List String) :
    lines.foldlM (fun a line => a.2.feed fuel line) (.exit, s) = some (.exit, s) := by
  induction lines with
  | nil => rfl
  | cons l ls ih =>
    have hfeed : s.feed fuel l = some (.exit, s) := by
      rw [feed_eq, cleared_of_not_interrupted hint, feedFrom, if_pos hexit, ← hstart]
    rw [List.foldlM_cons, hfeed]
    exact ih

/-- Lines are fed like the text that they are the lines of. -/
lemma foldlM_feed_lines (cs : List Char) (said₀ : Feed)
    (h : Feeds fuel (.ofText (s.continued (String.ofList cs))) s.cleared hs said s')
    (ho : OnlyOpen hs) (hplain : .importing ∉ (Cursor.start (s.continued (String.ofList cs))).lex.1)
    (hint : s'.machine.interrupted = false) :
    ((splitChars '\n' cs).map String.ofList).foldlM (fun a line => a.2.feed fuel line)
      (said₀, s) = some (said, s') := by
  induction hlen : cs.length using Nat.strongRecOn generalizing cs s said₀ hs with
  | _ len ih =>
    rcases splitChars_cut '\n' cs with hone | ⟨xs, ys, rfl, hsplit⟩
    · have hfeed : s.feed fuel (String.ofList cs) = some (said, s') := h.feedFrom_eq
      rw [hone]
      simp [hfeed]
    · obtain ⟨hs₀, said₁, s₀, h₀, hend⟩ := h.cut (r := .ofText (s.continued (String.ofList xs))) ho
        rfl rfl (toList_continued_cut s xs ys) hplain
      have hfeed : s.feed fuel (String.ofList xs) = some (said₁, s₀) := h₀.feedFrom_eq
      rw [hsplit, List.map_cons, List.foldlM_cons, hfeed]
      rcases hend with ⟨rfl, rfl, hstop⟩ | ⟨hgo, hplain', hs₁, h₁, ho₁⟩
      · have hexit : s₀.machine.exiting = true := by simpa [Machine.stopped, hint] using hstop
        obtain ⟨hiff, hstart⟩ := h₀.exit_iff
        obtain rfl := hiff.mpr hexit
        exact foldlM_feed_exiting hexit hint (hstart rfl) _
      · obtain ⟨-, hint₀⟩ := Bool.or_eq_false_iff.mp hgo
        rw [← cleared_of_not_interrupted hint₀] at h₁
        exact ih ys.length (by simp only [List.length_append, List.length_cons] at hlen; omega)
          ys said₁ h₁ ho₁ hplain' rfl

/-! ### Running the text -/

lemma allRun_append : AllRun (hs ++ hs') ↔ AllRun hs ∧ AllRun hs' := by
  simp only [AllRun, List.mem_append, not_or]
  exact ⟨fun h => ⟨fun e => (h e).1, fun e => (h e).2⟩, fun h e => ⟨h.1 e, h.2 e⟩⟩

/-- A value that runs without an error leaves the machine that the next value is read with. -/
lemma run_unit {d : Datum Command} {p : Execution}
    (hp : (Execution.ofDatum d m [.report]).run fuel = some p)
    (ho : AllRun (unitMishaps fuel d m)) :
    (Execution.ofDatum d m []).run fuel = some ⟨p.machine, [], none⟩ := by
  have habove : ((Execution.ofDatum d m []).above [.report]).run fuel = some p := hp
  obtain ⟨⟨m', ts, e⟩, hq⟩ := Execution.run_of_above habove
  obtain ⟨-, hts⟩ := Execution.reaches_of_run hq
  obtain rfl : ts = [] := hts
  cases e with
  | some e =>
    refine (ho e ?_).elim
    simp [unitMishaps, hq]
  | none =>
    have hreach := Execution.reaches_above hq [.report]
    have hreport : (⟨m', [.report], none⟩ : Execution).Reaches ⟨m', [], none⟩ := ⟨1, by
      simp [Execution.step, Execution.perform, Execution.ofTasks, Task.yields]⟩
    obtain ⟨hwhole, hdone⟩ := Execution.reaches_of_run hp
    have hpm := Execution.eq_of_reaches hwhole hdone (hreach.trans hreport) rfl
    rw [hq, hpm]

/-- The first step of a text is to begin to run its first value. -/
lemma step_source (hm : m.stopped = false) {d : Datum Command}
    (hnext : r.next m.setting = .value d r') :
    (Execution.ofTasks m [.source r]).step = (Execution.ofDatum d m [.source r']).step := by
  simp [Execution.ofDatum, Execution.ofTasks, Execution.step, Execution.perform, hm, hnext,
    Task.yields]

lemma reaches_of_stopped (hm : m.stopped = true) :
    (Execution.ofTasks m [.source r]).Reaches ⟨m, [], none⟩ := ⟨1, by
  simp [Execution.ofTasks, Execution.step, hm, Task.yields]⟩

/-- **A text that is fed without mishap is run.** -/
theorem Feeds.reaches (h : Feeds fuel r m hs said s) (ho : OnlyOpen hs) (hrun : AllRun hs)
    (hsaid : said ≠ .needsMore) :
    (Execution.ofTasks m [.source r]).Reaches ⟨s.machine, [], none⟩ := by
  induction h with
  | exit hexit => exact reaches_of_stopped (by simp [Machine.stopped, hexit])
  | interrupted hexit hint => exact reaches_of_stopped (by simp [Machine.stopped, hint])
  | @value r r₁ m d p hs said s hm hnext hp _ ih =>
    have hunit := run_unit hp (allRun_append.mp hrun).1
    have habove := (Execution.reaches_above hunit [.source r₁]).tail fun heq => by
      have := congrArg (fun q => q.tasks.length) heq
      simp [Execution.above, Execution.ofDatum, Execution.ofTasks] at this
    refine Execution.Reaches.head ?_
    rw [step_source hm hnext]
    exact habove.trans (ih (onlyOpen_append.mp ho).2 (allRun_append.mp hrun).2 hsaid)
  | @ended r r₁ m hm hnext =>
    exact ⟨1, by simp [start, Execution.ofTasks, Execution.step, Execution.perform, hm, hnext]⟩
  | opened => exact (hsaid rfl).elim
  | @refused r r₁ m e hm hnext he =>
    have := ho e (List.mem_singleton_self _)
    simp [he] at this

/-- **A text may be fed line by line.** Take a session that waits for nothing, and a text that
imports nothing. Let feeding it whole find nothing wrong with it save that its end is missing, and
raise no interrupt. Then feeding its lines leaves the very same session, with the same last
answer. If moreover nothing is left open and every value runs without an error, running the text
leaves the same machine. -/
theorem feedEach_splitText {text : String} (hpending : s.isPending = false)
    (hplain : .importing ∉ (Cursor.start text).lex.1)
    (hfeed : s.feed fuel text = some (said, s')) (ho : OnlyOpen (s.mishaps fuel text))
    (hint : s'.machine.interrupted = false) :
    s.feedEach fuel (splitText '\n' text) = some (said, s') ∧
      (said ≠ .needsMore → AllRun (s.mishaps fuel text) →
        ∃ n, (Execution.ofTasks s.cleared [.source (.ofText text)]).run n =
          some ⟨s'.machine, [], none⟩) := by
  have hfeeds : Feeds fuel (.ofText (s.continued text)) s.cleared (s.mishaps fuel text) said s' :=
    feeds_of_feedFrom hfeed
  have htext : s.continued text = text := by simp [continued, hpending]
  constructor
  · rw [← String.ofList_toList (s := text)] at hfeeds
    refine foldlM_feed_lines text.toList .ready hfeeds ?_ ?_ hint
    · rwa [String.ofList_toList]
    · rwa [String.ofList_toList, htext]
  · intro hsaid hrun
    have hreach := hfeeds.reaches ho hrun hsaid
    rw [htext] at hreach
    exact Execution.run_of_reaches hreach rfl

/-- A list that is opened on one line and closed on the next. -/
theorem feedEach_list_on_two_lines :
    let s := start (.initial "main" ∅ Loader.disabled default .empty {} {})
    s.isPending = false ∧ .importing ∉ (Cursor.start "[\n]").lex.1 ∧
      ∃ s', s.feed 5 "[\n]" = some (.ready, s') ∧ OnlyOpen (s.mishaps 5 "[\n]") ∧
        s'.machine.interrupted = false ∧ s'.machine.stack.length = 1 ∧
        AllRun (s.mishaps 5 "[\n]") ∧
        s.feedEach 5 (splitText '\n' "[\n]") = some (.ready, s') ∧
        ∃ n, (Execution.ofTasks s.cleared [.source (.ofText "[\n]")]).run n =
          some ⟨s'.machine, [], none⟩ := by
  intro s
  -- The reader behind the opener, and behind the closer.
  let r₁ : Reader := ⟨⟨['['], ['\n', ']']⟩, [], by decide, .start "[\n]"⟩
  let r₂ : Reader := ⟨⟨[']', '\n', '['], []⟩, [], by decide, .start "[\n]"⟩
  have hscan : (Cursor.start "[\n]").scan = .token (.opener .list) (.start "[\n]") r₁.root := rfl
  have hscan₁ : r₁.root.scan = .token (.closer .list) ⟨['\n', '['], [']']⟩ r₂.root := rfl
  have hscan₂ : r₂.root.scan = .finished r₂.root := rfl
  have hplain : .importing ∉ (Cursor.start "[\n]").lex.1 := by
    rw [Cursor.lex_token hscan, Cursor.lex_token hscan₁, Cursor.lex_finished hscan₂]
    simp
  have hopen : (Reader.ofText "[\n]").startUnit.advance s.cleared.setting.load =
      .token (.opener .list) (.start "[\n]") r₁ := rfl
  have hclose : r₁.advance s.cleared.setting.load =
      .token (.closer .list) ⟨['\n', '['], [']']⟩ r₂ := rfl
  have hvalue : (Reader.ofText "[\n]").next s.cleared.setting = .value (.list []) r₂ := by
    rw [Reader.next, Reader.readInside_token hopen]
    exact Reader.readInside_token hclose
  let m' : Machine := ⟨[.list 0], ⟨#[#[]], #[], #[]⟩, .initial "main", ∅, Loader.disabled, default,
    .empty, false, false, 0, {}, {}⟩
  have hrun : (Execution.ofDatum (.list []) s.cleared [.report]).run 5 = some ⟨m', [], none⟩ := rfl
  have hended : ∃ r₃, r₂.next m'.setting = .ended r₃ := ⟨_, Reader.readInside_ended rfl⟩
  obtain ⟨r₃, hended⟩ := hended
  have hfeeds : Feeds 5 (.ofText "[\n]") s.cleared [] .ready (start m') :=
    .value rfl hvalue hrun (.ended rfl hended)
  have hmishaps : s.mishaps 5 "[\n]" = [] := by
    have hnone : unitMishaps 5 (.list []) s.cleared = [] := rfl
    show mishapsFrom 5 (.ofText "[\n]") s.cleared = []
    rw [mishapsFrom_value rfl hvalue hrun, mishapsFrom_ended rfl hended, hnone]
    rfl
  have ho : OnlyOpen (s.mishaps 5 "[\n]") := by simp [hmishaps, OnlyOpen]
  have hall : AllRun (s.mishaps 5 "[\n]") := by simp [hmishaps, AllRun]
  have hpending : s.isPending = false := rfl
  have hfeed : s.feed 5 "[\n]" = some (.ready, start m') := hfeeds.feedFrom_eq
  obtain ⟨hlines, htext⟩ := feedEach_splitText hpending hplain hfeed ho rfl
  exact ⟨hpending, hplain, start m', hfeed, ho, rfl, rfl, hall, hlines, htext (by simp) hall⟩

end Session

end ReversePolish
