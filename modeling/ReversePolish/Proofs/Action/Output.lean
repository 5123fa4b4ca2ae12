import ReversePolish.Proofs.Action.Storage

/-!
What words print. Lines are offered to the sink one after the other. What prints them gives up at the
first one that is refused.
-/

namespace ReversePolish

namespace Sink

variable {s : Sink} {ls : List String}

/-- The sink after it was offered all of these lines. -/
def offerAll (ls : List String) (s : Sink) : Sink := ls.foldl (fun s l => s.offer l) s

@[simp] lemma offerAll_nil (s : Sink) : s.offerAll [] = s := rfl

@[simp] lemma offerAll_cons (l : String) (ls : List String) (s : Sink) :
    s.offerAll (l :: ls) = (s.offer l).offerAll ls := rfl

@[simp] lemma offerAll_append (ls ls' : List String) (s : Sink) :
    s.offerAll (ls ++ ls') = (s.offerAll ls).offerAll ls' := List.foldl_append

/-- The sink never refuses a line. -/
def Open (s : Sink) : Prop := ∀ before l, s.receive before l = .taken

/-- The lines up to the first one that is refused. -/
def upToRefusal : List String → Sink → List String
  | [], _ => []
  | l :: ls, s => l :: if (s.refusal? l).isSome then [] else upToRefusal ls (s.offer l)

/-- All that is offered to an open sink is written. -/
lemma text_offerAll (h : s.Open) :
    (s.offerAll ls).text = s.text ++ String.join (ls.map (· ++ "\n")) := by
  induction ls generalizing s with
  | nil => simp
  | cons l ls ih =>
    have hwritten : s.written l = l ++ "\n" := by simp [written, reception, h _ l]
    rw [offerAll_cons, ih (s := s.offer l) h]
    simp [offer, hwritten, String.append_assoc]

end Sink

namespace Machine

/-- The line that a value is printed as. -/
def printed (m : Machine) : Value → String
  | .str s => s
  | v => m.shown v

/-- The list of commands, line by line. -/
def helpLines (m : Machine) : List String :=
  (m.registry.categories.entries.map fun g => g.1 ++ ": " ++ " ".intercalate g.2) ++
    ["Append ? to a word (e.g. ADD?) for its description."]

end Machine

/-- The lines that a word prints. -/
def Word.prints (w : Word) (m : Machine) : List String :=
  match w with
  | .print => (m.stack.head?.map m.printed).toList
  | .help => m.output.upToRefusal m.helpLines
  | _ => []

lemma Word.prints_eq_nil {w : Word} {m : Machine} (hprint : w ≠ .print) (hhelp : w ≠ .help) :
    w.prints m = [] := by
  unfold Word.prints
  split <;> simp_all

namespace Action

variable {m : Machine} {w : Word} {a : Action Unit}

/-- Lines go to the sink until one is refused, and nothing else changes. -/
lemma machine_printLines (ls : List String) (m : Machine) :
    machine ((ls.forM printLine).run m) =
      { m with output := m.output.offerAll (m.output.upToRefusal ls) } := by
  induction ls generalizing m with
  | nil => rfl
  | cons l ls ih =>
    show machine ((printLine l >>= fun _ => ls.forM printLine).run m) = _
    have hrun := run_printLine l m
    cases hl : m.output.refusal? l with
    | none =>
      rw [hl] at hrun
      rw [run_bind_ok hrun, ih]
      simp [Sink.upToRefusal, hl, Machine.printLine]
    | some reason =>
      rw [hl] at hrun
      rw [run_bind_error hrun]
      simp [Sink.upToRefusal, hl, machine, Machine.printLine]

lemma run_help (m : Machine) : help.run m = (m.helpLines.forM printLine).run m := by
  show ((m.registry.categories.entries.forM fun g =>
      printLine (g.1 ++ ": " ++ " ".intercalate g.2)) >>= fun _ =>
        printLine "Append ? to a word (e.g. ADD?) for its description.").run m = _
  simp [Machine.helpLines]

lemma run_print_nil (h : m.stack = []) : print.run m = .error (.underflow 1 0) m :=
  run_bind_error (run_demand_error (by rw [h]; rfl))

/-- The value goes only after its line has been taken. -/
lemma run_print_cons {v : Value} {s : Stack} (h : m.stack = v :: s) :
    print.run m = (printLine (m.printed v) >>= fun _ => drop 1).run m := by
  have hpeek : (demand fun m => m.stack.peek 0).run m = .ok v m :=
    run_demand_ok (by rw [h]; rfl)
  refine (run_bind_ok hpeek).trans ?_
  cases v with
  | str s => rfl
  | _ => exact run_bind_ok (a := ask fun m => m.shown _) rfl

/-- What is printed is not at stake where nothing is printed. -/
lemma aloof_output (o : Sink) : Aloof fun m => m.output = o :=
  ⟨fun _ _ h => h, fun _ _ _ h => h, fun _ _ h => h, fun _ _ h => h, fun _ _ h => h,
    fun _ _ h => h, fun _ _ h => h⟩

lemma output_print (m : Machine) :
    (machine (print.run m)).output = m.output.offerAll (Word.print.prints m) := by
  cases hs : m.stack with
  | nil =>
    rw [run_print_nil hs]
    simp [Word.prints, hs, machine]
  | cons v s =>
    have hrun := run_printLine (m.printed v) m
    rw [run_print_cons hs]
    cases hl : m.output.refusal? (m.printed v) with
    | none =>
      rw [hl] at hrun
      rw [run_bind_ok hrun]
      simp only [Word.prints, hs]
      rfl
    | some reason =>
      rw [hl] at hrun
      rw [run_bind_error hrun]
      simp only [Word.prints, hs]
      rfl

/-- **A word that works on the machine prints what it prints**, whether it succeeds or fails. -/
theorem output_meaning (hw : w.meaning = .action a) (m : Machine) :
    (machine (a.run m)).output = m.output.offerAll (w.prints m) := by
  by_cases hprints : w = .print ∨ w = .help
  · rcases hprints with rfl | rfl
    · cases hw
      exact output_print m
    · cases hw
      rw [run_help, machine_printLines]
      rfl
  · rw [not_or] at hprints
    rw [Word.prints_eq_nil hprints.1 hprints.2]
    exact (aloof_output m.output).meaning hw (fun h => (not_or.mpr hprints h).elim) m rfl

end Action

end ReversePolish
