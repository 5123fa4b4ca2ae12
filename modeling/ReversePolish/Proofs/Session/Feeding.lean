import ReversePolish.Proofs.Execution.Registered
import ReversePolish.Session

/-!
What happens when a line is fed: values are read and run one after the other, until the session
stops, the text ends, or it cannot be read on.
-/

namespace ReversePolish

/-- Something that goes wrong with a line. -/
inductive Mishap where
  /-- The text cannot be read on. -/
  | unreadable (e : Error)
  /-- A value fails when it is run. -/
  | failed (e : Error)

namespace Execution

/-- About to run what was read. -/
def ofDatum (d : Datum Command) (m : Machine) (ts : List Task) : Execution :=
  ofTasks { m with heap := (d.store none m.heap).2 } (.run (d.store none m.heap).1 :: ts)

end Execution

namespace Session

/-- The error that a value ends with, when it is run by itself. -/
def unitMishaps (fuel : Nat) (d : Datum Command) (m : Machine) : List Mishap :=
  match (Execution.ofDatum d m []).run fuel with
  | some ⟨_, _, some e⟩ => [.failed e]
  | _ => []

/-- What goes wrong while a reader's text is fed, in order. -/
def mishapsFrom (fuel : Nat) (r : Reader) (m : Machine) : List Mishap :=
  if m.stopped then []
  else
    match _h : r.next m.setting with
    | .value d r' =>
      match (Execution.ofDatum d m [.report]).run fuel with
      | some p => unitMishaps fuel d m ++ mishapsFrom fuel r' p.machine
      | none => unitMishaps fuel d m
    | .ended _ => []
    | .failed e _ => [.unreadable e]
termination_by r
decreasing_by exact Reader.smaller_of_next _h

/-- The text that a line completes. -/
def continued (line : String) (s : Session) : String :=
  if s.isPending then s.pending ++ "\n" ++ line else line

/-- The machine while a line is fed. -/
def cleared (s : Session) : Machine := { s.machine with interrupted := false }

/-- What goes wrong while a line is fed. -/
def mishaps (fuel : Nat) (line : String) (s : Session) : List Mishap :=
  mishapsFrom fuel (.ofText (s.continued line)) s.cleared

/-- Feeding a reader's text meets these mishaps, and then the session says this and is left like
this. -/
inductive Feeds (fuel : Nat) :
    Reader → Machine → List Mishap → Feed → Session → Prop where
  | exit {r : Reader} {m : Machine} : m.exiting = true → Feeds fuel r m [] .exit (start m)
  | interrupted {r : Reader} {m : Machine} :
      m.exiting = false → m.interrupted = true → Feeds fuel r m [] .ready (start m)
  | value {r r' : Reader} {m : Machine} {d : Datum Command} {p : Execution} {hs : List Mishap}
      {said : Feed} {s : Session} :
      m.stopped = false → r.next m.setting = .value d r' →
        (Execution.ofDatum d m [.report]).run fuel = some p →
        Feeds fuel r' p.machine hs said s →
          Feeds fuel r m (unitMishaps fuel d m ++ hs) said s
  | ended {r r' : Reader} {m : Machine} :
      m.stopped = false → r.next m.setting = .ended r' → Feeds fuel r m [] .ready (start m)
  | opened {r r' : Reader} {m : Machine} {e : Error} :
      m.stopped = false → r.next m.setting = .failed e r' → e.isIncomplete = true →
        Feeds fuel r m [.unreadable e] .needsMore ⟨m, r'.unitText⟩
  | refused {r r' : Reader} {m : Machine} {e : Error} :
      m.stopped = false → r.next m.setting = .failed e r' → e.isIncomplete = false →
        Feeds fuel r m [.unreadable e] .ready (start (m.report e))

variable {fuel : Nat} {r r' : Reader} {m : Machine} {hs : List Mishap} {said : Feed}
  {s s' : Session}

theorem feed_eq (fuel : Nat) (line : String) (s : Session) :
    s.feed fuel line = feedFrom fuel (.ofText (s.continued line)) s.cleared := rfl

lemma not_stopped (hexit : ¬ m.exiting = true) (hint : ¬ m.interrupted = true) :
    m.stopped = false := by
  simp [Machine.stopped, hexit, hint]

/-- What is left of a text waits unless it is nothing. -/
lemma isPending_rest {c : Cursor} : isPending ⟨m, c.rest⟩ = true ↔ c.after ≠ [] := by
  simp [isPending, Cursor.rest]

/-! ### Feeding, case by case -/

lemma mishapsFrom_stopped (hm : m.stopped = true) : mishapsFrom fuel r m = [] := by
  rw [mishapsFrom, if_pos hm]

lemma mishapsFrom_value {d : Datum Command} {p : Execution} (hm : m.stopped = false)
    (hr : r.next m.setting = .value d r')
    (hp : (Execution.ofDatum d m [.report]).run fuel = some p) :
    mishapsFrom fuel r m = unitMishaps fuel d m ++ mishapsFrom fuel r' p.machine := by
  rw [mishapsFrom, if_neg (by simp [hm])]
  split <;> simp_all

lemma mishapsFrom_ended (hm : m.stopped = false) (hr : r.next m.setting = .ended r') :
    mishapsFrom fuel r m = [] := by
  rw [mishapsFrom, if_neg (by simp [hm])]
  split <;> simp_all

lemma mishapsFrom_failed {e : Error} (hm : m.stopped = false)
    (hr : r.next m.setting = .failed e r') : mishapsFrom fuel r m = [.unreadable e] := by
  rw [mishapsFrom, if_neg (by simp [hm])]
  split <;> simp_all

lemma feedFrom_value {d : Datum Command} {p : Execution} (hm : m.stopped = false)
    (hr : r.next m.setting = .value d r')
    (hp : (Execution.ofDatum d m [.report]).run fuel = some p) :
    feedFrom fuel r m = feedFrom fuel r' p.machine := by
  obtain ⟨hexit, hint⟩ := Bool.or_eq_false_iff.mp hm
  rw [feedFrom, if_neg (by simp [hexit]), if_neg (by simp [hint])]
  split
  · next heq =>
    rw [hr] at heq
    cases heq
    rw [Execution.ofDatum] at hp
    simp only [hp]
  · next heq => simp [hr] at heq
  · next heq => simp [hr] at heq

lemma feedFrom_ended (hm : m.stopped = false) (hr : r.next m.setting = .ended r') :
    feedFrom fuel r m = some (.ready, start m) := by
  obtain ⟨hexit, hint⟩ := Bool.or_eq_false_iff.mp hm
  rw [feedFrom, if_neg (by simp [hexit]), if_neg (by simp [hint])]
  split <;> simp_all

lemma feedFrom_failed {e : Error} (hm : m.stopped = false)
    (hr : r.next m.setting = .failed e r') :
    feedFrom fuel r m =
      if e.isIncomplete then some (.needsMore, ⟨m, r'.unitText⟩)
      else some (.ready, start (m.report e)) := by
  obtain ⟨hexit, hint⟩ := Bool.or_eq_false_iff.mp hm
  rw [feedFrom, if_neg (by simp [hexit]), if_neg (by simp [hint])]
  split <;> simp_all

/-- **What feeding comes to, and what goes wrong on the way.** -/
theorem feeds_of_feedFrom (h : feedFrom fuel r m = some (said, s)) :
    Feeds fuel r m (mishapsFrom fuel r m) said s := by
  induction r, m using feedFrom.induct fuel with
  | case1 r m hexit =>
    rw [feedFrom, if_pos hexit] at h
    cases h
    rw [mishapsFrom_stopped (by simp [Machine.stopped, hexit])]
    exact .exit hexit
  | case2 r m hexit hint =>
    rw [feedFrom, if_neg hexit, if_pos hint] at h
    cases h
    rw [mishapsFrom_stopped (by simp [Machine.stopped, hint])]
    exact .interrupted (by simpa using hexit) hint
  | case3 r m hexit hint d r' hr v heap hd p hp ih =>
    have hm := not_stopped hexit hint
    have hp' : (Execution.ofDatum d m [.report]).run fuel = some p := by
      rw [Execution.ofDatum, hd]
      exact hp
    rw [feedFrom_value hm hr hp'] at h
    rw [mishapsFrom_value hm hr hp']
    exact .value hm hr hp' (ih h)
  | case4 r m hexit hint d r' hr v heap hd hp =>
    rw [feedFrom, if_neg hexit, if_neg hint] at h
    split at h <;> simp_all
  | case5 r m hexit hint r' hr =>
    have hm := not_stopped hexit hint
    rw [feedFrom_ended hm hr] at h
    cases h
    rw [mishapsFrom_ended hm hr]
    exact .ended hm hr
  | case6 r m hexit hint e r' hr he =>
    have hm := not_stopped hexit hint
    rw [feedFrom_failed hm hr, if_pos he] at h
    cases h
    rw [mishapsFrom_failed hm hr]
    exact .opened hm hr he
  | case7 r m hexit hint e r' hr he =>
    have hm := not_stopped hexit hint
    rw [feedFrom_failed hm hr, if_neg he] at h
    cases h
    rw [mishapsFrom_failed hm hr]
    exact .refused hm hr (by simpa using he)

theorem Feeds.feedFrom_eq (h : Feeds fuel r m hs said s) :
    feedFrom fuel r m = some (said, s) := by
  induction h with
  | exit hexit => rw [feedFrom, if_pos hexit]
  | interrupted hexit hint => rw [feedFrom, if_neg (by simp [hexit]), if_pos hint]
  | value hm hr hp _ ih => rw [feedFrom_value hm hr hp, ih]
  | ended hm hr => exact feedFrom_ended hm hr
  | opened hm hr he => rw [feedFrom_failed hm hr, if_pos he]
  | refused hm hr he => rw [feedFrom_failed hm hr, if_neg (by simp [he])]

/-- **The session is over exactly when it says so**, and then nothing waits for more lines. -/
theorem Feeds.exit_iff (h : Feeds fuel r m hs said s) :
    (said = .exit ↔ s.machine.exiting = true) ∧ (said = .exit → s = start s.machine) := by
  induction h with
  | exit hexit => exact ⟨by simp [start, hexit], fun _ => rfl⟩
  | interrupted hexit hint => simp [start, hexit]
  | value _ _ _ _ ih => exact ih
  | ended hm _ => simp_all [start, Machine.stopped]
  | opened hm _ _ => simp_all [Machine.stopped]
  | refused hm _ _ => simp_all [start, Machine.stopped, Machine.report, Machine.printLine]

/-- Feeding keeps the registry well named. -/
theorem Feeds.wellNamed (h : Feeds fuel r m hs said s) (hm : m.WellNamed) :
    s.machine.WellNamed := by
  induction h with
  | value _ _ hp _ ih => exact ih (Execution.wellNamed_run hm hp)
  | _ => exact hm

end Session

end ReversePolish
