import ReversePolish.Proofs.Lifetime
import ReversePolish.Proofs.Reader.Nesting
import ReversePolish.Proofs.Session.Driver

/-!
Programs inside programs. A program that has been read tells, for as long as the programs around it are
there, how many of them there are, whatever is asked of the machine in the meantime. They are there
as long as the value that was read lasts and holds it where it stood.
-/

namespace ReversePolish

/-- A program that lasts is among what is there. -/
lemma Heap.Lasts.isThere {h : Heap} {roots : List Value} {p : Program} {c : Nat}
    (hp : h.Lasts roots (.program p)) (hcell : p.cell = some c) : p.isThere (h.alive roots) = true := by
  obtain ⟨body, home, cell⟩ := p
  obtain rfl : cell = some c := hcell
  have hc : Cell.program c ∈ (Value.program ⟨body, home, some c⟩).cells := List.mem_cons_self
  simpa [Program.isThere] using hp _ hc

/-- What lies around a value lies in the same one, and lasts with it. -/
lemma Heap.Lies.lasts {h : Heap} {roots : List Value} {v w : Value} {us : List Value}
    (hw : h.Lies v us w) (hv : h.Lasts roots v) : h.Lasts roots w ∧ ∀ u ∈ us, h.Lasts roots u := by
  induction hw with
  | self => exact ⟨hv, List.forall_mem_nil _⟩
  | part _ hholds ih => exact ⟨ih.1.holds hholds, List.forall_mem_cons.mpr ih⟩

namespace Driver

variable {P : Value → Prop} {d d' : Driver} {s : Setting Command} {r r' : Reader} {x : Datum Command}
  {h₀ h : Heap} {v w : Value} {us : List Value}

/-! ### Links stay -/

lemma links_next (hstep : Step P d d') :
    d.machine.heap.links.toList <+: d'.machine.heap.links.toList := by
  cases hstep with
  | ask _ hasked => exact hasked.extends.links
  | step => exact Execution.links_step _
  | turn => exact (extends_turn _ _).links
  | _ => exact List.prefix_refl _

lemma links_of_leads (hd : Leads P d d') :
    d.machine.heap.links.toList <+: d'.machine.heap.links.toList := by
  induction hd with
  | refl => exact List.prefix_refl _
  | tail _ hstep ih => exact ih.trans (links_next hstep)

/-! ### What is read -/

/-- A list that holds a program in which there is another one. Once it holds a number in the place
of the outer one, the inner one is in no program any more, although the list lasts. -/
example :
    let inner : Program := ⟨[.int 1], "work", some 1⟩
    let outer : Program := ⟨[.program inner], "work", some 0⟩
    let m : Machine := { Machine.initial "work" ∅ Loader.disabled default .empty {} {} with
      heap := ⟨#[#[.program outer]], #[], #[none, some 0]⟩, stack := [.list 0, .program inner] }
    let later := (Execution.step^[3] (.ofTasks m
      [.sequence [.int 0, .int 5, .command (.ofWord .put) false]])).machine
    inner.nestingDepth m.heap (m.heap.alive m.stack) = 1 ∧
      later.stack = [.list 0, .program inner] ∧ later.heap.items 0 = #[.int 5] ∧
      inner.nestingDepth later.heap (later.heap.alive later.stack) = 0 := by
  cbv

end Driver

end ReversePolish
