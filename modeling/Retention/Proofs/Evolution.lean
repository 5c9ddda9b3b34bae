import Retention.Heap
import Mathlib.Logic.Relation
/-!
# Evolution — what can become of a store

What runs make of a store, whatever the program and its thunks do, as a transition system.  A `Moment` is a store with
the runs of thunks that have begun and not ended, latest first.  `Store.Step` is a single change that runs no thunk,
under the condition under which it is made; `Moment.Next` is such a change, or a thunk that begins to run, or the end of
the latest run.  The force of a cell is two of these: it begins with the cell in progress, and ends with the cell in its
final state.

`Moment.Leads` is any number of transitions.  A run that is over leads from a store to a store with the same runs still
pending (`Store.Runs`); one that is cut short leaves more of them pending (`Store.Reaches`).  `Store.Reached` is every
store that any runs of any programs pass through, be it between two evaluations or in the middle of a thunk.
-/
namespace Retention

namespace Store

/-- A single change of a store that runs no thunk. -/
inductive Step : Store → Store → Prop
  | newFault (s : Store) (x : Raised) : Step s { s with faults := s.faults.push x }
  | freshTag (s : Store) : Step s { s with nextTag := s.nextTag + 1 }
  | logged (s : Store) (events : List Event) : Step s { s with events := events }
  | assigned (s : Store) (bindings : Entries String Value) : Step s { s with bindings := bindings }
  | newReport (s : Store) (r : Report) : Step s { s with reports := s.reports.push r }
  | iterated (s : Store) (iterators : Array Iterator) : Step s { s with iterators := iterators }
  | consumed (s : Store) (consumers : Array Consumer) : Step s { s with consumers := consumers }
  /-- A cell is made on the active heap. -/
  | newCell (s : Store) (h : HeapId) (st : CellState) (active : s.active = some h) : Step s (s.register h st)
  | newHeap (s : Store) (traces samplesForces : Value) (temporary : Bool) :
    Step s { s with heaps := s.heaps.push { traces, samplesForces, temporary } }
  | entered (s : Store) (h : HeapId) : Step s (s.entered h)
  | closed (s : Store) (h : HeapId) : Step s (s.closed h)
  | left (s : Store) (h : HeapId) (previous : Option HeapId) (contexts : List (Option HeapId))
    (entry : (s.heap h).contexts = previous :: contexts) : Step s (s.left h previous contexts)
  | sampled (s : Store) (h : HeapId) (found : Found) (live : s.reachable h = .ok found) :
    Step s (s.noteLive h found.size)
  | collected (s : Store) (h : HeapId) (found : Found) (live : s.reachable h = .ok found) : Step s (s.keepOnly h found)
  | rooted (s : Store) (h : HeapId) (name v : Value) : Step s (s.rooted h name v)
  | unrooted (s : Store) (h : HeapId) (name : Value) : Step s (s.unrooted h name)

/-- The store in which the thunk of a cell begins to run. -/
def began (s : Store) (c : CellId) (h : HeapId) (t : Thunk) : Store :=
  (s.setState c (.inProgress t)).recorded (.began (some c) (some h) t)

/-- The store in which a cell has got its value. -/
def finished (s : Store) (c : CellId) (h : HeapId) (v : Value) : Store :=
  ((s.recorded (.returned (some c) v)).setState c (.evaluated v)).counted h

/-- The store in which a cell has failed. -/
def aborted (s : Store) (c : CellId) (e : FaultId) : Store :=
  (s.recorded (.raised (some c) e)).setState c (.failed (.fault e))

end Store

/-- A run of a thunk that has begun: of a function that is called, or of the thunk of a cell that is forced, with the
heap on which the force counts. -/
inductive Frame where
  | call
  | force (c : CellId) (h : HeapId)
deriving DecidableEq, Repr

/-- A store, and the runs of thunks that have begun and not ended, latest first. -/
structure Moment where
  store : Store
  pending : List Frame

namespace Moment

/-- What can come next. -/
inductive Next : Moment → Moment → Prop
  | change {s e : Store} (k : List Frame) : s.Step e → Next ⟨s, k⟩ ⟨e, k⟩
  | call (s : Store) (k : List Frame) (t : Thunk) : Next ⟨s, k⟩ ⟨s.recorded (.began none s.active t), .call :: k⟩
  | returned (s : Store) (k : List Frame) (v : Value) : Next ⟨s, .call :: k⟩ ⟨s.recorded (.returned none v), k⟩
  | raised (s : Store) (k : List Frame) (x : FaultId) : Next ⟨s, .call :: k⟩ ⟨s.recorded (.raised none x), k⟩
  | force (s : Store) (k : List Frame) (c : CellId) (h : HeapId) (t : Thunk) (suspended : s.state c = .suspended t)
    (active : s.active = some h) : Next ⟨s, k⟩ ⟨s.began c h t, .force c h :: k⟩
  | finished (s : Store) (k : List Frame) (c : CellId) (h : HeapId) (v : Value) :
    Next ⟨s, .force c h :: k⟩ ⟨s.finished c h v, k⟩
  | aborted (s : Store) (k : List Frame) (c : CellId) (h : HeapId) (x : FaultId) :
    Next ⟨s, .force c h :: k⟩ ⟨s.aborted c x, k⟩

/-- What can come sooner or later. -/
def Leads : Moment → Moment → Prop := Relation.ReflTransGen Next

end Moment

namespace Store

/-- A run leads from the first store to the second and is over. -/
def Runs (s e : Store) : Prop := ∀ k, Moment.Leads ⟨s, k⟩ ⟨e, k⟩

/-- A run leads from the first store to the second, where thunks may still be running. -/
def Reaches (s e : Store) : Prop := ∀ k, ∃ more, Moment.Leads ⟨s, k⟩ ⟨e, more ++ k⟩

/-- Some runs, one after the other, pass through this store. -/
def Reached (s : Store) : Prop := ∃ k, Moment.Leads ⟨{}, []⟩ ⟨s, k⟩

namespace Runs

theorem refl (s : Store) : Runs s s := fun _ => .refl

theorem trans {s m e : Store} (h : Runs s m) (h' : Runs m e) : Runs s e := fun k => (h k).trans (h' k)

theorem of_step {s e : Store} (h : Step s e) : Runs s e := fun k => .single (.change k h)

theorem reaches {s e : Store} (h : Runs s e) : Reaches s e := fun k => ⟨[], h k⟩

end Runs

theorem Reached.after {s e : Store} (hs : Reached s) (h : Reaches s e) : Reached e := by
  obtain ⟨k, hk⟩ := hs
  obtain ⟨more, hm⟩ := h k
  exact ⟨more ++ k, hk.trans hm⟩

end Store
end Retention
