import Retention.Program.Eval
/-!
# Session — one expression after the other

A session evaluates expressions in one store.  Each step tells what its expression came to, which of the program's
functions were called, what was logged, and the counters of the heap that is then active.
-/
namespace Retention

/-- The counters of a heap: cells created, forced and reclaimed, the peak, and the cells that are live and tracked.  How
many are live cannot be told if something that is no cell stands where the search for them comes by. -/
structure Status where
  created : Nat
  forced : Nat
  reclaimed : Nat
  peak : Nat
  live : Option Nat
  tracked : Nat
deriving DecidableEq, Repr, Inhabited

/-- The counters of the active heap, if there is one. -/
def Store.status (s : Store) : Option Status :=
  s.active.map fun h =>
    let heap := s.heap h
    ⟨heap.created, heap.forced, heap.reclaimed, heap.peak, (s.liveCount h).toOption, heap.table.size⟩

/-- What a step of a session tells. -/
structure Outcome where
  /-- The value, or how the step ended without one. -/
  result : Except Halt Value
  /-- The program's functions that were called, in order. -/
  calls : List String
  /-- What was logged, in order. -/
  events : List Event
  status : Option Status
  /-- The store after the step, for the texts of the result. -/
  store : Store

/-- What a step that ended in the given way tells, if the history was `turns` long before it. -/
def Outcome.ofEnd (turns : Nat) (result : Except Halt Value) (s : Store) : Outcome where
  result := result
  calls := s.callsSince turns
  events := s.events.reverse
  status := s.status
  store := s

namespace Session

/-- Evaluates one expression. -/
def step (p : Program) (s : Store) (e : Expr) : Outcome :=
  let turns := s.history.length
  match e.eval p p.run [] { s with events := [] } with
  | .ok v s => .ofEnd turns (.ok v) s
  | .error halt s => .ofEnd turns (.error halt) s

/-- Evaluates expressions, one after the other, from a store. -/
def stepsFrom (p : Program) : Store → List Expr → List Outcome
  | _, [] => []
  | s, e :: es => let outcome := step p s e; outcome :: stepsFrom p outcome.store es

/-- Evaluates expressions, one after the other. -/
def run (p : Program) (es : List Expr) : List Outcome := stepsFrom p {} es

end Session
end Retention
