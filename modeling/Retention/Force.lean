import Retention.Heap
/-!
# Force — evaluating a cell, at most once

Forcing a cell whose thunk has run hands out its value or raises its error again, and does nothing else.  Forcing a
suspended cell runs its thunk; while it runs the cell is in progress, and forcing it then is an error.  The heap that
counts the force is the one that was active when the force began.

How a thunk is run is a parameter: the operations of this and the following modules are given `run`, and the module
that knows all thunks ties the knot.
-/
namespace Retention

/-- How thunks are run, for the cell that is forced or for none. -/
abbrev Runner := Option CellId → Thunk → Run Value

/-- Does what a thunk says, and notes when that begins and how it ends. -/
def Run.turn (owner : Option CellId) (t : Thunk) (body : Run Value) : Run Value := do
  Run.record (.began owner (← get).active t)
  match ← Run.attempt body with
  | .ok v =>
    Run.record (.returned owner v)
    return v
  | .error e =>
    Run.record (.raised owner e)
    Run.reraise e

/-- Forces a cell. -/
def force (run : Runner) (c : CellId) : Run Value := do
  match (← get).state c with
  | .evaluated v => return v
  | .failed error => Run.raiseValue error
  | .inProgress _ => Run.raiseIn [.cell c] (.reentrantForce ((← get).address c))
  | .suspended t =>
    let h ← Run.activeHeap
    modify fun s => s.setState c (.inProgress t)
    match ← Run.attempt (run (some c) t) with
    | .ok v =>
      modify fun s => s.setState c (.evaluated v)
      Run.noteForced h
      return v
    | .error e =>
      modify fun s => s.setState c (.failed (.fault e))
      Run.reraise e

/-- Forces the cell that a value is; a value that is no cell has no state to look at. -/
def forceValue (run : Runner) (v : Value) : Run Value := do
  force run (← Run.cellOf "state" v)

end Retention
