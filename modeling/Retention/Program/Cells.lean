import Retention.Program.Arguments
/-!
# Cells — operations on cells

Making cells in every state, forcing them, and looking at them without forcing them.
-/
namespace Retention

/-- What a value tells of itself that should be cells: what the state of a cell refers to, the fields of a list node or
of a shared repetition, and nothing for the end of a list. -/
def Run.cellsOf (v : Value) : Run (List Value) := do
  match v with
  | .cell c => return (← get).refs c
  | .cons _ _ _ | .nil _ | .shared _ _ _ => return v.refs
  | v => Run.lacks v "cells"

/-- Applies an operation on cells. -/
def CellOp.apply (p : Program) (run : Runner) (o : CellOp) (args : List Value) : Run Value := do
  match o, args with
  | .suspend, f :: args => return .cell (← Run.suspend (.call (← Run.functionOf p f) args))
  | .fix, f :: args =>
    let f ← Run.functionOf p f
    return .cell (← Run.suspendSelf fun c => .call f (.cell c :: args))
  | .ready, [v] => return .cell (← Run.ready v)
  | .rawFailed, [v] => return .cell (← Run.newCell (.failed v))
  | .rawInProgress, f :: args =>
    return .cell (← Run.newCell (.inProgress (.call (← Run.functionOf p f) args)))
  | .force, [v] => forceValue run v
  | .forceMethod, [v] => Retention.force run (← Run.cellOf "force" v)
  | .evaluated, [v] =>
    let c ← Run.cellOf "evaluated" v
    return .bool (((← get).state c).phase == .evaluated)
  | .address, [v] =>
    let c ← Run.cellOf "address" v
    return .int ((← get).address c)
  | .state, [v] =>
    let c ← Run.cellOf "state" v
    return .state c ((← get).state c).phase
  | .cells, [v] => Run.list (← Run.cellsOf v)
  | .trace, [v] => Run.list v.refs
  | o, _ => Run.wrongCount (.cell o)

end Retention
