import Retention.Program.Values
import Retention.Program.Heaps
import Retention.Program.Cells
import Retention.Program.Demands
import Retention.Program.Errors
/-!
# Eval — running thunks and evaluating expressions

This is where the knot is tied.  Evaluating an expression may run thunks, and running a thunk that calls one of the
program's functions evaluates its body.  Evaluation follows the expression; each thunk that is run inside another uses
up one level of `depth`.  So `runAt` is defined by recursion on the depth, and everything else by recursion on what it
is given.
-/
namespace Retention

/-- Applies an operation. -/
def Operation.apply (p : Program) (run : Runner) (o : Operation) (args : List Value) : Run Value :=
  match o with
  | .value o => o.apply run args
  | .heap o => o.apply run args
  | .cell o => o.apply p run args
  | .list o => o.apply p run args
  | .cycle o => o.apply p run args
  | .demand o => o.apply run args
  | .error o => o.apply run args

namespace Run

/-- The value of a variable. -/
def valueOf (name : String) : Run Value := do
  match Entries.get? (· == ·) (← get).bindings name with
  | some v => return v
  | none => raise (.unboundVariable name)

/-- Stores a value under a variable. -/
def assign (name : String) (v : Value) : Run Unit :=
  modify fun s => { s with bindings := Entries.put (· == ·) name v s.bindings }

/-- The argument at an index, counted from the end if it is negative. -/
def argumentAt (args : List Value) (i : Int) : Run Value :=
  let index := if i < 0 then i + args.length else i
  if index < 0 then raise .noArgument
  else
    match args[index.toNat]? with
    | some v => return v
    | none => raise .noArgument

/-- Runs a computation for each number from `i` on, `count` times, with the variable `i` set to the number; the values
so far are given latest first. -/
def timesOnto (body : Run Value) : Nat → Nat → List Value → Run (List Value)
  | 0, _, values => return values.reverse
  | count + 1, i, values => do
    assign "i" (.int i)
    let v ← body
    timesOnto body count (i + 1) (v :: values)

end Run

namespace Expr

mutual
/-- Evaluates an expression, inside a call with the given arguments. -/
def eval (p : Program) (run : Runner) (args : List Value) : Expr → Run Value
  | .constant v => return v
  | .lookup name => Run.valueOf name
  | .assign name e => do
    let v ← e.eval p run args
    Run.assign name v
    return v
  | .argument i => Run.argumentAt args i
  | .argumentAt type => Run.raise (.badIndex type)
  | .choose condition yes no => do
    if ← Run.truth (← condition.eval p run args) then
      yes.eval p run args
    else
      no.eval p run args
  | .recover e handler => do
    match ← Run.attempt (e.eval p run args) with
    | .ok v => return v
    | .error _ => handler.eval p run args
  | .caught e => do
    match ← Run.attempt (e.eval p run args) with
    | .ok _ => return .null
    | .error e => return .fault e
  | .times count e => do
    let n ← Run.integerOf (← count.eval p run args)
    Run.list (← Run.timesOnto (e.eval p run args) n.toNat 0 [])
  | .apply o es => do o.apply p run (← evalAll p run args es)
  | .unreadable word => Run.raise (.unknownName (.str word))
/-- Evaluates expressions, first to last. -/
def evalAll (p : Program) (run : Runner) (args : List Value) : List Expr → Run (List Value)
  | [] => return []
  | e :: es => do
    let v ← e.eval p run args
    let vs ← evalAll p run args es
    return v :: vs
end

end Expr

/-- Calls a function: a builtin at once, one of the program's own by evaluating its body. -/
def Function.call (p : Program) (run : Runner) (f : Function) (args : List Value) : Run Value :=
  match f with
  | .builtin b => b.apply run args
  | .defined name _ =>
    match p.definition? name with
    | some d => d.body.eval p run args
    | none => Run.raise (.unknownName (.str name))

/-- Runs a thunk; the thunks that this runs in turn are run as given. -/
def Thunk.produce (p : Program) (run : Runner) : Thunk → Run Value
  | .intervalNode tag lo hi => Sequence.intervalNode tag lo hi
  | .intervalHead tag lo hi => Sequence.element tag lo hi (.int 0)
  | .appendNode xs ys => Sequence.appendNode run xs ys
  | .iteratorNode i => Sequence.iteratorNode run i
  | .cycleStart origin source => Cycle.start run origin source
  | .sharedLap tag source origin => Cycle.lap run source (.sharedLap tag source origin)
  | .freshLap tag maker => Cycle.freshLap run tag maker
  | .call f args => f.call p run args

/-- Runs thunks that nest up to `depth` levels deep. -/
def Program.runAt (p : Program) : Nat → Runner
  | 0, owner, t => Run.turn owner t (throw .tooDeep)
  | depth + 1, owner, t => Run.turn owner t (t.produce p (p.runAt depth))

/-- How deep thunks may nest. -/
def depthLimit : Nat := 5000

/-- Runs a thunk of a program. -/
def Program.run (p : Program) : Runner := p.runAt depthLimit

end Retention
