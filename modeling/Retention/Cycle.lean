import Retention.Iterator
/-!
# Cycle — endless repetition, shared or built anew

Both disciplines repeat a list without end, one lap at a time: a lap is the list, concatenated with a suspended next
lap.  They differ in what a lap refers to.

A shared repetition evaluates the list once.  Every lap refers to the list and to the origin, the cell that the
repetition started as; so all that was consumed stays within reach as long as the repetition itself.  A fresh
repetition refers only to what builds the list, and builds it again for every lap.

A list with no elements cannot be repeated: the next lap would be looked for forever.
-/
namespace Retention
namespace Cycle

/-- One pass over a list, followed by the next lap. -/
def lap (run : Runner) (source : Value) (next : Thunk) : Run Value := do
  let c ← Run.cellOf "state" source
  if !(← Run.truth (← force run c)) then
    Run.raiseIn [source] (.emptyCycle ((← get).address c))
  let rest ← Run.suspend next
  force run (← Sequence.append source (.cell rest))

/-- The endless repetition of a list, evaluated once and shared by all laps. -/
def shared (source : Value) : Run CellId := Run.suspendSelf fun origin => .cycleStart origin source

/-- The first lap of a shared repetition. -/
def start (run : Runner) (origin : CellId) (source : Value) : Run Value := do
  lap run source (.sharedLap (← Run.freshTag) source (.cell origin))

/-- The endless repetition of a list that is built for every lap. -/
def fresh (tag : Tag) (maker : Maker Value) : Run CellId := Run.suspend (.freshLap tag maker)

/-- Builds a list. -/
def make (run : Runner) : Maker Value → Run Value
  | .function f => run none (.call f [])
  | .interval lo hi => return .cell (← Sequence.between lo hi)

/-- Calls a value: what the laps of a fresh repetition refer to builds a list, and no other value can be called. -/
def callValue (run : Runner) : Value → Run Value
  | .unshared _ maker => make run maker
  | v => do Run.raise (.notCallable (← Run.typeName v))

/-- A lap of a fresh repetition. -/
def freshLap (run : Runner) (tag : Tag) (maker : Maker Value) : Run Value := do
  lap run (← make run maker) (.freshLap tag maker)

end Cycle

/-- The endless repetition of the integers between two bounds, under a discipline. -/
def Discipline.cycle (lo hi : Value) : Discipline → Run CellId
  | .need => do Cycle.shared (.cell (← Sequence.between lo hi))
  | .name => do Cycle.fresh (← Run.freshTag) (.interval lo hi)

end Retention
