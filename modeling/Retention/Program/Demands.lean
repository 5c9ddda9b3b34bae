import Retention.Program.Lists
/-!
# Demands — operations that ask lists for elements

Stepping along lists, consumers, and scenarios with their reports.
-/
namespace Retention

/-- A report as a value. -/
def Run.newReport (r : Report) : Run Value :=
  modifyGet fun s => (.report s.reports.size, { s with reports := s.reports.push r })

/-- What is asked for the head of what it stands before: a consumer.  Any other value that has a head has it as a
field, which is called instead. -/
def Run.askHead (run : Runner) (v : Value) : Run Value := do
  match v with
  | .consumer d => Consumer.head run d
  | v => Cycle.callValue run (← Run.headField v)

/-- Applies an operation that demands elements. -/
def DemandOp.apply (run : Runner) (o : DemandOp) (args : List Value) : Run Value := do
  match o, args with
  | .dropN, [n, xs] => Run.dropValue run n xs
  | .headOf, [xs] => Sequence.head run xs
  | .driver, xs :: options =>
    let h ← match options[1]?.getD .null with
      | .null => Run.activeHeap
      | v => Run.heapOf "root" v
    return .consumer (← Consumer.new h (options[0]?.getD (.bool true)) xs)
  | .drop, [d, n] =>
    let d ← Run.consumerOf "drop" d
    Consumer.drop run d (← Run.integerOf n)
  | .driverHead, [v] => Run.askHead run v
  | .headValue, [d] => Consumer.headValue run (← Run.consumerOf "head_value" d)
  | .remaining, [d] => Consumer.remaining (← Run.consumerOf "remaining" d)
  | .steps, [d] => return .int (← Consumer.find (← Run.consumerOf "steps" d)).steps
  | .runScenario, d :: lo :: hi :: n :: options =>
    let d ← Run.disciplineOf d
    let scenario : Scenario :=
      ⟨lo, hi, n, options[0]?.getD (.bool false), options[1]?.getD (.bool true)⟩
    Run.newReport (← scenario.report run d)
  | .report, d :: x :: live :: peak :: created :: forced :: options =>
    let d ← Run.disciplineOf d
    let samples ← Iterator.items run (options[0]?.getD .unit)
    Run.newReport ⟨d, x, live, peak, created, forced, samples⟩
  | o, _ => Run.wrongCount (.demand o)

/-- Calls a builtin function. -/
def Builtin.apply (run : Runner) (b : Builtin) (args : List Value) : Run Value :=
  match b, args with
  | .force, [v] => forceValue run v
  | .headOf, [xs] => Sequence.head run xs
  | .dropN, [n, xs] => Run.dropValue run n xs
  | .take, [n, xs] => Run.takeList run n xs
  | .makeGenerator, [lo, hi] => return .cell (← Sequence.between lo hi)
  | .append, [xs, ys] => return .cell (← Sequence.append xs ys)
  | .cycleShared, [source] => return .cell (← Cycle.shared source)
  | b, _ => Run.raise (.argumentCount b.word)

end Retention
