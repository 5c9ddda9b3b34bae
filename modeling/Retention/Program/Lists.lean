import Retention.Program.Arguments
/-!
# Lists — operations on lists, iterators and repetitions

Making lists out of cells, intervals, iterators and other lists, and taking them apart again; the endless repetitions
of lists under both disciplines, and the closures that their laps refer to.
-/
namespace Retention

/-- What a value has for a head: of a list node its first field, of a report the head it tells. -/
def Run.headField (v : Value) : Run Value := do
  match v with
  | .cons _ head _ => return head
  | .report r => return ((← get).reportAt r).head
  | v => Run.lacks v "head"

/-- Applies an operation on lists and iterators. -/
def ListOp.apply (p : Program) (run : Runner) (o : ListOp) (args : List Value) : Run Value := do
  match o, args with
  | .cons, [x, xs] => Run.cons x xs
  | .nil, [] => return .listEnd
  | .newNil, [] => return .nil (← Run.freshTag)
  | .head, [v] => Run.headField v
  | .tail, [v] => Iterator.listAt (.past v)
  | .range, [lo, hi] => return .interval (← Run.freshTag) lo hi
  | .element, [.interval tag lo hi, i] => Sequence.element tag lo hi i
  | .element, [v, _] => Run.lacks v "element"
  | .rest, [.interval _ lo hi] => return .interval (← Run.freshTag) (← Sequence.successor lo) hi
  | .rest, [v] => Run.lacks v "rest"
  | .unfold, [.interval tag lo hi] => return .cell (← Sequence.unfold tag lo hi)
  | .unfold, [v] => Run.lacks v "unfold"
  | .makeGenerator, [lo, hi] => return .cell (← Sequence.between lo hi)
  | .append, [xs, ys] => return .cell (← Sequence.append xs ys)
  | .fromIterable, [v] => return .cell (← Sequence.ofIterator (← Iterator.ofValue v))
  | .iter, [v] => return .iterator (← Iterator.ofValue v)
  | .gen, [f, n] => return .iterator (← Iterator.new .calls (.calls (← Run.functionOf p f) 0 n))
  | .values, [xs] => return .iterator (← Iterator.new .elements (.spine (.before xs)))
  | .next, [v] =>
    match ← Iterator.pull run (← Run.iteratorOf v) with
    | some item => return item
    | none => Run.raise .iteratorExhausted
  | .take, [n, xs] => Run.takeList run n xs
  | o, _ => Run.wrongCount (.list o)

/-- Applies an operation on repetitions. -/
def CycleOp.apply (p : Program) (run : Runner) (o : CycleOp) (args : List Value) : Run Value := do
  match o, args with
  | .shared, [source] => return .cell (← Cycle.shared source)
  | .unshared, [f] =>
    let maker := Maker.function (← Run.functionOf p f)
    return .cell (← Cycle.fresh (← Run.freshTag) maker)
  | .unsharedRange, [lo, hi] => return .cell (← Discipline.cycle lo hi .name)
  | .cycle, [d, lo, hi] => return .cell (← (← Run.disciplineOf d).cycle lo hi)
  | .discipline, [d] => return .discipline (← Run.disciplineOf d)
  | .sharedClosure, [source, origin] => return .shared (← Run.freshTag) source origin
  | .unsharedClosure, [f] =>
    let maker := Maker.function (← Run.functionOf p f)
    return .unshared (← Run.freshTag) maker
  | .call, [v] => Cycle.callValue run v
  | o, _ => Run.wrongCount (.cycle o)

end Retention
