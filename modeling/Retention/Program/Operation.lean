/-!
# Operation — the operations of the program language

The operations in families, each with the word that programs write for it.  `Operation.ofWord?` reads the words.
-/
namespace Retention

/-- Operations on plain values. -/
inductive ValueOp where
  | int | list | tuple | dict | seq | add | mul | same | equal | bool | len | written | text
deriving DecidableEq, Repr, Inhabited

/-- Operations on heaps. -/
inductive HeapOp where
  | new | openNew | enter | exit | close | current | root | unroot | roots | reachable | live | tracked | sample | collect
  | stats | samples
deriving DecidableEq, Repr, Inhabited

/-- Operations on cells. -/
inductive CellOp where
  | suspend | fix | ready | rawFailed | rawInProgress | force | forceMethod | evaluated | address | state | cells | trace
deriving DecidableEq, Repr, Inhabited

/-- Operations on lists and iterators. -/
inductive ListOp where
  | cons | nil | newNil | head | tail | range | element | rest | unfold | makeGenerator | append | fromIterable | iter
  | gen | values | next | take
deriving DecidableEq, Repr, Inhabited

/-- Operations on repetitions. -/
inductive CycleOp where
  | shared | unshared | unsharedRange | cycle | discipline | sharedClosure | unsharedClosure | call
deriving DecidableEq, Repr, Inhabited

/-- Operations that demand elements, and what is measured with them. -/
inductive DemandOp where
  | dropN | headOf | driver | drop | driverHead | headValue | remaining | steps | runScenario | report
deriving DecidableEq, Repr, Inhabited

/-- Operations on errors. -/
inductive ErrorOp where
  | error | raise | buildError
deriving DecidableEq, Repr, Inhabited

/-- An operation. -/
inductive Operation where
  | value (o : ValueOp)
  | heap (o : HeapOp)
  | cell (o : CellOp)
  | list (o : ListOp)
  | cycle (o : CycleOp)
  | demand (o : DemandOp)
  | error (o : ErrorOp)
deriving DecidableEq, Repr, Inhabited

namespace Operation

/-- The words for operations. -/
def words : List (String × Operation) := [
  ("int", .value .int), ("list", .value .list), ("tuple", .value .tuple), ("dict", .value .dict),
  ("seq", .value .seq), ("add", .value .add), ("mul", .value .mul), ("is", .value .same), ("eq", .value .equal),
  ("bool", .value .bool), ("len", .value .len), ("repr", .value .written), ("text", .value .text),
  ("new_heap", .heap .new), ("open", .heap .openNew), ("enter", .heap .enter), ("exit", .heap .exit),
  ("close", .heap .close), ("current", .heap .current), ("root", .heap .root), ("unroot", .heap .unroot),
  ("roots", .heap .roots), ("reachable", .heap .reachable), ("live", .heap .live), ("tracked", .heap .tracked),
  ("sample", .heap .sample), ("collect", .heap .collect), ("stats", .heap .stats), ("samples", .heap .samples),
  ("suspend", .cell .suspend), ("fix", .cell .fix), ("ready", .cell .ready), ("raw_failed", .cell .rawFailed),
  ("raw_in_progress", .cell .rawInProgress), ("force", .cell .force), ("force_method", .cell .forceMethod),
  ("evaluated", .cell .evaluated), ("address", .cell .address), ("state", .cell .state), ("cells", .cell .cells),
  ("trace", .cell .trace),
  ("cons", .list .cons), ("nil", .list .nil), ("new_nil", .list .newNil), ("head", .list .head),
  ("tail", .list .tail), ("range", .list .range), ("element", .list .element), ("rest", .list .rest),
  ("unfold", .list .unfold), ("make_generator", .list .makeGenerator), ("append", .list .append),
  ("from_iterable", .list .fromIterable), ("iter", .list .iter), ("gen", .list .gen), ("values", .list .values),
  ("next", .list .next), ("take", .list .take),
  ("cycle_shared", .cycle .shared), ("cycle_unshared", .cycle .unshared),
  ("cycle_unshared_range", .cycle .unsharedRange), ("cycle", .cycle .cycle), ("discipline", .cycle .discipline),
  ("shared_closure", .cycle .sharedClosure), ("unshared_closure", .cycle .unsharedClosure), ("call", .cycle .call),
  ("drop_n", .demand .dropN), ("head_of", .demand .headOf), ("driver", .demand .driver), ("drop", .demand .drop),
  ("driver_head", .demand .driverHead), ("head_value", .demand .headValue), ("remaining", .demand .remaining),
  ("steps", .demand .steps), ("run_scenario", .demand .runScenario), ("report", .demand .report),
  ("error", .error .error), ("raise", .error .raise), ("build_error", .error .buildError)]

/-- The operation that a word means. -/
def ofWord? (w : String) : Option Operation := (words.find? (·.1 == w)).map (·.2)

/-- The word for an operation. -/
def word (o : Operation) : String := ((words.find? (·.2 == o)).map (·.1)).getD ""

end Operation
end Retention
