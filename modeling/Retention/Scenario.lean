import Retention.Consumer
/-!
# Scenario — measuring a discipline

A scenario opens a heap of its own, drops elements from the endless repetition of an interval, reads the next one, and
reports what the heap then keeps alive and what it all cost.  The heap is left again however the scenario ends.
-/
namespace Retention

namespace Run

/-- The integer that a value stands for. -/
def integerOf (v : Value) : Run Int :=
  match v.int? with
  | some n => return n
  | none => do raise (.notACount (← typeName v))

end Run

/-- What a scenario is to do: the bounds of the interval that is repeated, how many elements are stepped over, whether
all samples are kept, and whether one is taken after every step. -/
structure Scenario where
  lo : Value
  hi : Value
  drop : Value
  traces : Value := .bool false
  samples : Value := .bool true
deriving Repr, Inhabited

namespace Scenario

/-- Enters a new heap for the time of a computation and leaves it whether the computation succeeds or not. -/
def within {α : Type} (traces : Value) (body : HeapId → Run α) : Run α := do
  let h ← Run.newHeap { traces := traces, temporary := true }
  Run.enter h
  let result ← Run.attempt (body h)
  Run.leave h
  match result with
  | .ok a => return a
  | .error e => Run.reraise e

/-- Logs what is to be run, if it can be told in integers. -/
def announce (x : Scenario) (d : Discipline) : Run Unit :=
  match x.lo.int?, x.hi.int?, x.drop.int? with
  | some lo, some hi, some drop => Run.note (.running d lo hi drop)
  | _, _, _ => return

/-- What a scenario does on its heap. -/
def measure (run : Runner) (x : Scenario) (d : Discipline) (h : HeapId) : Run Report := do
  x.announce d
  let consumer ← Consumer.new h x.samples (.cell (← d.cycle x.lo x.hi))
  discard (Consumer.drop run consumer (← Run.integerOf x.drop))
  let head ← Consumer.headValue run consumer
  let live ← Run.sample h
  let heap := (← get).heap h
  return {
    discipline := d
    head := head
    live := .int live
    peak := .int heap.peak
    created := .int heap.created
    forced := .int heap.forced
    samples := heap.samples.toList.map fun n : Nat => .int n }

/-- Runs a scenario under a discipline. -/
def report (run : Runner) (x : Scenario) (d : Discipline) : Run Report := within x.traces (x.measure run d)

end Scenario
end Retention
