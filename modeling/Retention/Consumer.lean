import Retention.Cycle
/-!
# Consumer — demand, one element at a time

A consumer walks along a list and keeps what is left of it as the root `remaining` of its heap, so the heap sees
exactly what the consumer still holds.  It stops where a step leads nowhere new.
-/
namespace Retention
namespace Consumer

/-- The root name under which a consumer keeps what is left of its list. -/
def rootName : Value := .str "remaining"

/-- A new consumer of a list on a heap; it samples if `samples` counts as true. -/
def new (h : HeapId) (samples xs : Value) : Run ConsumerId := do
  Run.setRoot h rootName xs
  if ← Run.truth samples then
    discard (Run.sample h)
  modifyGet fun s => (s.consumers.size, { s with consumers := s.consumers.push ⟨h, samples, 0⟩ })

/-- The record of a consumer. -/
def find (d : ConsumerId) : Run Consumer := return (← get).consumers[d]?.getD ⟨0, .bool false, 0⟩

/-- What is left of the list. -/
def remaining (d : ConsumerId) : Run Value := do Run.root (← find d).heap rootName

/-- Steps over one element, and tells whether there was one. -/
def step (run : Runner) (d : ConsumerId) : Run Bool := do
  let current ← remaining d
  let rest ← Sequence.dropSteps run 1 current
  let consumer ← find d
  if rest.same current then
    Run.note (.ranOff consumer.steps)
    return false
  else
    Run.setRoot consumer.heap rootName rest
    let steps := consumer.steps + 1
    modify fun s => { s with consumers := s.consumers.modify d fun x => { x with steps := steps } }
    if ← Run.truth consumer.samples then
      Run.note (.step steps (← Run.sample consumer.heap))
    return true

/-- Takes up to `n` steps. -/
def advance (run : Runner) (d : ConsumerId) : Nat → Run Unit
  | 0 => return
  | n + 1 => do
    if ← step run d then advance run d n

/-- Steps over up to `n` elements and hands out what is left. -/
def drop (run : Runner) (d : ConsumerId) (n : Int) : Run Value := do
  advance run d n.toNat
  remaining d

/-- The head of what is left. -/
def head (run : Runner) (d : ConsumerId) : Run Value := do
  Sequence.head run (← remaining d)

/-- The value of the next element. -/
def headValue (run : Runner) (d : ConsumerId) : Run Value := do
  forceValue run (← head run d)

end Consumer
end Retention
