import Retention.Sequence
/-!
# Iterator — one-shot iterators, and lists over them

An iterator gives each of its items once (`pull`).  It runs over items at hand, over the results of calling a function
on 0, 1, …, or over the elements of a lazy list; an iterator that computes its items is over for good once an item
raises an error.  A lazy list over an iterator pulls one item for each node that is forced, so several lists over one
iterator share its items among them.
-/
namespace Retention

namespace Store

/-- How far an iterator has come. -/
def cursor (s : Store) (i : IteratorId) : Cursor := (s.iterators[i]?.map (·.cursor)).getD .finished

/-- Moves an iterator. -/
def setCursor (s : Store) (i : IteratorId) (cursor : Cursor) : Store :=
  { s with iterators := s.iterators.modify i fun it => { it with cursor := cursor } }

end Store

namespace Iterator

/-- A new iterator. -/
def new (kind : IteratorKind) (cursor : Cursor) : Run IteratorId :=
  modifyGet fun s => (s.iterators.size, { s with iterators := s.iterators.push ⟨kind, cursor⟩ })

/-- The iterator over a value: the value itself if it is one. -/
def ofValue (v : Value) : Run IteratorId :=
  match v with
  | .iterator i => return i
  | .list _ items => new .list (.items items)
  | .tuple _ items => new .tuple (.items items)
  | .dict _ entries => new .keys (.items (entries.map (·.1)))
  | .str text =>
    new (if text.toList.all fun c => c.toNat < 128 then .asciiText else .text)
      (.items (text.toList.map fun c => .str (String.singleton c)))
  | _ => do Run.raise (.notIterable (← Run.typeName v))

/-- Forces the head of a node: of a list node its first field, of a report the head it tells. -/
def forceHead (run : Runner) (node : Value) : Run Value := do
  match node with
  | .cons _ head _ => forceValue run head
  | .report r => forceValue run ((← get).reportAt r).head
  | .consumer _ => Run.raise (.noAttribute "method" "state")
  | v => Run.lacks v "head"

/-- The list at a place of a walk: after a node it is the tail, which only list nodes have. -/
def listAt (place : Place) : Run Value :=
  match place with
  | .before xs => return xs
  | .past (.cons _ _ tail) => return tail
  | .past v => Run.lacks v "tail"

/-- The next element of a walk, forced, and the place after it; nothing at the end.  Whether there is an element is the
truth of the node. -/
def step (run : Runner) (place : Place) : Run (Option (Value × Place)) := do
  let node ← forceValue run (← listAt place)
  if ← Run.truth node then
    return some (← forceHead run node, .past node)
  else
    return none

/-- Computes an item.  The end of another iterator must not pass for the end of this one: it is raised as an error of
its own. -/
def guarded {α : Type} (x : Run α) : Run α := do
  match ← Run.attempt x with
  | .ok a => return a
  | .error e =>
    match (← get).faults[e]? with
    | some raised => if raised.cause.kind = .stopIteration then Run.raise .exhaustedInside else Run.reraise e
    | none => Run.reraise e

/-- Computes the next item of an iterator.  Meanwhile it is busy; if there is no item or an error is raised, it is
finished. -/
def compute (i : IteratorId) (item : Run (Option (Value × Cursor))) : Run (Option Value) := do
  modify fun s => s.setCursor i .busy
  match ← Run.attempt (guarded item) with
  | .ok (some (v, cursor)) =>
    modify fun s => s.setCursor i cursor
    return some v
  | .ok none =>
    modify fun s => s.setCursor i .finished
    return none
  | .error e =>
    modify fun s => s.setCursor i .finished
    Run.reraise e

/-- Takes the next item from an iterator. -/
def pull (run : Runner) (i : IteratorId) : Run (Option Value) := do
  match (← get).cursor i with
  | .finished => return none
  | .busy => Run.raise .iteratorBusy
  | .items [] =>
    modify fun s => s.setCursor i .finished
    return none
  | .items (v :: rest) =>
    modify fun s => s.setCursor i (.items rest)
    return some v
  | .calls f next stop =>
    compute i do
      match stop.int? with
      | none => Run.raise (.notACount (← Run.typeName stop))
      | some n => if next < n then return some (← run none (.call f [.int next]), .calls f (next + 1) stop) else return none
  | .spine place =>
    compute i do
      return (← step run place).map fun (v, place) => (v, .spine place)

/-- All further items of an iterator, after those already taken, which are given latest first.  No iterator has more
than the given number. -/
def drainOnto (run : Runner) (i : IteratorId) : Nat → List Value → Run (List Value)
  | 0, taken => return taken.reverse
  | n + 1, taken => do
    match ← pull run i with
    | none => return taken.reverse
    | some v => drainOnto run i n (v :: taken)

/-- All items of a value that has items; an iterator is used up by this. -/
def items (run : Runner) (v : Value) : Run (List Value) :=
  match v with
  | .list _ items | .tuple _ items => return items
  | v => do drainOnto run (← ofValue v) sizeLimit []

/-- Ends an iterator that computes its items. -/
def close (i : IteratorId) : Run Unit := do
  match (← get).cursor i with
  | .busy => Run.raise .iteratorBusy
  | _ => modify fun s => s.setCursor i .finished

end Iterator

namespace Sequence

/-- The lazy list of the items of an iterator. -/
def ofIterator (i : IteratorId) : Run CellId := Run.suspend (.iteratorNode i)

/-- The node of a list over an iterator. -/
def iteratorNode (run : Runner) (i : IteratorId) : Run Value := do
  match ← Iterator.pull run i with
  | none => return .listEnd
  | some v => do
    let head ← Run.ready v
    let tail ← ofIterator i
    Run.cons (.cell head) (.cell tail)

/-- The values of up to `n` elements from a place on, after those already taken, which are given latest first. -/
def takeOnto (run : Runner) : Nat → List Value → Place → Run (List Value)
  | 0, taken, _ => return taken.reverse
  | n + 1, taken, place => do
    match ← Iterator.guarded (Iterator.step run place) with
    | none => return taken.reverse
    | some (v, place) => takeOnto run n (v :: taken) place

/-- The values of the first `n` elements of a list, or of all if there are fewer.  No node is forced beyond the one of
the last element. -/
def take (run : Runner) (n : Nat) (xs : Value) : Run (List Value) := takeOnto run n [] (.before xs)

end Sequence
end Retention
