import Retention.Store
import Retention.Text.Integer
import Retention.Text.Quoted
/-!
# Display — the written forms of values, states and errors

`Store.written` writes a value as source text would, `Store.text` as a reader wants it: a text itself, an error by its
message.  Both can fail: an integer may have too many digits, and a list node names its fields by their addresses,
which only cells have.

Cells are followed into their values, so a value that leads back to itself would be written forever; a container, a
repetition, a report, a snapshot or the arguments of an error that are met while they are being written are therefore
only hinted at (`Nesting.writing`).  Cells have no such guard; they are followed `cellDepth` deep.
-/
namespace Retention

/-- What is being written, and so is not written again inside itself. -/
inductive Mark where
  | tag (t : Tag)
  | state (c : CellId) (phase : Phase)
  | report (r : ReportId)
  | arguments (e : FaultId)
  | heap (h : HeapId)
deriving DecidableEq, Repr

/-- How many cells are followed, each into the next. -/
def cellDepth : Nat := 4000

/-- A depth to which no text nests. -/
def textDepth : Nat := Nat.pow 2 32

/-- Where in a text something is written: inside what, and how many cells may still be followed. -/
structure Nesting where
  marks : List Mark := []
  cells : Nat := cellDepth

namespace Nesting

/-- Writes something that is marked while it is being written; inside itself it is only hinted at. -/
def writing (n : Nesting) (mark : Mark) (hint : String) (body : Nesting → Except Fault String) : Except Fault String :=
  if mark ∈ n.marks then .ok hint else body { n with marks := mark :: n.marks }

/-- Writes a cell. -/
def following (n : Nesting) (body : Nesting → Except Fault String) : Except Fault String :=
  match n.cells with
  | 0 => .ok "..."
  | cells + 1 => body { n with cells := cells }

end Nesting

/-- The written form of a truth value. -/
def boolWord (b : Bool) : String := if b then "True" else "False"

/-- The written form of an integer. -/
def integerText (n : Int) : Except Fault String :=
  match Text.decimal? n with
  | some digits => .ok digits
  | none => .error .unwritable

/-- Items between commas. -/
def commaList (items : List String) : String := ", ".intercalate items

/-- The written form of a tuple of written items: a single item is followed by a comma. -/
def tupleText : List String → String
  | [item] => "(" ++ item ++ ",)"
  | items => "(" ++ commaList items ++ ")"

namespace Discipline

/-- The written form of a discipline. -/
def render : Discipline → String
  | need => "<Discipline.NEED: 'need'>"
  | name => "<Discipline.NAME: 'name'>"

end Discipline

namespace Function

/-- The written form of a function. -/
def render : Function → String
  | builtin b => s!"<function {b.word} at 0x?>"
  | defined name _ => s!"<fn {name}>"

/-- What a suspended call of a function shows: its name, or its written form if it has no name. -/
def label : Function → String
  | builtin b => b.word
  | defined name anonymous => if anonymous then s!"<fn {name}>" else name

end Function

/-- What a suspended computation is called. -/
def Thunk.label : Thunk → String
  | intervalNode _ _ _ => "_unfold_range"
  | intervalHead _ _ _ => "element"
  | appendNode _ _ => "_append"
  | iteratorNode _ => "_next_node"
  | cycleStart _ _ => "_start_shared"
  | sharedLap _ _ _ => "_unfold_shared"
  | freshLap _ _ => "_unfold_unshared"
  | call f _ => f.label

/-- The written form of an iterator. -/
def IteratorKind.render : IteratorKind → String
  | calls => "<generator object gen at 0x?>"
  | elements => "<generator object values at 0x?>"
  | kind => s!"<{kind.typeName} object at 0x?>"

/-- The written form of a heap's counters. -/
def Heap.statsText (heap : Heap) : String :=
  s!"HeapStats(created={heap.created}, forced={heap.forced}, reclaimed={heap.reclaimed}, peak_live={heap.peak})"

namespace Store

/-- The address of the cell that a value is; no other value has one. -/
def addressOf (s : Store) : Value → Except Fault Nat
  | .cell c => .ok (s.address c)
  | v => .error (.noAttribute (s.typeName v) "address")

mutual
/-- The written form of a value. -/
def writtenIn (s : Store) : Nat → Nesting → Value → Except Fault String
  | 0, _, _ => .ok "..."
  | depth + 1, n, v =>
    match v with
    | .null => .ok "None"
    | .bool b => .ok (boolWord b)
    | .int i => integerText i
    | .str text => .ok (Text.quoted text)
    | .list tag items => n.writing (.tag tag) "[...]" fun n => do
      return "[" ++ commaList (← items.mapM fun item => s.writtenIn depth n item) ++ "]"
    | .tuple tag items => n.writing (.tag tag) "(...)" fun n => do
      return tupleText (← items.mapM fun item => s.writtenIn depth n item)
    | .dict tag entries => n.writing (.tag tag) "\x7b...\x7d" fun n => do
      let shown ← entries.mapM fun entry => do
        return (← s.writtenIn depth n entry.1) ++ ": " ++ (← s.writtenIn depth n entry.2)
      return "\x7b" ++ commaList shown ++ "\x7d"
    | .cell c => n.following fun n => do
      return s!"<Cell #{s.address c} " ++ (← s.stateTextIn depth n (s.state c)) ++ ">"
    | .cons _ head tail => do
      let head ← s.addressOf head
      let tail ← s.addressOf tail
      return s!"Cons(#{head}, #{tail})"
    | .nil _ => .ok "Nil"
    | .interval tag lo hi => n.writing (.tag tag) "..." fun n => do
      return "Range(lo=" ++ (← s.writtenIn depth n lo) ++ ", hi=" ++ (← s.writtenIn depth n hi) ++ ")"
    | .state c phase => n.writing (.state c phase) "..." fun n => s.writtenStateIn depth n c (s.snapshot c phase)
    | .shared tag source origin => n.writing (.tag tag) "..." fun n => do
      return "SharedClosure(source=" ++ (← s.writtenIn depth n source) ++ ", origin=" ++ (← s.writtenIn depth n origin) ++ ")"
    | .unshared tag maker => n.writing (.tag tag) "..." fun n => do
      match maker with
      | .function f => return "UnsharedClosure(producer=" ++ f.render ++ ")"
      | .interval lo hi =>
        return "UnsharedClosure(producer=functools.partial(" ++ (Function.builtin .makeGenerator).render ++ ", "
          ++ (← s.writtenIn depth n lo) ++ ", " ++ (← s.writtenIn depth n hi) ++ "))"
    | .discipline d => .ok d.render
    | .report r => n.writing (.report r) "..." fun n => do
      let report := s.reportAt r
      let head ← s.writtenIn depth n report.head
      let live ← s.writtenIn depth n report.live
      let peak ← s.writtenIn depth n report.peak
      let created ← s.writtenIn depth n report.created
      let forced ← s.writtenIn depth n report.forced
      let samples ← report.samples.mapM fun sample => s.writtenIn depth n sample
      return "Report(discipline=" ++ report.discipline.render ++ ", head=" ++ head ++ ", live=" ++ live ++ ", peak=" ++ peak
        ++ ", created=" ++ created ++ ", forced=" ++ forced ++ ", samples=" ++ tupleText samples ++ ")"
    | .heap h => n.writing (.heap h) "..." fun n => do
      let heap := s.heap h
      return "Heap(trace=" ++ (← s.writtenIn depth n heap.traces) ++ ", sample_forces="
        ++ (← s.writtenIn depth n heap.samplesForces) ++ ", stats=" ++ heap.statsText ++ ")"
    | .consumer _ => .ok "<lazyheap.driver.Driver object at 0x?>"
    | .iterator i => .ok ((s.iterators[i]?.map fun it : Iterator => it.kind.render).getD "")
    | .fault e => do
      let cause := (s.raised e).cause
      match cause.args with
      | [arg] => return cause.kind.word ++ "(" ++ (← s.writtenIn depth n arg) ++ ")"
      | args => return cause.kind.word ++ (← n.writing (.arguments e) "(...)" fun n => do
          return tupleText (← args.mapM fun arg => s.writtenIn depth n arg))

/-- The text of a state: what a cell in this state shows. -/
def stateTextIn (s : Store) : Nat → Nesting → CellState → Except Fault String
  | 0, _, _ => .ok "..."
  | depth + 1, n, st => do
    match st with
    | .suspended t => s.thunkTextIn depth n t
    | .inProgress t => return "in progress (" ++ (← s.thunkTextIn depth n t) ++ ")"
    | .evaluated v => return "= " ++ (← s.writtenIn depth n v)
    | .failed e => return "failed with " ++ (← s.writtenIn depth n e)

/-- The text of a suspended computation: its name and its arguments, where a cell is named by its address alone. -/
def thunkTextIn (s : Store) : Nat → Nesting → Thunk → Except Fault String
  | 0, _, _ => .ok "..."
  | depth + 1, n, t => do
    let args ← t.args.mapM fun arg =>
      match arg with
      | .cell c => .ok s!"#{s.address c}"
      | arg => s.writtenIn depth n arg
    return "suspended " ++ t.label ++ "(" ++ commaList args ++ ")"

/-- The written form of the state of a cell. -/
def writtenStateIn (s : Store) : Nat → Nesting → CellId → CellState → Except Fault String
  | 0, _, _, _ => .ok "..."
  | depth + 1, n, c, st => do
    match st with
    | .suspended t => s.writtenThunkIn depth n t
    | .inProgress t =>
      return "InProgress(pending=" ++ (← n.writing (.state c .suspended) "..." fun n => s.writtenThunkIn depth n t) ++ ")"
    | .evaluated v => return "Evaluated(value=" ++ (← s.writtenIn depth n v) ++ ")"
    | .failed e => return "Failed(error=" ++ (← s.writtenIn depth n e) ++ ")"

/-- The written form of a suspended computation. -/
def writtenThunkIn (s : Store) : Nat → Nesting → Thunk → Except Fault String
  | 0, _, _ => .ok "..."
  | depth + 1, n, t => do
    let producer ← match t with
      | .intervalHead tag lo hi =>
        (s.writtenIn depth n (.interval tag lo hi)).map fun shown => "<bound method Range.element of " ++ shown ++ ">"
      | .call f _ => .ok f.render
      | t => .ok s!"<function {t.label} at 0x?>"
    let args ← t.args.mapM fun arg => s.writtenIn depth n arg
    return "Suspended(producer=" ++ producer ++ ", args=" ++ tupleText args ++ ")"
end

/-- The written form of a value. -/
def written (s : Store) (v : Value) : Except Fault String := s.writtenIn textDepth {} v

/-- The text of a state. -/
def stateText (s : Store) (st : CellState) : Except Fault String := s.stateTextIn textDepth {} st

mutual
/-- The text of a value. -/
def textIn (s : Store) : Nat → Value → Except Fault String
  | 0, _ => .ok "..."
  | depth + 1, v =>
    match v with
    | .str text => .ok text
    | .discipline d => .ok d.word
    | .state c phase => s.stateText (s.snapshot c phase)
    | .report r => s.reportTextIn depth (s.reportAt r)
    | .fault e => s.messageIn depth e
    | v => s.written v

/-- The text of a report: the line that sums it up. -/
def reportTextIn (s : Store) : Nat → Report → Except Fault String
  | 0, _ => .ok "..."
  | depth + 1, report => do
    let head ← s.textIn depth report.head
    let live ← s.textIn depth report.live
    let peak ← s.textIn depth report.peak
    let created ← s.textIn depth report.created
    let forced ← s.textIn depth report.forced
    return report.discipline.word ++ ": head=" ++ head ++ " live=" ++ live ++ " peak=" ++ peak
      ++ " created=" ++ created ++ " forced=" ++ forced

/-- The message of an error: nothing without arguments, the text of a single argument, else all of them as a tuple.
A missing key is named in its written form. -/
def messageIn (s : Store) : Nat → FaultId → Except Fault String
  | 0, _ => .ok "..."
  | depth + 1, e =>
    let cause := (s.raised e).cause
    match cause.args with
    | [] => .ok ""
    | [arg] => if cause.kind = .key then s.written arg else s.textIn depth arg
    | args => do
      let shown ← args.mapM fun arg => s.writtenIn textDepth { marks := [.arguments e] } arg
      return tupleText shown
end

/-- The text of a value. -/
def text (s : Store) (v : Value) : Except Fault String := s.textIn textDepth v

/-- The line that sums up a report. -/
def reportText (s : Store) (r : Report) : Except Fault String := s.reportTextIn textDepth r

/-- The message of an error. -/
def message (s : Store) (e : FaultId) : Except Fault String := s.messageIn textDepth e

/-- What an error tells in full: its kind and message, and below them the values that were involved, as they are
now. -/
def info (s : Store) (e : FaultId) : Except Fault String := do
  let message ← s.message e
  let shown ← (s.raised e).context.mapM fun item => s.written item
  return (s.raised e).cause.kind.word ++ ": " ++ message ++ String.join (shown.map ("\n    | " ++ ·))

end Store
end Retention
