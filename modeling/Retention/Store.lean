import Retention.Fault
import Retention.Entries
/-!
# Store — everything that persists

One store holds the cells, the heaps and all else that values refer to by number.  A cell's record keeps the state it
was made in beside the state it is in, and its heap and address never change.  A heap's record holds its roots, its
table of tracked cells, its counters, and the contexts it was entered from.  The history keeps every turn in the
running of thunks (`Turn`): which one began to run for which cell, and how that ended.

Nothing is ever removed from the store: a heap that collects or closes only shortens its own table.
-/
namespace Retention

/-- A cell: where it was registered, the state it was made in, and the state it is in. -/
structure Cell where
  heap : HeapId
  address : Nat
  initial : CellState
  state : CellState
deriving Repr, Inhabited

/-- A heap: its flags, its counters, its roots, and the cells it tracks.  A flag is set by any value that counts as
true. -/
structure Heap where
  /-- Whether every sampled live count is kept. -/
  traces : Value := .bool false
  /-- Whether every completed force takes a sample. -/
  samplesForces : Value := .bool false
  /-- How many cells were ever registered; the last of them has this address. -/
  created : Nat := 0
  forced : Nat := 0
  reclaimed : Nat := 0
  peak : Nat := 0
  samples : Array Nat := #[]
  /-- What is kept alive by name; names may be any values that can be keys. -/
  roots : Entries Value Value := []
  /-- The cells that were registered and neither collected nor dropped by closing. -/
  table : Array CellId := #[]
  /-- Whether the heap was made for the time of one scenario, and so is nobody's to refer to. -/
  temporary : Bool := false
  /-- For each entry not yet left, latest first: the heap that was active before it. -/
  contexts : List (Option HeapId) := []
deriving Repr, Inhabited

/-- What an iterator runs over. -/
inductive IteratorKind where
  | list | tuple | asciiText | text | keys
  /-- The results of calling a function on 0, 1, … -/
  | calls
  /-- The elements of a lazy list. -/
  | elements
deriving DecidableEq, Repr, Inhabited

/-- The name of the type of the iterators of a kind. -/
def IteratorKind.typeName : IteratorKind → String
  | list => "list_iterator"
  | tuple => "tuple_iterator"
  | asciiText => "str_ascii_iterator"
  | text => "str_iterator"
  | keys => "dict_keyiterator"
  | calls | elements => "generator"

/-- Where a walk along a list stands. -/
inductive Place where
  /-- Before a list that is still to be forced. -/
  | before (xs : Value)
  /-- At a node whose element was given; its tail comes next. -/
  | past (node : Value)
deriving Repr, Inhabited

/-- How far an iterator has come. -/
inductive Cursor where
  | items (rest : List Value)
  /-- The function is called on the integers from `next` on, as long as they are less than `stop`. -/
  | calls (f : Function) (next : Int) (stop : Value)
  | spine (place : Place)
  /-- An item is being computed. -/
  | busy
  | finished
deriving Repr, Inhabited

/-- A one-shot iterator. -/
structure Iterator where
  kind : IteratorKind
  cursor : Cursor
deriving Repr, Inhabited

/-- A consumer of a list: its heap, whose root `remaining` is what is left of the list, the flag for a sample after
every step, and how many steps it took. -/
structure Consumer where
  heap : HeapId
  samples : Value
  steps : Nat
deriving Repr, Inhabited

/-- What a scenario reports.  Its numbers are integers in the report of a scenario; a program can also make a report of
other values. -/
structure Report where
  discipline : Discipline
  head : Value
  live : Value
  peak : Value
  created : Value
  forced : Value
  samples : List Value
deriving Repr, Inhabited

/-- An error that was raised or built: its cause, and the values that were involved. -/
structure Raised where
  cause : Fault
  context : List Value
deriving Repr, Inhabited

/-- What the log tells. -/
inductive Event where
  | opened
  | closing (created forced peak : Nat)
  | collected (dead live : Nat)
  | running (d : Discipline) (lo hi drop : Int)
  | step (steps live : Nat)
  | ranOff (steps : Nat)
deriving DecidableEq, Repr, Inhabited

/-- The line that the log writes for an event: the part of the program it concerns, and what happened. -/
def Event.render : Event → String
  | opened => "lazyheap.heap.context: Opened heap 0x?"
  | closing created forced peak =>
    s!"lazyheap.heap.context: Closing heap 0x?: {created} cells created, {forced} forced, peak live {peak}"
  | collected dead live => s!"lazyheap.heap.context: Collected {dead} cells, {live} still live"
  | running d lo hi drop => s!"lazyheap.driver: Running {d.word}: cycle [{lo}..{hi}], drop {drop}"
  | step steps live => s!"lazyheap.driver: Step {steps}: {live} live cells"
  | ranOff steps => s!"lazyheap.driver: Ran off the end after {steps} steps"

/-- A turn in the running of thunks: one begins to run, or the run of one ends.  Its owner is the cell that is being
forced; a function that is called for a list or an item has no owner. -/
inductive Turn where
  /-- A thunk begins to run, while the given heap is active. -/
  | began (owner : Option CellId) (heap : Option HeapId) (t : Thunk)
  | returned (owner : Option CellId) (v : Value)
  | raised (owner : Option CellId) (e : FaultId)
deriving Repr, Inhabited

/-- The name of the program's function that a turn calls. -/
def Turn.called? : Turn → Option String
  | began _ _ (.call (.defined name _) _) => some name
  | _ => none

/-- The store. -/
structure Store where
  cells : Array Cell := #[]
  heaps : Array Heap := #[]
  /-- The heap that cells are made and forced in, if there is one. -/
  active : Option HeapId := none
  faults : Array Raised := #[]
  iterators : Array Iterator := #[]
  consumers : Array Consumer := #[]
  reports : Array Report := #[]
  /-- The next tag for a composite value. -/
  nextTag : Tag := 1
  /-- The values of the variables. -/
  bindings : Entries String Value := []
  /-- Which thunks were run and how that ended, latest first. -/
  history : List Turn := []
  /-- What happened, latest first. -/
  events : List Event := []
deriving Inhabited

namespace Store

/-- The state of a cell. -/
def state (s : Store) (c : CellId) : CellState := (s.cells[c]?.map (·.state)).getD (.evaluated .null)

/-- The address of a cell in the heap that registered it. -/
def address (s : Store) (c : CellId) : Nat := (s.cells[c]?.map (·.address)).getD 0

/-- The record of a heap. -/
def heap (s : Store) (h : HeapId) : Heap := s.heaps[h]?.getD {}

/-- The number by which a program knows a heap: temporary heaps are not counted. -/
def heapNumber (s : Store) (h : HeapId) : Nat := (s.heaps.toList.take h).countP fun heap => !heap.temporary

/-- The thunk that a cell was made with, if it was made suspended or in progress. -/
def thunk? (s : Store) (c : CellId) : Option Thunk := s.cells[c]?.bind (·.initial.thunk?)

/-- The state that a snapshot of a cell shows. -/
def snapshot (s : Store) (c : CellId) : Phase → CellState
  | .suspended => (s.thunk? c).elim (s.state c) .suspended
  | .inProgress => (s.thunk? c).elim (s.state c) .inProgress
  | .evaluated => s.state c
  | .failed => s.state c

/-- What a cell refers to in its present state. -/
def refs (s : Store) (c : CellId) : List Value := (s.state c).refs

/-- An error of the store. -/
def raised (s : Store) (e : FaultId) : Raised := s.faults[e]?.getD ⟨.notAnError, []⟩

/-- The names of the program's functions that were called after the first `n` turns, in order. -/
def callsSince (s : Store) (n : Nat) : List String :=
  ((s.history.take (s.history.length - n)).filterMap Turn.called?).reverse

/-- A report of the store. -/
def reportAt (s : Store) (r : ReportId) : Report :=
  s.reports[r]?.getD ⟨.need, .null, .null, .null, .null, .null, []⟩

/-- The name of the type of a value. -/
def typeName (s : Store) : Value → String
  | .null => "NoneType"
  | .bool _ => "bool"
  | .int _ => "int"
  | .str _ => "str"
  | .list _ _ => "list"
  | .tuple _ _ => "tuple"
  | .dict _ _ => "dict"
  | .cell _ => "Cell"
  | .cons _ _ _ => "Cons"
  | .nil _ => "Nil"
  | .interval _ _ _ => "Range"
  | .state _ phase => phase.word
  | .shared _ _ _ => "SharedClosure"
  | .unshared _ _ => "UnsharedClosure"
  | .discipline _ => "Discipline"
  | .report _ => "Report"
  | .heap _ => "Heap"
  | .consumer _ => "Driver"
  | .iterator i => (s.iterators[i]?.map (fun it : Iterator => it.kind.typeName)).getD ""
  | .fault e => (s.raised e).cause.kind.word

/-- Puts a cell into a state. -/
def setState (s : Store) (c : CellId) (st : CellState) : Store :=
  { s with cells := s.cells.modify c fun cell => { cell with state := st } }

/-- Notes a turn in the running of thunks. -/
def recorded (s : Store) (turn : Turn) : Store := { s with history := turn :: s.history }

/-- Changes the record of a heap. -/
def updateHeap (s : Store) (h : HeapId) (f : Heap → Heap) : Store :=
  { s with heaps := s.heaps.modify h f }

/-- Registers a cell in a heap: it gets the next number of the store and the next address of the heap, and the heap
tracks it. -/
def register (s : Store) (h : HeapId) (st : CellState) : Store :=
  let c := s.cells.size
  let address := (s.heap h).created + 1
  { s with cells := s.cells.push ⟨h, address, st, st⟩ }.updateHeap h fun heap =>
    { heap with created := address, table := heap.table.push c }

theorem state_setState_self (s : Store) (c : CellId) (st : CellState) (hc : c < s.cells.size) :
    (s.setState c st).state c = st := by
  unfold setState state
  rw [Array.getElem?_modify, if_pos rfl, Array.getElem?_eq_getElem hc]
  rfl

theorem state_setState_of_ne (s : Store) {c d : CellId} (st : CellState) (h : d ≠ c) :
    (s.setState c st).state d = s.state d := by
  simp [setState, state, Array.getElem?_modify, Ne.symm h]

theorem address_setState (s : Store) (c d : CellId) (st : CellState) :
    (s.setState c st).address d = s.address d := by
  unfold setState address
  rw [Array.getElem?_modify]
  split
  · cases s.cells[d]? <;> rfl
  · rfl

theorem heap_updateHeap {s : Store} {h : HeapId} (hh : h < s.heaps.size) (f : Heap → Heap) :
    (s.updateHeap h f).heap h = f (s.heap h) := by
  unfold updateHeap heap
  rw [Array.getElem?_modify, if_pos rfl, Array.getElem?_eq_getElem hh]
  rfl

theorem size_updateHeap (s : Store) (h : HeapId) (f : Heap → Heap) : (s.updateHeap h f).heaps.size = s.heaps.size :=
  Array.size_modify ..

theorem size_setState (s : Store) (c : CellId) (st : CellState) : (s.setState c st).cells.size = s.cells.size :=
  Array.size_modify ..

theorem size_register (s : Store) (h : HeapId) (st : CellState) :
    (s.register h st).cells.size = s.cells.size + 1 := Array.size_push ..

/-- A cell of which nothing is known counts as evaluated. -/
theorem state_of_size_le {s : Store} {c : CellId} (h : s.cells.size ≤ c) : s.state c = .evaluated .null := by
  unfold state
  rw [Array.getElem?_eq_none h]
  rfl

theorem state_of_cells {s e : Store} (h : e.cells = s.cells) : e.state = s.state := by
  funext c
  unfold state
  rw [h]

theorem refs_of_state {s : Store} {c : CellId} {st : CellState} (h : s.state c = st) : s.refs c = st.refs :=
  congrArg CellState.refs h

theorem lt_of_state {s : Store} {c : CellId} {st : CellState} (h : s.state c = st) (hst : st ≠ .evaluated .null) :
    c < s.cells.size := Nat.lt_of_not_le fun hc => hst (h.symm.trans (state_of_size_le hc))

theorem lt_of_suspended {s : Store} {c : CellId} {t : Thunk} (h : s.state c = .suspended t) : c < s.cells.size :=
  lt_of_state h (by simp)

theorem state_register_new (s : Store) (h : HeapId) (st : CellState) : (s.register h st).state s.cells.size = st := by
  unfold register state updateHeap
  rw [Array.getElem?_push_size]
  rfl

theorem state_register_of_lt {s : Store} {c : CellId} (hc : c < s.cells.size) (h : HeapId) (st : CellState) :
    (s.register h st).state c = s.state c := by
  unfold register state updateHeap
  rw [Array.getElem?_push_lt hc, Array.getElem?_eq_getElem hc]

theorem address_register_new (s : Store) (h : HeapId) (st : CellState) :
    (s.register h st).address s.cells.size = (s.heap h).created + 1 := by
  unfold register address updateHeap
  rw [Array.getElem?_push_size]
  rfl

theorem address_register_of_lt {s : Store} {c : CellId} (hc : c < s.cells.size) (h : HeapId) (st : CellState) :
    (s.register h st).address c = s.address c := by
  unfold register address updateHeap
  rw [Array.getElem?_push_lt hc, Array.getElem?_eq_getElem hc]

end Store
end Retention
