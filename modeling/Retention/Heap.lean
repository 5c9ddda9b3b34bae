import Retention.Run
/-!
# Heap — registering, sampling, collecting, and entering heaps

What can be done with a heap.  Creating a cell needs an active heap and registers the cell with it.  A sample counts
the live cells, raises the peak and, on a heap that traces, is kept.  Collecting drops from the table every cell whose
address the roots do not lead to.  Closing empties the roots and the table and keeps the counters, so an address is
never given twice.  A heap remembers, for each time it was entered, which heap was active before, and leaving it closes
it and makes that one active again.
-/
namespace Retention

namespace Store

/-- Notes a count of live cells of a heap. -/
def noteLive (s : Store) (h : HeapId) (live : Nat) : Store :=
  s.updateHeap h fun heap =>
    { heap with
      peak := max heap.peak live
      samples := if heap.traces.holds then heap.samples.push live else heap.samples }

/-- Drops from a heap's table every cell whose address is not among the given ones. -/
def keepOnly (s : Store) (h : HeapId) (live : Found) : Store :=
  s.updateHeap h fun heap =>
    let kept := heap.table.filter fun c => live.contains (s.address c)
    { heap with table := kept, reclaimed := heap.reclaimed + (heap.table.size - kept.size) }

/-- Empties the roots and the table of a heap. -/
def closed (s : Store) (h : HeapId) : Store :=
  s.updateHeap h fun heap => { heap with roots := [], table := #[] }

/-- Makes a heap active and has it remember which one was active before. -/
def entered (s : Store) (h : HeapId) : Store :=
  { s.updateHeap h fun heap => { heap with contexts := s.active :: heap.contexts } with active := some h }

/-- Makes active what was active before the latest entry of a heap, which the heap then forgets. -/
def left (s : Store) (h : HeapId) (previous : Option HeapId) (contexts : List (Option HeapId)) : Store :=
  { s.updateHeap h fun heap => { heap with contexts := contexts } with active := previous }

/-- Counts a completed force on a heap. -/
def counted (s : Store) (h : HeapId) : Store := s.updateHeap h fun heap => { heap with forced := heap.forced + 1 }

/-- Puts a value under a root name of a heap. -/
def rooted (s : Store) (h : HeapId) (name v : Value) : Store :=
  s.updateHeap h fun heap => { heap with roots := Entries.put s.equal name v heap.roots }

/-- Removes a root name of a heap. -/
def unrooted (s : Store) (h : HeapId) (name : Value) : Store :=
  s.updateHeap h fun heap => { heap with roots := Entries.erase s.equal name heap.roots }

end Store

namespace Run

/-- The active heap. -/
def activeHeap : Run HeapId := do
  match (← get).active with
  | some h => return h
  | none => raise .noActiveHeap

/-- The cells that a heap keeps alive, by address. -/
def reachable (h : HeapId) : Run Found := do
  match (← get).reachable h with
  | .ok found => return found
  | .error v => lacks v "address"

/-- How many cells a heap keeps alive. -/
def liveCount (h : HeapId) : Run Nat := return (← reachable h).size

/-- Makes a cell in the given state, registered with the active heap. -/
def newCell (st : CellState) : Run CellId := do
  let h ← activeHeap
  modifyGet fun s => (s.cells.size, s.register h st)

/-- Makes a suspended cell. -/
def suspend (t : Thunk) : Run CellId := newCell (.suspended t)

/-- Makes a suspended cell whose thunk refers to the cell itself. -/
def suspendSelf (thunk : CellId → Thunk) : Run CellId := do
  let h ← activeHeap
  modifyGet fun s => (s.cells.size, s.register h (.suspended (thunk s.cells.size)))

/-- Makes a cell that holds a value from the start. -/
def ready (v : Value) : Run CellId := newCell (.evaluated v)

/-- Counts the live cells of a heap and notes the count.  It fails at the end if it cannot be told whether the heap
traces. -/
def sample (h : HeapId) : Run Nat := do
  let live ← liveCount h
  modify fun s => s.noteLive h live
  discard (truth ((← get).heap h).traces)
  return live

/-- Counts a completed force on the heap that was active when it began. -/
def noteForced (h : HeapId) : Run Unit := do
  modify fun s => s.counted h
  if ← truth ((← get).heap h).samplesForces then
    discard (sample h)

/-- Drops the cells that are not live from a heap's table, and tells how many they were. -/
def collect (h : HeapId) : Run Nat := do
  let live ← reachable h
  let tracked := ((← get).heap h).table.size
  modify fun s => s.keepOnly h live
  let dead := tracked - ((← get).heap h).table.size
  note (.collected dead live.size)
  return dead

/-- Puts a heap into the store, which is not active yet. -/
def newHeap (heap : Heap) : Run HeapId :=
  modifyGet fun s => (s.heaps.size, { s with heaps := s.heaps.push heap })

/-- Makes a heap active. -/
def enter (h : HeapId) : Run Unit := do
  modify fun s => s.entered h
  note .opened

/-- Empties the roots and the table of a heap. -/
def close (h : HeapId) : Run Unit := do
  let heap := (← get).heap h
  note (.closing heap.created heap.forced heap.peak)
  modify fun s => s.closed h

/-- Closes a heap and makes active the heap that was active when it was last entered. -/
def leave (h : HeapId) : Run Unit := do
  close h
  match ((← get).heap h).contexts with
  | [] => raise .notOpen
  | previous :: contexts => modify fun s => s.left h previous contexts

/-- Makes sure that a value can be a key. -/
def checkKey (k : Value) : Run Unit := do
  match (← get).unhashable? k with
  | some type => raise (.unhashable type)
  | none => return

/-- Puts a value, which should be a cell, under a root name of a heap. -/
def setRoot (h : HeapId) (name v : Value) : Run Unit := do
  checkKey name
  modify fun s => s.rooted h name v

/-- What stands under a root name. -/
def root (h : HeapId) (name : Value) : Run Value := do
  checkKey name
  let s ← get
  match Entries.get? s.equal (s.heap h).roots name with
  | some v => return v
  | none => raise (.noRoot name)

/-- Removes a root name. -/
def removeRoot (h : HeapId) (name : Value) : Run Unit := do
  discard (root h name)
  modify fun s => s.unrooted h name

end Run
end Retention
