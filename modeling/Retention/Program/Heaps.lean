import Retention.Program.Arguments
/-!
# Heaps — operations on heaps

Entering and leaving heaps, their roots, and what they count.  Most take a heap as an optional last argument and
otherwise act on the active one.
-/
namespace Retention

/-- Applies an operation on heaps. -/
def HeapOp.apply (run : Runner) (o : HeapOp) (args : List Value) : Run Value := do
  match o, args with
  | .new, flags => return .heap (← Run.newHeap (withFlags flags))
  | .openNew, flags =>
    let h ← Run.newHeap (withFlags flags)
    Run.enter h
    return .heap h
  | .enter, [v] =>
    let h ← Run.heapOf "__enter__" v
    Run.enter h
    return .heap h
  | .exit, args =>
    Run.leave (← Run.heapAmong "__exit__" args)
    return .null
  | .close, args =>
    close (← Run.heapOr args)
    return .null
  | .current, [] => return .heap (← Run.activeHeap)
  | .root, name :: v :: rest =>
    Run.setRoot (← Run.heapAmong "root" rest) name v
    return .null
  | .unroot, name :: rest =>
    Run.removeRoot (← Run.heapAmong "unroot" rest) name
    return .null
  | .roots, args =>
    let h ← Run.heapAmong "roots" args
    let pairs ← ((← get).heap h).roots.mapM fun (name, v) => Run.tuple [name, v]
    Run.list pairs
  | .reachable, args =>
    let found ← Run.reachable (← Run.heapAmong "reachable" args)
    Run.list (found.keys.map fun address => .int (Int.ofNat address))
  | .live, args => return .int (← Run.liveCount (← Run.heapAmong "live_cell_count" args))
  | .tracked, args =>
    let h ← Run.heapAmong "tracked_cell_count" args
    return .int ((← get).heap h).table.size
  | .sample, args => sample (← Run.heapOr args)
  | .collect, args => return .int (← Run.collect (← Run.heapAmong "collect" args))
  | .stats, args =>
    let h ← Run.heapAmong "stats" args
    return .str ((← get).heap h).statsText
  | .samples, args =>
    let h ← Run.heapAmong "stats" args
    Run.list (((← get).heap h).samples.toList.map fun live => .int (Int.ofNat live))
  | o, _ => Run.wrongCount (.heap o)
where
  /-- A new heap with the given flags: whether it traces, and whether it samples after forces. -/
  withFlags (flags : List Value) : Heap :=
    { traces := flags[0]?.getD (.bool false), samplesForces := flags[1]?.getD (.bool false) }
  /-- Closes a heap, or ends an iterator that computes its items. -/
  close : Value → Run Unit
    | .heap h => Run.close h
    | .iterator i => do
      match (← get).iterators[i]? with
      | some ⟨.calls, _⟩ | some ⟨.elements, _⟩ => Iterator.close i
      | _ => Run.lacks (.iterator i) "close"
    | v => Run.lacks v "close"
  /-- Takes a sample of a heap.  A consumer has its flag in this place, which is called instead. -/
  sample : Value → Run Value
    | .heap h => return .int (← Run.sample h)
    | .consumer d => do Cycle.callValue run (← Consumer.find d).samples
    | v => Run.lacks v "sample"

end Retention
