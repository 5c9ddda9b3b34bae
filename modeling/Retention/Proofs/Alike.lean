import Retention.Proofs.Following
import Retention.Proofs.Memoization
import Retention.Proofs.Sampling
/-!
# Alike — stores that differ only in what is observed

What is observed of an evaluation is the log and, of each heap, the peak and the samples; what decides about it are the
flags of heaps and consumers.  A store without all this is bare (`Store.bare`).  Two stores are alike if they are the
same when bare, and if a sample can be taken of every heap whichever way its flags are set (`Store.Alike`): flags are
truth values, and nothing but cells stands under a root.

The rest of what a sample needs is that cells refer to nothing but cells (`Store.Tidy`).  As no state of a cell is ever
lost — the one it was made in is kept, and its final one stays — a store that is tidy was so all along
(`Store.Tidy.before`).
-/
namespace Retention

open Store (OnlyCells)

/-- The values of a written list of entries are the one that was written and some of the old ones. -/
theorem Entries.mem_put {κ α : Type} {same : κ → κ → Bool} {k : κ} {a : α} {xs : Entries κ α} {y : κ × α}
    (h : y ∈ Entries.put same k a xs) : (∃ x ∈ xs, x.2 = y.2) ∨ y.2 = a := by
  induction xs with
  | nil =>
    cases List.mem_singleton.1 h
    exact .inr rfl
  | cons x xs ih =>
    unfold Entries.put at h
    split at h
    · rcases List.mem_cons.1 h with rfl | h
      · exact .inr rfl
      · exact .inl ⟨y, List.mem_cons_of_mem _ h, rfl⟩
    · rcases List.mem_cons.1 h with rfl | h
      · exact .inl ⟨y, List.mem_cons_self, rfl⟩
      · rcases ih h with ⟨z, hz, hzy⟩ | hnew
        · exact .inl ⟨z, List.mem_cons_of_mem _ hz, hzy⟩
        · exact .inr hnew

/-- A heap without its flags and what was measured. -/
def Heap.bare (x : Heap) : Heap := { x with traces := .bool false, samplesForces := .bool false, peak := 0, samples := #[] }

/-- A consumer without its flag. -/
def Consumer.bare (x : Consumer) : Consumer := { x with samples := .bool false }

/-- The value is a truth value. -/
def Value.IsFlag (v : Value) : Prop := ∃ b, v = .bool b

/-- The value is a cell. -/
def Value.IsCell (v : Value) : Prop := ∃ c, v = .cell c

namespace Store

/-- A store without all that is observed. -/
def bare (s : Store) : Store :=
  { s with heaps := s.heaps.map Heap.bare, consumers := s.consumers.map Consumer.bare, events := [] }

/-- What is told of the store is told of every store that differs only in what is observed. -/
def Settles {α : Type} (s : Store) (told : Store → α) : Prop := ∀ s' : Store, s.bare = s'.bare → told s' = told s

/-- All flags are truth values. -/
structure Flagged (s : Store) : Prop where
  traces : ∀ h, (s.heap h).traces.IsFlag
  samplesForces : ∀ h, (s.heap h).samplesForces.IsFlag
  consumers : ∀ (d : ConsumerId) (x : Consumer), s.consumers[d]? = some x → x.samples.IsFlag

/-- Nothing but cells stands under a root. -/
def Rooted (s : Store) : Prop := ∀ h, OnlyCells ((s.heap h).roots.map (·.2))

/-- The stores are the same but for what is observed, and every heap can be sampled as far as its flags and its roots
go. -/
structure Alike (s s' : Store) : Prop where
  bare : s.bare = s'.bare
  rooted : s.Rooted
  flagged : s.Flagged
  flagged' : s'.Flagged

/-- Cells refer to nothing but cells, in the state in which they were made and in the one in which they are. -/
structure Tidy (s : Store) : Prop where
  initial : ∀ c st, s.initial? c = some st → OnlyCells st.refs
  refs : ∀ c, OnlyCells (s.refs c)

/-! ## What stores that are the same when bare have in common -/

theorem heap_bare (s : Store) (h : HeapId) : s.bare.heap h = (s.heap h).bare := by
  unfold bare heap
  rw [Array.getElem?_map]
  cases s.heaps[h]? <;> rfl

variable {s s' : Store}

/-- What a search finds depends on the cells alone. -/
theorem walk_congr (hcells : s'.cells = s.cells) (found : Found) (stack : List Value) :
    s'.walk found stack = s.walk found stack := by
  fun_induction s.walk found stack with
  | case1 found => rw [walk]
  | case2 found c stack hnone ih =>
    rw [walk]
    split
    · exact ih
    · rename_i cell hcell
      rw [hcells, hnone] at hcell
      cases hcell
  | case3 found c stack cell hcell hf ih =>
    rw [walk]
    split
    · rename_i hnone
      rw [hcells, hcell] at hnone
      cases hnone
    · rename_i cell' hcell'
      rw [hcells, hcell] at hcell'
      cases hcell'
      rw [dif_pos hf, ih]
  | case4 found c stack cell hcell hf ih =>
    rw [walk]
    split
    · rename_i hnone
      rw [hcells, hcell] at hnone
      cases hnone
    · rename_i cell' hcell'
      rw [hcells, hcell] at hcell'
      cases hcell'
      rw [dif_neg hf, ih]
  | case5 found v stack hv => rw [walk]; exact hv

theorem reachable_congr {h : HeapId} (hcells : s'.cells = s.cells) (hroots : (s'.heap h).roots = (s.heap h).roots) :
    s'.reachable h = s.reachable h := by
  rw [reachable, reachable, hroots, walk_congr hcells]

theorem snapshot_congr (hcells : s'.cells = s.cells) : s'.snapshot = s.snapshot := by
  funext c phase
  have hthunk : s'.thunk? c = s.thunk? c := by rw [thunk?, thunk?, hcells]
  cases phase <;> simp only [snapshot, hthunk, state_of_cells hcells]

theorem reportAt_congr (hreports : s'.reports = s.reports) : s'.reportAt = s.reportAt := by
  funext r
  rw [reportAt, reportAt, hreports]

section
variable (hcells : s'.cells = s.cells) (hreports : s'.reports = s.reports)
include hcells hreports

/-- Which values can be keys is told by the cells and the reports. -/
theorem unhashableIn_congr (depth : Nat) :
    s'.unhashableIn depth = s.unhashableIn depth ∧ s'.unhashableStateIn depth = s.unhashableStateIn depth := by
  induction depth with
  | zero =>
    refine ⟨?_, ?_⟩
    all_goals
      funext a
      simp only [unhashableIn, unhashableStateIn]
  | succ depth ih =>
    obtain ⟨hvalue, hstate⟩ := ih
    refine ⟨?_, ?_⟩
    all_goals funext a
    · simp only [unhashableIn, hvalue, hstate, snapshot_congr hcells, reportAt_congr hreports]
    · simp only [unhashableStateIn, hvalue]

theorem unhashable?_congr (v : Value) : s'.unhashable? v = s.unhashable? v := by
  rw [unhashable?, unhashable?, (unhashableIn_congr hcells hreports _).1]

end

section
variable (hs : s.bare = s'.bare)
include hs

theorem heap_of_bare (h : HeapId) : (s'.heap h).bare = (s.heap h).bare := by
  rw [← heap_bare, ← heap_bare, hs]

theorem cells_of_bare : s'.cells = s.cells := (congrArg Store.cells hs).symm

theorem active_of_bare : s'.active = s.active := (congrArg Store.active hs).symm

theorem faults_of_bare : s'.faults = s.faults := (congrArg Store.faults hs).symm

theorem iterators_of_bare : s'.iterators = s.iterators := (congrArg Store.iterators hs).symm

theorem reports_of_bare : s'.reports = s.reports := (congrArg Store.reports hs).symm

theorem nextTag_of_bare : s'.nextTag = s.nextTag := (congrArg Store.nextTag hs).symm

theorem bindings_of_bare : s'.bindings = s.bindings := (congrArg Store.bindings hs).symm

theorem history_of_bare : s'.history = s.history := (congrArg Store.history hs).symm

theorem callsSince_of_bare : s'.callsSince = s.callsSince := by
  funext n
  rw [callsSince, callsSince, history_of_bare hs]

theorem heaps_size_of_bare : s'.heaps.size = s.heaps.size := by
  have h := congrArg (fun x : Store => x.heaps.size) hs
  simpa [bare] using h.symm

theorem consumers_size_of_bare : s'.consumers.size = s.consumers.size := by
  have h := congrArg (fun x : Store => x.consumers.size) hs
  simpa [bare] using h.symm

/-- Of a heap, too, all is the same but for its flags and what was measured. -/
theorem field_of_bare {α : Type} {r : Heap → α} (hr : ∀ x, r x.bare = r x) (h : HeapId) :
    r (s'.heap h) = r (s.heap h) := by
  rw [← hr (s'.heap h), ← hr (s.heap h), heap_of_bare hs]

theorem roots_of_bare (h : HeapId) : (s'.heap h).roots = (s.heap h).roots := field_of_bare hs (fun _ => rfl) h

theorem state_of_bare : s'.state = s.state := state_of_cells (cells_of_bare hs)

theorem initial?_of_bare : s'.initial? = s.initial? := by
  funext c
  rw [initial?, initial?, cells_of_bare hs]

theorem address_of_bare : s'.address = s.address := by
  funext c
  rw [address, address, cells_of_bare hs]

theorem refs_of_bare : s'.refs = s.refs := by
  funext c
  rw [refs, refs, state_of_bare hs]

theorem cursor_of_bare : s'.cursor = s.cursor := by
  funext i
  rw [cursor, cursor, iterators_of_bare hs]

theorem reportAt_of_bare : s'.reportAt = s.reportAt := reportAt_congr (reports_of_bare hs)

theorem raised_of_bare : s'.raised = s.raised := by
  funext e
  rw [raised, raised, faults_of_bare hs]

theorem snapshot_of_bare : s'.snapshot = s.snapshot := snapshot_congr (cells_of_bare hs)

theorem typeName_of_bare : s'.typeName = s.typeName := by
  funext v
  unfold typeName
  rw [iterators_of_bare hs, raised_of_bare hs]

theorem equalIn_of_bare (depth : Nat) : s'.equalIn depth = s.equalIn depth ∧ s'.equalAllIn depth = s.equalAllIn depth ∧
    s'.equalStateIn depth = s.equalStateIn depth := by
  induction depth with
  | zero =>
    refine ⟨?_, ?_, ?_⟩
    all_goals
      funext a b
      simp only [equalIn, equalAllIn, equalStateIn]
  | succ depth ih =>
    obtain ⟨hequal, hall, hstate⟩ := ih
    refine ⟨?_, ?_, ?_⟩
    all_goals funext a b
    · simp only [equalIn, hequal, hall, hstate, snapshot_of_bare hs, reportAt_of_bare hs]
    · simp only [equalAllIn, hequal]
    · simp only [equalStateIn, hequal, hall]

theorem equal_of_bare : s'.equal = s.equal := by
  funext a b
  rw [equal, equal, (equalIn_of_bare hs _).1]

theorem unhashable?_of_bare : s'.unhashable? = s.unhashable? :=
  funext (unhashable?_congr (cells_of_bare hs) (reports_of_bare hs))

theorem reachable_of_bare (h : HeapId) : s'.reachable h = s.reachable h :=
  reachable_congr (cells_of_bare hs) (roots_of_bare hs h)

theorem liveCount_of_bare (h : HeapId) : s'.liveCount h = s.liveCount h := by
  rw [liveCount, liveCount, reachable_of_bare hs]

theorem Rooted.of_bare (h : s.Rooted) : s'.Rooted := fun g => by
  rw [roots_of_bare hs]
  exact h g

theorem Tidy.of_bare (h : s.Tidy) : s'.Tidy where
  initial c st hc := h.initial c st (initial?_of_bare hs ▸ hc)
  refs c := by
    rw [refs_of_bare hs]
    exact h.refs c

end

/-! ## A store that is tidy was so all along -/

theorem Tidy.of_cells (h : s.Tidy) (hcells : s'.cells = s.cells) : s'.Tidy where
  initial c st hc := h.initial c st (by unfold initial? at hc ⊢; rwa [← hcells])
  refs c := by
    rw [Store.refs, state_of_cells hcells]
    exact h.refs c

end Store

theorem Moment.Leads.tidy {m m' : Moment} (hm : m.Sound) (h : Leads m m') (ht : m'.store.Tidy) : m.store.Tidy := by
  refine ⟨fun c st hc => ht.initial c st (h.initial? hc), fun c => ?_⟩
  rcases Nat.lt_or_ge c m.store.cells.size with hlt | hge
  · obtain ⟨st, hst⟩ := Store.initial?_eq_some_of_lt hlt
    have hinitial := ht.initial c st (h.initial? hst)
    have hstates := h.state hm hst
    -- what a cell refers to before it is final is what it referred to at first
    cases hm.lived c st hst with
    | unrun _ hstate => rw [Store.refs_of_state hstate]; exact hinitial
    | running _ hstate => rw [Store.refs_of_state hstate]; exact hinitial
    | evaluated _ hstate =>
      rw [hstate] at hstates
      rw [Store.refs_of_state hstate, ← Store.refs_of_state (CellState.eq_of_final hstates fun st hnext => by cases hnext)]
      exact ht.refs c
    | failed _ hstate => rw [Store.refs_of_state hstate]; exact Store.onlyCells_map []
  · rw [Store.refs_of_state (Store.state_of_size_le hge)]
    exact Store.onlyCells_map []

namespace Store
variable {s s' e : Store}

/-- **A store that runs led to, and that is tidy, was tidy before them.** -/
theorem Tidy.before (ht : e.Tidy) (hs : s.Reached) (h : s.Runs e) : s.Tidy := by
  obtain ⟨k, hk⟩ := hs
  exact (h k).tidy (Moment.sound_start.leads hk) ht

/-! ## What keeps stores alike -/

theorem bare_updateHeap (s : Store) (h : HeapId) {f k : Heap → Heap} (hf : ∀ x, (f x).bare = k x.bare) :
    (s.updateHeap h f).bare = s.bare.updateHeap h k := by
  have hheaps : (s.heaps.modify h f).map Heap.bare = (s.heaps.map Heap.bare).modify h k := by
    refine Array.ext_getElem? fun i => ?_
    simp only [Array.getElem?_map, Array.getElem?_modify]
    split
    · cases s.heaps[i]? with
      | none => rfl
      | some x => exact congrArg some (hf x)
    · rfl
  exact congrArg (fun heaps => { s.bare with heaps }) hheaps

theorem bare_noteLive (s : Store) (h : HeapId) (live : Nat) : (s.noteLive h live).bare = s.bare := by
  have hheaps : s.bare.heaps.modify h (fun x => x) = s.bare.heaps := by
    refine Array.ext_getElem? fun i => ?_
    rw [Array.getElem?_modify]
    split
    · cases s.bare.heaps[i]? <;> rfl
    · rfl
  refine (bare_updateHeap s h (k := fun x => x) ?_).trans (congrArg (fun heaps => { s.bare with heaps }) hheaps)
  exact fun _ => rfl

theorem Rooted.updateHeap (hs : s.Rooted) (h : HeapId) {f : Heap → Heap}
    (hf : ∀ x, OnlyCells (x.roots.map (·.2)) → OnlyCells ((f x).roots.map (·.2))) : (s.updateHeap h f).Rooted :=
  fun i => by
    have hi := hs i
    unfold heap at hi
    unfold Store.updateHeap heap
    rw [Array.getElem?_modify]
    split
    · cases hx : s.heaps[i]? with
      | none => exact onlyCells_map []
      | some x =>
        rw [hx] at hi
        exact hf x hi
    · exact hi

theorem Flagged.congr (hs : s.Flagged) (hheaps : e.heaps = s.heaps) (hconsumers : e.consumers = s.consumers) :
    e.Flagged where
  traces h := by rw [heap, hheaps]; exact hs.traces h
  samplesForces h := by rw [heap, hheaps]; exact hs.samplesForces h
  consumers d x hx := hs.consumers d x (hconsumers ▸ hx)

theorem Flagged.updateHeap (hs : s.Flagged) (h : HeapId) {f : Heap → Heap}
    (hf : ∀ x, (f x).traces = x.traces ∧ (f x).samplesForces = x.samplesForces) : (s.updateHeap h f).Flagged where
  traces i := by rw [field_updateHeap (r := Heap.traces) fun x => (hf x).1]; exact hs.traces i
  samplesForces i := by rw [field_updateHeap (r := Heap.samplesForces) fun x => (hf x).2]; exact hs.samplesForces i
  consumers := hs.consumers

/-- What holds of a new heap and of all old ones holds of all heaps then. -/
theorem forall_heap_push {q : Heap → Prop} {x : Heap} (hx : q x) (hs : ∀ g, q (s.heap g)) (g : HeapId) :
    q (({ s with heaps := s.heaps.push x } : Store).heap g) := by
  have hg := hs g
  unfold heap at hg ⊢
  rw [Array.getElem?_push]
  split
  · exact hx
  · exact hg

theorem Flagged.pushHeap (hs : s.Flagged) {x : Heap} (ht : x.traces.IsFlag) (hf : x.samplesForces.IsFlag) :
    Flagged { s with heaps := s.heaps.push x } where
  traces := forall_heap_push (q := fun x => x.traces.IsFlag) ht hs.traces
  samplesForces := forall_heap_push (q := fun x => x.samplesForces.IsFlag) hf hs.samplesForces
  consumers := hs.consumers

namespace Alike

/-- A change that looks at nothing that is observed, and leaves heaps and consumers alone. -/
theorem frame (h : s.Alike s') {f : Store → Store} (hbare : ∀ x, (f x).bare = f x.bare)
    (hheaps : ∀ x, (f x).heaps = x.heaps) (hconsumers : ∀ x, (f x).consumers = x.consumers) :
    (f s).Alike (f s') where
  bare := by rw [hbare, hbare, h.bare]
  rooted g := by
    rw [heap, hheaps]
    exact h.rooted g
  flagged := h.flagged.congr (hheaps s) (hconsumers s)
  flagged' := h.flagged'.congr (hheaps s') (hconsumers s')

/-- A change of a heap that leaves the flags alone, and the same for heaps that are the same when bare. -/
theorem updateHeap (h : s.Alike s') (g : HeapId) {f : Heap → Heap} (hbare : ∀ x, (f x).bare = f x.bare)
    (hflags : ∀ x, (f x).traces = x.traces ∧ (f x).samplesForces = x.samplesForces)
    (hroots : ∀ x, OnlyCells (x.roots.map (·.2)) → OnlyCells ((f x).roots.map (·.2))) :
    (s.updateHeap g f).Alike (s'.updateHeap g f) where
  bare := by rw [bare_updateHeap s g hbare, bare_updateHeap s' g hbare, h.bare]
  rooted := h.rooted.updateHeap g hroots
  flagged := h.flagged.updateHeap g hflags
  flagged' := h.flagged'.updateHeap g hflags

/-- A count of live cells is only observed. -/
theorem noteLive (h : s.Alike s') (g : HeapId) (live : Nat) : (s.noteLive g live).Alike s' where
  bare := (bare_noteLive s g live).trans h.bare
  rooted := h.rooted.updateHeap g fun _ hx => hx
  flagged := h.flagged.updateHeap g fun _ => ⟨rfl, rfl⟩
  flagged' := h.flagged'

theorem symm (h : s.Alike s') : s'.Alike s := ⟨h.bare.symm, h.rooted.of_bare h.bare, h.flagged', h.flagged⟩

theorem trans (h : s.Alike s') (h' : s'.Alike e) : s.Alike e := ⟨h.bare.trans h'.bare, h.rooted, h.flagged, h'.flagged'⟩

theorem register (h : s.Alike s') (g : HeapId) (st : CellState) : (s.register g st).Alike (s'.register g st) := by
  have hcells := h.frame (f := fun s => { s with cells := s.cells.push ⟨g, (s.heap g).created + 1, st, st⟩ })
    (fun x => by rw [heap_bare]; rfl) (fun _ => rfl) fun _ => rfl
  have hcreated : (s'.heap g).created = (s.heap g).created := field_of_bare h.bare (fun _ => rfl) g
  have hsize : s'.cells.size = s.cells.size := by rw [cells_of_bare h.bare]
  unfold Store.register
  simp only [hcreated, hsize] at hcells ⊢
  exact hcells.updateHeap g (fun _ => rfl) (fun _ => ⟨rfl, rfl⟩) fun _ hx => hx

/-- New heaps that are the same but for their flags. -/
theorem pushHeap (h : s.Alike s') {x x' : Heap} (hx : x.bare = x'.bare) (hroots : OnlyCells (x.roots.map (·.2)))
    (ht : x.traces.IsFlag) (hf : x.samplesForces.IsFlag) (ht' : x'.traces.IsFlag) (hf' : x'.samplesForces.IsFlag) :
    Alike { s with heaps := s.heaps.push x } { s' with heaps := s'.heaps.push x' } where
  bare := by
    have hheaps : (s.heaps.push x).map Heap.bare = (s'.heaps.push x').map Heap.bare := by
      rw [Array.map_push, Array.map_push, hx]
      exact congrArg (fun s : Store => s.heaps.push x'.bare) h.bare
    have hrest := congrArg (fun y : Store => { y with heaps := (s.heaps.push x).map Heap.bare }) h.bare
    exact hrest.trans (congrArg (fun heaps => { s'.bare with heaps }) hheaps)
  rooted := forall_heap_push (q := fun x => OnlyCells (x.roots.map fun y : Value × Value => y.2)) hroots h.rooted
  flagged := h.flagged.pushHeap ht hf
  flagged' := h.flagged'.pushHeap ht' hf'

/-- Changes of the consumers that are the same but for their flags. -/
theorem consumers (h : s.Alike s') {xs xs' : Array Consumer} (hbare : xs.map Consumer.bare = xs'.map Consumer.bare)
    (hflags : ∀ (d : ConsumerId) (x : Consumer), xs[d]? = some x → x.samples.IsFlag)
    (hflags' : ∀ (d : ConsumerId) (x : Consumer), xs'[d]? = some x → x.samples.IsFlag) :
    Alike { s with consumers := xs } { s' with consumers := xs' } := by
  have hrest := congrArg (fun x : Store => { x with consumers := xs.map Consumer.bare }) h.bare
  exact ⟨hrest.trans (congrArg (fun consumers => { s'.bare with consumers }) hbare), h.rooted,
    ⟨h.flagged.traces, h.flagged.samplesForces, hflags⟩, ⟨h.flagged'.traces, h.flagged'.samplesForces, hflags'⟩⟩

theorem setActive (h : s.Alike s') (active : Option HeapId) : Alike { s with active } { s' with active } :=
  h.frame (f := fun s => { s with active }) (fun _ => rfl) (fun _ => rfl) fun _ => rfl

theorem counted (h : s.Alike s') (g : HeapId) : (s.counted g).Alike (s'.counted g) :=
  h.updateHeap g (fun _ => rfl) (fun _ => ⟨rfl, rfl⟩) fun _ hx => hx

theorem entered (h : s.Alike s') (g : HeapId) : (s.entered g).Alike (s'.entered g) := by
  unfold Store.entered
  rw [active_of_bare h.bare]
  have hcontexts := h.updateHeap g (f := fun x => { x with contexts := s.active :: x.contexts }) (fun _ => rfl)
    (fun _ => ⟨rfl, rfl⟩) fun _ hx => hx
  exact hcontexts.setActive (some g)

theorem left (h : s.Alike s') (g : HeapId) (previous : Option HeapId) (contexts : List (Option HeapId)) :
    (s.left g previous contexts).Alike (s'.left g previous contexts) := by
  have hcontexts := h.updateHeap g (f := fun x => { x with contexts := contexts }) (fun _ => rfl)
    (fun _ => ⟨rfl, rfl⟩) fun _ hx => hx
  exact hcontexts.setActive previous

theorem closed (h : s.Alike s') (g : HeapId) : (s.closed g).Alike (s'.closed g) :=
  h.updateHeap g (fun _ => rfl) (fun _ => ⟨rfl, rfl⟩) fun _ _ => onlyCells_map []

theorem keepOnly (h : s.Alike s') (g : HeapId) (live : Found) : (s.keepOnly g live).Alike (s'.keepOnly g live) := by
  unfold Store.keepOnly
  rw [address_of_bare h.bare]
  exact h.updateHeap g (fun _ => rfl) (fun _ => ⟨rfl, rfl⟩) fun _ hx => hx

theorem rootedCell (h : s.Alike s') (g : HeapId) (name : Value) {v : Value} (hv : v.IsCell) :
    (s.rooted g name v).Alike (s'.rooted g name v) := by
  unfold Store.rooted
  rw [equal_of_bare h.bare]
  refine h.updateHeap g (fun _ => rfl) (fun _ => ⟨rfl, rfl⟩) fun x hx w hw => ?_
  obtain ⟨entry, hentry, rfl⟩ := List.mem_map.1 hw
  rcases Entries.mem_put hentry with hold | hnew
  · exact hx _ (List.mem_map.2 hold)
  · exact hnew ▸ hv

theorem unrooted (h : s.Alike s') (g : HeapId) (name : Value) : (s.unrooted g name).Alike (s'.unrooted g name) := by
  unfold Store.unrooted
  rw [equal_of_bare h.bare]
  refine h.updateHeap g (fun _ => rfl) (fun _ => ⟨rfl, rfl⟩) fun x hx w hw => ?_
  obtain ⟨entry, hentry, rfl⟩ := List.mem_map.1 hw
  exact hx _ (List.mem_map.2 ⟨entry, (List.mem_filter.1 hentry).1, rfl⟩)

end Alike
end Store
end Retention
