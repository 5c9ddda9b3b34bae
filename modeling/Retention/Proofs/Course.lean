import Retention.Scenario
import Retention.Proofs.Growth
import Retention.Proofs.Sampling
/-!
# Course — what a scenario reports of a list

A `Course` knows a list on a heap from beginning to end: what it looks like after each number of steps, how many cells
are then live, and what reading its next element gives and costs.  A consumer that walks along such a list keeps the
scene (`Consumer.Scene`), one step after the other, and so the whole report of a scenario can be told from the course
alone (`Scenario.report_eq_ok`), whatever is traced and sampled.
-/
namespace Retention

open Store (Hosts Grown)

/-- A heap with a single root keeps as many cells alive as are listed: the root among them, closed under references, and
each led to by the root. -/
theorem Store.reachable_of_root {s : Store} {h : HeapId} {base : Nat} {name : Value} {root : CellId}
    (hn : s.Numbered base h) (hr : (s.heap h).roots = [(name, .cell root)]) (cells : List CellId) (hd : cells.Nodup)
    (hroot : root ∈ cells) (hrefs : ∀ c ∈ cells, ∀ v ∈ s.refs c, ∃ d ∈ cells, v = .cell d)
    (hvalid : ∀ c ∈ cells, base ≤ c ∧ c < s.cells.size) (hkept : ∀ c ∈ cells, s.Kept [.cell root] c) :
    ∃ found, s.reachable h = .ok found ∧ found.size = cells.length := by
  have hvalues : (s.heap h).roots.map (·.2) = [.cell root] := by rw [hr]; rfl
  refine reachable_of_listing cells hd (fun v hv => ?_) hrefs (fun c hc => (hvalid c hc).2) (fun c hc d hd => ?_)
    fun c hc => hvalues.symm ▸ hkept c hc
  · rw [hvalues] at hv
    exact ⟨root, hroot, List.mem_singleton.1 hv⟩
  · exact hn.eq_of_address (hvalid c hc).1 (hvalid c hc).2 (hvalid d hd).1 (hvalid d hd).2

/-- The course of a list on a heap, which all live cells are kept for.  `left k c s` says that `c` is what is left of
the list after `k` steps. -/
structure Course (run : Runner) (h : HeapId) where
  left : Nat → CellId → Store → Prop
  /-- How many cells are live after so many steps. -/
  live : Nat → Nat
  /-- The value of the element at a position. -/
  value : Nat → Value
  /-- How many cells are live after so many steps and once the next element is read. -/
  total : Nat → Nat
  /-- How many cells were then made on the heap. -/
  created : Nat → Nat
  /-- How many forces the heap then counted. -/
  forced : Nat → Nat
  congr : ∀ {k c s e}, left k c s → e.cells = s.cells → (e.heap h).created = (s.heap h).created →
    (e.heap h).forced = (s.heap h).forced → left k c e
  count : ∀ {k c s}, left k c s → (s.heap h).roots = [(Consumer.rootName, .cell c)] →
    ∃ found, s.reachable h = .ok found ∧ found.size = live k
  step : ∀ {k c s}, left k c s → s.Hosts h → ∃ tag head tail e made forced changed,
    force run c s = .ok (.cons tag head (.cell tail)) e ∧ Grown h s e made forced changed ∧ tail ≠ c ∧
    left (k + 1) tail e
  read : ∀ {k c s}, left k c s → s.Hosts h → (s.heap h).roots = [(Consumer.rootName, .cell c)] →
    ∃ tag head tail m e made count changed found,
      force run c s = .ok (.cons tag (.cell head) tail) m ∧ force run head m = .ok (value k) e ∧
      Grown h s e made count changed ∧ (e.heap h).created = created k ∧ (e.heap h).forced = forced k ∧
      e.reachable h = .ok found ∧ found.size = total k
  live_le_succ : ∀ k, live k ≤ live (k + 1)
  live_le_total : ∀ k, live k ≤ total k

/-! ## Roots and samples -/

namespace Consumer
variable {s : Store} {h : HeapId}

theorem checkKey_rootName (s : Store) : Run.checkKey rootName s = .ok () s := by
  have hkey : s.unhashable? rootName = none := by
    unfold Store.unhashable? rootName
    rw [show nestingBound = 4294967295 + 1 from rfl]
    simp [Store.unhashableIn]
  unfold Run.checkKey
  rw [Run.bind_ok (Run.get_apply s), hkey]
  rfl

theorem setRoot_apply (s : Store) (h : HeapId) (v : Value) :
    Run.setRoot h rootName v s = .ok () (s.rooted h rootName v) := by
  unfold Run.setRoot
  rw [Run.bind_ok (checkKey_rootName s)]
  rfl

theorem heap_rooted (hh : h < s.heaps.size) (v : Value)
    (hr : (s.heap h).roots = [] ∨ ∃ w, (s.heap h).roots = [(rootName, w)]) :
    (s.rooted h rootName v).heap h = { s.heap h with roots := [(rootName, v)] } := by
  have hput : Entries.put s.equal rootName v (s.heap h).roots = [(rootName, v)] := by
    rcases hr with hr | ⟨w, hr⟩
    · rw [hr]; rfl
    · rw [hr, Entries.put, if_pos (s.equal_of_same (a := rootName) (b := rootName) rfl)]
  unfold Store.rooted
  rw [Store.heap_updateHeap hh, hput]

theorem root_of_get? {v : Value} (hget : Entries.get? s.equal (s.heap h).roots rootName = some v) :
    Run.root h rootName s = .ok v s := by
  unfold Run.root
  rw [Run.bind_ok (checkKey_rootName s), Run.bind_ok (Run.get_apply s)]
  simp only [hget]
  rfl

theorem root_apply {v : Value} (hr : (s.heap h).roots = [(rootName, v)]) : Run.root h rootName s = .ok v s := by
  refine root_of_get? ?_
  rw [hr, Entries.get?, List.find?_cons, s.equal_of_same (a := rootName) (b := rootName) rfl]
  rfl

theorem find_apply {d : ConsumerId} {x : Consumer} (hx : s.consumers[d]? = some x) : find d s = .ok x s := by
  unfold find
  rw [Run.bind_ok (Run.get_apply s), hx]
  rfl

theorem heap_noteLive {traces : Bool} (hh : h < s.heaps.size) (ht : (s.heap h).traces = .bool traces) (live : Nat) :
    (s.noteLive h live).heap h =
      { s.heap h with
        peak := max (s.heap h).peak live
        samples := if traces then (s.heap h).samples.push live else (s.heap h).samples } := by
  unfold Store.noteLive
  rw [Store.heap_updateHeap hh]
  simp only [ht, Value.holds_bool]

/-! ## A move -/

section Moved
variable {run : Runner} {d : ConsumerId} {x : Consumer} {e : Store} {current rest : Value}

/-- The store where the consumer that stood as `x` has moved to what is left: the root is replaced, and the step is
counted. -/
def moved (x : Consumer) (d : ConsumerId) (rest : Value) (s : Store) : Store :=
  { s.rooted x.heap rootName rest with
    consumers := (s.rooted x.heap rootName rest).consumers.modify d fun y => { y with steps := x.steps + 1 } }

theorem consumer_moved (hx : s.consumers[d]? = some x) (rest : Value) :
    (moved x d rest s).consumers[d]? = some { x with steps := x.steps + 1 } := by
  show (s.consumers.modify d _)[d]? = _
  rw [Array.getElem?_modify, if_pos rfl, hx]
  rfl

theorem heap_moved (hh : x.heap < s.heaps.size) (hr : ∃ w, (s.heap x.heap).roots = [(rootName, w)]) (rest : Value) :
    (moved x d rest s).heap x.heap = { s.heap x.heap with roots := [(rootName, rest)] } :=
  heap_rooted hh rest (.inr hr)

/-- A step that finds another element moves the consumer, and then samples if the consumer does. -/
theorem step_of_moved (hleft : remaining d s = .ok current s)
    (hdrop : Sequence.dropSteps run 1 current s = .ok rest e) (hx : e.consumers[d]? = some x)
    (hne : rest.same current = false) : step run d s = (do
      if ← Run.truth x.samples then Run.note (.step (x.steps + 1) (← Run.sample x.heap))
      return true) (moved x d rest e) := by
  unfold step
  rw [Run.bind_ok hleft, Run.bind_ok hdrop, Run.bind_ok (find_apply hx)]
  simp only [hne, Bool.false_eq_true, if_false]
  rw [Run.bind_ok (setRoot_apply e x.heap rest), Run.bind_ok (Run.modify_apply _ _)]
  rfl

end Moved

/-! ## Along a course -/

/-- A consumer stands after `k` steps before the cell `c`, and its heap has seen no more than so many live cells and has
kept these samples. -/
structure Scene (h : HeapId) (d : ConsumerId) (traces samples : Bool) (previous : Option HeapId) (k : Nat) (c : CellId)
    (bound : Nat) (kept : List Nat) (s : Store) : Prop where
  hosts : s.Hosts h
  traces : (s.heap h).traces = .bool traces
  roots : (s.heap h).roots = [(rootName, .cell c)]
  contexts : (s.heap h).contexts = [previous]
  consumer : s.consumers[d]? = some ⟨h, .bool samples, k⟩
  peak : (s.heap h).peak ≤ bound
  kept : (s.heap h).samples.toList = kept

variable {run : Runner} {d : ConsumerId} {traces samples : Bool} {previous : Option HeapId} {k : Nat} {c : CellId}
  {bound : Nat} {kept : List Nat}

theorem Scene.find (hs : Scene h d traces samples previous k c bound kept s) :
    find d s = .ok ⟨h, .bool samples, k⟩ s := find_apply hs.consumer

theorem Scene.remaining (hs : Scene h d traces samples previous k c bound kept s) :
    remaining d s = .ok (.cell c) s := by
  unfold Consumer.remaining
  rw [Run.bind_ok hs.find]
  exact root_apply hs.roots

/-- Forces leave the scene as it is. -/
theorem Scene.grown {e : Store} {made forced : Nat} {changed : List CellId}
    (hs : Scene h d traces samples previous k c bound kept s) (hg : Grown h s e made forced changed) :
    Scene h d traces samples previous k c bound kept e := by
  obtain ⟨table, ht⟩ := hg.heap
  refine ⟨hg.hosts hs.hosts, ?_, ?_, ?_, hg.consumers ▸ hs.consumer, ?_, ?_⟩
  · rw [ht]; exact hs.traces
  · rw [ht]; exact hs.roots
  · rw [ht]; exact hs.contexts
  · rw [ht]; exact hs.peak
  · rw [ht]; exact hs.kept

/-- A sample raises the peak, and is kept if the heap traces. -/
theorem Scene.sampled (hs : Scene h d traces samples previous k c bound kept s) {live : Nat} (hl : bound ≤ live) :
    Scene h d traces samples previous k c live (kept ++ if traces then [live] else []) (s.noteLive h live) := by
  have ht := heap_noteLive hs.hosts.valid hs.traces live
  refine ⟨⟨hs.hosts.active, (Store.size_updateHeap ..).symm ▸ hs.hosts.valid, ?_⟩, ?_, ?_, ?_, hs.consumer, ?_, ?_⟩
  · rw [ht]; exact hs.hosts.quiet
  · rw [ht]; exact hs.traces
  · rw [ht]; exact hs.roots
  · rw [ht]; exact hs.contexts
  · rw [ht]; exact Nat.max_le.2 ⟨Nat.le_trans hs.peak hl, Nat.le_refl _⟩
  · rw [ht, ← hs.kept]
    cases traces
    · exact (List.append_nil _).symm
    · exact Array.toList_push

/-- The log is no part of the scene. -/
theorem Scene.noted (hs : Scene h d traces samples previous k c bound kept s) (events : List Event) :
    Scene h d traces samples previous k c bound kept { s with events := events } :=
  { hs with hosts := { hs.hosts with } }

theorem left_sampled (C : Course run h) (hh : h < s.heaps.size) (ht : (s.heap h).traces = .bool traces)
    (hl : C.left k c s) (live : Nat) (events : List Event) : C.left k c { s.noteLive h live with events := events } := by
  refine C.congr hl rfl ?_ ?_
  · show ((s.noteLive h live).heap h).created = _; rw [heap_noteLive hh ht]
  · show ((s.noteLive h live).heap h).forced = _; rw [heap_noteLive hh ht]

/-- A step along a course. -/
theorem Scene.step (C : Course run h) (hs : Scene h d traces samples previous k c (C.live k) kept s)
    (hl : C.left k c s) : ∃ c' e, Consumer.step run d s = .ok true e ∧ C.left (k + 1) c' e ∧
      Scene h d traces samples previous (k + 1) c' (C.live (k + 1))
        (kept ++ if traces && samples then [C.live (k + 1)] else []) e := by
  obtain ⟨tag, head, tail, e, made, forced, changed, hforce, hg, hne, hnext⟩ := C.step hl hs.hosts
  have he := hs.grown hg
  let m := moved ⟨h, .bool samples, k⟩ d (.cell tail) e
  have ht : m.heap h = { e.heap h with roots := [(rootName, .cell tail)] } :=
    heap_moved he.hosts.valid ⟨_, he.roots⟩ (.cell tail)
  have hm : Scene h d traces samples previous (k + 1) tail (C.live (k + 1)) kept m := by
    refine ⟨⟨he.hosts.active, ?_, ?_⟩, ?_, ?_, ?_, consumer_moved he.consumer _, ?_, ?_⟩
    · exact (Store.size_updateHeap ..).symm ▸ he.hosts.valid
    · exact ht ▸ he.hosts.quiet
    · exact ht ▸ he.traces
    · exact ht ▸ rfl
    · exact ht ▸ he.contexts
    · exact ht ▸ Nat.le_trans he.peak (C.live_le_succ k)
    · exact ht ▸ he.kept
  have hleft : C.left (k + 1) tail m := C.congr hnext rfl (by rw [ht]) (by rw [ht])
  rw [step_of_moved hs.remaining (Run.bind_ok hforce) he.consumer (beq_false_of_ne hne),
    Run.bind_ok (show Run.truth (.bool samples) m = .ok samples m from rfl)]
  cases samples with
  | false => exact ⟨tail, m, rfl, hleft, by simpa using hm⟩
  | true =>
    obtain ⟨found, hfound, hsize⟩ := C.count hleft hm.roots
    have hsample := Run.sample_apply hfound (congrArg Value.truth? hm.traces)
    rw [hsize] at hsample
    simp only [if_true]
    rw [Run.bind_ok hsample]
    refine ⟨tail, _, rfl, ?_, ?_⟩
    · exact left_sampled C hm.hosts.valid hm.traces hleft (C.live (k + 1)) _
    · simpa using (hm.sampled (Nat.le_refl _)).noted _

/-- **A consumer that takes `n` steps along a course stands where the course says**, and keeps a sample for each step
if it samples and its heap traces. -/
theorem Scene.advance (C : Course run h) (n : Nat) (hs : Scene h d traces samples previous k c (C.live k) kept s)
    (hl : C.left k c s) : ∃ c' e, Consumer.advance run d n s = .ok () e ∧ C.left (k + n) c' e ∧
      Scene h d traces samples previous (k + n) c' (C.live (k + n))
        (kept ++ if traces && samples then (List.range n).map fun i => C.live (k + i + 1) else []) e := by
  induction n generalizing k c s kept with
  | zero => exact ⟨c, s, rfl, hl, by simpa using hs⟩
  | succ n ih =>
    obtain ⟨c₁, m, hstep, hl₁, hs₁⟩ := hs.step C hl
    obtain ⟨c₂, e, hrun, hl₂, hs₂⟩ := ih hs₁ hl₁
    have hk : k + 1 + n = k + (n + 1) := by omega
    have hkept : (kept ++ if traces && samples then [C.live (k + 1)] else []) ++
        (if traces && samples then (List.range n).map fun i => C.live (k + 1 + i + 1) else []) =
        kept ++ if traces && samples then (List.range (n + 1)).map fun i => C.live (k + i + 1) else [] := by
      rw [List.append_assoc]
      split
      · rw [List.range_succ_eq_map, List.map_cons, List.map_map]
        simp [Function.comp_def, Nat.add_comm, Nat.add_left_comm]
      · rfl
    rw [hk] at hl₂ hs₂
    rw [hkept] at hs₂
    refine ⟨c₂, e, ?_, hl₂, hs₂⟩
    unfold Consumer.advance
    rw [Run.bind_ok hstep]
    exact hrun

/-- The element at which the consumer stands. -/
theorem Scene.headValue (hs : Scene h d traces samples previous k c bound kept s) {tag : Tag} {head : CellId}
    {tail v : Value} {m e : Store} (hnode : force run c s = .ok (.cons tag (.cell head) tail) m)
    (hhead : force run head m = .ok v e) : Consumer.headValue run d s = .ok v e := by
  have hfirst : Consumer.head run d s = .ok (.cell head) m := by
    unfold Consumer.head
    rw [Run.bind_ok hs.remaining]
    exact (Run.bind_ok (show Run.cellOf "state" (.cell c) s = .ok c s from rfl)).trans (Run.bind_ok hnode)
  unfold Consumer.headValue
  rw [Run.bind_ok hfirst]
  exact hhead

/-- A new consumer on a heap that keeps nothing else alive. -/
theorem scene_new (C : Course run h) (hs : s.Hosts h) (ht : (s.heap h).traces = .bool traces)
    (hr : (s.heap h).roots = []) (hp : (s.heap h).contexts = [previous]) (hpeak : (s.heap h).peak = 0)
    (hkept : (s.heap h).samples = #[]) (samples : Bool) (hl : C.left 0 c s) : ∃ d e,
      Consumer.new h (.bool samples) (.cell c) s = .ok d e ∧ C.left 0 c e ∧
      Scene h d traces samples previous 0 c (C.live 0) (if traces && samples then [C.live 0] else []) e := by
  let m := s.rooted h rootName (.cell c)
  have hm : m.heap h = { s.heap h with roots := [(rootName, .cell c)] } := heap_rooted hs.valid (.cell c) (.inl hr)
  -- the consumer as it is put into the store, whatever was sampled before
  let pushed (e : Store) : Store := { e with consumers := e.consumers.push ⟨h, .bool samples, 0⟩ }
  have hscene : Scene h s.consumers.size traces samples previous 0 c (C.live 0) [] (pushed m) := by
    refine ⟨⟨hs.active, (Store.size_updateHeap ..).symm ▸ hs.valid, ?_⟩, ?_, ?_, ?_, Array.getElem?_push_size, ?_, ?_⟩
    · exact hm ▸ hs.quiet
    · exact hm ▸ ht
    · exact hm ▸ rfl
    · exact hm ▸ hp
    · show (m.heap h).peak ≤ _; rw [hm]; exact Nat.le_trans (Nat.le_of_eq hpeak) (Nat.zero_le _)
    · show (m.heap h).samples.toList = _; rw [hm]; exact congrArg Array.toList hkept
  have hleft : C.left 0 c m := by
    refine C.congr hl rfl ?_ ?_
    · rw [hm]
    · rw [hm]
  have hset := setRoot_apply s h (.cell c)
  unfold Consumer.new
  rw [Run.bind_ok hset, Run.bind_ok (show Run.truth (.bool samples) m = .ok samples m from rfl)]
  cases samples with
  | false => exact ⟨s.consumers.size, pushed m, rfl, C.congr hleft rfl rfl rfl, by simpa using hscene⟩
  | true =>
    obtain ⟨found, hfound, hsize⟩ := C.count hleft (hm ▸ rfl)
    have hsample : Run.sample h m = .ok (C.live 0) (m.noteLive h (C.live 0)) :=
      hsize ▸ Run.sample_apply (s := m) hfound (congrArg Value.truth? hscene.traces)
    have hdiscard : discard (Run.sample h) m = .ok () (m.noteLive h (C.live 0)) := Run.bind_ok hsample
    simp only [if_true]
    rw [Run.bind_ok hdiscard]
    refine ⟨s.consumers.size, pushed (m.noteLive h (C.live 0)), rfl, ?_, ?_⟩
    · exact C.congr (left_sampled (s := m) C hscene.hosts.valid hscene.traces hleft (C.live 0) m.events) rfl rfl rfl
    · have hsampled := hscene.sampled (Nat.le_refl (C.live 0))
      rw [show (pushed m).noteLive h (C.live 0) = pushed (m.noteLive h (C.live 0)) from rfl] at hsampled
      simpa using hsampled

end Consumer

/-- The samples that are kept of a course with `n` steps. -/
def Course.samples {run : Runner} {h : HeapId} (C : Course run h) (traces samples : Bool) (n : Nat) : List Nat :=
  if traces then (if samples then (List.range (n + 1)).map C.live else []) ++ [C.total n] else []

theorem Course.samples_eq {run : Runner} {h : HeapId} (C : Course run h) (traces samples : Bool) (n : Nat) :
    C.samples traces samples n = ((if traces && samples then [C.live 0] else []) ++
      if traces && samples then (List.range n).map fun i => C.live (0 + i + 1) else []) ++
      if traces then [C.total n] else [] := by
  unfold Course.samples
  cases traces <;> cases samples <;> simp [List.range_succ_eq_map, Function.comp_def]

namespace Scenario
variable {run : Runner} {s : Store}

/-- What is seen of a heap that was just opened for a scenario. -/
structure Opened (s : Store) (traces : Bool) (m : Store) : Prop where
  cells : m.cells = s.cells
  hosts : m.Hosts s.heaps.size
  heap : m.heap s.heaps.size = { traces := .bool traces, temporary := true, contexts := [s.active] }

theorem Opened.noted {traces : Bool} {m : Store} (hm : Opened s traces m) (events : List Event) :
    Opened s traces { m with events := events } :=
  ⟨hm.cells, { hm.hosts with }, hm.heap⟩

theorem Opened.numbered {traces : Bool} {m : Store} (hm : Opened s traces m) : m.Numbered s.cells.size s.heaps.size where
  size := by rw [hm.cells, hm.heap]; rfl
  address c hb hc := absurd (hm.cells ▸ hc) (Nat.not_lt_of_le hb)

/-- A computation that leaves the context of its heap alone can be run within a heap of its own. -/
theorem within_eq_ok {α : Type} {traces : Bool} {body : HeapId → Run α} {a : α}
    (hbody : ∀ m, Opened s traces m → ∃ e, body s.heaps.size m = .ok a e ∧ s.heaps.size < e.heaps.size ∧
      (e.heap s.heaps.size).contexts = [s.active]) : ∃ e, within (.bool traces) body s = .ok a e := by
  let heap : Heap := { traces := .bool traces, temporary := true }
  let pushed : Store := { s with heaps := s.heaps.push heap }
  let m : Store := { pushed.entered s.heaps.size with events := .opened :: s.events }
  have hlt : s.heaps.size < pushed.heaps.size := by rw [Array.size_push]; exact Nat.lt_succ_self _
  have hpushed : pushed.heap s.heaps.size = heap := by
    unfold Store.heap
    rw [Array.getElem?_push_size]
    rfl
  have hheap : m.heap s.heaps.size = { traces := .bool traces, temporary := true, contexts := [s.active] } := by
    refine (Store.heap_updateHeap hlt _).trans ?_
    rw [hpushed]
  have hm : Opened s traces m :=
    ⟨rfl, ⟨rfl, (Store.size_updateHeap ..).symm ▸ hlt, congrArg Heap.samplesForces hheap⟩, hheap⟩
  obtain ⟨e, hrun, hvalid, hcontexts⟩ := hbody m hm
  have hattempt : Run.attempt (body s.heaps.size) m = .ok (.ok a) e := by rw [Run.attempt_apply, hrun]
  have hleave : ∃ e', Run.leave s.heaps.size e = .ok () e' := by
    let closing := Event.closing (e.heap s.heaps.size).created (e.heap s.heaps.size).forced (e.heap s.heaps.size).peak
    let closed := Store.closed { e with events := closing :: e.events } s.heaps.size
    have hclosed : (closed.heap s.heaps.size).contexts = [s.active] :=
      (congrArg Heap.contexts (Store.heap_updateHeap (s := { e with events := closing :: e.events }) hvalid _)).trans
        hcontexts
    refine ⟨closed.left s.heaps.size s.active [], ?_⟩
    unfold Run.leave
    rw [Run.bind_ok (show Run.close s.heaps.size e = .ok () closed from rfl), Run.bind_ok (Run.get_apply closed), hclosed]
    rfl
  obtain ⟨e', hleave⟩ := hleave
  refine ⟨e', ?_⟩
  unfold within
  rw [Run.bind_ok (show Run.newHeap heap s = .ok s.heaps.size pushed from rfl),
    Run.bind_ok (show Run.enter s.heaps.size pushed = .ok () m from rfl), Run.bind_ok hattempt, Run.bind_ok hleave]
  rfl

/-- What a scenario measures on its heap, where a negative number of elements to drop is none. -/
theorem measure_eq_ok {d : Discipline} {lo hi : Int} {traces : Bool} {m : Store} (C : Course run s.heaps.size)
    (hm : Opened s traces m) (drop : Int) (samples : Bool)
    (hcycle : ∀ m, Opened s traces m → ∃ c e made forced changed, d.cycle (.int lo) (.int hi) m = .ok c e ∧
      Grown s.heaps.size m e made forced changed ∧ C.left 0 c e) : ∃ e,
    measure run ⟨.int lo, .int hi, .int drop, .bool traces, .bool samples⟩ d s.heaps.size m =
      .ok {
        discipline := d
        head := C.value drop.toNat
        live := .int (C.total drop.toNat)
        peak := .int (C.total drop.toNat)
        created := .int (C.created drop.toNat)
        forced := .int (C.forced drop.toNat)
        samples := (C.samples traces samples drop.toNat).map fun live : Nat => .int live } e ∧
      s.heaps.size < e.heaps.size ∧ (e.heap s.heaps.size).contexts = [s.active] := by
  generalize hn : drop.toNat = n
  have hm := hm.noted (.running d lo hi drop :: m.events)
  obtain ⟨c, e₀, made, forced, changed, hc, hg, hleft⟩ := hcycle _ hm
  obtain ⟨table, ht⟩ := hg.heap
  rw [hm.heap] at ht
  have he₀ := hg.hosts hm.hosts
  obtain ⟨w, e₁, hnew, hleft₁, hs₁⟩ := Consumer.scene_new C he₀
    (show (e₀.heap s.heaps.size).traces = .bool traces by rw [ht]) (by rw [ht])
    (show (e₀.heap s.heaps.size).contexts = [s.active] by rw [ht]) (by rw [ht]) (by rw [ht]) samples hleft
  obtain ⟨c₂, e₂, hadvance, hleft₂, hs₂⟩ := hs₁.advance C n hleft₁
  rw [Nat.zero_add] at hleft₂ hs₂
  obtain ⟨tag, head, tail, m₃, e₃, made', count, changed', found, hnode, hhead, hg', hcreated, hforced, hlive, hsize⟩ :=
    C.read hleft₂ hs₂.hosts hs₂.roots
  have hs₃ := hs₂.grown hg'
  have hsample := Run.sample_apply hlive (congrArg Value.truth? hs₃.traces)
  rw [hsize] at hsample
  have hs₄ := hs₃.sampled (C.live_le_total n)
  have hheap := Consumer.heap_noteLive hs₃.hosts.valid hs₃.traces (C.total n)
  refine ⟨e₃.noteLive s.heaps.size (C.total n), ?_, hs₄.hosts.valid, hs₄.contexts⟩
  have hdrop : Consumer.drop run w drop e₁ = .ok (.cell c₂) e₂ := by
    unfold Consumer.drop
    rw [hn, Run.bind_ok hadvance]
    exact hs₂.remaining
  have hdiscard : discard (Consumer.drop run w drop) e₁ = .ok () e₂ := Run.bind_ok hdrop
  have hpeak : max (e₃.heap s.heaps.size).peak (C.total n) = C.total n :=
    Nat.max_eq_right (Nat.le_trans hs₃.peak (C.live_le_total n))
  have hkept : ((e₃.noteLive s.heaps.size (C.total n)).heap s.heaps.size).samples.toList =
      C.samples traces samples n := by
    rw [hs₄.kept, C.samples_eq]
  unfold measure
  rw [Run.bind_ok (show announce _ d m = .ok () _ from rfl), Run.bind_ok hc, Run.bind_ok hnew,
    Run.bind_ok (show Run.integerOf (.int drop) e₁ = .ok drop e₁ from rfl), Run.bind_ok hdiscard,
    Run.bind_ok (hs₂.headValue hnode hhead), Run.bind_ok hsample, Run.bind_ok (Run.get_apply _), Run.pure_apply, hkept]
  simp only [hheap, hpeak, hcreated, hforced]

/-- **The report of a scenario is told by the course of its list.** -/
theorem report_of_course {d : Discipline} {lo hi : Int} {traces : Bool} (C : Course run s.heaps.size) (drop : Int)
    (samples : Bool) (hcycle : ∀ m, Opened s traces m → ∃ c e made forced changed,
      d.cycle (.int lo) (.int hi) m = .ok c e ∧ Grown s.heaps.size m e made forced changed ∧ C.left 0 c e) : ∃ e,
    report run ⟨.int lo, .int hi, .int drop, .bool traces, .bool samples⟩ d s =
      .ok {
        discipline := d
        head := C.value drop.toNat
        live := .int (C.total drop.toNat)
        peak := .int (C.total drop.toNat)
        created := .int (C.created drop.toNat)
        forced := .int (C.forced drop.toNat)
        samples := (C.samples traces samples drop.toNat).map fun live : Nat => .int live } e :=
  within_eq_ok fun _ hm => measure_eq_ok C hm drop samples hcycle

theorem report_eq_ok {d : Discipline} {lo hi : Int} {traces : Bool} (C : Course run s.heaps.size) (n : Nat)
    (samples : Bool) (hcycle : ∀ m, Opened s traces m → ∃ c e made forced changed,
      d.cycle (.int lo) (.int hi) m = .ok c e ∧ Grown s.heaps.size m e made forced changed ∧ C.left 0 c e) : ∃ e,
    report run ⟨.int lo, .int hi, .int n, .bool traces, .bool samples⟩ d s =
      .ok {
        discipline := d
        head := C.value n
        live := .int (C.total n)
        peak := .int (C.total n)
        created := .int (C.created n)
        forced := .int (C.forced n)
        samples := (C.samples traces samples n).map fun live : Nat => .int live } e :=
  report_of_course C n samples hcycle

end Scenario
end Retention
