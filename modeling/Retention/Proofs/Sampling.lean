import Retention.Proofs.Execution
import Retention.Proofs.Search
/-!
# Sampling — samples that always come to a count

A sample of a heap comes to a count if its flag can be told and a search from its roots meets nothing but cells
(`Store.Sampled`).  A heap serves (`Store.Serves`) if it is active and either takes no samples of its own accord or
takes them with success: then no force is spoiled by the sample that follows it.
-/
namespace Retention

namespace Store

/-- A heap that can be sampled: it can be told whether it traces, and a search meets nothing but cells. -/
structure Sampled (s : Store) (h : HeapId) : Prop where
  traces : ∃ b, (s.heap h).traces.truth? = some b
  roots : OnlyCells ((s.heap h).roots.map (·.2))
  refs : ∀ c, OnlyCells (s.refs c)

/-- A heap that is active, and on which forces can be counted. -/
structure Serves (s : Store) (h : HeapId) : Prop where
  active : s.active = some h
  valid : h < s.heaps.size
  forces : ∃ b, (s.heap h).samplesForces.truth? = some b
  sampled : (s.heap h).samplesForces.truth? = some true → s.Sampled h

theorem refs_setState (s : Store) (c d : CellId) (st : CellState) :
    (s.setState c st).refs d = st.refs ∨ (s.setState c st).refs d = s.refs d := by
  unfold refs
  by_cases hd : d = c
  · subst hd
    by_cases hlt : d < s.cells.size
    · rw [state_setState_self s d st hlt]
      exact .inl rfl
    · rw [state_of_size_le (Nat.not_lt.1 hlt), state_of_size_le (by rw [size_setState]; exact Nat.not_lt.1 hlt)]
      exact .inr rfl
  · rw [state_setState_of_ne s st hd]
    exact .inr rfl

theorem refs_register (s : Store) (h : HeapId) (d : CellId) (st : CellState) :
    (s.register h st).refs d = st.refs ∨ (s.register h st).refs d = s.refs d := by
  unfold refs
  rcases Nat.lt_trichotomy d s.cells.size with hlt | rfl | hgt
  · rw [state_register_of_lt hlt]
    exact .inr rfl
  · rw [state_register_new]
    exact .inl rfl
  · rw [state_of_size_le (Nat.le_of_lt hgt), state_of_size_le (by rw [size_register]; exact hgt)]
    exact .inr rfl

/-- What a change of a heap leaves alone in every heap. -/
theorem field_updateHeap {α : Type} {r : Heap → α} {f : Heap → Heap} (hf : ∀ x, r (f x) = r x) (s : Store)
    (h g : HeapId) : r ((s.updateHeap h f).heap g) = r (s.heap g) := by
  unfold updateHeap heap
  rw [Array.getElem?_modify]
  split
  · cases s.heaps[g]? with
    | none => rfl
    | some x => exact hf x
  · rfl

/-- What is the same in every heap if it is in the one that is added as in a new one. -/
theorem field_pushHeap {α : Type} {r : Heap → α} {x : Heap} (hx : r x = r {}) (s : Store) (g : HeapId) :
    r (({ s with heaps := s.heaps.push x } : Store).heap g) = r (s.heap g) := by
  unfold heap
  rw [Array.getElem?_push]
  split
  · rw [‹g = s.heaps.size›, Array.getElem?_eq_none (Nat.le_refl _)]
    exact hx
  · rfl

variable {s e : Store} {h : HeapId}

theorem heap_register (hh : h < s.heaps.size) (st : CellState) : (s.register h st).heap h =
    { s.heap h with created := (s.heap h).created + 1, table := (s.heap h).table.push s.cells.size } :=
  heap_updateHeap (s := { s with cells := s.cells.push ⟨h, (s.heap h).created + 1, st, st⟩ }) hh _

namespace Sampled

theorem updateHeap (hs : s.Sampled h) (hh : h < s.heaps.size) {f : Heap → Heap} (htraces : ∀ x, (f x).traces = x.traces)
    (hroots : ∀ x, (f x).roots = x.roots) : (s.updateHeap h f).Sampled h where
  traces := by rw [heap_updateHeap hh, htraces]; exact hs.traces
  roots := by rw [heap_updateHeap hh, hroots]; exact hs.roots
  refs := hs.refs

theorem setState (hs : s.Sampled h) (c : CellId) {st : CellState} (hst : OnlyCells st.refs) :
    (s.setState c st).Sampled h :=
  { hs with
    refs := fun d => by
      rcases refs_setState s c d st with heq | heq
      · rw [heq]; exact hst
      · rw [heq]; exact hs.refs d }

theorem register (hs : s.Sampled h) (hh : h < s.heaps.size) {st : CellState} (hst : OnlyCells st.refs) :
    (s.register h st).Sampled h := by
  have hcells : (show Store from { s with cells := s.cells.push ⟨h, (s.heap h).created + 1, st, st⟩ }).Sampled h :=
    { hs with
      refs := fun d => by
        rcases refs_register s h d st with heq | heq
        · intro v hv; exact hst v (heq ▸ hv)
        · intro v hv; exact hs.refs d v (heq ▸ hv) }
  exact hcells.updateHeap hh (fun _ => rfl) fun _ => rfl

theorem reachable_eq_ok (hs : s.Sampled h) : ∃ live, s.reachable h = .ok live :=
  s.walk_of_cells hs.refs {} _ fun v hv => hs.roots v (List.mem_reverse.1 hv)

end Sampled

namespace Serves

theorem updateHeap (hs : s.Serves h) {f : Heap → Heap} (hforces : ∀ x, (f x).samplesForces = x.samplesForces)
    (htraces : ∀ x, (f x).traces = x.traces) (hroots : ∀ x, (f x).roots = x.roots) : (s.updateHeap h f).Serves h where
  active := hs.active
  valid := (size_updateHeap s h f).symm ▸ hs.valid
  forces := by rw [heap_updateHeap hs.valid, hforces]; exact hs.forces
  sampled := by
    rw [heap_updateHeap hs.valid, hforces]
    exact fun hb => (hs.sampled hb).updateHeap hs.valid htraces hroots

theorem setState (hs : s.Serves h) (c : CellId) {st : CellState} (hst : OnlyCells st.refs) :
    (s.setState c st).Serves h := { hs with sampled := fun hb => (hs.sampled hb).setState c hst }

theorem register (hs : s.Serves h) {st : CellState} (hst : OnlyCells st.refs) : (s.register h st).Serves h where
  active := hs.active
  valid := (size_updateHeap _ h _).symm ▸ hs.valid
  forces := by rw [heap_register hs.valid]; exact hs.forces
  sampled := by
    rw [heap_register hs.valid]
    exact fun hb => (hs.sampled hb).register hs.valid hst

theorem congr (hs : s.Serves h) (hactive : e.active = s.active) (hheaps : e.heaps = s.heaps)
    (hcells : e.cells = s.cells) : e.Serves h := by
  have hheap : e.heap h = s.heap h := by rw [heap, heap, hheaps]
  have hrefs : ∀ c, e.refs c = s.refs c := fun c => by rw [refs, refs, state_of_cells hcells]
  refine ⟨hactive.trans hs.active, hheaps ▸ hs.valid, hheap ▸ hs.forces, fun hb => ?_⟩
  have hsampled := hs.sampled (hheap ▸ hb)
  exact ⟨hheap ▸ hsampled.traces, hheap ▸ hsampled.roots, fun c => hrefs c ▸ hsampled.refs c⟩

theorem recorded (hs : s.Serves h) (x : Turn) : (s.recorded x).Serves h := hs.congr rfl rfl rfl

end Serves
end Store

namespace Run
variable {s : Store} {h : HeapId}

theorem truth_apply {v : Value} {b : Bool} (hv : v.truth? = some b) (s : Store) : truth v s = .ok b s := by
  unfold truth
  rw [hv]
  rfl

/-- A sample of a heap that can be searched comes to what was found, if it can be told whether the heap traces. -/
theorem sample_apply {found : Found} {b : Bool} (hf : s.reachable h = .ok found)
    (ht : (s.heap h).traces.truth? = some b) : sample h s = .ok found.size (s.noteLive h found.size) := by
  have hsame : ((s.noteLive h found.size).heap h).traces = (s.heap h).traces := by
    refine Store.field_updateHeap (r := Heap.traces) ?_ s h h
    exact fun _ => rfl
  have hflag : ((s.noteLive h found.size).heap h).traces.truth? = some b := by rw [hsame]; exact ht
  unfold sample
  rw [bind_ok (liveCount_eq_ok_iff.2 ⟨⟨found, hf, rfl⟩, rfl⟩), bind_ok (modify_apply _ s), bind_ok (get_apply _),
    bind_ok (show discard (truth _) _ = .ok () _ from bind_ok (truth_apply hflag _))]
  rfl

theorem sample_eq_ok (hs : s.Serves h) (hsampled : s.Sampled h) :
    ∃ live heaps, sample h s = .ok live { s with heaps := heaps } ∧ Store.Serves { s with heaps := heaps } h := by
  obtain ⟨live, hlive⟩ := hsampled.reachable_eq_ok
  have hnoted : (s.noteLive h live.size).Serves h := hs.updateHeap (fun _ => rfl) (fun _ => rfl) fun _ => rfl
  obtain ⟨b, hb⟩ := hsampled.traces
  exact ⟨live.size, (s.noteLive h live.size).heaps, sample_apply hlive hb, hnoted⟩

/-- Counting a force on a heap that serves always succeeds, and changes nothing but the heaps. -/
theorem noteForced_eq_ok (hs : s.Serves h) :
    ∃ heaps, noteForced h s = .ok () { s with heaps := heaps } ∧ Store.Serves { s with heaps := heaps } h := by
  have hcounted : (s.counted h).Serves h := hs.updateHeap (fun _ => rfl) (fun _ => rfl) fun _ => rfl
  obtain ⟨b, hb⟩ := hcounted.forces
  have hstart : noteForced h s = (if b then discard (sample h) else pure ()) (s.counted h) := by
    unfold noteForced
    rw [bind_ok (modify_apply _ s), bind_ok (get_apply _), bind_ok (truth_apply hb _)]
  cases b with
  | false => exact ⟨_, hstart, hcounted⟩
  | true =>
    obtain ⟨live, heaps, hsample, hserves⟩ := sample_eq_ok hcounted (hcounted.sampled hb)
    exact ⟨heaps, hstart.trans (bind_ok hsample), hserves⟩

end Run
end Retention
