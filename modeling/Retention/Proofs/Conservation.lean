import Retention.Proofs.GroundingProgram
import Retention.Proofs.Liveness
import Retention.Proofs.Memoization
import Mathlib.Algebra.BigOperators.Group.Finset.Basic
import Mathlib.Data.Finset.Card
/-!
# Conservation — what the counters of the heaps add up to

A heap counts the cells that were registered in it and the forces that were completed on it.  Both counters are tied to
the cells of the store (`Store.Balanced`): the cells of a heap have the addresses from 1 up to its `created`, in the order
in which they were made, and its `forced` is the number of cells that were made suspended, now have a value, and began to
be forced while this heap was active.

A transition changes a counter only where it changes what is counted.  That a heap which counts is one that is there is
what `Moment.Placed` gives; a pending force keeps the heap on which it is to count, whichever heaps are entered, left or
closed until it ends.
-/
namespace Retention

/-- The heap that was active when a turn began. -/
def Turn.heap? : Turn → Option HeapId
  | began _ h _ => h
  | _ => none

/-- What is settled of a heap when it is made. -/
def Heap.flags (x : Heap) : Value × Value := (x.traces, x.samplesForces)

namespace Store
variable {s e : Store}

/-- The heap in which a cell was registered. -/
def home? (s : Store) (c : CellId) : Option HeapId := s.cells[c]?.map (·.heap)

/-- The cells that were ever registered in a heap, in the order in which they were made. -/
def registered (s : Store) (h : HeapId) : List CellId := (List.range s.cells.size).filter fun c => s.home? c == some h

/-- The heap that was active when the force of a cell began. -/
def forcedOn (s : Store) (c : CellId) : Option HeapId := (s.turnsOf c).head?.bind Turn.heap?

/-- The cells that were made suspended and now have a value. -/
def completed (s : Store) : Finset CellId := (Finset.range s.cells.size).filter fun c =>
  (s.initial? c).map CellState.phase = some .suspended ∧ (s.state c).phase = .evaluated

/-- The cells that were made suspended, now have a value, and began to be forced while the heap was active. -/
def completedOn (s : Store) (h : HeapId) : Finset CellId := s.completed.filter fun c => s.forcedOn c = some h

/-- The counters of the heaps are what the cells make them. -/
structure Balanced (s : Store) : Prop where
  homes : ∀ c h, s.home? c = some h → h < s.heaps.size
  addresses : ∀ h, (s.registered h).map s.address = List.range' 1 (s.heap h).created
  placed : ∀ c ∈ s.completed, ∃ h < s.heaps.size, s.forcedOn c = some h
  forced : ∀ h, (s.heap h).forced = (s.completedOn h).card

theorem mem_completed {c : CellId} : c ∈ s.completed ↔
    ∃ st, s.initial? c = some st ∧ st.phase = .suspended ∧ (s.state c).phase = .evaluated := by
  unfold completed
  rw [Finset.mem_filter, Finset.mem_range, Option.map_eq_some_iff]
  constructor
  · rintro ⟨-, ⟨st, hst, hphase⟩, hstate⟩
    exact ⟨st, hst, hphase, hstate⟩
  · rintro ⟨st, hst, hphase, hstate⟩
    exact ⟨lt_of_initial? hst, ⟨st, hst, hphase⟩, hstate⟩

/-! ## What a change leaves alone -/

theorem heap_updateHeap_of_ne (s : Store) {h g : HeapId} (hg : g ≠ h) (f : Heap → Heap) :
    (s.updateHeap h f).heap g = s.heap g := by
  unfold updateHeap heap
  rw [Array.getElem?_modify, if_neg (Ne.symm hg)]

/-- A heap that there is stays as it is when another one is added. -/
theorem heap_push_of_lt {g : HeapId} (hg : g < s.heaps.size) (x : Heap) :
    ({ s with heaps := s.heaps.push x } : Store).heap g = s.heap g := by
  unfold heap
  rw [Array.getElem?_push_lt hg, Array.getElem?_eq_getElem hg]

theorem size_le_of_step (h : Step s e) : s.heaps.size ≤ e.heaps.size := by
  cases h with
  | newHeap traces samplesForces temporary => rw [Array.size_push]; exact Nat.le_succ _
  | newCell g st ha => exact Nat.le_of_eq (Array.size_modify ..).symm
  | entered g => exact Nat.le_of_eq (Array.size_modify ..).symm
  | left g previous contexts => exact Nat.le_of_eq (Array.size_modify ..).symm
  | closed g => exact Nat.le_of_eq (Array.size_modify ..).symm
  | sampled g found => exact Nat.le_of_eq (Array.size_modify ..).symm
  | collected g found => exact Nat.le_of_eq (Array.size_modify ..).symm
  | rooted g name v => exact Nat.le_of_eq (Array.size_modify ..).symm
  | unrooted g name => exact Nat.le_of_eq (Array.size_modify ..).symm
  | _ => exact Nat.le_refl _

/-- What neither entries nor roots nor collections touch of a heap's record: a change leaves it alone in the heaps that
there are, and in all others too if it is the same for every new heap, or it makes a cell or takes a sample. -/
theorem field_of_step {α : Type} {r : Heap → α} (hcontexts : ∀ x contexts, r { x with contexts } = r x)
    (hroots : ∀ (x : Heap) roots table reclaimed, r { x with roots, table, reclaimed } = r x) (h : Step s e) :
    (e.cells = s.cells ∧ ∀ g, (g < s.heaps.size ∨ ∀ ts fs t, r ⟨ts, fs, 0, 0, 0, 0, #[], [], #[], t, []⟩ = r {}) →
      r (e.heap g) = r (s.heap g)) ∨
    (∃ g st, s.active = some g ∧ e = s.register g st) ∨ ∃ g live, e = s.noteLive g live := by
  cases h with
  | newCell g st ha => exact .inr (.inl ⟨g, st, ha, rfl⟩)
  | sampled g found => exact .inr (.inr ⟨g, found.size, rfl⟩)
  | newHeap traces samplesForces temporary =>
    refine .inl ⟨rfl, fun g hg => ?_⟩
    rcases hg with hg | hnew
    · exact congrArg r (heap_push_of_lt hg _)
    · exact field_pushHeap (hnew traces samplesForces temporary) s g
  | entered g =>
    let f : Heap → Heap := fun x => { x with contexts := s.active :: x.contexts }
    exact .inl ⟨rfl, fun i _ => field_updateHeap (f := f) (fun x => hcontexts x _) s g i⟩
  | left g previous contexts =>
    exact .inl ⟨rfl, fun i _ => field_updateHeap (f := fun x => { x with contexts }) (fun x => hcontexts x _) s g i⟩
  | closed g => exact .inl ⟨rfl, fun i _ => field_updateHeap (fun x => hroots x _ _ x.reclaimed) s g i⟩
  | collected g found => exact .inl ⟨rfl, fun i _ => field_updateHeap (fun x => hroots x x.roots _ _) s g i⟩
  | rooted g name v => exact .inl ⟨rfl, fun i _ => field_updateHeap (fun x => hroots x _ x.table x.reclaimed) s g i⟩
  | unrooted g name => exact .inl ⟨rfl, fun i _ => field_updateHeap (fun x => hroots x _ x.table x.reclaimed) s g i⟩
  | _ => exact .inl ⟨rfl, fun _ _ => rfl⟩

/-- What is the same in every heap after a cell was made. -/
theorem field_register {α : Type} {r : Heap → α} (hr : ∀ (x : Heap) created table, r { x with created, table } = r x)
    (s : Store) (h g : HeapId) (st : CellState) : r ((s.register h st).heap g) = r (s.heap g) :=
  field_updateHeap (f := fun x => { x with created := (s.heap h).created + 1, table := x.table.push s.cells.size })
    (fun x => hr x _ _) _ h g

/-- What is the same in every heap after a count was noted. -/
theorem field_noteLive {α : Type} {r : Heap → α} (hr : ∀ (x : Heap) peak samples, r { x with peak, samples } = r x)
    (s : Store) (h g : HeapId) (live : Nat) : r ((s.noteLive h live).heap g) = r (s.heap g) :=
  field_updateHeap (fun x => hr x _ _) s h g

/-- What is the same in every heap after a force was counted. -/
theorem field_counted {α : Type} {r : Heap → α} (hr : ∀ (x : Heap) forced, r { x with forced } = r x) (s : Store)
    (h g : HeapId) : r ((s.counted h).heap g) = r (s.heap g) :=
  field_updateHeap (f := fun x => { x with forced := x.forced + 1 }) (fun x => hr x _) s h g

/-- **A change that runs no thunk counts no force, and counts a cell only if it makes one on the active heap.** -/
theorem counters_of_step (h : Step s e) :
    (e.cells = s.cells ∧ ∀ g, (e.heap g).created = (s.heap g).created ∧ (e.heap g).forced = (s.heap g).forced) ∨
      ∃ g st, s.active = some g ∧ e = s.register g st := by
  let r : Heap → Nat × Nat := fun x => (x.created, x.forced)
  rcases field_of_step (r := r) (fun _ _ => rfl) (fun _ _ _ _ => rfl) h with hsame | hmade | ⟨g, live, rfl⟩
  · exact .inl ⟨hsame.1, fun g => Prod.mk.inj (hsame.2 g (.inr fun _ _ _ => rfl))⟩
  · exact .inr hmade
  · exact .inl ⟨rfl, fun i => Prod.mk.inj (field_noteLive (r := r) (fun _ _ _ => rfl) s g i live)⟩

/-- **The flags of a heap never change.** -/
theorem flags_of_step (h : Step s e) {g : HeapId} (hg : g < s.heaps.size) : (e.heap g).flags = (s.heap g).flags := by
  have hcases := field_of_step (r := Heap.flags) (fun _ _ => rfl) (fun _ _ _ _ => rfl) h
  rcases hcases with hsame | ⟨i, st, -, rfl⟩ | ⟨i, live, rfl⟩
  · exact hsame.2 g (.inl hg)
  · exact field_register (fun _ _ _ => rfl) s i g st
  · exact field_noteLive (fun _ _ _ => rfl) s i g live

theorem home?_setState (s : Store) (c d : CellId) (st : CellState) : (s.setState c st).home? d = s.home? d := by
  unfold setState home?
  rw [Array.getElem?_modify]
  split
  · cases s.cells[d]? <;> rfl
  · rfl

theorem home?_register_of_lt {c : CellId} (hc : c < s.cells.size) (h : HeapId) (st : CellState) :
    (s.register h st).home? c = s.home? c := by
  unfold register home? updateHeap
  rw [Array.getElem?_push_lt hc, Array.getElem?_eq_getElem hc]

theorem home?_register_new (s : Store) (h : HeapId) (st : CellState) :
    (s.register h st).home? s.cells.size = some h := by
  unfold register home? updateHeap
  rw [Array.getElem?_push_size]
  rfl

theorem lt_of_mem_registered {h : HeapId} {c : CellId} (hc : c ∈ s.registered h) : c < s.cells.size :=
  List.mem_range.1 (List.mem_filter.1 hc).1

theorem registered_register (s : Store) (h g : HeapId) (st : CellState) : (s.register h st).registered g =
    s.registered g ++ if h = g then [s.cells.size] else [] := by
  have hold : (List.range s.cells.size).filter (fun c => (s.register h st).home? c == some g) = s.registered g :=
    List.filter_congr fun c hc => by rw [home?_register_of_lt (List.mem_range.1 hc)]
  unfold registered at hold ⊢
  rw [size_register, List.range_succ, List.filter_append, hold, List.filter_singleton, home?_register_new]
  by_cases hg : h = g
  · rw [if_pos hg, hg, beq_self_eq_true]; rfl
  · rw [if_neg hg, beq_eq_false_iff_ne.2 fun heq => hg (Option.some.inj heq)]; rfl

theorem forcedOn_of_turns {c : CellId} (h : e.turnsOf c = s.turnsOf c) : e.forcedOn c = s.forcedOn c := by
  rw [forcedOn, forcedOn, h]

theorem completed_of_step (h : Step s e) : e.completed = s.completed := by
  ext c
  rw [mem_completed, mem_completed]
  constructor
  · rintro ⟨st, hst, hphase, hstate⟩
    rcases h.initial?_inv hst with hold | ⟨-, hnew⟩
    · exact ⟨st, hold, hphase, h.state (lt_of_initial? hold) ▸ hstate⟩
    · rw [hnew, hphase] at hstate
      cases hstate
  · rintro ⟨st, hst, hphase, hstate⟩
    exact ⟨st, h.initial? hst, hphase, (h.state (lt_of_initial? hst)).symm ▸ hstate⟩

/-- What is counted of forces stays as it is. -/
theorem completedOn_congr (hcompleted : e.completed = s.completed)
    (hforcedOn : ∀ c ∈ s.completed, e.forcedOn c = s.forcedOn c) (h : HeapId) : e.completedOn h = s.completedOn h := by
  unfold completedOn
  rw [hcompleted]
  exact Finset.filter_congr fun c hc => by rw [hforcedOn c hc]

/-! ## The counters stay balanced -/

namespace Balanced

theorem start : Balanced {} where
  homes _ _ h := by cases h
  addresses _ := rfl
  placed _ h := by cases h
  forced _ := rfl

/-- A change that makes no cell and counts nothing. -/
theorem congr (hs : s.Balanced) (hsize : s.heaps.size ≤ e.heaps.size) (hcells : e.cells.size = s.cells.size)
    (hhome : ∀ c, e.home? c = s.home? c) (haddress : e.address = s.address)
    (hheaps : ∀ g, (e.heap g).created = (s.heap g).created ∧ (e.heap g).forced = (s.heap g).forced)
    (hcompleted : e.completed = s.completed) (hforcedOn : ∀ c ∈ s.completed, e.forcedOn c = s.forcedOn c) :
    e.Balanced where
  homes c h hc := Nat.lt_of_lt_of_le (hs.homes c h (hhome c ▸ hc)) hsize
  addresses h := by
    unfold registered
    simp only [hcells, hhome, haddress, (hheaps h).1]
    exact hs.addresses h
  placed c hc := by
    rw [hcompleted] at hc
    obtain ⟨h, hh, hon⟩ := hs.placed c hc
    exact ⟨h, Nat.lt_of_lt_of_le hh hsize, (hforcedOn c hc).trans hon⟩
  forced h := by rw [(hheaps h).2, hs.forced, completedOn_congr hcompleted hforcedOn]

theorem register (hs : s.Balanced) {g : HeapId} (hg : g < s.heaps.size) (st : CellState)
    (hcompleted : (s.register g st).completed = s.completed) : (s.register g st).Balanced := by
  have hsize : (s.register g st).heaps.size = s.heaps.size := Array.size_modify ..
  have hforcedOn : ∀ c, (s.register g st).forcedOn c = s.forcedOn c := fun c => rfl
  refine ⟨fun c h hc => ?_, fun i => ?_, fun c hc => ?_, fun i => ?_⟩
  · rw [hsize]
    rcases Nat.lt_trichotomy c s.cells.size with hlt | rfl | hgt
    · exact hs.homes c h (home?_register_of_lt hlt g st ▸ hc)
    · rw [home?_register_new] at hc
      exact Option.some.inj hc ▸ hg
    · unfold home? at hc
      rw [Array.getElem?_eq_none (by rw [Store.size_register]; exact hgt)] at hc
      cases hc
  · have hold : (s.registered i).map (s.register g st).address = List.range' 1 (s.heap i).created := by
      rw [← hs.addresses]
      exact List.map_congr_left fun c hc => address_register_of_lt (lt_of_mem_registered hc) g st
    rw [registered_register, List.map_append, hold]
    by_cases hi : g = i
    · subst hi
      rw [if_pos rfl, heap_register hg, List.range'_1_concat, Nat.add_comm 1, ← address_register_new]
      rfl
    · rw [if_neg hi, heap_register_of_ne s (Ne.symm hi), List.map_nil, List.append_nil]
  · rw [hcompleted] at hc
    rw [hsize]
    exact hs.placed c hc
  · rw [completedOn_congr hcompleted fun c _ => hforcedOn c, ← hs.forced]
    by_cases hi : i = g
    · rw [hi, heap_register hg]
    · rw [heap_register_of_ne s hi]

theorem step (hs : s.Balanced) (h : Step s e) (ha : ∀ g, s.active = some g → g < s.heaps.size) : e.Balanced := by
  have hcompleted := completed_of_step h
  rcases counters_of_step h with ⟨hcells, hheaps⟩ | ⟨g, st, hg, rfl⟩
  · exact hs.congr (size_le_of_step h) (by rw [hcells]) (fun c => by rw [home?, home?, hcells])
      (by funext c; rw [address, address, hcells]) hheaps hcompleted
      fun c _ => forcedOn_of_turns (turnsOf_of_history h.cells.1 c)
  · exact hs.register (ha g hg) st hcompleted

/-- A turn of no cell's. -/
theorem recorded (hs : s.Balanced) {x : Turn} (hx : x.owner = none) : (s.recorded x).Balanced :=
  hs.congr (Nat.le_refl _) rfl (fun _ => rfl) rfl (fun _ => ⟨rfl, rfl⟩) rfl fun c _ => forcedOn_of_turns (by
    rw [turnsOf_recorded, if_neg fun h => by rw [hx] at h; cases h])

end Balanced

/-- A turn of a cell's own that does not give it a value. -/
theorem completed_of_moved {c : CellId} {x : Turn} {st : CellState} (h : s.Moved e c x st)
    (hc : (s.state c).phase ≠ .evaluated) (hst : st.phase ≠ .evaluated) : e.completed = s.completed := by
  ext d
  rw [mem_completed, mem_completed, h.initial]
  by_cases hd : d = c
  · subst hd
    rw [h.state]
    exact ⟨fun ⟨_, _, _, hstate⟩ => absurd hstate hst, fun ⟨_, _, _, hstate⟩ => absurd hstate hc⟩
  · rw [h.stateOther d hd]

/-- A turn that gives a cell its value. -/
theorem completed_of_finished {c : CellId} {x : Turn} {st st' : CellState} (h : s.Moved e c x st)
    (hc : s.initial? c = some st') (hphase : st'.phase = .suspended) (hst : st.phase = .evaluated) :
    e.completed = insert c s.completed := by
  ext d
  rw [Finset.mem_insert, mem_completed, mem_completed, h.initial]
  by_cases hd : d = c
  · subst hd
    exact iff_of_true ⟨st', hc, hphase, h.state ▸ hst⟩ (.inl rfl)
  · rw [h.stateOther d hd]
    exact ⟨.inr, fun h => h.resolve_left hd⟩

namespace Balanced

theorem moved (hs : s.Balanced) {c : CellId} {x : Turn} {st : CellState} (h : s.Moved e c x st)
    (hc : (s.state c).phase ≠ .evaluated) (hst : st.phase ≠ .evaluated) (hheaps : e.heaps = s.heaps)
    (hhome : ∀ d, e.home? d = s.home? d) (haddress : e.address = s.address) : e.Balanced := by
  refine hs.congr (Nat.le_of_eq (by rw [hheaps])) h.size hhome haddress
    (fun g => by rw [heap, heap, hheaps]; exact ⟨rfl, rfl⟩) (completed_of_moved h hc hst)
    fun d hd => forcedOn_of_turns (h.turnsOther d fun hdc => ?_)
  obtain ⟨-, -, -, hstate⟩ := mem_completed.1 hd
  exact hc (hdc ▸ hstate)

/-- **The end of a force that gives its cell a value counts once, on the heap on which the force began.** -/
theorem finished (hs : s.Balanced) {c : CellId} {h : HeapId} {t : Thunk} (v : Value) (hh : h < s.heaps.size)
    (hc : s.initial? c = some (.suspended t)) (hturns : s.turnsOf c = [.began (some c) (some h) t])
    (hstate : s.state c = .inProgress t) : (s.finished c h v).Balanced := by
  have hmoved := moved_finished h v (lt_of_initial? hc)
  have hcompleted := completed_of_finished hmoved hc rfl rfl
  have hsize : (s.finished c h v).heaps.size = s.heaps.size := Array.size_modify ..
  have hon : (s.finished c h v).forcedOn c = some h := by rw [forcedOn, hmoved.turns, hturns]; rfl
  have hforcedOn : ∀ d ∈ s.completed, (s.finished c h v).forcedOn d = s.forcedOn d := fun d hd =>
    forcedOn_of_turns (hmoved.turnsOther d fun hdc => by
      obtain ⟨-, -, -, hphase⟩ := mem_completed.1 hd
      rw [hdc, hstate] at hphase
      cases hphase)
  have hnew : c ∉ s.completed := fun hmem => by
    obtain ⟨-, -, -, hphase⟩ := mem_completed.1 hmem
    rw [hstate] at hphase
    cases hphase
  have hhome : ∀ d, (s.finished c h v).home? d = s.home? d := fun d => home?_setState (s.recorded _) c d _
  have haddress : (s.finished c h v).address = s.address := funext fun d => address_setState (s.recorded _) c d _
  have hcreated : ∀ g, ((s.finished c h v).heap g).created = (s.heap g).created :=
    field_updateHeap (r := Heap.created) (f := fun x => { x with forced := x.forced + 1 }) (fun _ => rfl)
      ((s.recorded (.returned (some c) v)).setState c (.evaluated v)) h
  refine ⟨fun d g hd => hsize ▸ hs.homes d g (hhome d ▸ hd), fun g => ?_, fun d hd => ?_, fun g => ?_⟩
  · unfold registered
    simp only [hmoved.size, hhome, haddress, hcreated]
    exact hs.addresses g
  · rw [hsize]
    rw [hcompleted, Finset.mem_insert] at hd
    rcases hd with rfl | hd
    · exact ⟨h, hh, hon⟩
    · obtain ⟨g, hg, hdg⟩ := hs.placed d hd
      exact ⟨g, hg, (hforcedOn d hd).trans hdg⟩
  · have hrest : (s.completed.filter fun d => (s.finished c h v).forcedOn d = some g) = s.completedOn g :=
      Finset.filter_congr fun d hd => by rw [hforcedOn d hd]
    rw [completedOn, hcompleted, Finset.filter_insert, hrest, hon]
    by_cases hg : h = g
    · subst hg
      have hfree : c ∉ s.completedOn h := fun hmem => hnew (Finset.mem_filter.1 hmem).1
      rw [if_pos rfl, Finset.card_insert_of_notMem hfree, ← hs.forced]
      exact congrArg Heap.forced
        (heap_updateHeap (s := (s.recorded (.returned (some c) v)).setState c (.evaluated v)) hh _)
    · rw [if_neg fun heq => hg (Option.some.inj heq), ← hs.forced]
      exact congrArg Heap.forced (heap_updateHeap_of_ne _ (Ne.symm hg) _)

end Balanced
end Store

namespace Moment

/-- **The flags of a heap are settled when it is made.** -/
theorem Next.flags {m m' : Moment} (h : Next m m') {g : HeapId} (hg : g < m.store.heaps.size) :
    g < m'.store.heaps.size ∧ (m'.store.heap g).flags = (m.store.heap g).flags := by
  cases h with
  | change k hstep => exact ⟨Nat.lt_of_lt_of_le hg (Store.size_le_of_step hstep), Store.flags_of_step hstep hg⟩
  | finished s k c h v =>
    exact ⟨(Array.size_modify ..).symm ▸ hg, Store.field_counted (r := Heap.flags) (fun _ _ => rfl) _ h g⟩
  | _ => exact ⟨hg, rfl⟩

theorem Leads.flags {m m' : Moment} (h : Leads m m') {g : HeapId} (hg : g < m.store.heaps.size) :
    g < m'.store.heaps.size ∧ (m'.store.heap g).flags = (m.store.heap g).flags := by
  induction h with
  | refl => exact ⟨hg, rfl⟩
  | tail _ hnext ih =>
    obtain ⟨hlt, hsame⟩ := hnext.flags ih.1
    exact ⟨hlt, hsame.trans ih.2⟩

/-- What holds at every moment: the counters are balanced, and every pending force is to count on a heap that is there. -/
structure Balanced (m : Moment) : Prop where
  store : m.store.Balanced
  pending : ∀ c h, .force c h ∈ m.pending → h < m.store.heaps.size

theorem Balanced.next {m m' : Moment} (hm : m.Balanced) (hsound : m.Sound) (hplaced : m.Placed) (h : Next m m') :
    m'.Balanced := by
  cases h with
  | change k hstep =>
    exact ⟨hm.store.step hstep hplaced, fun c h hc => Nat.lt_of_lt_of_le (hm.pending c h hc) (Store.size_le_of_step hstep)⟩
  | call s k t =>
    exact ⟨hm.store.recorded rfl, fun c h hc =>
      hm.pending c h ((List.mem_cons.1 hc).resolve_left fun heq => by cases heq)⟩
  | returned s k v => exact ⟨hm.store.recorded rfl, fun c h hc => hm.pending c h (List.mem_cons_of_mem _ hc)⟩
  | raised s k x => exact ⟨hm.store.recorded rfl, fun c h hc => hm.pending c h (List.mem_cons_of_mem _ hc)⟩
  | force s k c h t hs ha =>
    have hmoved := Store.moved_began h t (Store.lt_of_initial? (hsound.of_suspended hs).1)
    refine ⟨hm.store.moved hmoved (by rw [hs]; exact nofun) nofun rfl (Store.home?_setState s c · _)
      (funext fun d => Store.address_setState s c d _), fun d g hd => ?_⟩
    rcases List.mem_cons.1 hd with heq | hd
    · cases heq
      exact hplaced h ha
    · exact hm.pending d g hd
  | finished s k c h v =>
    obtain ⟨t, hi, hturns, hs⟩ := hsound.running c h List.mem_cons_self
    have hsize : (s.finished c h v).heaps.size = s.heaps.size := Array.size_modify ..
    refine ⟨hm.store.finished v (hm.pending c h List.mem_cons_self) hi hturns hs, fun d g hd => ?_⟩
    rw [hsize]
    exact hm.pending d g (List.mem_cons_of_mem _ hd)
  | aborted s k c h x =>
    obtain ⟨t, hi, hturns, hs⟩ := hsound.running c h List.mem_cons_self
    have hmoved := Store.moved_aborted x (Store.lt_of_initial? hi)
    exact ⟨hm.store.moved hmoved (by rw [hs]; exact nofun) nofun rfl (Store.home?_setState _ c · _)
      (funext fun d => Store.address_setState _ c d _), fun d g hd => hm.pending d g (List.mem_cons_of_mem _ hd)⟩

/-- **At every moment of every run, the counters are balanced.** -/
theorem Proceeds.balanced {m : Moment} (h : Proceeds ⟨{}, []⟩ m) : m.Balanced := by
  suffices hall : m.Balanced ∧ m.Sound ∧ m.Placed from hall.1
  induction h with
  | refl => exact ⟨⟨.start, fun _ _ h => by cases h⟩, sound_start, fun _ h => by cases h⟩
  | tail _ hnext ih =>
    obtain ⟨hb, hs, hp⟩ := ih
    exact ⟨hb.next hs hp hnext.1, hs.next hnext.1, hnext.2⟩

end Moment

/-! ## What the counters add up to -/

namespace Store
variable {s : Store}

theorem home?_of_lt {c : CellId} (hc : c < s.cells.size) : ∃ h, s.home? c = some h :=
  ⟨s.cells[c].heap, by unfold home?; rw [Array.getElem?_eq_getElem hc]; rfl⟩

namespace Balanced

theorem sum_forced (hs : s.Balanced) : ∑ h ∈ Finset.range s.heaps.size, (s.heap h).forced = s.completed.card := by
  have hmaps : ∀ c ∈ s.completed, (s.forcedOn c).getD 0 ∈ Finset.range s.heaps.size := fun c hc => by
    obtain ⟨h, hh, hon⟩ := hs.placed c hc
    rw [hon]
    exact Finset.mem_range.2 hh
  rw [Finset.card_eq_sum_card_fiberwise hmaps]
  refine Finset.sum_congr rfl fun h _ => ?_
  rw [hs.forced]
  refine congrArg Finset.card (Finset.filter_congr fun c hc => ?_)
  obtain ⟨g, -, hon⟩ := hs.placed c hc
  rw [hon]
  exact Option.some_inj

theorem length_registered (hs : s.Balanced) (h : HeapId) : (s.registered h).length = (s.heap h).created := by
  rw [← List.length_map s.address, hs.addresses, List.length_range']

theorem sum_created (hs : s.Balanced) : ∑ h ∈ Finset.range s.heaps.size, (s.heap h).created = s.cells.size := by
  have hmaps : ∀ c ∈ Finset.range s.cells.size, (s.home? c).getD 0 ∈ Finset.range s.heaps.size := fun c hc => by
    obtain ⟨h, hhome⟩ := home?_of_lt (Finset.mem_range.1 hc)
    rw [hhome]
    exact Finset.mem_range.2 (hs.homes c h hhome)
  rw [← Finset.card_range s.cells.size, Finset.card_eq_sum_card_fiberwise hmaps]
  refine Finset.sum_congr rfl fun h _ => ?_
  have hfiber : ((Finset.range s.cells.size).filter fun c => (s.home? c).getD 0 = h).card = (s.registered h).length := by
    refine congrArg List.length (List.filter_congr (l := List.range s.cells.size) fun c hc => ?_)
    obtain ⟨g, hhome⟩ := home?_of_lt (List.mem_range.1 hc)
    rw [hhome]
    exact Bool.eq_iff_iff.2 (by simp [hhome])
  rw [hfiber, hs.length_registered]

end Balanced
end Store

/-- **The counters of the heaps are conserved.**  Every store that a session comes to is reached by transitions that make
no heap active before it is there.  In every store that such transitions pass through, with any number of heaps, open or
left, and in the middle of a thunk or not, the cells that were registered in a heap are as many as it has created, and
have the addresses from 1 up, in the order in which they were made.  What all heaps have forced is the number of cells
that were made suspended and now have a value; each of them counts on the heap that was active when its force began.  So
no more was forced than was created.  A force of a cell that is not suspended counts nothing, and neither does one whose
thunk raises an error, but for what was counted while the thunk ran. -/
theorem counters_are_conserved :
    (∀ f : Form, (Expr.ofForm f).Plain) ∧
    (∀ (p : Program) (es : List Expr), (∀ x ∈ p, x.2.body.Plain) → (∀ e ∈ es, e.Plain) →
      ∀ o ∈ Session.run p es, o.store.Attained) ∧
    ∀ s : Store, s.Attained →
      (∀ h, (s.registered h).length = (s.heap h).created ∧
        (s.registered h).map s.address = List.range' 1 (s.heap h).created) ∧
      (∀ h, (s.heap h).forced = (s.completed.filter fun c => s.forcedOn c = some h).card) ∧
      ∑ h ∈ Finset.range s.heaps.size, (s.heap h).forced = s.completed.card ∧
      ∑ h ∈ Finset.range s.heaps.size, (s.heap h).created = s.cells.size ∧
      ∑ h ∈ Finset.range s.heaps.size, (s.heap h).forced ≤ ∑ h ∈ Finset.range s.heaps.size, (s.heap h).created ∧
      (∀ (run : Runner) (c : CellId), (s.state c).phase ≠ .suspended →
        (Run.finalStore (force run c s)).heaps = s.heaps) ∧
      (∀ (run : Runner) (c : CellId) (t : Thunk) (x : FaultId) (e : Store), s.state c = .suspended t →
        s.active.isSome → run (some c) t (s.setState c (.inProgress t)) = .error (.raised x) e →
        (Run.finalStore (force run c s)).heaps = e.heaps) := by
  refine ⟨Expr.plain_ofForm, fun p es hp hes o ho => Session.attained_of_mem (Program.plain_of_bodies hp) hes ho, ?_⟩
  rintro s ⟨k, hk⟩
  have hs := hk.balanced.store
  refine ⟨fun h => ⟨hs.length_registered h, hs.addresses h⟩, hs.forced, hs.sum_forced, hs.sum_created, ?_, ?_, ?_⟩
  · rw [hs.sum_forced, hs.sum_created]
    exact (Finset.card_filter_le _ _).trans (Nat.le_of_eq (Finset.card_range _))
  · intro run c hphase
    rw [force_apply]
    cases hstate : s.state c with
    | suspended t => exact absurd (by rw [hstate]; rfl) hphase
    | inProgress t => rfl
    | evaluated v => rfl
    | failed error => cases error <;> rfl
  · intro run c t x e hstate hactive hrun
    obtain ⟨h, ha⟩ := Option.isSome_iff_exists.1 hactive
    rw [force_apply, hstate]
    simp only [ha, hrun]
    rfl

theorem counters_are_conserved_nested :
    let p : Program := [("seven", ⟨.constant (.int 7), false⟩)]
    let es : List Expr := [.apply (.heap .openNew) [],
      .assign "c" (.apply (.cell .suspend) [.constant (.str "seven")]), .apply (.heap .openNew) [],
      .apply (.cell .force) [.lookup "c"]]
    let made := (Session.run p es).drop 1
    made.map (fun o => ((o.store.heap 0).created, (o.store.heap 0).forced, (o.store.heap 1).forced)) =
      [(1, 0, 0), (1, 0, 0), (1, 0, 1)] ∧
      (∀ o ∈ made, ∑ h ∈ Finset.range o.store.heaps.size, (o.store.heap h).forced = o.store.completed.card) ∧
      (∀ o ∈ made.drop 2, ∀ run : Runner, (Run.finalStore (force run 0 o.store)).heaps = o.store.heaps) ∧
      ∀ o ∈ made.take 2, ∀ x e,
        (Run.finalStore (force (fun _ _ _ => .error (.raised x) e) 0 o.store)).heaps = e.heaps := by
  intro p es made
  obtain ⟨-, sessions, counters⟩ := counters_are_conserved
  have hp : ∀ x ∈ p, x.2.body.Plain := fun x hx => List.mem_singleton.1 hx ▸ below_of_isLeaf (v := .int 7) trivial
  have hseven : Below 0 (Value.str "seven") := below_of_isLeaf trivial
  have hes : ∀ e ∈ es, e.Plain := by simp [es, Expr.Plain, Expr.AllPlain, hseven]
  have hattained : ∀ o ∈ made, o.store.Attained := fun o ho => sessions p es hp hes o (List.mem_of_mem_drop ho)
  have hforced : ∀ o ∈ made.drop 2, (o.store.state 0).phase ≠ .suspended := by decide +kernel
  have hmade : ∀ o ∈ made.take 2, (o.store.state 0).phase = .suspended ∧ o.store.active.isSome := by decide +kernel
  refine ⟨by decide +kernel, fun o ho => ?_, fun o ho run => ?_, fun o ho x e => ?_⟩
  · exact (counters o.store (hattained o ho)).2.2.1
  · obtain ⟨-, -, -, -, -, hread, -⟩ := counters o.store (hattained o (List.mem_of_mem_drop ho))
    exact hread run 0 (hforced o ho)
  · obtain ⟨-, -, -, -, -, -, hraised⟩ := counters o.store (hattained o (List.mem_of_mem_take ho))
    obtain ⟨hphase, hactive⟩ := hmade o ho
    cases hstate : o.store.state 0 with
    | suspended t => exact hraised (fun _ _ _ => .error (.raised x) e) 0 t x e hstate hactive rfl
    | inProgress t => rw [hstate] at hphase; cases hphase
    | evaluated v => rw [hstate] at hphase; cases hphase
    | failed error => rw [hstate] at hphase; cases hphase

end Retention
