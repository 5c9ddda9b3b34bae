import Retention.Proofs.Accounting
/-!
# Recording — every sample that is taken

A sample is taken when it is asked for, by a program or by a consumer, and after a force on a heap that takes samples
then.  `Moment.Recorded` is a run with its samples, in the order in which they were taken: a transition that is not labelled
with a sample cannot be taken for one (`Moment.Notes`), and a force ends without one only if none is due (`Moment.Due`).
That there is such a record is a law (`Moment.law_recorded`), so every evaluation has one.

The peak and the samples of a heap are what the record makes them (`Sample.Booked`), and the samples after forces stand
for the forces that the heap has counted, one for each (`Sample.Matched`).  Each is taken at the moment at which its cell
gets its value, so that of a force which is pending comes later (`Sample.Timed`).
-/
namespace Retention

open Store (OnlyCells)

variable {s e : Store} {g h : HeapId} {c : CellId} {v : Value} {live : Nat}

/-- A sample of a heap: the cell whose force it follows, if it does, and the moment at which the live cells are counted. -/
structure Sample where
  heap : HeapId
  cell? : Option CellId
  moment : Moment

/-- The number of cells that a heap keeps alive, unless something else than a cell is referred to. -/
def Store.live? (s : Store) (h : HeapId) : Option Nat := (s.liveCount h).toOption

namespace Sample

/-- The count that a sample comes to. -/
def live? (r : Sample) : Option Nat := r.moment.store.live? r.heap

/-- The counts that the samples of a heap came to. -/
def counts (h : HeapId) (rs : List Sample) : List Nat := (rs.filter fun r => r.heap == h).filterMap live?

/-- The samples of a heap that follow forces. -/
def forces (h : HeapId) (rs : List Sample) : List Sample := rs.filter fun r => r.heap == h && r.cell?.isSome

end Sample

/-! ## Runs with their samples -/

namespace Moment

/-- What happens can be taken for a sample: a count of live cells is noted, and nothing else. -/
def Notes (m m' : Moment) : Prop := ∃ h live, m'.store = m.store.noteLive h live

/-- A cell gets its value by a force on a heap that takes a sample then. -/
def Due (m m' : Moment) : Prop :=
  ∃ s k c h v, m = ⟨s, .force c h :: k⟩ ∧ m' = ⟨s.finished c h v, k⟩ ∧ (s.heap h).samplesForces.holds = true

/-- A transition with the sample that is taken, if there is one. -/
inductive Move : Moment → Option Sample → Moment → Prop
  | other {m m' : Moment} (next : Next m m') (notes : ¬ Notes m m') (due : ¬ Due m m') : Move m none m'
  /-- A sample is asked for. -/
  | asked (s : Store) (k : List Frame) {h : HeapId} (there : h < s.heaps.size) :
    Move ⟨s, k⟩ (some ⟨h, none, ⟨s, k⟩⟩) ⟨s.afterSample h, k⟩
  /-- A sample follows the force of a cell that has got its value. -/
  | forced (s : Store) (k : List Frame) (c : CellId) {h : HeapId} (v : Value)
    (due : (s.heap h).samplesForces.holds = true) :
    Move ⟨s, .force c h :: k⟩ (some ⟨h, some c, ⟨s.finished c h v, k⟩⟩) ⟨(s.finished c h v).afterSample h, k⟩

/-- A run with all samples that are taken, in their order. -/
inductive Recorded (m : Moment) : List Sample → Moment → Prop
  | refl : Recorded m [] m
  | tail {rs : List Sample} {a b : Moment} {r : Option Sample} (run : Recorded m rs a) (last : Move a r b) :
    Recorded m (rs ++ r.toList) b

variable {m a b : Moment} {rs rs' : List Sample} {r : Sample}

namespace Recorded

theorem trans (h : Recorded m rs a) (h' : Recorded a rs' b) : Recorded m (rs ++ rs') b := by
  induction h' with
  | refl => rwa [List.append_nil]
  | tail _ last ih =>
    rw [← List.append_assoc]
    exact ih.tail last

theorem of_move {r : Option Sample} (h : Move m r a) : Recorded m r.toList a := Recorded.refl.tail h

/-- A record is taken in parts, before and after each of its samples. -/
theorem split (h : Recorded m rs b) {before after : List Sample} (hrs : rs = before ++ r :: after) :
    ∃ a a', Recorded m before a ∧ Move a (some r) a' ∧ Recorded a' after b := by
  induction h generalizing before after with
  | refl => cases before <;> cases hrs
  | @tail rs a b q run last ih =>
    cases q with
    | none =>
      rw [Option.toList_none, List.append_nil] at hrs
      obtain ⟨x, y, hx, hxy, hy⟩ := ih hrs
      exact ⟨x, y, hx, hxy, by simpa using hy.tail last⟩
    | some q =>
      rcases List.eq_nil_or_concat after with rfl | ⟨after', z, rfl⟩
      · obtain ⟨rfl, hlast⟩ := List.append_inj' hrs rfl
        cases hlast
        exact ⟨a, b, run, last, .refl⟩
      · rw [List.concat_eq_append, ← List.cons_append, ← List.append_assoc] at hrs
        obtain ⟨rfl, hlast⟩ := List.append_inj' hrs rfl
        cases hlast
        obtain ⟨x, y, hx, hxy, hy⟩ := ih (show _ = before ++ r :: after' from rfl)
        exact ⟨x, y, hx, hxy, by simpa using hy.tail last⟩

end Recorded
end Moment

/-! ## There is a record of whatever is done -/

namespace Store

/-- A change of a heap that leaves its record as it is. -/
theorem updateHeap_eq_self {f : Heap → Heap} (hf : ∀ x, s.heaps[h]? = some x → f x = x) : s.updateHeap h f = s := by
  have hheaps : s.heaps.modify h f = s.heaps := by
    refine Array.ext_getElem? fun i => ?_
    rw [Array.getElem?_modify]
    split
    · subst i
      cases hx : s.heaps[h]? with
      | none => rfl
      | some x => exact congrArg some (hf x hx)
    · rfl
  rw [updateHeap, hheaps]

/-- There is nothing to change of a heap that is not there. -/
theorem updateHeap_of_size_le (hh : s.heaps.size ≤ h) (f : Heap → Heap) : s.updateHeap h f = s :=
  updateHeap_eq_self fun _ hx => absurd (Array.getElem?_eq_some_iff.1 hx).1 (Nat.not_lt.2 hh)

theorem heap_of_size_le (hh : s.heaps.size ≤ h) : s.heap h = {} := by
  rw [heap, Array.getElem?_eq_none hh]
  rfl

/-- A count that leaves no trace changes nothing. -/
theorem noteLive_eq_self (hpeak : ((s.noteLive h live).heap h).peak = (s.heap h).peak)
    (hsamples : ((s.noteLive h live).heap h).samples = (s.heap h).samples) : s.noteLive h live = s := by
  refine updateHeap_eq_self fun x hx => ?_
  have hh : h < s.heaps.size := (Array.getElem?_eq_some_iff.1 hx).1
  have hheap : s.heap h = x := by rw [heap, hx, Option.getD_some]
  rw [noteLive, heap_updateHeap hh, hheap] at hpeak hsamples
  dsimp only at hpeak hsamples
  rw [hpeak, hsamples]

/-- A heap that is not there has no count to be noted. -/
theorem afterSample_of_size_le (hh : s.heaps.size ≤ h) : s.afterSample h = s := by
  unfold afterSample
  split
  · exact updateHeap_of_size_le hh _
  · rfl

theorem lt_of_samplesForces (hdue : (s.heap h).samplesForces.holds = true) : h < s.heaps.size := by
  refine Nat.lt_of_not_le fun hle => ?_
  rw [heap_of_size_le hle] at hdue
  cases hdue

end Store

namespace Moment
variable {m m' : Moment}

/-- What takes a turn is no sample. -/
theorem not_notes_of_turn {x : Turn} (hx : m'.store.history = x :: m.store.history) : ¬ Notes m m' := by
  rintro ⟨h, live, heq⟩
  rw [heq] at hx
  exact List.cons_ne_self x m.store.history hx.symm

/-- What is due is the end of a force, with a value. -/
theorem Due.ends (h : Due m m') : ∃ c g v, m.pending = .force c g :: m'.pending ∧
    m'.store.history = .returned (some c) v :: m.store.history := by
  obtain ⟨s, k, c, g, v, rfl, rfl, -⟩ := h
  exact ⟨c, g, v, rfl, rfl⟩

theorem not_due_of_pending (hle : m.pending.length ≤ m'.pending.length) : ¬ Due m m' := by
  intro h
  obtain ⟨c, g, v, hpending, -⟩ := h.ends
  rw [hpending] at hle
  exact absurd hle (Nat.not_succ_le_self _)

/-- A silent change is no sample. -/
theorem Move.of_silent (hsilent : s.Silent e) (hne : e ≠ s) (k : List Frame) : Move ⟨s, k⟩ none ⟨e, k⟩ := by
  refine .other (.change k hsilent.step) ?_ (not_due_of_pending (Nat.le_refl _))
  rintro ⟨h, live, rfl⟩
  exact hne (Store.noteLive_eq_self (hsilent.peak h) (hsilent.samples h))

/-- A force that fails takes no sample. -/
theorem Move.of_aborted (s : Store) (k : List Frame) (c : CellId) (h : HeapId) (x : FaultId) :
    Move ⟨s, .force c h :: k⟩ none ⟨s.aborted c x, k⟩ := by
  refine .other (.aborted s k c h x) (not_notes_of_turn rfl) fun hdue => ?_
  obtain ⟨d, g, w, -, hhistory⟩ := hdue.ends
  cases (List.cons.inj hhistory).1

/-- A force that ends with a value takes a sample if one is due. -/
theorem Recorded.of_settled (s : Store) (k : List Frame) (c : CellId) (h : HeapId) (v : Value) :
    Recorded ⟨s, .force c h :: k⟩
      (if (s.heap h).samplesForces.holds then [⟨h, some c, ⟨s.finished c h v, k⟩⟩] else []) ⟨s.settled c h v, k⟩ := by
  unfold Store.settled
  by_cases hdue : (s.heap h).samplesForces.holds = true
  · rw [if_pos hdue, if_pos hdue]
    exact .of_move (.forced s k c v hdue)
  · rw [if_neg hdue, if_neg hdue]
    refine .of_move (.other (.finished s k c h v) (not_notes_of_turn rfl) ?_)
    rintro ⟨s', k', c', h', v', hm, -, hholds⟩
    cases hm
    exact hdue hholds

/-- **That there is a record is a law.** -/
theorem law_recorded : Law fun m m' => ∃ rs, Recorded m rs m' where
  refl m := ⟨[], .refl⟩
  trans := fun ⟨_, h⟩ ⟨_, h'⟩ => ⟨_, h.trans h'⟩
  silent {s e} k hsilent := by
    by_cases heq : e = s
    · exact ⟨[], heq ▸ .refl⟩
    · exact ⟨_, .of_move (.of_silent hsilent heq k)⟩
  sampled s k h := by
    rcases Nat.lt_or_ge h s.heaps.size with hh | hh
    · exact ⟨_, .of_move (.asked s k hh)⟩
    · exact ⟨[], by rw [Store.afterSample_of_size_le hh]; exact .refl⟩
  called s k t :=
    ⟨_, .of_move (.other (.call s k t) (not_notes_of_turn rfl) (not_due_of_pending (Nat.le_succ _)))⟩
  returned s k v := by
    refine ⟨_, .of_move (.other (.returned s k v) (not_notes_of_turn rfl) fun hdue => ?_)⟩
    obtain ⟨c, g, w, hpending, -⟩ := hdue.ends
    cases hpending
  raised s k x := by
    refine ⟨_, .of_move (.other (.raised s k x) (not_notes_of_turn rfl) fun hdue => ?_)⟩
    obtain ⟨c, g, w, hpending, -⟩ := hdue.ends
    cases hpending
  forced k hs ha :=
    ⟨_, .of_move (.other (.force _ k _ _ _ hs ha) (not_notes_of_turn rfl) (not_due_of_pending (Nat.le_succ _)))⟩
  settled s k c h v := ⟨_, .of_settled s k c h v⟩
  aborted s k c h x := ⟨_, .of_move (.of_aborted s k c h x)⟩

end Moment

/-! ## What a transition does to the record of a heap -/

namespace Moment
variable {m m' : Moment}

/-- **What is not a sample leaves the peaks and samples of all heaps alone.** -/
theorem Next.measured (h : Next m m') (hnotes : ¬ Notes m m') (g : HeapId) :
    (m'.store.heap g).peak = (m.store.heap g).peak ∧ (m'.store.heap g).samples = (m.store.heap g).samples := by
  let r : Heap → Nat × Array Nat := fun x => (x.peak, x.samples)
  suffices hsame : r (m'.store.heap g) = r (m.store.heap g) from Prod.mk.inj hsame
  cases h with
  | change k hstep =>
    have hcases := Store.field_of_step (r := r) (fun _ _ => rfl) (fun _ _ _ _ => rfl) hstep
    rcases hcases with hsame | ⟨i, st, -, rfl⟩ | ⟨i, live, rfl⟩
    · exact hsame.2 g (.inr fun _ _ _ => rfl)
    · exact Store.field_register (fun _ _ _ => rfl) _ i g st
    · exact absurd ⟨i, live, rfl⟩ hnotes
  | finished s k c h v => exact Store.field_counted (r := r) (fun _ _ => rfl) _ h g
  | _ => rfl

/-- **A force is counted only where it ends with a value.** -/
theorem Next.forced_eq_or (h : Next m m') (hdue : ¬ Due m m') (g : HeapId) :
    (m'.store.heap g).forced = (m.store.heap g).forced ∨
      g < m.store.heaps.size ∧ (m.store.heap g).samplesForces.holds = false := by
  cases h with
  | change k hstep =>
    rcases Store.counters_of_step hstep with hsame | ⟨i, st, -, rfl⟩
    · exact .inl (hsame.2 g).2
    · exact .inl (Store.field_register (r := Heap.forced) (fun _ _ _ => rfl) _ i g st)
  | finished s k c h v =>
    by_cases hg : g = h
    · subst hg
      rcases Nat.lt_or_ge g s.heaps.size with hlt | hge
      · exact .inr ⟨hlt, eq_false_of_ne_true fun hholds => hdue ⟨s, k, c, g, v, rfl, rfl, hholds⟩⟩
      · have hsame : s.finished c g v = (s.recorded (.returned (some c) v)).setState c (.evaluated v) :=
          Store.updateHeap_of_size_le (s := (s.recorded _).setState c _) hge _
        exact .inl (by rw [hsame]; rfl)
    · exact .inl (congrArg Heap.forced (Store.heap_updateHeap_of_ne _ hg _))
  | _ => exact .inl rfl

end Moment

namespace Store

/-- What becomes of the record of a heap that is sampled. -/
theorem heap_afterSample (hh : h < s.heaps.size) : (s.afterSample h).heap h =
    { s.heap h with
      peak := (s.live? h).toList.foldl max (s.heap h).peak
      samples := if (s.heap h).traces.holds then (s.heap h).samples ++ (s.live? h).toList else (s.heap h).samples } := by
  unfold afterSample live?
  cases s.liveCount h with
  | error v => simp [Except.toOption]
  | ok live =>
    dsimp only
    rw [noteLive, heap_updateHeap hh]
    split <;> simp [Except.toOption]

/-- What is the same in every heap after a sample. -/
theorem field_afterSample {α : Type} {r : Heap → α} (hr : ∀ (x : Heap) peak samples, r { x with peak, samples } = r x)
    (s : Store) (h g : HeapId) : r ((s.afterSample h).heap g) = r (s.heap g) := by
  unfold afterSample
  split
  · exact field_noteLive hr s h g _
  · rfl

theorem heap_afterSample_of_ne (s : Store) (hg : g ≠ h) : (s.afterSample h).heap g = s.heap g := by
  unfold afterSample
  split
  · exact heap_updateHeap_of_ne s hg _
  · rfl

theorem size_afterSample (s : Store) (h : HeapId) : (s.afterSample h).heaps.size = s.heaps.size := by
  unfold afterSample
  split
  · exact size_updateHeap s h _
  · rfl

end Store

/-! ## What the record says of a heap -/

namespace Sample
variable {rs : List Sample} {r : Sample}

theorem counts_append (h : HeapId) (rs rs' : List Sample) : counts h (rs ++ rs') = counts h rs ++ counts h rs' := by
  rw [counts, List.filter_append, List.filterMap_append, counts, counts]

theorem forces_append (h : HeapId) (rs rs' : List Sample) : forces h (rs ++ rs') = forces h rs ++ forces h rs' :=
  List.filter_append ..

theorem counts_eq_nil (hrs : ∀ r ∈ rs, r.heap ≠ h) : counts h rs = [] := by
  rw [counts, List.filter_eq_nil_iff.2 fun r hr => by simpa using hrs r hr]
  rfl

theorem forces_eq_nil (hrs : ∀ r ∈ rs, r.heap ≠ h) : forces h rs = [] :=
  List.filter_eq_nil_iff.2 fun r hr => by simp [hrs r hr]

theorem counts_singleton (r : Sample) : counts r.heap [r] = r.live?.toList := by
  rw [counts, List.filter_cons_of_pos (by simp), List.filter_nil]
  cases hlive : r.live? <;> simp [hlive]

theorem counts_singleton_of_ne (hr : r.heap ≠ h) : counts h [r] = [] :=
  counts_eq_nil fun _ hq => List.mem_singleton.1 hq ▸ hr

/-- The peak and the samples of a heap are what the samples make them that were taken so far. -/
structure Booked (h : HeapId) (rs : List Sample) (s : Store) : Prop where
  peak : (s.heap h).peak = (counts h rs).foldl max 0
  samples : (s.heap h).samples.toList = if (s.heap h).traces.holds then counts h rs else []
  absent : s.heaps.size ≤ h → ∀ r ∈ rs, r.heap ≠ h

/-- The samples that follow forces stand for the forces that a heap has counted, one for each, if it takes any. -/
def Matched (h : HeapId) (rs : List Sample) (s : Store) : Prop :=
  (forces h rs).map (fun r => (r.moment.store.heap h).forced) =
    if (s.heap h).samplesForces.holds then List.range' 1 (s.heap h).forced else []

namespace Booked

theorem start (h : HeapId) : Booked h [] {} := ⟨rfl, rfl, fun _ _ hr => absurd hr List.not_mem_nil⟩

/-- A transition that takes no sample. -/
theorem congr (hs : Booked h rs s) (hpeak : (e.heap h).peak = (s.heap h).peak)
    (hsamples : (e.heap h).samples = (s.heap h).samples)
    (hflags : h < s.heaps.size → h < e.heaps.size ∧ (e.heap h).flags = (s.heap h).flags) : Booked h rs e where
  peak := hpeak.trans hs.peak
  samples := by
    rw [hsamples, hs.samples]
    rcases Nat.lt_or_ge h s.heaps.size with hh | hh
    · rw [show (e.heap h).traces = (s.heap h).traces from congrArg Prod.fst (hflags hh).2]
    · rw [counts_eq_nil (hs.absent hh), ite_self, ite_self]
  absent hle := hs.absent (Nat.not_lt.1 fun hh => Nat.not_lt.2 hle (hflags hh).1)

/-- **A sample is booked.** -/
theorem noted (hs : Booked h rs s) (hr : r.moment.store = s) (hh : r.heap < s.heaps.size) :
    Booked h (rs ++ [r]) (s.afterSample r.heap) where
  peak := by
    by_cases heq : h = r.heap
    · subst heq
      rw [Store.heap_afterSample hh, counts_append, counts_singleton, List.foldl_append, live?, hr]
      dsimp only
      rw [hs.peak]
    · rw [Store.heap_afterSample_of_ne s heq, counts_append, counts_singleton_of_ne (Ne.symm heq), List.append_nil,
        hs.peak]
  samples := by
    by_cases heq : h = r.heap
    · subst heq
      rw [Store.heap_afterSample hh, counts_append, counts_singleton, live?, hr]
      dsimp only
      have hold := hs.samples
      split
      next ht => rw [Array.toList_appendList, hold, if_pos ht]
      next ht => rw [hold, if_neg ht]
    · rw [Store.heap_afterSample_of_ne s heq, counts_append, counts_singleton_of_ne (Ne.symm heq), List.append_nil,
        hs.samples]
  absent hle q hq := by
    rw [Store.size_afterSample] at hle
    rcases List.mem_append.1 hq with hq | hq
    · exact hs.absent hle q hq
    · rw [List.mem_singleton.1 hq]
      exact Nat.ne_of_lt (Nat.lt_of_lt_of_le hh hle)

end Booked

namespace Matched

theorem start (h : HeapId) : Matched h [] {} := by
  rw [Matched]
  split <;> rfl

/-- What takes no sample after a force, and counts no force after which one is due. -/
theorem congr (hs : Matched h rs s) (habsent : s.heaps.size ≤ h → ∀ r ∈ rs, r.heap ≠ h)
    (hforced : (e.heap h).forced = (s.heap h).forced ∨ h < s.heaps.size ∧ (s.heap h).samplesForces.holds = false)
    (hflags : h < s.heaps.size → (e.heap h).flags = (s.heap h).flags) : Matched h rs e := by
  rcases Nat.lt_or_ge h s.heaps.size with hh | hh
  · have hsame : (e.heap h).samplesForces = (s.heap h).samplesForces := congrArg Prod.snd (hflags hh)
    rw [Matched] at hs ⊢
    rw [hs, hsame]
    rcases hforced with heq | ⟨-, hno⟩
    · rw [heq]
    · rw [hno]
      rfl
  · have hforced' : (e.heap h).forced = 0 := by
      rw [hforced.resolve_right fun hlt => absurd hlt.1 (Nat.not_lt.2 hh), Store.heap_of_size_le hh]
    rw [Matched, forces_eq_nil (habsent hh), hforced']
    exact (ite_self []).symm

theorem afterSample (hs : Matched h rs s) (g : HeapId) : Matched h rs (s.afterSample g) := by
  have hforced := Store.field_afterSample (r := Heap.forced) (fun _ _ _ => rfl) s g h
  have hflag := Store.field_afterSample (r := Heap.samplesForces) (fun _ _ _ => rfl) s g h
  rwa [Matched, hforced, hflag]

/-- A sample that was asked for. -/
theorem asked (hs : Matched h rs s) (g : HeapId) (m : Moment) : Matched h (rs ++ [⟨g, none, m⟩]) s := by
  have hnone : forces h [⟨g, none, m⟩] = [] := List.filter_eq_nil_iff.2 fun r hr => by
    rw [List.mem_singleton.1 hr]
    simp
  rwa [Matched, forces_append, hnone, List.append_nil]

/-- **A force that is counted is followed by its sample.** -/
theorem forced (hs : Matched h rs s) (k : List Frame) (c : CellId) (v : Value)
    (hdue : (s.heap g).samplesForces.holds = true) :
    Matched h (rs ++ [⟨g, some c, ⟨s.finished c g v, k⟩⟩]) (s.finished c g v) := by
  have hflags : ((s.finished c g v).heap h).samplesForces = (s.heap h).samplesForces :=
    Store.field_counted (r := Heap.samplesForces) (fun _ _ => rfl) _ g h
  rw [Matched] at hs
  rw [Matched, forces_append, List.map_append, hflags, hs]
  by_cases heq : h = g
  · subst heq
    have hone : forces h [⟨h, some c, ⟨s.finished c h v, k⟩⟩] = [⟨h, some c, ⟨s.finished c h v, k⟩⟩] := by
      rw [forces, List.filter_cons_of_pos (by simp), List.filter_nil]
    have hcounted : ((s.finished c h v).heap h).forced = (s.heap h).forced + 1 :=
      congrArg Heap.forced (Store.heap_updateHeap
        (s := (s.recorded (.returned (some c) v)).setState c (.evaluated v)) (Store.lt_of_samplesForces hdue) _)
    rw [hone, if_pos hdue, if_pos hdue, List.map_singleton, hcounted, List.range'_1_concat, Nat.add_comm 1]
  · have hsame : ((s.finished c g v).heap h).forced = (s.heap h).forced :=
      congrArg Heap.forced (Store.heap_updateHeap_of_ne _ heq _)
    rw [forces_eq_nil fun r hr => List.mem_singleton.1 hr ▸ Ne.symm heq, hsame, List.map_nil, List.append_nil]

end Matched
end Sample

namespace Moment
open Sample (Booked Matched)
variable {m m' : Moment} {rs : List Sample}

/-- **What one move says of a heap, beyond what was said before.** -/
theorem Move.booked {r : Option Sample} (hmove : Move m r m') (hb : Booked h rs m.store) (hm : Matched h rs m.store) :
    Booked h (rs ++ r.toList) m'.store ∧ Matched h (rs ++ r.toList) m'.store := by
  cases hmove with
  | other next notes due =>
    rw [Option.toList_none, List.append_nil]
    obtain ⟨hpeak, hsamples⟩ := next.measured notes h
    have hflags := next.flags (g := h)
    exact ⟨hb.congr hpeak hsamples hflags, hm.congr hb.absent (next.forced_eq_or due h) fun hh => (hflags hh).2⟩
  | @asked s k g there =>
    exact ⟨hb.noted (r := ⟨g, none, ⟨s, k⟩⟩) rfl there, (hm.asked g _).afterSample g⟩
  | @forced s k c g v due =>
    have hnext : Next ⟨s, .force c g :: k⟩ ⟨s.finished c g v, k⟩ := .finished s k c g v
    have hfinished : Booked h rs (s.finished c g v) :=
      hb.congr (Store.field_counted (fun _ _ => rfl) _ g h) (Store.field_counted (fun _ _ => rfl) _ g h) hnext.flags
    have hthere : g < (s.finished c g v).heaps.size := (hnext.flags (Store.lt_of_samplesForces due)).1
    exact ⟨hfinished.noted (r := ⟨g, some c, ⟨s.finished c g v, k⟩⟩) rfl hthere, (hm.forced k c v due).afterSample g⟩

/-- **Whatever was sampled on the way from the start is on the record of each heap.** -/
theorem Recorded.booked (hr : Recorded ⟨{}, []⟩ rs m) (h : HeapId) : Booked h rs m.store ∧ Matched h rs m.store := by
  induction hr with
  | refl => exact ⟨.start h, .start h⟩
  | tail _ last ih => exact last.booked ih.1 ih.2

end Moment

/-! ## When samples are taken -/

namespace Moment
variable {m m' : Moment} {rs : List Sample} {r : Sample}

theorem Move.leads {r : Option Sample} (h : Move m r m') : Leads m m' := by
  cases h with
  | other next => exact .single next
  | asked s k => exact law_leads.sampled s k _
  | forced s k c v => exact .head (.finished s k c _ v) (law_leads.sampled _ k _)

/-- A sample is taken on the way from one moment to the next. -/
theorem Move.passes (h : Move m (some r) m') : Leads m r.moment ∧ Leads r.moment m' := by
  cases h with
  | asked s k => exact ⟨.refl, law_leads.sampled s k _⟩
  | forced s k c v => exact ⟨.single (.finished s k c _ v), law_leads.sampled _ k _⟩

/-- A sample that follows a force is taken when the cell has just got its value. -/
theorem Move.settled (h : Move m (some r) m') (hm : m.Sound) (hc : r.cell? = some c) :
    ∃ t v, r.moment.store.initial? c = some (.suspended t) ∧ r.moment.store.state c = .evaluated v ∧
      r.moment.store.history.head? = some (.returned (some c) v) := by
  cases h with
  | asked s k => cases hc
  | @forced s k d g v =>
    cases hc
    obtain ⟨t, hinitial, -, -⟩ := hm.running c g List.mem_cons_self
    have hmoved := Store.moved_finished g v (Store.lt_of_initial? hinitial)
    exact ⟨t, v, (hmoved.initial c).trans hinitial, hmoved.state, rfl⟩

theorem Recorded.leads (h : Recorded m rs m') : Leads m m' := by
  induction h with
  | refl => exact .refl
  | tail _ last ih => exact Relation.ReflTransGen.trans ih last.leads

end Moment

namespace Sample
open Moment (Leads Recorded Move)
variable {rs : List Sample} {m m' : Moment}

/-- Samples are taken one after the other on the way to a moment, and those that follow forces are taken when their cells
have just got their values. -/
structure Timed (rs : List Sample) (m : Moment) : Prop where
  passed : ∀ r ∈ rs, Leads ⟨{}, []⟩ r.moment ∧ Leads r.moment m
  ordered : rs.Pairwise fun q r => Leads q.moment r.moment
  settled : ∀ r ∈ rs, ∀ c, r.cell? = some c → ∃ t v, r.moment.store.initial? c = some (.suspended t) ∧
    r.moment.store.state c = .evaluated v ∧ r.moment.store.history.head? = some (.returned (some c) v)

namespace Timed

theorem start : Timed [] ⟨{}, []⟩ := ⟨nofun, .nil, nofun⟩

theorem move (h : Timed rs m) (hm : Leads ⟨{}, []⟩ m) {r : Option Sample} (hmove : Move m r m') :
    Timed (rs ++ r.toList) m' := by
  have hpassed : ∀ q ∈ rs, Leads ⟨{}, []⟩ q.moment ∧ Leads q.moment m' := fun q hq =>
    ⟨(h.passed q hq).1, (h.passed q hq).2.trans hmove.leads⟩
  cases r with
  | none =>
    rw [Option.toList_none, List.append_nil]
    exact ⟨hpassed, h.ordered, h.settled⟩
  | some r =>
    obtain ⟨hbefore, hafter⟩ := hmove.passes
    refine ⟨fun q hq => ?_, List.pairwise_append.2 ⟨h.ordered, List.pairwise_singleton .., fun q hq z hz => ?_⟩,
      fun q hq c hc => ?_⟩
    · rcases List.mem_append.1 hq with hq | hq
      · exact hpassed q hq
      · exact List.mem_singleton.1 hq ▸ ⟨hm.trans hbefore, hafter⟩
    · exact List.mem_singleton.1 hz ▸ (h.passed q hq).2.trans hbefore
    · rcases List.mem_append.1 hq with hq | hq
      · exact h.settled q hq c hc
      · cases List.mem_singleton.1 hq
        exact hmove.settled (Moment.sound_start.leads hm) hc

/-- **The sample that follows a force is taken after all those that were taken during the force.** -/
theorem nested (h : Timed rs m) {i j : Nat} (hi : i < rs.length) (hj : j < rs.length) {d : CellId}
    (hpending : .force d g ∈ rs[i].moment.pending) (hd : rs[j].cell? = some d) : i < j := by
  by_contra hle
  obtain ⟨hstart, -⟩ := h.passed _ (List.getElem_mem hj)
  obtain ⟨t, v, hinitial, hvalue, -⟩ := h.settled _ (List.getElem_mem hj) d hd
  have hleads : Leads rs[j].moment rs[i].moment := by
    rcases Nat.eq_or_lt_of_le (Nat.not_lt.1 hle) with heq | hlt
    · subst heq
      exact .refl
    · exact List.pairwise_iff_getElem.1 h.ordered j i hj hi hlt
  have hsound := Moment.sound_start.leads hstart
  -- the cell has its value for good, but one whose force is pending is in progress
  have hstates := Leads.state hsound hleads hinitial
  rw [hvalue] at hstates
  have hfinal := CellState.eq_of_final hstates fun st hnext => by cases hnext
  obtain ⟨_, -, -, hrunning⟩ := (hsound.leads hleads).running d g hpending
  rw [hfinal] at hrunning
  cases hrunning

end Timed
end Sample

namespace Moment
open Sample (Booked Matched Timed)
variable {m m' : Moment} {rs : List Sample}

theorem Recorded.timed (h : Recorded ⟨{}, []⟩ rs m) : Timed rs m := by
  induction h with
  | refl => exact .start
  | tail run last ih => exact ih.move run.leads last

/-- When a sample is taken, the record of each heap is what the samples before make it. -/
theorem Recorded.booked_before (hr : Recorded ⟨{}, []⟩ rs m) {before after : List Sample} {r : Sample}
    (hrs : rs = before ++ r :: after) (h : HeapId) : Booked h before r.moment.store := by
  obtain ⟨a, a', hbefore, hmove, -⟩ := hr.split hrs
  have hbooked := (hbefore.booked h).1
  cases hmove with
  | asked s k => exact hbooked
  | @forced s k c g v =>
    have hnext : Next ⟨s, .force c g :: k⟩ ⟨s.finished c g v, k⟩ := .finished s k c g v
    exact hbooked.congr (Store.field_counted (fun _ _ => rfl) _ g h) (Store.field_counted (fun _ _ => rfl) _ g h) hnext.flags

/-- **A peak never goes down.** -/
theorem Leads.peak_le (hl : Leads m m') (h : HeapId) : (m.store.heap h).peak ≤ (m'.store.heap h).peak := by
  rcases Nat.lt_or_ge h m.store.heaps.size with hh | hh
  · exact (hl.extends hh).2.peak
  · rw [Store.heap_of_size_le hh]
    exact Nat.zero_le _

end Moment

/-! ## Where samples come from -/

namespace Moment.Recorded
variable {rs : List Sample} {m : Moment} {k : List Frame}

/-- Silent changes are recorded without a sample. -/
theorem of_silent (h : Relation.ReflTransGen Store.Silent s e) (k : List Frame) : Recorded ⟨s, k⟩ [] ⟨e, k⟩ := by
  induction h with
  | refl => exact .refl
  | @tail a b _ hlast ih =>
    by_cases heq : b = a
    · exact heq ▸ ih
    · exact ih.tail (.of_silent hlast heq k)

theorem of_quietly {α : Type} {x : EStateM.Result Halt Store α} (h : Run.Quietly s x) (k : List Frame) :
    Recorded ⟨s, k⟩ [] ⟨Run.finalStore x, k⟩ := by
  match x, h with
  | .ok _ _, h => exact of_silent h k
  | .error (.raised _) _, h => exact of_silent h k

/-- What comes to a sample and then is silent is recorded with one sample. -/
theorem of_afterSample {α : Type} {x : EStateM.Result Halt Store α} (hsilent : Relation.ReflTransGen Store.Silent s e)
    (hh : h < e.heaps.size) (hx : Run.Quietly (e.afterSample h) x) (k : List Frame) :
    Recorded ⟨s, k⟩ [⟨h, none, ⟨e, k⟩⟩] ⟨Run.finalStore x, k⟩ := by
  have hsampled : Recorded ⟨e, k⟩ [⟨h, none, ⟨e, k⟩⟩] ⟨e.afterSample h, k⟩ := .of_move (.asked e k hh)
  exact (of_silent hsilent k).trans (hsampled.trans (of_quietly hx k))

theorem of_sample (hh : h < s.heaps.size) (k : List Frame) :
    Recorded ⟨s, k⟩ [⟨h, none, ⟨s, k⟩⟩] ⟨Run.finalStore (Run.sample h s), k⟩ :=
  of_afterSample .refl hh (Run.quietly_sample h s) k

/-- A consumer that samples takes a sample when it is made. -/
theorem of_new {samples : Value} (hh : h < s.heaps.size) (hsamples : samples.truth? = some true) (xs : Value)
    (k : List Frame) : Recorded ⟨s, k⟩ [⟨h, none, ⟨s.rooted h Consumer.rootName xs, k⟩⟩]
      ⟨Run.finalStore (Consumer.new h samples xs s), k⟩ := by
  have hrooted : s.Silent (s.rooted h Consumer.rootName xs) :=
    .updateHeap (fun _ => ⟨rfl, rfl⟩) (.rooted s h Consumer.rootName xs)
  refine of_afterSample (.single hrooted) ((Store.size_updateHeap s h _).symm ▸ hh) ?_ k
  unfold Consumer.new
  rw [Run.bind_ok (Consumer.setRoot_apply s h xs), Run.bind_ok (Run.truth_apply hsamples _)]
  refine Run.quietly_bind (Run.quietly_bind (Run.quietly_sample h _) fun _ _ _ => .refl) fun _ m _ => ?_
  exact .single (.of_step (.consumed m _) rfl (Nat.le_refl _))

/-- A consumer that samples takes a sample when it has moved. -/
theorem of_step {run : Runner} {d : ConsumerId} {x : Consumer} {current rest : Value}
    (hleft : Consumer.remaining d s = .ok current s) (hdrop : Sequence.dropSteps run 1 current s = .ok rest e)
    (hx : e.consumers[d]? = some x) (hne : rest.same current = false) (hh : x.heap < e.heaps.size)
    (hsamples : x.samples.truth? = some true) (k : List Frame) :
    Recorded ⟨e, k⟩ [⟨x.heap, none, ⟨Consumer.moved x d rest e, k⟩⟩]
      ⟨Run.finalStore (Consumer.step run d s), k⟩ := by
  have hrooted : e.Silent (e.rooted x.heap Consumer.rootName rest) :=
    .updateHeap (fun _ => ⟨rfl, rfl⟩) (.rooted e x.heap Consumer.rootName rest)
  have hmoved : Relation.ReflTransGen Store.Silent e (Consumer.moved x d rest e) :=
    .tail (.single hrooted) (.of_step (.consumed _ _) rfl (Nat.le_refl _))
  refine of_afterSample hmoved ((Store.size_updateHeap e x.heap _).symm ▸ hh) ?_ k
  rw [Consumer.step_of_moved hleft hdrop hx hne, Run.bind_ok (Run.truth_apply hsamples _)]
  refine Run.quietly_bind (Run.quietly_sample x.heap _) fun n m _ => ?_
  exact .single (.of_step (.logged m (.step (x.steps + 1) n :: m.events)) rfl (Nat.le_refl _))

/-- **A force that ends with a value is followed by its sample, and one that fails is not.** -/
theorem of_force {p : Program} {depth : Nat} {t : Thunk} (hc : s.state c = .suspended t) (ha : s.active = some h)
    (hrun : Recorded ⟨s.began c h t, .force c h :: k⟩ rs ⟨e, .force c h :: k⟩) :
    (∀ v, t.produce p (p.runAt depth) (s.began c h t) = .ok v e →
      Recorded ⟨s, k⟩ (rs ++ if (e.heap h).samplesForces.holds then [⟨h, some c, ⟨e.finished c h v, k⟩⟩] else [])
        ⟨Run.finalStore (force (p.runAt (depth + 1)) c s), k⟩) ∧
    (∀ x, t.produce p (p.runAt depth) (s.began c h t) = .error (.raised x) e →
      Recorded ⟨s, k⟩ rs ⟨Run.finalStore (force (p.runAt (depth + 1)) c s), k⟩) := by
  have hbegan : Recorded ⟨s, k⟩ [] ⟨s.began c h t, .force c h :: k⟩ :=
    .of_move (.other (.force s k c h t hc ha) (not_notes_of_turn rfl) (not_due_of_pending (Nat.le_succ _)))
  have hturn : p.runAt (depth + 1) (some c) t = Run.turn (some c) t (t.produce p (p.runAt depth)) := rfl
  have hforce := force_of_turn hc ha hturn
  have hover : Recorded ⟨s, k⟩ rs ⟨e, .force c h :: k⟩ := hbegan.trans hrun
  refine ⟨fun v hr => ?_, fun x hr => ?_⟩
  · have hsettled := hover.trans (of_settled e k c h v)
    have hquiet := Run.quietly_map (fun _ => v) (Run.quietly_settled e c h v)
    rw [hforce, hr]
    exact List.append_nil (rs ++ _) ▸ hsettled.trans (of_quietly hquiet k)
  · rw [hforce, hr]
    exact List.append_nil rs ▸ hover.trans (of_move (.of_aborted e k c h x))

end Moment.Recorded

/-- A sample comes to a count where heaps and cells refer to nothing but cells. -/
theorem Sample.live?_of_cells {r : Sample} (hroots : OnlyCells ((r.moment.store.heap r.heap).roots.map (·.2)))
    (hrefs : ∀ c, OnlyCells (r.moment.store.refs c)) : ∃ live, r.live? = some live := by
  obtain ⟨found, hfound⟩ := r.moment.store.walk_of_cells hrefs {} _ fun v hv => hroots v (List.mem_reverse.1 hv)
  refine ⟨found.size, ?_⟩
  rw [live?, Store.live?, Store.liveCount, Store.reachable, hfound]
  rfl

open Moment (Recorded Leads) in
open Sample (Booked Matched Timed) in
/-- **Peaks and samples are what was sampled.**  Whatever a session does, and whatever expression is evaluated, there is a
record of all samples that are taken, in their order.  It has one entry for a sample that a program asks for, one for a
consumer that samples when it is made and when it moves, and one for a force that ends with a value on a heap that takes
samples then, after those of the forces that it leads to; a force that fails has none.  At every moment of a run from the
start, be it one at which a sample is taken, the peak of a heap is the largest of 0 and the counts so far, and its samples
are these counts, in order, if it traces.  The samples that follow forces are taken when their cells have just got their
values, one for each force that the heap has counted.  No count is missing if nothing but cells is referred to.  No peak
ever goes down. -/
theorem peaks_and_samples_are_booked :
    (∀ (p : Program) (es : List Expr), ∀ o ∈ Session.run p es, ∃ k rs, Recorded ⟨{}, []⟩ rs ⟨o.store, k⟩) ∧
    (∀ (p : Program) depth args (e : Expr) s k, ∃ more rs,
      Recorded ⟨s, k⟩ rs ⟨Run.finalStore (e.eval p (p.runAt depth) args s), more ++ k⟩) ∧
    (∀ (s : Store) h k, h < s.heaps.size →
      Recorded ⟨s, k⟩ [⟨h, none, ⟨s, k⟩⟩] ⟨Run.finalStore (Run.sample h s), k⟩ ∧
      ∀ samples xs, samples.truth? = some true →
        Recorded ⟨s, k⟩ [⟨h, none, ⟨s.rooted h Consumer.rootName xs, k⟩⟩]
          ⟨Run.finalStore (Consumer.new h samples xs s), k⟩) ∧
    (∀ run s e d x current rest k, Consumer.remaining d s = .ok current s →
      Sequence.dropSteps run 1 current s = .ok rest e → e.consumers[d]? = some x → rest.same current = false →
      x.heap < e.heaps.size → x.samples.truth? = some true →
        Recorded ⟨e, k⟩ [⟨x.heap, none, ⟨Consumer.moved x d rest e, k⟩⟩]
          ⟨Run.finalStore (Consumer.step run d s), k⟩) ∧
    (∀ (p : Program) depth s e c h t k rs, s.state c = .suspended t → s.active = some h →
      Recorded ⟨s.began c h t, .force c h :: k⟩ rs ⟨e, .force c h :: k⟩ →
      (∀ v, t.produce p (p.runAt depth) (s.began c h t) = .ok v e →
        Recorded ⟨s, k⟩ (rs ++ if (e.heap h).samplesForces.holds then [⟨h, some c, ⟨e.finished c h v, k⟩⟩] else [])
          ⟨Run.finalStore (force (p.runAt (depth + 1)) c s), k⟩) ∧
      (∀ x, t.produce p (p.runAt depth) (s.began c h t) = .error (.raised x) e →
        Recorded ⟨s, k⟩ rs ⟨Run.finalStore (force (p.runAt (depth + 1)) c s), k⟩)) ∧
    (∀ rs m, Recorded ⟨{}, []⟩ rs m →
      (∀ h, Booked h rs m.store ∧ Matched h rs m.store) ∧
      (∀ before r after, rs = before ++ r :: after → ∀ h, Booked h before r.moment.store) ∧
      Timed rs m ∧
      (∀ i j (hi : i < rs.length) (hj : j < rs.length) d g, .force d g ∈ rs[i].moment.pending →
        rs[j].cell? = some d → i < j) ∧
      ∀ r ∈ rs, OnlyCells ((r.moment.store.heap r.heap).roots.map (·.2)) →
        (∀ c, OnlyCells (r.moment.store.refs c)) → ∃ live, r.live? = some live) ∧
    ∀ m m', Leads m m' → ∀ h, (m.store.heap h).peak ≤ (m'.store.heap h).peak := by
  refine ⟨fun p es o ho => Session.obeys_of_mem Moment.law_recorded p es ho, fun p depth args e s k => ?_,
    fun s h k hh => ⟨.of_sample hh k, fun samples xs hsamples => .of_new hh hsamples xs k⟩,
    fun run s e d x current rest k hleft hdrop hx hne hh hsamples => .of_step hleft hdrop hx hne hh hsamples k,
    fun p depth s e c h t k rs hc ha hrun => Recorded.of_force hc ha hrun, fun rs m hr => ?_, fun m m' hl h => hl.peak_le h⟩
  · exact (Expr.obeys_eval Moment.law_recorded p depth args e s).finalStore k
  · exact ⟨hr.booked, fun before r after hrs h => hr.booked_before hrs h, hr.timed,
      fun i j hi hj d g hpending hd => hr.timed.nested hi hj hpending hd, fun r _ => Sample.live?_of_cells⟩

/-! ## A force within another one -/

namespace Sample

/-- A function that forces what it is given, and one that returns a number. -/
def forcing : Program := [("f", ⟨.apply (.cell .force) [.argument 0], false⟩), ("seven", ⟨.constant (.int 7), false⟩)]

/-- Opens a heap that traces and samples its forces, and roots a cell whose thunk forces another one. -/
def rooting : Expr := .apply (.value .seq) [.apply (.heap .openNew) [.constant (.bool true), .constant (.bool true)],
  .apply (.heap .root) [.constant (.str "c"), .apply (.cell .suspend) [.constant (.str "f"),
    .apply (.cell .suspend) [.constant (.str "seven")]]]]

/-- The store before the first force. -/
def rooted : Store := Run.finalStore (rooting.eval forcing (forcing.runAt 1) [] {})

/-- The thunk of the rooted cell runs. -/
def outer : Store := rooted.began 1 0 (.call (.defined "f" false) [.cell 0])

/-- The thunk of the other cell runs. -/
def inner : Store := outer.began 0 0 (.call (.defined "seven" false) [])

/-- The other cell has got its value, and is live. -/
def first : Store := inner.finished 0 0 (.int 7)

/-- The rooted cell has got its value, and the other one is not live any more. -/
def second : Store := (first.noteLive 0 2).finished 1 0 (.int 7)

theorem reachable_first : first.reachable 0 = .ok ((({} : Found).insert 2 1).insert 1 0) := by
  have htop : first.address 1 = 2 := rfl
  have hlow : first.address 0 = 1 := rfl
  have hrefs : first.refs 1 = [.cell 0] := rfl
  calc first.reachable 0 = first.walk {} [.cell 1] := rfl
    _ = first.walk (({} : Found).insert 2 1) [.cell 0] := by
      rw [Store.walk_visit (by decide +kernel) rfl, htop, hrefs]
      rfl
    _ = first.walk ((({} : Found).insert 2 1).insert 1 0) [] := by
      rw [Store.walk_visit (by decide +kernel) (by decide +kernel), hlow]
      rfl
    _ = .ok _ := by rw [Store.walk]

theorem reachable_second : second.reachable 0 = .ok (({} : Found).insert 2 1) := by
  have htop : second.address 1 = 2 := rfl
  calc second.reachable 0 = second.walk {} [.cell 1] := rfl
    _ = second.walk (({} : Found).insert 2 1) [] := by
      rw [Store.walk_visit (by decide +kernel) rfl, htop]
      rfl
    _ = .ok _ := by rw [Store.walk]

/-- The force of the other cell ends with a sample of two live cells. -/
theorem force_inner : force (forcing.runAt 1) 0 outer = .ok (.int 7) (first.noteLive 0 2) := by
  have hsuspended : outer.state 0 = .suspended (.call (.defined "seven" false) []) := rfl
  have hvalue : (Thunk.call (.defined "seven" false) []).produce forcing (forcing.runAt 0) inner = .ok (.int 7) inner := rfl
  have hsample : Run.noteForced 0 ((inner.recorded (.returned (some 0) (.int 7))).setState 0 (.evaluated (.int 7))) =
      .ok () (first.noteLive 0 2) := Run.bind_ok (Run.sample_apply reachable_first (b := true) rfl)
  have hturn : forcing.runAt 1 (some 0) (.call (.defined "seven" false) []) = Run.turn (some 0) _
      ((Thunk.call (.defined "seven" false) []).produce forcing (forcing.runAt 0)) := rfl
  rw [force_of_turn (h := 0) hsuspended rfl hturn,
    show outer.began 0 0 (.call (.defined "seven" false) []) = inner from rfl, hvalue]
  dsimp only
  rw [Run.map_apply, hsample]

end Sample

open Sample in
/-- The sample that follows the inner force comes first, when two cells are live, and that of the outer one then. -/
theorem peaks_and_samples_are_booked_nested :
    let e := Run.finalStore (force (forcing.runAt 2) 1 rooted)
    (e.heap 0).samples.toList = [2, 1] ∧ (e.heap 0).peak = 2 ∧ ∃ k rs, Moment.Recorded ⟨{}, []⟩
      (rs ++ [⟨0, some 0, ⟨first, .force 1 0 :: k⟩⟩, ⟨0, some 1, ⟨second, k⟩⟩]) ⟨e, k⟩ := by
  intro e
  obtain ⟨-, evaluating, -, -, settling, books, -⟩ := peaks_and_samples_are_booked
  obtain ⟨k, rs, hrooted⟩ := evaluating forcing 1 [] rooting {} []
  have hinner := (settling forcing 0 outer inner 0 0 _ (.force 1 0 :: (k ++ [])) [] rfl rfl .refl).1 (.int 7) rfl
  rw [force_inner] at hinner
  have houter := (settling forcing 1 rooted (first.noteLive 0 2) 1 0 _ (k ++ []) _ rfl rfl hinner).1 (.int 7) force_inner
  let taken : List Sample := [⟨0, some 0, ⟨first, .force 1 0 :: (k ++ [])⟩⟩, ⟨0, some 1, ⟨second, k ++ []⟩⟩]
  have hall : Moment.Recorded ⟨{}, []⟩ (rs ++ taken) ⟨e, k ++ []⟩ := hrooted.trans houter
  have hbefore : counts 0 rs = [] := (((books _ _ hrooted).1 0).1.samples.trans (if_pos rfl)).symm
  have hfirst : first.live? 0 = some 2 := by rw [Store.live?, Store.liveCount, reachable_first]; rfl
  have hsecond : second.live? 0 = some 1 := by rw [Store.live?, Store.liveCount, reachable_second]; rfl
  have hcounts : counts 0 (rs ++ taken) = [2, 1] := by
    rw [counts_append, hbefore]
    simp [taken, counts, live?, hfirst, hsecond]
  have hthere : 0 < rooted.heaps.size := by decide +kernel
  have htraces : (e.heap 0).traces = (rooted.heap 0).traces := congrArg Prod.fst (houter.leads.flags hthere).2
  obtain ⟨hbooked, -⟩ := (books _ _ hall).1 0
  refine ⟨?_, ?_, k ++ [], rs, hall⟩
  · rw [hbooked.samples, htraces, hcounts]
    rfl
  · rw [hbooked.peak, hcounts]
    rfl

end Retention
