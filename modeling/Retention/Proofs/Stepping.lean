import Retention.Proofs.Alike
import Retention.Proofs.Driving
import Retention.Proofs.Supplying
/-!
# Stepping — one step of a consumer

A step forces the cell before which the consumer stands, and the tail of its node is what is left then.  The step tells
that there was an element by this being another cell: if the cell is the end of the list, and also if it is a node whose
tail is the very cell, the consumer stops where it is (`Store.Stops`).  If the force raises an error, so does the step,
and the consumer still stands before the cell that raised it.

So much can be told if the force leaves the consumers of the heap alone (`Store.LeavesBe`), and the heap can be sampled
after it, in case the consumer samples (`Consumer.Treads`).
-/
namespace Retention

open Store (OnlyCells)

variable {p : Program} {depth : Nat} {h : HeapId} {x y : Consumer} {d : ConsumerId} {c r : CellId} {s m e : Store}
  {v : Value} {b : Bool}

namespace Store

/-- A list stops at a cell: it is at its end there, or the cell is a node whose tail is the cell itself. -/
def Stops (s : Store) (c : CellId) : Prop :=
  (∃ tag, s.state c = .evaluated (.nil tag)) ∨ ∃ tag head, s.state c = .evaluated (.cons tag head (.cell c))

/-- What happened leaves alone the consumers of a heap, and what is left of their list. -/
structure LeavesBe (h : HeapId) (s e : Store) : Prop where
  records : ∀ (d : ConsumerId) x, s.consumers[d]? = some x → x.heap = h → e.consumers[d]? = some x
  left : e.left? h = s.left? h

theorem LeavesBe.refl (h : HeapId) (s : Store) : s.LeavesBe h s := ⟨fun _ _ hx _ => hx, rfl⟩

theorem LeavesBe.congr (hl : s.LeavesBe h m) (hheaps : e.heaps = m.heaps) (hconsumers : e.consumers = m.consumers) :
    s.LeavesBe h e where
  records d x hx hxh := hconsumers ▸ hl.records d x hx hxh
  left := (left?_congr (by rw [heap, heap, hheaps])).trans hl.left

theorem samplesForces_rooted (s : Store) (h g : HeapId) (name v : Value) :
    ((s.rooted h name v).heap g).samplesForces = (s.heap g).samplesForces := by
  refine field_updateHeap (r := Heap.samplesForces) ?_ s h g
  exact fun _ => rfl

theorem samplesForces_noteLive (s : Store) (h g : HeapId) (live : Nat) :
    ((s.noteLive h live).heap g).samplesForces = (s.heap g).samplesForces := by
  refine field_updateHeap (r := Heap.samplesForces) ?_ s h g
  exact fun _ => rfl

theorem Sampled.of_bound {n : Nat} (ht : (s.heap h).traces.truth? = some b)
    (hroots : OnlyCells ((s.heap h).roots.map (·.2))) (hn : s.cells.size ≤ n) (hrefs : ∀ c < n, OnlyCells (s.refs c)) :
    s.Sampled h where
  traces := ⟨b, ht⟩
  roots := hroots
  refs c := by
    rcases Nat.lt_or_ge c n with hlt | hge
    · exact hrefs c hlt
    · rw [refs_of_state (state_of_size_le (hn.trans hge))]
      exact onlyCells_map []

theorem Sampled.rooted (hs : s.Sampled h) (hh : h < s.heaps.size) (name : Value) (c : CellId) :
    (s.rooted h name (.cell c)).Sampled h where
  traces := by
    rw [Store.rooted, heap_updateHeap hh]
    exact hs.traces
  roots := by
    rw [Store.rooted, heap_updateHeap hh]
    intro v hv
    obtain ⟨entry, hentry, rfl⟩ := List.mem_map.1 hv
    rcases Entries.mem_put hentry with hold | hnew
    · exact hs.roots _ (List.mem_map.2 hold)
    · exact ⟨c, hnew⟩
  refs := hs.refs

theorem Sampled.noteLive (hs : s.Sampled h) (hh : h < s.heaps.size) (live : Nat) : (s.noteLive h live).Sampled h := by
  refine hs.updateHeap hh ?_ ?_
  all_goals exact fun _ => rfl

end Store

theorem Store.Runs.evaluated (h : s.Runs e) (hs : s.Reached) (hc : s.state c = .evaluated v) (hv : v ≠ .null) :
    e.state c = .evaluated v := by
  obtain ⟨k, hk⟩ := hs
  exact (h k).evaluated (Moment.sound_start.leads hk) hc hv

namespace Store.SpineAt
variable {i : Nat} {origin : CellId} {tag : Tag}

theorem runs (hc : s.SpineAt origin i c) (hs : s.Reached) (h : s.Runs e) : e.SpineAt origin i c := by
  induction hc with
  | first => exact .first
  | next _ hnode ih => exact .next ih (h.evaluated hs hnode (by simp))

theorem trans {j : Nat} {b : CellId} (hc : s.SpineAt origin i c) (hb : s.SpineAt c j b) : s.SpineAt origin (i + j) b := by
  induction hb with
  | first => exact hc
  | next _ hnode ih => exact .next ih hnode

theorem congr (hc : s.SpineAt origin i c) (h : e.state = s.state) : e.SpineAt origin i c := by
  induction hc with
  | first => exact .first
  | next _ hnode ih => exact .next ih (h ▸ hnode)

theorem cons {head : Value} (hnode : s.state c = .evaluated (.cons tag head (.cell r))) {b : CellId}
    (h : s.SpineAt r i b) : s.SpineAt c (i + 1) b := by
  induction h with
  | first => exact .next .first hnode
  | next _ hnode' ih => exact .next ih hnode'

end Store.SpineAt

namespace Consumer

/-- A consumer has this record, and stands before this cell. -/
structure Faces (x : Consumer) (d : ConsumerId) (c : CellId) (s : Store) : Prop where
  record : s.consumers[d]? = some x
  left : s.left? x.heap = some (.cell c)

/-- A force of the cell comes to a list node, or raises an error, and leaves consumers alone. -/
def Treads (p : Program) (depth : Nat) (x : Consumer) (c : CellId) (s : Store) : Prop :=
  match force (p.runAt depth) c s with
  | .ok v e => v.ListNode ∧ s.LeavesBe x.heap e ∧ (x.samples.truth? = some true → e.Sampled x.heap)
  | .error (.raised _) e => s.LeavesBe x.heap e
  | .error .tooDeep _ => True

/-- A force of the cell does not run out of depth. -/
def InDepth (p : Program) (depth : Nat) (c : CellId) (s : Store) : Prop :=
  ∀ e, force (p.runAt depth) c s ≠ .error .tooDeep e

/-- What a step makes of the store in which it has found another cell: the consumer is moved, and the heap is sampled if
the consumer samples. -/
inductive Stepped (x : Consumer) (d : ConsumerId) (r : CellId) (m : Store) : Store → Prop
  | silent (hb : x.samples.truth? = some false) : Stepped x d r m (moved x d (.cell r) m)
  | sampled {found : Found} (hb : x.samples.truth? = some true)
    (hfound : (moved x d (.cell r) m).reachable x.heap = .ok found) :
    Stepped x d r m { (moved x d (.cell r) m).noteLive x.heap found.size with
      events := .step (x.steps + 1) found.size :: m.events }

theorem Treads.of_evaluated (hc : s.state c = .evaluated v) (hv : v.ListNode)
    (hs : x.samples.truth? = some true → s.Sampled x.heap) : Treads p depth x c s := by
  unfold Treads
  rw [force_evaluated hc]
  exact ⟨hv, .refl _ s, hs⟩

theorem Treads.of_raised {z : FaultId} (hforce : force (p.runAt depth) c s = .error (.raised z) m)
    (hl : s.LeavesBe x.heap m) : Treads p depth x c s := by
  unfold Treads
  rw [hforce]
  exact hl

theorem InDepth.of_evaluated (hc : s.state c = .evaluated v) : InDepth p depth c s := fun e hforce => by
  cases (force_evaluated hc _).symm.trans hforce

namespace Faces

theorem remaining (hs : Faces x d c s) : Consumer.remaining d s = .ok (.cell c) s := by
  unfold Consumer.remaining
  rw [Run.bind_ok (find_apply hs.record)]
  exact root_of_get? hs.left

theorem congr (hs : Faces x d c s) (hheaps : e.heaps = s.heaps) (hconsumers : e.consumers = s.consumers) :
    Faces x d c e where
  record := hconsumers ▸ hs.record
  left := (Store.left?_congr (by rw [Store.heap, Store.heap, hheaps])).trans hs.left

theorem leavesBe (hs : Faces x d c s) (hl : s.LeavesBe x.heap m) : Faces x d c m :=
  ⟨hl.records d x hs.record rfl, hl.left.trans hs.left⟩

theorem step_raises {run : Runner} {halt : Halt} (hs : Faces x d c s) (hforce : force run c s = .error halt m) :
    step run d s = .error halt m := by
  have hdrop : Sequence.dropSteps run 1 (.cell c) s = .error halt m :=
    Run.bind_error (show forceValue run (.cell c) s = _ from hforce)
  unfold step
  rw [Run.bind_ok hs.remaining, Run.bind_error hdrop]

theorem step_stops {run : Runner} (hs : Faces x d c s) (hforce : force run c s = .ok v m) (hl : s.LeavesBe x.heap m)
    (hv : (∃ tag, v = .nil tag) ∨ ∃ tag head, v = .cons tag head (.cell c)) :
    step run d s = .ok false { m with events := .ranOff x.steps :: m.events } := by
  have hdrop : Sequence.dropSteps run 1 (.cell c) s = .ok (.cell c) m := by
    unfold Sequence.dropSteps
    rw [Run.bind_ok (show forceValue run (.cell c) s = _ from hforce)]
    obtain ⟨tag, rfl⟩ | ⟨tag, head, rfl⟩ := hv <;> rfl
  have hsame : (Value.cell c).same (.cell c) = true := by simp [Value.same]
  unfold step
  rw [Run.bind_ok hs.remaining, Run.bind_ok hdrop, Run.bind_ok (find_apply (hs.leavesBe hl).record)]
  simp only [hsame, if_true]
  rfl

theorem step_moves {run : Runner} {tag : Tag} {head : Value} (hs : Faces x d c s) (hb : x.samples.truth? = some b)
    (hforce : force run c s = .ok (.cons tag head (.cell r)) m) (hl : s.LeavesBe x.heap m)
    (hsampled : x.samples.truth? = some true → m.Sampled x.heap) (hne : r ≠ c) :
    ∃ e, step run d s = .ok true e ∧ Stepped x d r m e := by
  have hm := hs.leavesBe hl
  have hmoved := step_of_moved hs.remaining (Run.bind_ok hforce) hm.record (beq_false_of_ne hne)
  rw [Run.bind_ok (Run.truth_apply hb _)] at hmoved
  cases b with
  | false => exact ⟨_, hmoved, .silent hb⟩
  | true =>
    have hrooted : (moved x d (.cell r) m).Sampled x.heap := { (hsampled hb).rooted (Store.lt_of_left? hm.left) rootName r with }
    obtain ⟨found, hfound⟩ := hrooted.reachable_eq_ok
    obtain ⟨t, ht⟩ := hrooted.traces
    simp only [if_true] at hmoved
    rw [Run.bind_ok (Run.sample_apply hfound ht)] at hmoved
    exact ⟨_, hmoved, .sampled hb hfound⟩

end Faces

/-- How a step ends, by what the force of the cell came to. -/
inductive Ends (p : Program) (depth : Nat) (x : Consumer) (d : ConsumerId) (c : CellId) (s : Store) :
    EStateM.Result Halt Store Bool → Prop
  | moved {m e : Store} {head r : CellId} {tag : Tag}
    (hforce : force (p.runAt depth) c s = .ok (.cons tag (.cell head) (.cell r)) m) (hl : s.LeavesBe x.heap m)
    (hne : r ≠ c) (hstepped : Stepped x d r m e) : Ends p depth x d c s (.ok true e)
  | stopped {m : Store} {v : Value} (hforce : force (p.runAt depth) c s = .ok v m) (hl : s.LeavesBe x.heap m)
    (hstops : m.Stops c) : Ends p depth x d c s (.ok false { m with events := .ranOff x.steps :: m.events })
  | raised {m : Store} {z : FaultId} (hforce : force (p.runAt depth) c s = .error (.raised z) m)
    (hl : s.LeavesBe x.heap m) : Ends p depth x d c s (.error (.raised z) m)
  | tooDeep {m : Store} (hforce : force (p.runAt depth) c s = .error .tooDeep m) :
    Ends p depth x d c s (.error .tooDeep m)

/-- **A step leads on to the tail of the node, if this is another cell.** -/
theorem Faces.ends (hs : Faces x d c s) (hb : x.samples.truth? = some b) (ht : Treads p depth x c s) :
    Ends p depth x d c s (step (p.runAt depth) d s) := by
  unfold Treads at ht
  cases hforce : force (p.runAt depth) c s with
  | error halt m =>
    rw [hforce] at ht
    rw [hs.step_raises hforce]
    cases halt with
    | raised z => exact .raised hforce ht
    | tooDeep => exact .tooDeep hforce
  | ok v m =>
    rw [hforce] at ht
    obtain ⟨hv, hl, hsampled⟩ := ht
    have hstate := force_ok_state hforce
    cases hv with
    | done tag =>
      rw [hs.step_stops hforce hl (.inl ⟨tag, rfl⟩)]
      exact .stopped hforce hl (.inl ⟨tag, hstate⟩)
    | node tag head r =>
      -- the step compares cells, so a node whose tail is the very cell is taken for the end
      by_cases hne : r = c
      · subst hne
        rw [hs.step_stops hforce hl (.inr ⟨tag, .cell head, rfl⟩)]
        exact .stopped hforce hl (.inr ⟨tag, .cell head, hstate⟩)
      · obtain ⟨e, hstep, hstepped⟩ := hs.step_moves hb hforce hl hsampled hne
        rw [hstep]
        exact .moved hforce hl hne hstepped

namespace Stepped

theorem cells (h : Stepped x d r m e) : e.cells = m.cells := by
  cases h <;> rfl

theorem consumers (h : Stepped x d r m e) : e.consumers = (moved x d (.cell r) m).consumers := by
  cases h <;> rfl

theorem roots (h : Stepped x d r m e) :
    (e.heap x.heap).roots = ((m.rooted x.heap rootName (.cell r)).heap x.heap).roots := by
  cases h with
  | silent => rfl
  | sampled => exact (Store.Leaves.noteLive (moved x d (.cell r) m) x.heap _).roots

theorem left (h : Stepped x d r m e) (hh : x.heap < m.heaps.size) : e.left? x.heap = some (.cell r) :=
  (Store.left?_congr h.roots).trans (Store.left?_rooted hh (.cell r))

theorem active (h : Stepped x d r m e) : e.active = m.active := by
  cases h <;> rfl

theorem samplesForces (h : Stepped x d r m e) (g : HeapId) : (e.heap g).samplesForces = (m.heap g).samplesForces := by
  have hrooted := m.samplesForces_rooted x.heap g rootName (.cell r)
  cases h with
  | silent => exact hrooted
  | @sampled found => exact ((moved x d (.cell r) m).samplesForces_noteLive x.heap g found.size).trans hrooted

theorem heapSampled (h : Stepped x d r m e) (hm : m.Sampled x.heap) (hh : x.heap < m.heaps.size) : e.Sampled x.heap := by
  have hmoved : (moved x d (.cell r) m).Sampled x.heap := { hm.rooted hh rootName r with }
  cases h with
  | silent => exact hmoved
  | sampled => exact { hmoved.noteLive ((Store.size_updateHeap ..).symm ▸ hh) _ with }

/-- The consumer stands before the cell that is left, with a step more. -/
theorem faces (h : Stepped x d r m e) (hm : Faces x d c m) : Faces { x with steps := x.steps + 1 } d r e where
  record := h.consumers ▸ consumer_moved hm.record (.cell r)
  left := h.left (Store.lt_of_left? hm.left)

/-- So does any other consumer of the heap, which has taken no step. -/
theorem facesOther {d' : ConsumerId} (h : Stepped x d r m e) (hm : Faces y d' c m) (hh : y.heap = x.heap) (hne : d' ≠ d) :
    Faces y d' r e where
  record := by
    rw [h.consumers]
    show (m.consumers.modify d _)[d']? = _
    rw [Array.getElem?_modify, if_neg hne.symm]
    exact hm.record
  left := hh ▸ h.left (hh ▸ Store.lt_of_left? hm.left)

end Stepped

/-- What is made of the store if a consumer of a list is put into it. -/
inductive Made (h : HeapId) (samples : Value) (c : CellId) (s : Store) : ConsumerId → Store → Prop
  | silent (hb : samples.truth? = some false) : Made h samples c s s.consumers.size
    { s.rooted h rootName (.cell c) with consumers := s.consumers.push ⟨h, samples, 0⟩ }
  | sampled {found : Found} (hb : samples.truth? = some true)
    (hfound : (s.rooted h rootName (.cell c)).reachable h = .ok found) : Made h samples c s s.consumers.size
    { (s.rooted h rootName (.cell c)).noteLive h found.size with consumers := s.consumers.push ⟨h, samples, 0⟩ }

theorem made_of_new {samples : Value} (hb : samples.truth? = some b) (hr : Consumer.new h samples (.cell c) s = .ok d e) :
    Made h samples c s d e := by
  unfold Consumer.new at hr
  rw [Run.bind_ok (setRoot_apply s h (.cell c)), Run.bind_ok (Run.truth_apply hb _)] at hr
  cases b with
  | false =>
    cases hr
    exact .silent hb
  | true =>
    obtain ⟨u, m, hdiscard, hpush⟩ := Run.bind_eq_ok hr
    obtain ⟨live, m', hsample, hunit⟩ := Run.bind_eq_ok hdiscard
    cases hunit
    obtain ⟨found, hfound, rfl, rfl⟩ := Run.sample_ok hsample
    cases hpush
    exact .sampled hb hfound

theorem reached_of_new {samples xs : Value} (hs : s.Reached) (hr : Consumer.new h samples xs s = .ok d e) : e.Reached :=
  hs.after ((follows_new h samples xs).runs_of_ok hr).reaches

theorem new_eq_ok {samples : Value} (hb : samples.truth? = some b) (hs : s.Sampled h) (hh : h < s.heaps.size)
    (c : CellId) : ∃ d e, Consumer.new h samples (.cell c) s = .ok d e := by
  have hrooted := hs.rooted hh rootName c
  unfold Consumer.new
  rw [Run.bind_ok (setRoot_apply s h (.cell c)), Run.bind_ok (Run.truth_apply hb _)]
  cases b with
  | false => exact ⟨_, _, rfl⟩
  | true =>
    obtain ⟨found, hfound⟩ := hrooted.reachable_eq_ok
    obtain ⟨t, ht⟩ := hrooted.traces
    have hsample : discard (Run.sample h) (s.rooted h rootName (.cell c)) = .ok () _ :=
      Run.bind_ok (Run.sample_apply hfound ht)
    simp only [if_true]
    rw [Run.bind_ok hsample]
    exact ⟨_, _, rfl⟩

namespace Made
variable {samples : Value}

theorem cells (h : Made h samples c s d e) : e.cells = s.cells := by
  cases h <;> rfl

theorem roots (hm : Made h samples c s d e) :
    (e.heap h).roots = ((s.rooted h rootName (.cell c)).heap h).roots := by
  cases hm with
  | silent => rfl
  | sampled => exact (Store.Leaves.noteLive (s.rooted h rootName (.cell c)) h _).roots

theorem active (hm : Made h samples c s d e) : e.active = s.active := by
  cases hm <;> rfl

theorem samplesForces (hm : Made h samples c s d e) (g : HeapId) :
    (e.heap g).samplesForces = (s.heap g).samplesForces := by
  have hrooted := s.samplesForces_rooted h g rootName (.cell c)
  cases hm with
  | silent => exact hrooted
  | @sampled found => exact ((s.rooted h rootName (.cell c)).samplesForces_noteLive h g found.size).trans hrooted

/-- A new consumer stands before its list. -/
theorem faces (hm : Made h samples c s d e) (hh : h < s.heaps.size) : Faces ⟨h, samples, 0⟩ d c e where
  record := by cases hm <;> exact Array.getElem?_push_size
  left := (Store.left?_congr hm.roots).trans (Store.left?_rooted hh (.cell c))

/-- So does any other consumer of the heap, of whichever list. -/
theorem facesOther {d' : ConsumerId} (hm : Made h samples c s d e) (hy : s.consumers[d']? = some y) (hyh : y.heap = h)
    (hh : h < s.heaps.size) : Faces y d' c e ∧ d' ≠ d := by
  have hlt : d' < s.consumers.size := (Array.getElem?_eq_some_iff.1 hy).1
  have hne : d' ≠ d := by
    cases hm <;> exact Nat.ne_of_lt hlt
  refine ⟨⟨?_, hyh ▸ (hm.faces hh).left⟩, hne⟩
  have hpush : (s.consumers.push ⟨h, samples, 0⟩)[d']? = some y := by
    rw [Array.getElem?_push_lt hlt, ← hy, Array.getElem?_eq_getElem hlt]
  cases hm <;> exact hpush

theorem heapSampled (hm : Made h samples c s d e) (hs : s.Sampled h) (hh : h < s.heaps.size) : e.Sampled h := by
  have hrooted := hs.rooted hh rootName c
  cases hm with
  | silent => exact { hrooted with }
  | sampled => exact { hrooted.noteLive ((Store.size_updateHeap ..).symm ▸ hh) _ with }

end Made

/-! ## Several steps -/

theorem drop_eq (run : Runner) (n : Nat) : Consumer.drop run d n = advance run d n >>= fun _ => Consumer.remaining d := by
  unfold Consumer.drop
  rw [Int.toNat_natCast]

/-- Whenever the consumer is about to take one of its next `n` steps, this holds of the cell before which it stands. -/
def Along (p : Program) (depth : Nat) (d : ConsumerId) (q : CellId → Store → Prop) (n : Nat) (s : Store) : Prop :=
  ∀ i < n, ∀ m c, advance (p.runAt depth) d i s = .ok () m → Consumer.remaining d m = .ok (.cell c) m → q c m

namespace Along
variable {q : CellId → Store → Prop} {n k : Nat}

theorem zero (s : Store) : Along p depth d q 0 s := fun i hi => absurd hi i.not_lt_zero

theorem first (h : Along p depth d q (n + 1) s) (hs : Faces x d c s) : q c s :=
  h 0 (Nat.succ_pos n) s c rfl hs.remaining

theorem rest (h : Along p depth d q (n + 1) s) (hstep : step (p.runAt depth) d s = .ok true e) : Along p depth d q n e :=
  fun i hi m c hadvance hremaining => h (i + 1) (Nat.succ_lt_succ hi) m c ((Run.bind_ok hstep).trans hadvance) hremaining

theorem mono (h : Along p depth d q n s) (hk : k ≤ n) : Along p depth d q k s := fun i hi =>
  h i (Nat.lt_of_lt_of_le hi hk)

theorem of_rest (hs : Faces x d c s) (hq : q c s) (hstep : step (p.runAt depth) d s = .ok true e)
    (h : Along p depth d q n e) : Along p depth d q (n + 1) s := fun i hi m a hadvance hremaining => by
  cases i with
  | zero =>
    cases hadvance
    cases hs.remaining.symm.trans hremaining
    exact hq
  | succ i => exact h i (Nat.lt_of_succ_lt_succ hi) m a ((Run.bind_ok hstep).symm.trans hadvance) hremaining

theorem of_error {halt : Halt} (hs : Faces x d c s) (hq : q c s) (hstep : step (p.runAt depth) d s = .error halt e) :
    Along p depth d q n s := fun i _ m a hadvance hremaining => by
  cases i with
  | zero =>
    cases hadvance
    cases hs.remaining.symm.trans hremaining
    exact hq
  | succ i => cases (Run.bind_error hstep).symm.trans hadvance

end Along

/-- Steps of a consumer, one after the other, each of which led on to another cell: how many they were, and the cell to
which they led. -/
inductive Walk (p : Program) (depth : Nat) (d : ConsumerId) : Consumer → CellId → Store → Nat → CellId → Store → Prop
  | here (x : Consumer) (c : CellId) (s : Store) : Walk p depth d x c s 0 c s
  | on {x : Consumer} {c r head c' : CellId} {s m e e' : Store} {k : Nat} {tag : Tag}
    (hforce : force (p.runAt depth) c s = .ok (.cons tag (.cell head) (.cell r)) m) (hl : s.LeavesBe x.heap m)
    (hne : r ≠ c) (hstep : step (p.runAt depth) d s = .ok true e) (hstepped : Stepped x d r m e)
    (hrest : Walk p depth d { x with steps := x.steps + 1 } r e k c' e') : Walk p depth d x c s (k + 1) c' e'

/-- How it ends if more steps are asked for, and no further one is taken. -/
inductive Halts (p : Program) (depth : Nat) (x : Consumer) (d : ConsumerId) (c : CellId) (s : Store) :
    Nat → EStateM.Result Halt Store Unit → Prop
  | done : Halts p depth x d c s 0 (.ok () s)
  | stopped {m : Store} {v : Value} {rest : Nat}
    (hstep : step (p.runAt depth) d s = .ok false { m with events := .ranOff x.steps :: m.events })
    (hforce : force (p.runAt depth) c s = .ok v m) (hl : s.LeavesBe x.heap m) (hstops : m.Stops c) :
    Halts p depth x d c s (rest + 1) (.ok () { m with events := .ranOff x.steps :: m.events })
  | raised {m : Store} {z : FaultId} {rest : Nat} (hstep : step (p.runAt depth) d s = .error (.raised z) m)
    (hforce : force (p.runAt depth) c s = .error (.raised z) m) (hl : s.LeavesBe x.heap m) :
    Halts p depth x d c s (rest + 1) (.error (.raised z) m)
  | tooDeep {m : Store} {rest : Nat} (hstep : step (p.runAt depth) d s = .error .tooDeep m)
    (hforce : force (p.runAt depth) c s = .error .tooDeep m) : Halts p depth x d c s (rest + 1) (.error .tooDeep m)

/-- It does not matter how many more steps are asked for. -/
theorem Halts.advance {rest : Nat} {result : EStateM.Result Halt Store Unit} (h : Halts p depth x d c s (rest + 1) result)
    (n : Nat) : advance (p.runAt depth) d (n + 1) s = result := by
  unfold Consumer.advance
  cases h with
  | stopped hstep =>
    rw [Run.bind_ok hstep]
    rfl
  | raised hstep | tooDeep hstep => rw [Run.bind_error hstep]

/-- No consumer of the heap moves then. -/
theorem Halts.leavesBe {rest : Nat} {result : EStateM.Result Halt Store Unit} (h : Halts p depth x d c s rest result)
    (hdeep : ∀ e, result ≠ .error .tooDeep e) : s.LeavesBe x.heap (Run.finalStore result) := by
  cases h with
  | done => exact .refl _ s
  | stopped _ _ hl => exact hl.congr rfl rfl
  | raised _ _ hl => exact hl
  | tooDeep => exact absurd rfl (hdeep _)

theorem Halts.faces {rest : Nat} {result : EStateM.Result Halt Store Unit} (h : Halts p depth x d c s rest result)
    (hs : Faces x d c s) (hdeep : ∀ e, result ≠ .error .tooDeep e) : Faces x d c (Run.finalStore result) :=
  hs.leavesBe (h.leavesBe hdeep)

/-- **A consumer walks on until it has taken all steps, or cannot take one more.** -/
theorem Faces.walk {n : Nat} (hs : Faces x d c s) (hb : x.samples.truth? = some b) (ht : Along p depth d (Treads p depth x) n s) :
    ∃ k rest c' m, Walk p depth d x c s k c' m ∧ k + rest = n ∧
      Halts p depth { x with steps := x.steps + k } d c' m rest (advance (p.runAt depth) d n s) := by
  -- on the steps that are still to be taken, from whichever cell the consumer has come to
  induction n generalizing x c s with
  | zero => exact ⟨0, 0, c, s, .here x c s, rfl, .done⟩
  | succ n ih =>
    have hends := hs.ends hb (ht.first hs)
    generalize hstep : step (p.runAt depth) d s = result at hends
    cases hends with
    | moved hforce hl hne hstepped =>
      obtain ⟨k, rest, c', m, hwalk, hn, hhalts⟩ := ih (hstepped.faces (hs.leavesBe hl)) hb (ht.rest hstep)
      have hadvance := Run.bind_ok (f := fun b => if b then advance (p.runAt depth) d n else pure ()) hstep
      refine ⟨k + 1, rest, c', m, .on hforce hl hne hstep hstepped hwalk, by omega, ?_⟩
      rw [show x.steps + (k + 1) = x.steps + 1 + k by omega]
      unfold advance
      rw [hadvance]
      exact hhalts
    | stopped hforce hl hstops =>
      have hhalts : Halts p depth x d c s (n + 1) _ := .stopped hstep hforce hl hstops
      exact ⟨0, n + 1, c, s, .here x c s, Nat.zero_add _, (hhalts.advance n) ▸ hhalts⟩
    | raised hforce hl =>
      have hhalts : Halts p depth x d c s (n + 1) _ := .raised hstep hforce hl
      exact ⟨0, n + 1, c, s, .here x c s, Nat.zero_add _, (hhalts.advance n) ▸ hhalts⟩
    | tooDeep hforce =>
      have hhalts : Halts p depth x d c s (n + 1) _ := .tooDeep hstep hforce
      exact ⟨0, n + 1, c, s, .here x c s, Nat.zero_add _, (hhalts.advance n) ▸ hhalts⟩

/-- Before a list that was read, every cell that the consumer comes before is evaluated. -/
theorem Faces.evaluated (hs : Faces x d c s) (hb : x.samples.truth? = some b) (hsampled : s.Sampled x.heap)
    (hread : ∀ i a, s.SpineAt c i a → ∃ v, v.ListNode ∧ s.state a = .evaluated v) (n : Nat) {a : CellId}
    (hadvance : advance (p.runAt depth) d n s = .ok () e) (ha : Consumer.remaining d e = .ok (.cell a) e) :
    e.Sampled x.heap ∧ ∃ v, v.ListNode ∧ e.state a = .evaluated v := by
  induction n generalizing x c s with
  | zero =>
    cases hadvance
    cases hs.remaining.symm.trans ha
    exact ⟨hsampled, hread 0 _ .first⟩
  | succ n ih =>
    obtain ⟨v, hv, hc⟩ := hread 0 c .first
    have htreads : Treads p depth x c s := .of_evaluated hc hv fun _ => hsampled
    have hends := hs.ends hb htreads
    unfold advance at hadvance
    obtain ⟨moved, m, hstep, hrest⟩ := Run.bind_eq_ok hadvance
    rw [hstep] at hends
    cases hends with
    | moved hforce hl hne hstepped =>
      cases (force_evaluated hc _).symm.trans hforce
      have hstate : m.state = s.state := Store.state_of_cells hstepped.cells
      have hm := hstepped.heapSampled hsampled (Store.lt_of_left? hs.left)
      refine ih (x := { x with steps := x.steps + 1 }) (hstepped.faces hs) hb hm (fun i a ha => ?_) hrest
      rw [hstate]
      exact hread (i + 1) a ((ha.congr hstate.symm).cons hc)
    | stopped hforce =>
      cases (force_evaluated hc _).symm.trans hforce
      cases hrest
      have hm := hs.congr (e := { s with events := .ranOff x.steps :: s.events }) rfl rfl
      cases hm.remaining.symm.trans ha
      exact ⟨{ hsampled with }, v, hv, hc⟩

namespace Walk
variable {k : Nat} {c' : CellId}

theorem faces (h : Walk p depth d x c s k c' e) (hs : Faces x d c s) : Faces { x with steps := x.steps + k } d c' e := by
  induction h with
  | here => exact hs
  | @on x _ _ _ _ _ _ _ _ k _ _ hl _ _ hstepped _ ih =>
    rw [show x.steps + (k + 1) = x.steps + 1 + k by omega]
    exact ih (hstepped.faces (hs.leavesBe hl))

theorem facesOther {d' : ConsumerId} (h : Walk p depth d x c s k c' e) (hs : Faces x d c s) (hy : Faces y d' c s)
    (hh : y.heap = x.heap) (hne : d' ≠ d) : Faces y d' c' e := by
  induction h with
  | here => exact hy
  | on _ hl _ _ hstepped _ ih =>
    exact ih (hstepped.faces (hs.leavesBe hl)) (hstepped.facesOther (hy.leavesBe (hh ▸ hl)) hh hne) hh

theorem advance (h : Walk p depth d x c s k c' e) : advance (p.runAt depth) d k s = .ok () e := by
  induction h with
  | here => rfl
  | on _ _ _ hstep _ _ ih => exact (Run.bind_ok hstep).trans ih

theorem advance_add (hw : Walk p depth d x c s k c' e) (n : Nat) :
    Consumer.advance (p.runAt depth) d (k + n) s = Consumer.advance (p.runAt depth) d n e := by
  induction hw with
  | here => rw [Nat.zero_add]
  | on _ _ _ hstep _ _ ih =>
    rw [Nat.add_right_comm, ← ih]
    exact Run.bind_ok hstep

theorem runs (h : Walk p depth d x c s k c' e) : s.Runs e :=
  (Consumer.follows_advance (p.follows_runAt depth) d k).runs_of_ok h.advance

/-- The steps led from cell to cell of the list, each a node whose tail is another cell. -/
theorem spine (h : Walk p depth d x c s k c' e) (hs : s.Reached) : e.SpineAt c k c' ∧
    ∀ i < k, ∃ a r head tag, e.SpineAt c i a ∧ e.state a = .evaluated (.cons tag (.cell head) (.cell r)) ∧ r ≠ a := by
  induction h with
  | here => exact ⟨.first, fun i hi => absurd hi (Nat.not_lt_zero i)⟩
  | @on _ c r head _ _ _ _ e' _ tag hforce _ hne hstep hstepped hrest ih =>
    have hreached := hs.after (Consumer.follows_step (p.follows_runAt depth) d _).reaches
    rw [hstep] at hreached
    obtain ⟨hspine, hgoes⟩ := ih hreached
    -- the node that the first step found is there for good
    have hnode : e'.state c = _ := hrest.runs.evaluated hreached
      ((congrFun (Store.state_of_cells hstepped.cells) c).trans (force_ok_state hforce)) (by simp)
    refine ⟨hspine.cons hnode, fun i hi => ?_⟩
    cases i with
    | zero => exact ⟨c, r, head, tag, .first, hnode, hne⟩
    | succ i =>
      obtain ⟨a, r', head', tag', ha, hnode', hne'⟩ := hgoes i (Nat.lt_of_succ_lt_succ hi)
      exact ⟨a, r', head', tag', ha.cons hnode, hnode', hne'⟩

end Walk

/-- **Steps run out of depth nowhere else than in a force.** -/
theorem Faces.advance_ne_tooDeep {n : Nat} (hs : Faces x d c s) (hb : x.samples.truth? = some b)
    (ht : Along p depth d (Treads p depth x) n s) (hd : Along p depth d (InDepth p depth) n s) (e : Store) :
    advance (p.runAt depth) d n s ≠ .error .tooDeep e := by
  intro he
  obtain ⟨k, rest, c', m, hwalk, hn, hhalts⟩ := hs.walk hb ht
  have hm := hwalk.faces hs
  rw [he] at hhalts
  cases hhalts with
  | tooDeep _ hforce => exact hd k (by omega) m c' hwalk.advance hm.remaining e hforce

end Consumer

namespace Session

/-- The store after a session. -/
def after (p : Program) (es : List Expr) : Store := ((Session.run p es).getLast?.map (·.store)).getD {}

theorem reached_after (p : Program) (es : List Expr) : (after p es).Reached := by
  unfold after
  cases ho : (Session.run p es).getLast? with
  | none => exact ⟨[], .refl⟩
  | some o => exact Session.reached_of_mem p es (List.mem_of_getLast? ho)

end Session
end Retention
