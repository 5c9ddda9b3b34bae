import Retention.Proofs.Confinement
import Retention.Proofs.Stepping
/-!
# Dropping — a consumer leaves what stepping along the list leaves

A consumer holds what is left of its list under a root, and other than by this, by the samples that it takes and by its
count of steps it leaves no trace (`Store.unheld`).  If the forces on the way neither read nor change any of that
(`Aloof`), it forces the same cells as one who steps along the list, in the same order and to the same end
(`Walk.dropSteps`).  An error strikes before the root is moved, so the consumer still stands before the cell that raised
it, and a further force raises it again (`force_again`).
-/
namespace Retention

open Store (OnlyCells)

variable {p : Program} {depth known : Nat} {h : HeapId} {x : Consumer} {d : ConsumerId} {c c' r : CellId}
  {s s' m e : Store}

/-! ## What a consumer leaves no trace in -/

/-- A heap without what stands under its roots and what was measured of it. -/
def Heap.unheld (x : Heap) : Heap := { x with roots := [], peak := 0, samples := #[] }

/-- A consumer without how far it has come, if it is one of the heap. -/
def Consumer.unheld (h : HeapId) (x : Consumer) : Consumer := if x.heap = h then { x with steps := 0 } else x

namespace Store

/-- A store without all that a consumer of the heap can change by itself.  Of the consumers, only so many are known. -/
def unheld (s : Store) (h : HeapId) (known : Nat) : Store :=
  { s.updateHeap h Heap.unheld with
    consumers := (s.consumers.extract 0 known).map (Consumer.unheld h)
    events := [] }

theorem unheld_updateHeap {f : Heap → Heap} (hf : ∀ x, (f x).unheld = x.unheld) (s : Store) (h : HeapId) (known : Nat) :
    (s.updateHeap h f).unheld h known = s.unheld h known := by
  have hheaps : (s.heaps.modify h f).modify h Heap.unheld = s.heaps.modify h Heap.unheld := by
    refine Array.ext_getElem? fun i => ?_
    simp only [Array.getElem?_modify]
    split
    · cases s.heaps[i]? with
      | none => rfl
      | some x => exact congrArg some (hf x)
    · rfl
  exact congrArg (fun heaps => { s.unheld h known with heaps }) hheaps

theorem unheld_consumers {consumers : Array Consumer}
    (hc : (consumers.extract 0 known).map (Consumer.unheld h) = (s.consumers.extract 0 known).map (Consumer.unheld h)) :
    ({ s with consumers := consumers } : Store).unheld h known = s.unheld h known :=
  congrArg (fun consumers => { s.unheld h known with consumers }) hc

theorem unheld_rooted (s : Store) (h : HeapId) (known : Nat) (name v : Value) :
    (s.rooted h name v).unheld h known = s.unheld h known := by
  refine unheld_updateHeap ?_ s h known
  exact fun _ => rfl

theorem unheld_noteLive (s : Store) (h : HeapId) (known live : Nat) :
    (s.noteLive h live).unheld h known = s.unheld h known := by
  refine unheld_updateHeap ?_ s h known
  exact fun _ => rfl

theorem cells_of_unheld (hs : s'.unheld h known = s.unheld h known) : s'.cells = s.cells :=
  show (s'.unheld h known).cells = (s.unheld h known).cells from congrArg Store.cells hs

end Store

namespace Consumer

theorem unheld_moved (hx : s.consumers[d]? = some x) (known : Nat) (rest : Value) :
    (moved x d rest s).unheld x.heap known = s.unheld x.heap known := by
  refine (Store.unheld_consumers (s := s.rooted x.heap rootName rest) ?_).trans (s.unheld_rooted x.heap known rootName rest)
  refine Array.ext_getElem? fun i => ?_
  simp only [Array.getElem?_map, Array.getElem?_extract, Array.size_modify, Array.getElem?_modify, Nat.zero_add]
  by_cases hi : i = d
  · subst hi
    show Option.map _ (if _ then (if i = i then s.consumers[i]?.map _ else _) else none) =
      Option.map _ (if _ then s.consumers[i]? else none)
    rw [hx]
    split <;> simp [unheld]
  · rw [if_neg (Ne.symm hi)]

theorem Stepped.unheld (hs : Stepped x d r m e) (hx : m.consumers[d]? = some x) :
    e.unheld x.heap known = m.unheld x.heap known := by
  have hmoved := unheld_moved hx known (.cell r)
  cases hs with
  | silent => exact hmoved
  | sampled => exact (Store.unheld_noteLive (moved x d (.cell r) m) x.heap known _).trans hmoved

theorem Made.unheld {samples : Value} (hm : Made h samples c s d e) (hk : known ≤ s.consumers.size) :
    s.unheld h known = e.unheld h known := by
  have hpush : ∀ m : Store, m.consumers = s.consumers →
      ({ m with consumers := s.consumers.push ⟨h, samples, 0⟩ } : Store).unheld h known = m.unheld h known := fun m hm => by
    refine Store.unheld_consumers ?_
    rw [hm, Array.extract_push_of_le]
    omega
  have hrooted := s.unheld_rooted h known rootName (.cell c)
  cases hm with
  | silent => exact ((hpush (s.rooted h rootName (.cell c)) rfl).trans hrooted).symm
  | @sampled found =>
    have hnoted := (s.rooted h rootName (.cell c)).unheld_noteLive h known found.size
    exact ((hpush ((s.rooted h rootName (.cell c)).noteLive h found.size) rfl).trans (hnoted.trans hrooted)).symm

end Consumer

/-! ## The same forces -/

/-- Two runs come to the same value, or to the same error, and to stores that differ in nothing else than what a consumer
can change. -/
def Run.EndAlike {α : Type} (h : HeapId) (known : Nat) :
    EStateM.Result Halt Store α → EStateM.Result Halt Store α → Prop
  | .ok a e, .ok a' e' => a' = a ∧ e'.unheld h known = e.unheld h known
  | .error halt e, .error halt' e' => halt' = halt ∧ e'.unheld h known = e.unheld h known
  | _, _ => False

/-- The force of the cell neither reads nor changes the roots of the heap, nor what was measured of it, nor how far its
consumers have come: it ends alike in every store that differs in nothing else, and leaves the roots there. -/
def Aloof (p : Program) (depth : Nat) (h : HeapId) (known : Nat) (c : CellId) (s : Store) : Prop :=
  ∀ s' : Store, s'.unheld h known = s.unheld h known → OnlyCells ((s'.heap h).roots.map (·.2)) →
    Run.EndAlike h known (force (p.runAt depth) c s) (force (p.runAt depth) c s') ∧
      ((Run.finalStore (force (p.runAt depth) c s')).heap h).roots = (s'.heap h).roots

/-- Another store differs in nothing but what a consumer of the heap can change, and only cells stand under its roots. -/
structure Store.Beside (h : HeapId) (known : Nat) (s s' : Store) : Prop where
  unheld : s'.unheld h known = s.unheld h known
  roots : OnlyCells ((s'.heap h).roots.map (·.2))

theorem Aloof.force_ok {v : Value} (ha : Aloof p depth h known c s) (hs : s.Beside h known s')
    (hr : force (p.runAt depth) c s = .ok v m) :
    ∃ m', force (p.runAt depth) c s' = .ok v m' ∧ m.Beside h known m' := by
  obtain ⟨hends, hroots⟩ := ha s' hs.unheld hs.roots
  rw [hr] at hends
  cases hr' : force (p.runAt depth) c s' with
  | ok v' m' =>
    rw [hr'] at hends hroots
    obtain ⟨rfl, hunheld⟩ := hends
    refine ⟨m', rfl, hunheld, ?_⟩
    rw [show (m'.heap h).roots = (s'.heap h).roots from hroots]
    exact hs.roots
  | error halt m' =>
    rw [hr'] at hends
    exact hends.elim

theorem Aloof.force_error {halt : Halt} (ha : Aloof p depth h known c s) (hs : s.Beside h known s')
    (hr : force (p.runAt depth) c s = .error halt m) :
    ∃ m', force (p.runAt depth) c s' = .error halt m' ∧ m'.unheld h known = m.unheld h known := by
  obtain ⟨hends, -⟩ := ha s' hs.unheld hs.roots
  rw [hr] at hends
  cases hr' : force (p.runAt depth) c s' with
  | ok v' m' =>
    rw [hr'] at hends
    exact hends.elim
  | error halt' m' =>
    rw [hr'] at hends
    obtain ⟨rfl, hunheld⟩ := hends
    exact ⟨m', rfl, hunheld⟩

theorem Aloof.of_evaluated {v : Value} (hc : s.state c = .evaluated v) : Aloof p depth h known c s := fun s' hs' _ => by
  have hc' : s'.state c = .evaluated v := (congrFun (Store.state_of_cells (Store.cells_of_unheld hs')) c).trans hc
  rw [force_evaluated hc, force_evaluated hc']
  exact ⟨⟨rfl, hs'⟩, rfl⟩

theorem force_of_raises {t : Thunk} {g : HeapId} {context : List Value} {cause : Fault} (hc : s.state c = .suspended t)
    (ha : s.active = some g) (hraises : ∀ m, t.produce p (p.runAt depth) m = Run.raiseIn context cause m) :
    force (p.runAt (depth + 1)) c s = .error (.raised s.faults.size)
      (Store.aborted { s.began c g t with faults := s.faults.push ⟨cause, context⟩ } c s.faults.size) := by
  rw [force_of_suspended p depth ha hc, hraises]
  rfl

/-- A thunk that raises an error at once looks at nothing. -/
theorem Aloof.of_raises {t : Thunk} {g : HeapId} {context : List Value} {cause : Fault} (hc : s.state c = .suspended t)
    (ha : s.active = some g) (hraises : ∀ m, t.produce p (p.runAt depth) m = Run.raiseIn context cause m) :
    Aloof p (depth + 1) h known c s := fun s' hs' _ => by
  have hc' : s'.state c = .suspended t := (congrFun (Store.state_of_cells (Store.cells_of_unheld hs')) c).trans hc
  have hactive : s'.active = s.active := show (s'.unheld h known).active = (s.unheld h known).active by rw [hs']
  have hfaults : s'.faults = s.faults := show (s'.unheld h known).faults = (s.unheld h known).faults by rw [hs']
  rw [force_of_raises hc ha hraises, force_of_raises hc' (hactive.trans ha) hraises, hfaults]
  let raised (m : Store) : Store :=
    Store.aborted { m.began c g t with faults := s.faults.push ⟨cause, context⟩ } c s.faults.size
  exact ⟨⟨rfl, show raised (s'.unheld h known) = raised (s.unheld h known) by rw [hs']⟩, rfl⟩

theorem dropSteps_error {run : Runner} {halt : Halt} {n : Nat} (hr : force run c s = .error halt m) :
    Sequence.dropSteps run (n + 1) (.cell c) s = .error halt m :=
  Run.bind_error (show forceValue run (.cell c) s = _ from hr)

/-- Who steps along a list stays before a node whose tail is the very cell. -/
theorem dropSteps_self {run : Runner} {tag : Tag} {head : Value} (hc : s.state c = .evaluated (.cons tag head (.cell c)))
    (n : Nat) : Sequence.dropSteps run n (.cell c) s = .ok (.cell c) s := by
  induction n with
  | zero => rfl
  | succ n ih =>
    unfold Sequence.dropSteps
    rw [Run.bind_ok (show forceValue run (.cell c) s = _ from force_evaluated hc run)]
    exact ih

namespace Consumer

/-- **A walk forces what steps along the list force.** -/
theorem Walk.dropSteps {k rest : Nat} (hw : Walk p depth d x c s k c' m) (hs : Faces x d c s)
    (ha : Along p depth d (Aloof p depth x.heap known) (k + rest) s) (hs' : s.Beside x.heap known s') :
    ∃ m', Sequence.dropSteps (p.runAt depth) (k + rest) (.cell c) s' =
      Sequence.dropSteps (p.runAt depth) rest (.cell c') m' ∧ m.Beside x.heap known m' := by
  induction hw generalizing s' with
  | here => exact ⟨s', by rw [Nat.zero_add], hs'⟩
  | @on x c r _ _ s a e _ k _ hforce hl _ hstep hstepped _ ih =>
    rw [Nat.add_right_comm] at ha ⊢
    have hm := hs.leavesBe hl
    obtain ⟨a', hforce', hbeside⟩ := (ha.first hs).force_ok hs' hforce
    -- what the step does after the force is what is left out of the comparison
    have he : e.Beside x.heap known a' := ⟨hbeside.unheld.trans (hstepped.unheld hm.record).symm, hbeside.roots⟩
    obtain ⟨m', hdrop, hm'⟩ := ih (hstepped.faces hm) (ha.rest hstep) he
    refine ⟨m', ?_, hm'⟩
    rw [← hdrop]
    exact Run.bind_ok (show forceValue (p.runAt depth) (.cell c) s' = _ from hforce')

/-- **A consumer ends as who steps along the list.** -/
theorem Faces.endAlike {b : Bool} {n : Nat} (hs : Faces x d c s) (hb : x.samples.truth? = some b)
    (ht : Along p depth d (Treads p depth x) n s) (ha : Along p depth d (Aloof p depth x.heap known) n s)
    (hs' : s.Beside x.heap known s') : Run.EndAlike x.heap known (Consumer.drop (p.runAt depth) d n s)
      (Sequence.drop (p.runAt depth) n (.cell c) s') := by
  obtain ⟨k, rest, c', m, hwalk, rfl, hhalts⟩ := hs.walk hb ht
  obtain ⟨m', hdrop, hm'⟩ := hwalk.dropSteps hs ha hs'
  have hm := hwalk.faces hs
  have hsteps : Sequence.drop (p.runAt depth) ((k + rest : Nat) : Int) (.cell c) s' =
      Sequence.dropSteps (p.runAt depth) rest (.cell c') m' := by
    unfold Sequence.drop
    rw [if_neg (Int.not_lt.2 (Int.natCast_nonneg _)), Int.toNat_natCast, hdrop]
  unfold Consumer.drop
  rw [hsteps, Int.toNat_natCast]
  generalize hadvance : advance (p.runAt depth) d (k + rest) s = result at hhalts
  cases hhalts with
  | done =>
    rw [Run.bind_ok hadvance, hm.remaining]
    exact ⟨rfl, hm'.unheld⟩
  | @stopped a v rest hstep hforce hl hstops =>
    obtain ⟨a', hforce', ha'⟩ := (ha k (by omega) m c' hwalk.advance hm.remaining).force_ok hm' hforce
    have hdropped : Sequence.dropSteps (p.runAt depth) (rest + 1) (.cell c') m' = .ok (.cell c') a' := by
      unfold Sequence.dropSteps
      rw [Run.bind_ok (show forceValue (p.runAt depth) (.cell c') m' = _ from hforce')]
      rcases hstops with ⟨tag, hnil⟩ | ⟨tag, head, hself⟩
      · cases (force_ok_state hforce).symm.trans hnil
        rfl
      · cases (force_ok_state hforce).symm.trans hself
        exact dropSteps_self (force_ok_state hforce') rest
    have hstopped := (hm.leavesBe hl).congr (e := { a with events := .ranOff (x.steps + k) :: a.events }) rfl rfl
    rw [Run.bind_ok hadvance, hstopped.remaining, hdropped]
    exact ⟨rfl, ha'.unheld⟩
  | raised hstep hforce | tooDeep hstep hforce =>
    obtain ⟨a', hforce', hunheld⟩ := (ha k (by omega) m c' hwalk.advance hm.remaining).force_error hm' hforce
    rw [Run.bind_error hadvance, dropSteps_error hforce']
    exact ⟨rfl, hunheld⟩

end Consumer

/-! ## The same error once more -/

/-- What raises an error once more leaves: the same error and nothing else, if the cell has failed with it, and an error
just like it otherwise. -/
inductive Store.Again (e : Store) (c : CellId) (z : FaultId) : FaultId → Store → Prop
  | same (hc : e.state c = .failed (.fault z)) : Again e c z z e
  | like {y : Raised} (hc : ∀ w, e.state c ≠ .failed (.fault w)) (hz : e.faults[z]? = some y) :
    Again e c z e.faults.size { e with faults := e.faults.push y }

theorem raise_again {z : FaultId} (context : List Value) (cause : Fault)
    (hforce : ∀ t : Store, t.cells = s.cells → t.active = s.active → force (p.runAt depth) c t = Run.raiseIn context cause t)
    (hc : ∀ w, s.state c ≠ .failed (.fault w)) (hr : force (p.runAt depth) c s = .error (.raised z) e) :
    ∃ z' e', force (p.runAt depth) c e = .error (.raised z') e' ∧ e.Again c z z' e' := by
  rw [hforce s rfl rfl] at hr
  cases hr
  exact ⟨_, _, hforce _ rfl rfl, .like hc Array.getElem?_push_size⟩

/-- Forces can be counted on a heap, whichever is active: it can be told whether they are sampled, and if they are, the heap
can be sampled. -/
structure Store.CountsForces (s : Store) (g : HeapId) : Prop where
  forces : ∃ b, (s.heap g).samplesForces.truth? = some b
  sampled : (s.heap g).samplesForces.truth? = some true → s.Sampled g

theorem Store.Serves.countsForces {g : HeapId} (hs : s.Serves g) : s.CountsForces g := ⟨hs.forces, hs.sampled⟩

namespace Run

theorem Idle.of_error {α : Type} {halt : Halt} {q : Run α} (hq : Idle q) (hr : q s = .error halt e) : Store.Unmoved s e := by
  have hs := hq s
  rwa [hr] at hs

/-- A sample that fails leaves a heap that cannot be sampled, and the flags of the heap. -/
theorem of_sample_error {g : HeapId} {halt : Halt} (hr : sample g s = .error halt e) :
    ¬ e.Sampled g ∧ (e.heap g).samplesForces = (s.heap g).samplesForces := by
  unfold sample at hr
  cases hlive : liveCount g s with
  | error halt' m =>
    rw [bind_error hlive] at hr
    cases hr
    have hidle := (idle_liveCount g).of_error hlive
    have hheap : e.heap g = s.heap g := by rw [Store.heap, Store.heap, hidle.heaps]
    have hreachable : s.reachable g = e.reachable g := Store.reachable_congr hidle.cells.symm (by rw [hheap])
    refine ⟨fun he => ?_, by rw [hheap]⟩
    obtain ⟨found, hfound⟩ := he.reachable_eq_ok
    cases hlive.symm.trans (liveCount_eq_ok_iff.2 ⟨⟨found, hreachable.trans hfound, rfl⟩, rfl⟩)
  | ok live m =>
    obtain ⟨-, rfl⟩ := liveCount_eq_ok_iff.1 hlive
    rw [bind_ok hlive, bind_ok (modify_apply _ m), bind_ok (get_apply _)] at hr
    cases htruth : truth ((m.noteLive g live).heap g).traces (m.noteLive g live) with
    | ok b m' =>
      rw [bind_ok (show discard (truth _) _ = .ok () _ from bind_ok htruth)] at hr
      cases hr
    | error halt' m' =>
      rw [bind_error (show discard (truth _) _ = .error _ _ from bind_error htruth)] at hr
      cases hr
      have hidle := (idle_truth _).of_error htruth
      have hheap : e.heap g = (m.noteLive g live).heap g := by rw [Store.heap, Store.heap, hidle.heaps]
      rw [hheap]
      refine ⟨fun he => ?_, ?_⟩
      · obtain ⟨b, hb⟩ := he.traces
        cases htruth.symm.trans (truth_apply (hheap ▸ hb) _)
      · exact m.samplesForces_noteLive g g live

/-- No count of a force fails on a heap that can still count forces then. -/
theorem not_countsForces_of_noteForced {g : HeapId} {halt : Halt} (hr : noteForced g s = .error halt e) :
    ¬ e.CountsForces g := by
  intro he
  unfold noteForced at hr
  rw [bind_ok (modify_apply _ s), bind_ok (get_apply _)] at hr
  cases htruth : truth ((s.counted g).heap g).samplesForces (s.counted g) with
  | error halt' m =>
    rw [bind_error htruth] at hr
    cases hr
    have hheaps := ((idle_truth _).of_error htruth).heaps
    obtain ⟨b, hb⟩ := he.forces
    rw [Store.heap, hheaps] at hb
    cases htruth.symm.trans (truth_apply hb _)
  | ok b m =>
    obtain rfl := truth_ok htruth
    rw [bind_ok htruth] at hr
    cases b with
    | false => cases hr
    | true =>
      simp only [if_true] at hr
      cases hsample : sample g (s.counted g) with
      | ok live m =>
        rw [show discard (sample g) (s.counted g) = .ok () _ from bind_ok hsample] at hr
        cases hr
      | error halt' m =>
        rw [show discard (sample g) (s.counted g) = .error _ _ from bind_error hsample] at hr
        cases hr
        obtain ⟨hnot, hflag⟩ := of_sample_error hsample
        refine hnot (he.sampled ?_)
        obtain ⟨b, hb⟩ := he.forces
        rw [hflag] at hb ⊢
        cases htruth.symm.trans (truth_apply hb _)
        exact hb

end Run

/-- If the first force of the cell raises an error, the heap that was active can count forces then. -/
def KeepsCounting (p : Program) (depth : Nat) (c : CellId) (s : Store) : Prop :=
  ∀ t g z e, s.state c = .suspended t → s.active = some g → force (p.runAt depth) c s = .error (.raised z) e →
    e.CountsForces g

/-- A cell whose thunk raised an error has failed with it. -/
theorem failed_of_force_error {t : Thunk} {g : HeapId} {z : FaultId} (hc : s.state c = .suspended t)
    (ha : s.active = some g) (hr : force (p.runAt depth) c s = .error (.raised z) e) (he : e.CountsForces g) :
    e.state c = .failed (.fault z) := by
  cases depth with
  | zero =>
    rw [force_of_turn hc ha rfl] at hr
    cases hr
  | succ n =>
    have hproduced := t.follows_produce (p := p) (p.follows_runAt n) (s.began c g t)
    have hlt : c < (s.began c g t).cells.size := (Store.size_setState s c _).symm ▸ Store.lt_of_suspended hc
    rw [force_of_suspended p n ha hc] at hr
    cases hm : t.produce p (p.runAt n) (s.began c g t) with
    | ok v m =>
      rw [hm] at hr
      dsimp only at hr
      rw [Run.map_apply] at hr
      cases hnote : Run.noteForced g ((m.recorded (.returned (some c) v)).setState c (.evaluated v)) with
      | ok u e' =>
        rw [hnote] at hr
        cases hr
      | error halt e' =>
        rw [hnote] at hr
        cases hr
        -- the thunk gave a value, and the error would be one of the count
        exact absurd he (Run.not_countsForces_of_noteForced hnote)
    | error halt m =>
      rw [hm] at hr hproduced
      cases halt with
      | tooDeep => cases hr
      | raised w =>
        cases hr
        exact Store.state_setState_self (m.recorded _) c _ (hproduced.lt_size hlt)

/-- **A force that raised an error raises it again.** -/
theorem force_again {z : FaultId} (hs : KeepsCounting p depth c s) (hr : force (p.runAt depth) c s = .error (.raised z) e) :
    ∃ z' e', force (p.runAt depth) c e = .error (.raised z') e' ∧ e.Again c z z' e' := by
  cases hc : s.state c with
  | evaluated v =>
    rw [force_evaluated hc] at hr
    cases hr
  | inProgress t =>
    refine raise_again [.cell c] (.reentrantForce (s.address c)) (fun m hm _ => ?_) (by simp [hc]) hr
    rw [force_apply, Store.state_of_cells hm, hc, Store.address, Store.address, hm]
  | failed error =>
    by_cases hfault : ∃ w, error = .fault w
    · obtain ⟨w, rfl⟩ := hfault
      rw [force_failed hc] at hr
      cases hr
      exact ⟨_, _, force_failed hc _, .same hc⟩
    · refine raise_again [] .notAnError (fun m hm _ => ?_) (by simpa [hc] using hfault) hr
      rw [force_apply, Store.state_of_cells hm, hc]
      cases error <;> first | rfl | exact absurd ⟨_, rfl⟩ hfault
  | suspended t =>
    cases ha : s.active with
    | none =>
      refine raise_again [] .noActiveHeap (fun m hm hma => ?_) (by simp [hc]) hr
      rw [force_apply, Store.state_of_cells hm, hc, hma, ha]
      rfl
    | some g =>
      have hfailed := failed_of_force_error hc ha hr (hs t g z e hc ha hr)
      exact ⟨_, _, force_failed hfailed _, .same hfailed⟩

namespace Consumer

theorem Faces.again {n : Nat} {z : FaultId} (hs : Faces x d c e) (hm : KeepsCounting p depth c m)
    (hr : force (p.runAt depth) c m = .error (.raised z) e) :
    ∃ z' e', advance (p.runAt depth) d (n + 1) e = .error (.raised z') e' ∧ e.Again c z z' e' := by
  obtain ⟨z', e', hforce, hagain⟩ := force_again hm hr
  exact ⟨z', e', Run.bind_error (hs.step_raises hforce), hagain⟩

theorem Faces.of_again {z z' : FaultId} (hs : Faces x d c e) (ha : e.Again c' z z' m) : Faces x d c m := by
  cases ha with
  | same => exact hs
  | like => exact hs.congr rfl rfl

/-! ## In two goes -/

/-- Where the consumer stopped it stops again. -/
theorem Faces.stays (hs : Faces x d c s) (hc : s.Stops c) (n : Nat) :
    ∃ e, advance (p.runAt depth) d n s = .ok () e ∧ Faces x d c e := by
  cases n with
  | zero => exact ⟨s, rfl, hs⟩
  | succ n =>
    have hl : s.LeavesBe x.heap s := .refl x.heap s
    have hstep : ∃ e, step (p.runAt depth) d s = .ok false e ∧ Faces x d c e := by
      rcases hc with ⟨tag, hnil⟩ | ⟨tag, head, hself⟩
      · exact ⟨_, hs.step_stops (force_evaluated hnil _) hl (.inl ⟨tag, rfl⟩), hs.congr rfl rfl⟩
      · exact ⟨_, hs.step_stops (force_evaluated hself _) hl (.inr ⟨tag, head, rfl⟩), hs.congr rfl rfl⟩
    obtain ⟨e, hstep, he⟩ := hstep
    exact ⟨e, Run.bind_ok hstep, he⟩

theorem remaining_ok {v : Value} (hr : Consumer.remaining d s = .ok v e) : s = e := by
  unfold Consumer.remaining Consumer.find at hr
  obtain ⟨x, m, hfind, hroot⟩ := Run.bind_eq_ok hr
  obtain rfl : s = m := by
    cases hfind
    rfl
  unfold Run.root at hroot
  rw [Run.bind_ok (checkKey_rootName s), Run.bind_ok (Run.get_apply s)] at hroot
  cases hget : Entries.get? s.equal (s.heap x.heap).roots rootName with
  | none =>
    rw [hget] at hroot
    cases hroot
  | some w =>
    rw [hget] at hroot
    cases hroot
    rfl

/-- The store after elements were dropped, however that ended. -/
def dropped (run : Runner) (d : ConsumerId) (n : Nat) (s : Store) : Store := Run.finalStore (Consumer.drop run d n s)

theorem Faces.dropped_eq {run : Runner} {n : Nat} (hs : Faces x d c (Run.finalStore (advance run d n s))) :
    dropped run d n s = Run.finalStore (advance run d n s) := by
  unfold dropped
  rw [drop_eq]
  cases hadvance : advance run d n s with
  | ok u e =>
    rw [hadvance] at hs
    rw [Run.bind_ok hadvance, show Consumer.remaining d e = _ from hs.remaining]
    rfl
  | error halt e =>
    rw [Run.bind_error hadvance]
    rfl

/-- Where the consumer came to a halt, it comes to the same halt again. -/
theorem Halts.stays {rest : Nat} {result : EStateM.Result Halt Store Unit}
    (h : Halts p depth x d c s (rest + 1) result) (hs : Faces x d c s) (hf : KeepsCounting p depth c s)
    (hdeep : ∀ e, result ≠ .error .tooDeep e) (n : Nat) :
    Faces x d c (Run.finalStore (Consumer.advance (p.runAt depth) d n (Run.finalStore result))) := by
  have he := h.faces hs hdeep
  cases h with
  | stopped _ _ _ hstops =>
    obtain ⟨e, hadvance, he⟩ := he.stays (p := p) hstops n
    rw [show Consumer.advance _ d n (Run.finalStore _) = _ from hadvance]
    exact he
  | raised _ hforce =>
    cases n with
    | zero => exact he
    | succ n =>
      obtain ⟨z', e', hadvance, hagain⟩ := he.again hf hforce
      rw [show Consumer.advance _ d (n + 1) (Run.finalStore _) = _ from hadvance]
      exact he.of_again hagain
  | tooDeep => exact absurd rfl (hdeep _)

/-- The consumer comes to the same cell in two goes as in one, be it that an error ends the first. -/
theorem Faces.split {b : Bool} {n k : Nat} (hs : Faces x d c s) (hb : x.samples.truth? = some b)
    (ht : Along p depth d (Treads p depth x) (n + k) s) (hf : Along p depth d (KeepsCounting p depth) (n + k) s)
    (hdeep : ∀ e, advance (p.runAt depth) d (n + k) s ≠ .error .tooDeep e) :
    ∃ a y y', Faces y d a (dropped (p.runAt depth) d (n + k) s) ∧
      Faces y' d a (dropped (p.runAt depth) d k (dropped (p.runAt depth) d n s)) := by
  obtain ⟨i, rest, c', m, hwalk, hi, hhalts⟩ := hs.walk hb (ht.mono (Nat.le_add_right n k))
  have hm := hwalk.faces hs
  cases rest with
  | zero =>
    obtain ⟨j, _, a, m', hwalk', -, hhalts'⟩ := hs.walk hb ht
    have hboth := hhalts'.faces (hwalk'.faces hs) hdeep
    obtain rfl : i = n := hi
    have hfirst : dropped (p.runAt depth) d i s = m := by
      have hadvance := hwalk.advance
      rw [Faces.dropped_eq (by rw [hadvance]; exact hm), hadvance]
      rfl
    have hsecond : dropped (p.runAt depth) d k m = dropped (p.runAt depth) d (i + k) s := by
      rw [hboth.dropped_eq, hwalk.advance_add]
      rw [hwalk.advance_add] at hboth
      exact hboth.dropped_eq
    rw [hfirst, hsecond, hboth.dropped_eq]
    exact ⟨a, _, _, hboth, hboth⟩
  | succ rest =>
    -- the first go did not take all its steps, so it ended as both would have
    have hboth : advance (p.runAt depth) d (n + k) s = advance (p.runAt depth) d n s := by
      rw [← hi, Nat.add_assoc, hwalk.advance_add, hwalk.advance_add, Nat.add_right_comm, hhalts.advance, hhalts.advance]
    rw [hboth] at hdeep
    have hfirst := hhalts.faces hm hdeep
    have hsecond := hhalts.stays hm (hf i (by omega) m c' hwalk.advance hm.remaining) hdeep k
    refine ⟨c', { x with steps := x.steps + i }, { x with steps := x.steps + i }, ?_, ?_⟩
    · rw [Faces.dropped_eq (hboth ▸ hfirst), hboth]
      exact hfirst
    · rw [hfirst.dropped_eq, hsecond.dropped_eq]
      exact hsecond

/-- Dropping elements came to a cell that raised an error, the first that did: the consumer stands before it, has taken a
step for every cell before it, and if elements are dropped again, the error is raised again and nothing changes. -/
structure Foiled (p : Program) (depth : Nat) (x : Consumer) (d : ConsumerId) (c : CellId) (n : Nat) (s : Store) (z : FaultId)
    (e : Store) (j : Nat) (a : CellId) : Prop where
  within : j < n
  spine : e.SpineAt c j a
  raised : ∃ m, advance (p.runAt depth) d j s = .ok () m ∧ force (p.runAt depth) a m = .error (.raised z) e
  remaining : Consumer.remaining d e = .ok (.cell a) e
  steps : e.consumers[d]? = some { x with steps := x.steps + j }
  again : ∀ i : Nat, ∃ z' e', Consumer.drop (p.runAt depth) d ((i + 1 : Nat) : Int) e = .error (.raised z') e' ∧
    e.Again a z z' e'

theorem Faces.foiled {b : Bool} {n : Nat} {z : FaultId} (hs : Faces x d c s) (hreached : s.Reached)
    (hb : x.samples.truth? = some b) (ht : Along p depth d (Treads p depth x) n s)
    (hf : Along p depth d (KeepsCounting p depth) n s) (hr : Consumer.drop (p.runAt depth) d n s = .error (.raised z) e) :
    ∃ j a, Foiled p depth x d c n s z e j a := by
  obtain ⟨k, rest, a, m, hwalk, hn, hhalts⟩ := hs.walk hb ht
  have hm := hwalk.faces hs
  have hmReached := hreached.after hwalk.runs.reaches
  rw [drop_eq] at hr
  generalize hadvance : advance (p.runAt depth) d n s = result at hhalts
  cases hhalts with
  | done =>
    rw [Run.bind_ok hadvance, hm.remaining] at hr
    cases hr
  | @stopped m' _ _ _ _ hl =>
    have he := (hm.leavesBe hl).congr (e := { m' with events := .ranOff (x.steps + k) :: m'.events }) rfl rfl
    rw [Run.bind_ok hadvance, he.remaining] at hr
    cases hr
  | raised hstep hforce hl =>
    rw [Run.bind_error hadvance] at hr
    cases hr
    have he := hm.leavesBe hl
    refine ⟨k, a, by omega, (hwalk.spine hreached).1.runs hmReached (runs_of_force_raised hforce), ⟨m, hwalk.advance, hforce⟩, he.remaining,
      he.record, fun i => ?_⟩
    obtain ⟨z', e', hagain, hsame⟩ :=
      he.again (n := i) (hf k (by omega) m a hwalk.advance hm.remaining) hforce
    refine ⟨z', e', ?_, hsame⟩
    rw [drop_eq]
    exact Run.bind_error hagain
  | tooDeep =>
    rw [Run.bind_error hadvance] at hr
    cases hr

end Consumer

/-- **A consumer drops what steps along the list drop, and an error leaves it where it arose.**  Take a new consumer of any
list of any program, on a heap of any store that runs lead to, and let it drop `n` elements.  The forces on the way come to
list nodes or raise errors, and neither read nor change the roots of the heap, what was measured of it, or its consumers;
nothing but cells stands under the roots; and where one of them raises an error, the heap that was active can count forces
then (`KeepsCounting`).  From every store that differs in nothing else — such as the one before there was the consumer — `n`
steps along the list then lead to the very cell that is left to the consumer, or raise the very error, and have run the same
thunks in the same order.  An error finds the consumer before the first cell that raised one, with a step taken for every
cell before it, and dropping again raises the error again and changes nothing.  And in two goes the consumer comes to the
same cell as in one, if none of the forces on the way runs out of depth. -/
theorem drop_leaves_what_steps_leave (p : Program) {depth known n : Nat} {h : HeapId} {samples : Value} {b : Bool}
    {origin : CellId} {d : ConsumerId} {s₀ s : Store} (hreached : s₀.Reached) (hh : h < s₀.heaps.size)
    (hb : samples.truth? = some b) (hnew : Consumer.new h samples (.cell origin) s₀ = .ok d s)
    (htreads : Consumer.Along p depth d (Consumer.Treads p depth ⟨h, samples, 0⟩) n s)
    (haloof : Consumer.Along p depth d (Aloof p depth h known) n s)
    (hcounts : Consumer.Along p depth d (KeepsCounting p depth) n s) :
    (∀ s', s.Beside h known s' → Run.EndAlike h known (Consumer.drop (p.runAt depth) d n s)
      (Sequence.drop (p.runAt depth) n (.cell origin) s')) ∧
    (known ≤ s₀.consumers.size → OnlyCells ((s₀.heap h).roots.map (·.2)) → s.Beside h known s₀) ∧
    (∀ v e, Consumer.drop (p.runAt depth) d n s = .ok v e → Consumer.remaining d e = .ok v e) ∧
    (∀ z e, Consumer.drop (p.runAt depth) d n s = .error (.raised z) e →
      ∃ j a, Consumer.Foiled p depth ⟨h, samples, 0⟩ d origin n s z e j a) ∧
    ∀ i j, i + j = n → Consumer.Along p depth d (Consumer.InDepth p depth) n s →
      let once := Consumer.dropped (p.runAt depth) d n s
      let twice := Consumer.dropped (p.runAt depth) d j (Consumer.dropped (p.runAt depth) d i s)
      ∃ a, Consumer.remaining d once = .ok (.cell a) once ∧ Consumer.remaining d twice = .ok (.cell a) twice := by
  have hmade := Consumer.made_of_new hb hnew
  have hfaces := hmade.faces hh
  have hsReached := Consumer.reached_of_new hreached hnew
  refine ⟨fun s' hs' => hfaces.endAlike hb htreads haloof hs', fun hk hroots => ⟨hmade.unheld hk, hroots⟩, fun v e hr => ?_,
    fun z e hr => hfaces.foiled hsReached hb htreads hcounts hr, fun i j hn hdeep => ?_⟩
  · rw [Consumer.drop_eq] at hr
    obtain ⟨u, m, -, hremaining⟩ := Run.bind_eq_ok hr
    obtain rfl := Consumer.remaining_ok hremaining
    exact hremaining
  · subst hn
    obtain ⟨a, y, y', hboth, hsecond⟩ := hfaces.split hb htreads hcounts (hfaces.advance_ne_tooDeep hb htreads hdeep)
    exact ⟨a, hboth.remaining, hsecond.remaining⟩

namespace Dropping
open Session (after)

/-- Makes a list of one element whose tail is an interval without bounds, which raises an error. -/
def unbounded : List Expr := [
  .apply (.heap .openNew) [.constant (.bool true)], .assign "x" (.apply (.cell .ready) [.constant (.int 7)]),
  .assign "rest" (.apply (.list .makeGenerator) [.constant .null, .constant .null]),
  .apply (.cell .ready) [.apply (.list .cons) [.lookup "x", .lookup "rest"]]]

/-- The interval that a suspended cell has for its list, if it has no bounds. -/
def unbounded? : CellState → Option Tag
  | .suspended (.intervalNode tag .null .null) => some tag
  | _ => none

theorem eq_of_unbounded? : ∀ {st : CellState} {tag : Tag}, unbounded? st = some tag →
    st = .suspended (.intervalNode tag .null .null)
  | .suspended (.intervalNode _ .null .null), _, rfl => rfl

theorem intervalNode_raises (p : Program) (run : Runner) (tag : Tag) (s : Store) :
    (Thunk.intervalNode tag .null .null).produce p run s =
      Run.raiseIn [] (.operands "-" "NoneType" "NoneType") s := rfl

theorem sampled_unbounded : (after [] unbounded).Sampled 0 :=
  .of_bound (b := true) (n := 3) (by decide +kernel) (by decide +kernel) (by decide +kernel) (by decide +kernel)

end Dropping

open Dropping Consumer Supplying Session in
/-- Of three elements that are to be dropped there is one, and behind it an error. -/
theorem drop_leaves_what_steps_leave_unbounded : ∃ d s,
    Consumer.new 0 (.bool true) (.cell 2) (after [] unbounded) = .ok d s ∧ ∃ z e,
      Consumer.drop (Program.runAt [] 1) d 3 s = .error (.raised z) e ∧
      Foiled [] 1 ⟨0, .bool true, 0⟩ d 2 3 s z e 1 1 ∧
      ∃ e', Sequence.drop (Program.runAt [] 1) 3 (.cell 2) (after [] unbounded) = .error (.raised z) e' ∧
        e'.unheld 0 0 = e.unheld 0 0 := by
  have hvalid : 0 < (after [] unbounded).heaps.size := by decide +kernel
  have hflag : (Value.bool true).truth? = some true := rfl
  obtain ⟨d, s, hnew⟩ := new_eq_ok hflag sampled_unbounded hvalid 2
  have hmade := made_of_new hflag hnew
  have hfaces := hmade.faces hvalid
  have hsampled := hmade.heapSampled sampled_unbounded hvalid
  have hstate : s.state = (after [] unbounded).state := Store.state_of_cells hmade.cells
  obtain ⟨tag, hnode⟩ := eq_of_node? (show node? ((after [] unbounded).state 2) = some (0, 1) by decide +kernel)
  obtain ⟨tag', hrest⟩ : ∃ tag', unbounded? ((after [] unbounded).state 1) = some tag' :=
    Option.isSome_iff_exists.1 (by decide +kernel)
  have hc : s.state 2 = .evaluated (.cons tag (.cell 0) (.cell 1)) := hstate ▸ hnode
  obtain ⟨m, hstep, hstepped⟩ : ∃ m, step (Program.runAt [] 1) d s = .ok true m ∧ Stepped ⟨0, .bool true, 0⟩ d 1 s m :=
    hfaces.step_moves hflag (force_evaluated hc _) (.refl 0 s) (fun _ => hsampled) (by decide)
  -- before the second element the consumer finds the interval
  have hm := hstepped.faces hfaces
  have hmState : m.state 1 = .suspended (.intervalNode tag' .null .null) :=
    (congrFun (Store.state_of_cells (hstepped.cells.trans hmade.cells)) 1).trans (eq_of_unbounded? hrest)
  have hmActive : m.active = some 0 := (hstepped.active.trans hmade.active).trans (by decide +kernel)
  obtain ⟨e, hforce, hheaps, hconsumers⟩ : ∃ e, force (Program.runAt [] 1) 1 m = .error (.raised m.faults.size) e ∧
      e.heaps = m.heaps ∧ e.consumers = m.consumers :=
    ⟨_, force_of_raises hmState hmActive (intervalNode_raises [] _ tag'), rfl, rfl⟩
  have hheap : e.heap 0 = m.heap 0 := by rw [Store.heap, Store.heap, hheaps]
  have hl : m.LeavesBe 0 e := (Store.LeavesBe.refl 0 m).congr hheaps hconsumers
  have hboth : ∀ {q : CellId → Store → Prop}, q 2 s → q 1 m → Along [] 1 d q 3 s := fun hs hm' =>
    .of_rest hfaces hs hstep (.of_error hm hm' (hm.step_raises hforce))
  have htreads : Along [] 1 d (Treads [] 1 ⟨0, .bool true, 0⟩) 3 s :=
    hboth (.of_evaluated hc (.node tag 0 1) fun _ => hsampled) (.of_raised hforce hl)
  have haloof : Along [] 1 d (Aloof [] 1 0 0) 3 s :=
    hboth (.of_evaluated hc) (.of_raises hmState hmActive (intervalNode_raises [] _ tag'))
  have hflagged : (e.heap 0).samplesForces.truth? = some false := by
    rw [hheap, hstepped.samplesForces, hmade.samplesForces]
    decide +kernel
  have hcounts : Along [] 1 d (KeepsCounting [] 1) 3 s := by
    refine hboth (fun t g z e' hs _ _ => ?_) fun t g z e' _ ha hr => ?_
    · cases hc.symm.trans hs
    · cases hforce.symm.trans hr
      cases hmActive.symm.trans ha
      exact ⟨⟨false, hflagged⟩, fun ht => by cases hflagged.symm.trans ht⟩
  obtain ⟨halike, hbeside, -, hfoiled, -⟩ :=
    drop_leaves_what_steps_leave [] (reached_after [] unbounded) hvalid hflag hnew htreads haloof hcounts
  have hdrop : Consumer.drop (Program.runAt [] 1) d (3 : Nat) s = .error (.raised m.faults.size) e := by
    rw [drop_eq]
    exact Run.bind_error ((Run.bind_ok hstep).trans (Run.bind_error (hm.step_raises hforce)))
  obtain ⟨j, a, hj⟩ := hfoiled _ _ hdrop
  have he := hm.leavesBe hl
  cases he.remaining.symm.trans hj.remaining
  obtain rfl : 1 = j := by
    have hsteps : 0 + 1 = 0 + j := congrArg Consumer.steps (Option.some.inj (he.record.symm.trans hj.steps))
    omega
  have hends := halike _ (hbeside (Nat.zero_le _) sampled_unbounded.roots)
  rw [hdrop] at hends
  refine ⟨d, s, hnew, _, _, hdrop, hj, ?_⟩
  cases hsteps : Sequence.drop (Program.runAt [] 1) (3 : Nat) (.cell 2) (after [] unbounded) with
  | ok v e' =>
    rw [hsteps] at hends
    exact hends.elim
  | error halt e' =>
    rw [hsteps] at hends
    obtain ⟨rfl, hunheld⟩ := hends
    exact ⟨e', rfl, hunheld⟩

end Retention
