import Retention.Proofs.Evolution
import Retention.Proofs.Sampling
/-!
# Composing — what computations are put together with

Whatever a program does comes down to a few things (`Run.Composed`): changes of the store that run no thunk and take no
sample, samples, forces, and calls of functions, one after the other and with errors caught in between.  What holds of
these, and of computations that are put together of ones that it holds of, so holds of every evaluation; the lemmas here
and in the next two modules show of each operation, once for all such purposes, that it is put together so.

How thunks are run stays open: of the runner nothing is assumed.
-/
namespace Retention

open Store (Step)

namespace Store

/-- The store after a sample of a heap: if the search comes to a count, the count is noted. -/
def afterSample (s : Store) (h : HeapId) : Store :=
  match s.liveCount h with
  | .ok live => s.noteLive h live
  | .error _ => s

/-- A change that runs no thunk, takes no sample and removes no iterator. -/
structure Silent (s e : Store) : Prop where
  step : Step s e
  peak : ∀ h, (e.heap h).peak = (s.heap h).peak
  samples : ∀ h, (e.heap h).samples = (s.heap h).samples
  iterators : s.iterators.size ≤ e.iterators.size

namespace Silent
variable {s e : Store}

/-- A change that leaves the heaps alone. -/
theorem of_step (h : Step s e) (hheaps : e.heaps = s.heaps) (hiterators : s.iterators.size ≤ e.iterators.size) :
    Silent s e where
  step := h
  peak g := by rw [heap, heap, hheaps]
  samples g := by rw [heap, heap, hheaps]
  iterators := hiterators

/-- A change that leaves alone what was counted of a heap's record. -/
theorem of_heaps {h : HeapId} {f : Heap → Heap} (hf : ∀ x, (f x).peak = x.peak ∧ (f x).samples = x.samples)
    (hstep : Step s e) (hheaps : e.heaps = s.heaps.modify h f) (hiterators : e.iterators = s.iterators) : Silent s e := by
  have hheap : ∀ g, e.heap g = (s.updateHeap h f).heap g := fun g => by rw [heap, heap, hheaps]; rfl
  refine ⟨hstep, fun g => ?_, fun g => ?_, Nat.le_of_eq (congrArg Array.size hiterators).symm⟩
  · rw [hheap g]
    exact field_updateHeap (fun x => (hf x).1) s h g
  · rw [hheap g]
    exact field_updateHeap (fun x => (hf x).2) s h g

theorem updateHeap {h : HeapId} {f : Heap → Heap} (hf : ∀ x, (f x).peak = x.peak ∧ (f x).samples = x.samples)
    (hstep : Step s (s.updateHeap h f)) : Silent s (s.updateHeap h f) := .of_heaps hf hstep rfl rfl

end Silent
end Store

namespace Run
variable {α β : Type}

/-! ## Silent computations -/

/-- What a computation did from a store on is a number of silent changes, and it ended in depth. -/
def Quietly (s : Store) : EStateM.Result Halt Store α → Prop
  | .ok _ e => Relation.ReflTransGen Store.Silent s e
  | .error (.raised _) e => Relation.ReflTransGen Store.Silent s e
  | .error .tooDeep _ => False

theorem Quietly.after {s m : Store} {r : EStateM.Result Halt Store α} (h : Relation.ReflTransGen Store.Silent s m)
    (hr : Quietly m r) : Quietly s r := by
  match r, hr with
  | .ok _ _, hr => exact h.trans hr
  | .error (.raised _) _, hr => exact h.trans hr

theorem quietly_bind {x : Run α} {f : α → Run β} {s m : Store} (hx : Quietly s (x m))
    (hf : ∀ a e, x m = .ok a e → Quietly e (f a e)) : Quietly s ((x >>= f) m) := by
  rw [bind_apply]
  match hr : x m with
  | .ok a e =>
    rw [hr] at hx
    exact .after hx (hf a e hr)
  | .error (.raised _) e =>
    rw [hr] at hx
    exact hx
  | .error .tooDeep e =>
    rw [hr] at hx
    exact hx.elim

theorem quietly_map (f : α → β) {x : Run α} {s m : Store} (hx : Quietly s (x m)) : Quietly s ((f <$> x) m) := by
  rw [map_apply]
  match x m, hx with
  | .ok _ _, hx => exact hx
  | .error (.raised _) _, hx => exact hx

theorem quietly_raiseIn (context : List Value) (cause : Fault) (s : Store) :
    Quietly s (raiseIn context cause s : EStateM.Result Halt Store α) :=
  .single (.of_step (.newFault s ⟨cause, context⟩) rfl (Nat.le_refl _))

theorem quietly_raise (cause : Fault) (s : Store) : Quietly s (raise cause s : EStateM.Result Halt Store α) :=
  quietly_raiseIn [] cause s

theorem quietly_raiseValue (v : Value) (s : Store) : Quietly s (raiseValue v s : EStateM.Result Halt Store α) := by
  unfold raiseValue
  split
  · exact .refl
  · exact quietly_raise _ s

theorem quietly_lacks (v : Value) (attr : String) (s : Store) :
    Quietly s (lacks v attr s : EStateM.Result Halt Store α) := quietly_raise _ s

theorem quietly_reachable (h : HeapId) (s : Store) : Quietly s (reachable h s) := by
  rw [reachable_apply]
  cases s.reachable h with
  | ok found => exact .refl
  | error v => exact quietly_lacks v _ s

theorem quietly_activeHeap (s : Store) : Quietly s (activeHeap s) := by
  rw [activeHeap_apply]
  cases s.active with
  | none => exact quietly_raise _ s
  | some h => exact .refl

/-- The truth of a value is told, or that it cannot be told is raised. -/
theorem truth_cases (v : Value) (s : Store) : (∃ b, v.truth? = some b ∧ truth v s = .ok b s) ∨
    v.truth? = none ∧ ∃ x e, truth v s = .error (.raised x) e ∧ Relation.ReflTransGen Store.Silent s e := by
  have hfault : ∀ x, Store.Silent s { s with faults := s.faults.push x } := fun x =>
    .of_step (.newFault s x) rfl (Nat.le_refl _)
  cases hv : v.truth? with
  | some b => exact .inl ⟨b, rfl, truth_apply hv s⟩
  | none =>
    refine .inr ⟨rfl, ?_⟩
    cases v with
    | interval tag lo hi =>
      have hraises : ∃ x e, lengthBetween lo hi s = .error (.raised x) e ∧ Relation.ReflTransGen Store.Silent s e := by
        unfold lengthBetween
        cases hr : Value.between? lo hi with
        | none => exact ⟨_, _, rfl, .single (hfault _)⟩
        | some r =>
          cases hn : r.length? with
          | none => exact ⟨_, _, by simp only [hn]; rfl, .single (hfault _)⟩
          | some n => simp [Value.truth?, hr, hn] at hv
      obtain ⟨x, e, hlength, hsilent⟩ := hraises
      refine ⟨x, e, ?_, hsilent⟩
      unfold truth
      rw [hv]
      exact bind_error hlength
    | _ => cases hv

/-- To tell the truth of a value changes nothing. -/
theorem truth_ok {v : Value} {s e : Store} {b : Bool} (hr : truth v s = .ok b e) : e = s := by
  rcases truth_cases v s with ⟨b', -, ht⟩ | ⟨-, x, e', ht, -⟩
  · cases ht.symm.trans hr
    rfl
  · cases ht.symm.trans hr

/-- A sample that succeeds is what the heap keeps alive, and is noted. -/
theorem sample_ok {h : HeapId} {live : Nat} {s e : Store} (hr : sample h s = .ok live e) :
    ∃ found, s.reachable h = .ok found ∧ live = found.size ∧ e = s.noteLive h live := by
  unfold sample at hr
  obtain ⟨n, m, hlive, hnote⟩ := bind_eq_ok hr
  obtain ⟨⟨found, hfound, rfl⟩, rfl⟩ := liveCount_eq_ok_iff.1 hlive
  rw [bind_ok (modify_apply _ m), bind_ok (get_apply _)] at hnote
  obtain ⟨u, m', hdiscard, hrest⟩ := bind_eq_ok hnote
  obtain ⟨b, m'', htruth, hunit⟩ := bind_eq_ok hdiscard
  cases hrest
  cases hunit
  obtain rfl := truth_ok htruth
  exact ⟨found, hfound, rfl, rfl⟩

/-- A force that is noted is counted, and perhaps the heap is sampled. -/
theorem noteForced_ok {h : HeapId} {u : Unit} {s e : Store} (hr : noteForced h s = .ok u e) :
    e = s.counted h ∨ ∃ live, e = (s.counted h).noteLive h live := by
  unfold noteForced at hr
  rw [bind_ok (modify_apply _ s), bind_ok (get_apply _)] at hr
  obtain ⟨b, m, htruth, hrest⟩ := bind_eq_ok hr
  obtain rfl := truth_ok htruth
  cases b with
  | false =>
    cases hrest
    exact .inl rfl
  | true =>
    obtain ⟨live, m, hsample, hunit⟩ := bind_eq_ok hrest
    cases hunit
    obtain ⟨found, -, -, rfl⟩ := sample_ok hsample
    exact .inr ⟨live, rfl⟩

theorem noteForced_cells {h : HeapId} {u : Unit} {s e : Store} (hr : noteForced h s = .ok u e) : e.cells = s.cells := by
  rcases noteForced_ok hr with rfl | ⟨live, rfl⟩ <;> rfl

theorem quietly_truth (v : Value) (s : Store) : Quietly s (truth v s) := by
  rcases truth_cases v s with ⟨b, -, ht⟩ | ⟨-, x, e, ht, hsilent⟩
  · rw [ht]
    exact .refl
  · rw [ht]
    exact hsilent

theorem quietly_pure (a : α) (s : Store) : Quietly s ((pure a : Run α) s) := .refl

/-- **A sample notes a count**, if there is one to be noted, and the rest is silent. -/
theorem quietly_sample (h : HeapId) (s : Store) : Quietly (s.afterSample h) (sample h s) := by
  unfold Store.afterSample Store.liveCount
  cases hf : s.reachable h with
  | ok found =>
    unfold sample
    rw [bind_ok (liveCount_eq_ok_iff.2 ⟨⟨found, hf, rfl⟩, rfl⟩), bind_ok (modify_apply _ s), bind_ok (get_apply _)]
    exact quietly_bind (quietly_bind (quietly_truth _ _) fun _ e _ => quietly_pure () e) fun _ e _ => quietly_pure _ e
  | error v =>
    refine quietly_bind (quietly_bind (quietly_reachable h s) fun _ e _ => quietly_pure _ e) fun a e hr => ?_
    obtain ⟨⟨found, hfound, -⟩, -⟩ := liveCount_eq_ok_iff.1 hr
    cases hf.symm.trans hfound

/-- **What follows a force is a sample** if the heap takes samples after forces, and otherwise it is silent. -/
theorem quietly_noteForced (h : HeapId) (s : Store) :
    Quietly (if (s.heap h).samplesForces.holds then (s.counted h).afterSample h else s.counted h) (noteForced h s) := by
  have hflag : ((s.counted h).heap h).samplesForces = (s.heap h).samplesForces :=
    Store.field_updateHeap (r := Heap.samplesForces) (f := fun x => { x with forced := x.forced + 1 }) (fun _ => rfl) s h h
  unfold noteForced
  rw [bind_ok (modify_apply _ s), bind_ok (get_apply _), hflag]
  rcases truth_cases (s.heap h).samplesForces (s.counted h) with ⟨b, hb, ht⟩ | ⟨hnone, x, e, ht, hsilent⟩
  · rw [bind_ok ht]
    cases b with
    | false =>
      rw [if_neg (by rw [Value.holds, hb]; decide)]
      exact .refl
    | true =>
      rw [if_pos (by rw [Value.holds, hb]; decide)]
      exact quietly_bind (quietly_sample h _) fun _ _ _ => .refl
  · rw [bind_error ht, if_neg (by rw [Value.holds, hnone]; decide)]
    exact hsilent

/-! ## All computations -/

/-- A computation that is put together of silent changes, samples, forces and calls. -/
inductive Composed (run : Runner) : {α : Type} → Run α → Prop
  | quiet {α : Type} {x : Run α} (silent : ∀ s, Quietly s (x s)) : Composed run x
  | tooDeep {α : Type} : Composed run (throw .tooDeep : Run α)
  | bind {α β : Type} {x : Run α} {f : α → Run β} (first : Composed run x)
    (rest : ∀ a s m, x s = .ok a m → Composed run (f a)) : Composed run (x >>= f)
  | attempt {α : Type} {x : Run α} (body : Composed run x) : Composed run (attempt x)
  | sample (h : HeapId) : Composed run (sample h)
  | force (c : CellId) : Composed run (force run c)
  | call (t : Thunk) : Composed run (run none t)

variable {run : Runner}

@[grind ←] theorem composed_pure (a : α) : Composed run (pure a : Run α) := .quiet fun _ => .refl

@[grind ←] theorem composed_reraise (e : FaultId) : Composed run (reraise e : Run α) := .quiet fun _ => .refl

@[grind ←] theorem composed_get : Composed run (get : Run Store) := .quiet fun _ => .refl

@[grind ←] theorem composed_bind {x : Run α} {f : α → Run β} (hx : Composed run x) (hf : ∀ a, Composed run (f a)) :
    Composed run (x >>= f) := .bind hx fun a _ _ _ => hf a

@[grind ←] theorem composed_discard {x : Run α} (hx : Composed run x) : Composed run (discard x) :=
  composed_bind hx fun _ => composed_pure _

@[grind ←] theorem composed_attempt {x : Run α} (hx : Composed run x) : Composed run (attempt x) := .attempt hx

@[grind ←] theorem composed_mapM {f : α → Run β} (hf : ∀ a, Composed run (f a)) (xs : List α) :
    Composed run (xs.mapM f) := by
  induction xs with
  | nil => exact composed_pure []
  | cons x xs ih =>
    rw [List.mapM_cons]
    exact composed_bind (hf x) fun b => composed_bind ih fun bs => composed_pure _

theorem composed_modifyGet {f : Store → α × Store} (h : ∀ s, Store.Silent s (f s).2) :
    Composed run (modifyGet f : Run α) := .quiet fun s => .single (h s)

theorem composed_modify {f : Store → Store} (h : ∀ s, Store.Silent s (f s)) : Composed run (modify f : Run Unit) :=
  composed_modifyGet h

/-! ## Reading the store, and errors -/

@[grind ←] theorem composed_newFault (cause : Fault) (context : List Value) : Composed run (newFault cause context) :=
  composed_modifyGet fun s => .of_step (.newFault s ⟨cause, context⟩) rfl (Nat.le_refl _)

@[grind ←] theorem composed_raiseIn (context : List Value) (cause : Fault) :
    Composed run (raiseIn context cause : Run α) := .quiet (quietly_raiseIn context cause)

@[grind ←] theorem composed_raise (cause : Fault) : Composed run (raise cause : Run α) := composed_raiseIn [] cause

@[grind ←] theorem composed_raiseValue (v : Value) : Composed run (raiseValue v : Run α) := .quiet (quietly_raiseValue v)

@[grind ←] theorem composed_freshTag : Composed run freshTag :=
  composed_modifyGet fun s => .of_step (.freshTag s) rfl (Nat.le_refl _)

@[grind ←] theorem composed_note (e : Event) : Composed run (note e) :=
  composed_modify fun s => .of_step (.logged s (e :: s.events)) rfl (Nat.le_refl _)

@[grind ←] theorem composed_cons (head tail : Value) : Composed run (cons head tail) :=
  composed_bind composed_freshTag fun _ => composed_pure _

@[grind ←] theorem composed_list (items : List Value) : Composed run (list items) :=
  composed_bind composed_freshTag fun _ => composed_pure _

@[grind ←] theorem composed_tuple (items : List Value) : Composed run (tuple items) := by unfold tuple; grind

@[grind ←] theorem composed_typeName (v : Value) : Composed run (typeName v) :=
  composed_bind composed_get fun _ => composed_pure _

@[grind ←] theorem composed_lacks (v : Value) (attr : String) : Composed run (lacks v attr : Run α) :=
  composed_bind (composed_typeName v) fun _ => composed_raise _

@[grind ←] theorem composed_told (x : Store → Except Fault α) : Composed run (told x) := by unfold told; grind

@[grind ←] theorem composed_written (v : Value) : Composed run (written v) := composed_told _

@[grind ←] theorem composed_lengthBetween (lo hi : Value) : Composed run (lengthBetween lo hi) := by
  unfold lengthBetween; grind

@[grind ←] theorem composed_truth (v : Value) : Composed run (truth v) := by unfold truth; grind

@[grind ←] theorem composed_cellOf (attr : String) (v : Value) : Composed run (cellOf attr v) := by
  unfold cellOf; grind

/-! ## Heaps -/

@[grind ←] theorem composed_activeHeap : Composed run activeHeap := .quiet quietly_activeHeap

theorem composed_register {f : Store → α} {st : Store → CellState} :
    Composed run (do let h ← activeHeap; modifyGet fun s => (f s, s.register h (st s))) := by
  refine .quiet fun s => quietly_bind (quietly_activeHeap s) fun h m hr => ?_
  obtain ⟨ha, rfl⟩ := activeHeap_ok hr
  let g : Heap → Heap := fun x =>
    { x with created := (m.heap h).created + 1, table := x.table.push m.cells.size }
  exact .single (.of_heaps (f := g) (fun _ => ⟨rfl, rfl⟩) (.newCell m h (st m) ha) rfl rfl)

@[grind ←] theorem composed_newCell (st : CellState) : Composed run (newCell st) := composed_register

@[grind ←] theorem composed_suspend (t : Thunk) : Composed run (suspend t) := composed_newCell _

@[grind ←] theorem composed_suspendSelf (thunk : CellId → Thunk) : Composed run (suspendSelf thunk) :=
  composed_register

@[grind ←] theorem composed_ready (v : Value) : Composed run (ready v) := composed_newCell _

@[grind ←] theorem composed_reachable (h : HeapId) : Composed run (reachable h) := .quiet (quietly_reachable h)

@[grind ←] theorem composed_liveCount (h : HeapId) : Composed run (liveCount h) :=
  composed_bind (composed_reachable h) fun _ => composed_pure _

@[grind ←] theorem composed_sample (h : HeapId) : Composed run (sample h) := .sample h

@[grind ←] theorem composed_collect (h : HeapId) : Composed run (collect h) := by
  refine .quiet fun s => quietly_bind (quietly_reachable h s) fun live m hr => ?_
  obtain ⟨hl, rfl⟩ := reachable_eq_ok_iff.1 hr
  have hkept : Store.Silent m (m.keepOnly h live) := .updateHeap (fun _ => ⟨rfl, rfl⟩) (.collected m h live hl)
  exact .tail (.single hkept) (.of_step (.logged _ _) rfl (Nat.le_refl _))

@[grind ←] theorem composed_newHeap (traces samplesForces : Value) (temporary : Bool) :
    Composed run (newHeap { traces, samplesForces, temporary }) := by
  refine composed_modifyGet fun s => ⟨.newHeap s traces samplesForces temporary, fun g => ?_, fun g => ?_, Nat.le_refl _⟩
  · exact Store.field_pushHeap (r := Heap.peak) (x := { traces, samplesForces, temporary }) rfl s g
  · exact Store.field_pushHeap (r := Heap.samples) (x := { traces, samplesForces, temporary }) rfl s g

@[grind ←] theorem composed_enter (h : HeapId) : Composed run (enter h) := by
  refine composed_bind (composed_modify fun s => ?_) fun _ => composed_note _
  let f : Heap → Heap := fun x => { x with contexts := s.active :: x.contexts }
  exact .of_heaps (f := f) (fun _ => ⟨rfl, rfl⟩) (.entered s h) rfl rfl

@[grind ←] theorem composed_close (h : HeapId) : Composed run (close h) := by
  refine composed_bind composed_get fun s => composed_bind (composed_note _) fun _ => composed_modify fun s => ?_
  exact .updateHeap (fun _ => ⟨rfl, rfl⟩) (.closed s h)

@[grind ←] theorem composed_leave (h : HeapId) : Composed run (leave h) := by
  refine composed_bind (composed_close h) fun _ => .quiet fun s => ?_
  rw [bind_ok (get_apply s)]
  cases hc : (s.heap h).contexts with
  | nil => exact quietly_raise _ s
  | cons previous contexts =>
    let f : Heap → Heap := fun x => { x with contexts := contexts }
    exact .single (.of_heaps (f := f) (fun _ => ⟨rfl, rfl⟩) (.left s h previous contexts hc) rfl rfl)

@[grind ←] theorem composed_checkKey (k : Value) : Composed run (checkKey k) := by unfold checkKey; grind

@[grind ←] theorem composed_setRoot (h : HeapId) (name v : Value) : Composed run (setRoot h name v) := by
  refine composed_bind (composed_checkKey name) fun _ => composed_modify fun s => ?_
  exact .updateHeap (fun _ => ⟨rfl, rfl⟩) (.rooted s h name v)

@[grind ←] theorem composed_root (h : HeapId) (name : Value) : Composed run (root h name) := by unfold root; grind

@[grind ←] theorem composed_removeRoot (h : HeapId) (name : Value) : Composed run (removeRoot h name) := by
  refine composed_bind (composed_discard (composed_root h name)) fun _ => composed_modify fun s => ?_
  exact .updateHeap (fun _ => ⟨rfl, rfl⟩) (.unrooted s h name)

/-! ## Forcing -/

@[grind ←] theorem composed_force (c : CellId) : Composed run (force run c) := .force c

@[grind ←] theorem composed_forceValue (v : Value) : Composed run (forceValue run v) :=
  composed_bind (composed_cellOf "state" v) composed_force

theorem composed_call (run : Runner) (t : Thunk) : Composed run (run none t) := .call t

end Run
end Retention
