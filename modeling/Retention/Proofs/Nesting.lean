import Retention.Proofs.Homonyms
/-!
# Nesting — heaps are left as they were entered

There is no one stack of the heaps that are open: each heap remembers, for each time it was entered, which heap was
active before, and a heap can be entered again while it is open.  What is well nested (`Moment.Nested`) leaves every
heap that it enters, with whatever else happens in between.  Then each heap ends with the contexts that it began with
(`Moment.Nested.stationary`), so the context that is taken off when a heap is left is the one that was put there by the
entry that it matches.

A computation nests (`Run.Nests`) if what it does is well nested, also if it raises an error.  That is kept by putting
computations together, by forces, and by blocks (`Run.inside`).
-/
namespace Retention

open Store (Step)

/-! ## What is well nested -/

namespace Moment

/-- A transition that neither enters a heap nor leaves one: the active heap stays, and so do the contexts of every
heap. -/
structure Stationary (m m' : Moment) : Prop where
  active : m'.store.active = m.store.active
  contexts : ∀ h, (m'.store.heap h).contexts = (m.store.heap h).contexts
  size_le : m.store.heaps.size ≤ m'.store.heaps.size

/-- What well-nested transitions lead to: heaps are left in the reverse order of their being entered, and everything
else neither enters a heap nor leaves one. -/
inductive Nested : Moment → Moment → Prop
  | refl (m : Moment) : Nested m m
  | other {m a b : Moment} (before : Nested m a) (next : Next a b) (stays : Stationary a b) : Nested m b
  /-- A heap of the store is entered, be it open already or not, and left again. -/
  | block {m a b : Moment} {h : HeapId} (before : Nested m a) (there : h < a.store.heaps.size)
    (inside : Nested ⟨a.store.entered h, a.pending⟩ b) : Nested m ⟨Run.finalStore (Run.leave h b.store), b.pending⟩

end Moment

namespace Store
variable {s e : Store} {h : HeapId}

/-- The store after it was logged that a heap closes. -/
def closing (s : Store) (h : HeapId) : Store :=
  { s with events := .closing (s.heap h).created (s.heap h).forced (s.heap h).peak :: s.events }

/-- The store after a heap was left, for what was active before. -/
def exited (s : Store) (h : HeapId) (previous : Option HeapId) (contexts : List (Option HeapId)) : Store :=
  ((s.closing h).closed h).left h previous contexts

theorem heap_entered (hh : h < s.heaps.size) :
    (s.entered h).heap h = { s.heap h with contexts := s.active :: (s.heap h).contexts } := heap_updateHeap hh _

theorem heap_entered_of_ne {g : HeapId} (hg : g ≠ h) : (s.entered h).heap g = s.heap g :=
  heap_updateHeap_of_ne s hg _

theorem heap_closed (hh : h < s.heaps.size) :
    ((s.closing h).closed h).heap h = { s.heap h with roots := [], table := #[] } :=
  heap_updateHeap (s := s.closing h) hh _

theorem heap_exited (hh : h < s.heaps.size) (previous : Option HeapId) (contexts : List (Option HeapId)) :
    (s.exited h previous contexts).heap h = { s.heap h with roots := [], table := #[], contexts := contexts } := by
  have hsize : h < ((s.closing h).closed h).heaps.size := (size_updateHeap (s.closing h) h _).symm ▸ hh
  exact (heap_updateHeap hsize _).trans (by rw [heap_closed hh])

theorem heap_exited_of_ne {g : HeapId} (hg : g ≠ h) (previous : Option HeapId) (contexts : List (Option HeapId)) :
    (s.exited h previous contexts).heap g = s.heap g :=
  (heap_updateHeap_of_ne ((s.closing h).closed h) hg _).trans (heap_updateHeap_of_ne (s.closing h) hg _)

theorem size_exited (s : Store) (h : HeapId) (previous : Option HeapId) (contexts : List (Option HeapId)) :
    (s.exited h previous contexts).heaps.size = s.heaps.size :=
  (size_updateHeap ..).trans (size_updateHeap ..)

/-- Only a heap that is there has contexts. -/
theorem lt_of_contexts {previous : Option HeapId} {contexts : List (Option HeapId)}
    (hc : (s.heap h).contexts = previous :: contexts) : h < s.heaps.size := by
  refine Nat.lt_of_not_le fun hle => ?_
  rw [heap, Array.getElem?_eq_none hle] at hc
  cases hc

theorem contexts_closed {previous : Option HeapId} {contexts : List (Option HeapId)}
    (hc : (s.heap h).contexts = previous :: contexts) :
    (((s.closing h).closed h).heap h).contexts = previous :: contexts := by
  rw [heap_closed (lt_of_contexts hc)]
  exact hc

/-- **A heap that was entered is left without an error.** -/
theorem leave_apply {previous : Option HeapId} {contexts : List (Option HeapId)}
    (hc : (s.heap h).contexts = previous :: contexts) :
    Run.leave h s = .ok () (s.exited h previous contexts) := by
  unfold Run.leave
  rw [Run.bind_ok (show Run.close h s = .ok () ((s.closing h).closed h) from rfl), Run.bind_ok (Run.get_apply _),
    contexts_closed hc]
  rfl

/-- A heap was left in the second store, and the third is what came of it, if the first is the one in which it was
entered: what was active then is active again, and the heap has neither roots nor a table, but the counters, the samples
and the flags that it had.  Nothing else changed. -/
structure Restored (h : HeapId) (s e f : Store) : Prop where
  active : f.active = s.active
  heap : f.heap h = { e.heap h with roots := [], table := #[], contexts := (s.heap h).contexts }
  others : ∀ g ≠ h, f.heap g = e.heap g
  size : f.heaps.size = e.heaps.size
  cells : f.cells = e.cells

end Store

open Store (Restored)

namespace Moment
variable {m m' m'' : Moment}

namespace Stationary

theorem refl (m : Moment) : Stationary m m := ⟨rfl, fun _ => rfl, Nat.le_refl _⟩

theorem trans (hm : Stationary m m') (hm' : Stationary m' m'') : Stationary m m'' where
  active := hm'.active.trans hm.active
  contexts h := (hm'.contexts h).trans (hm.contexts h)
  size_le := Nat.le_trans hm.size_le hm'.size_le

theorem of_heaps {s e : Store} {k l : List Frame} (hactive : e.active = s.active) (hheaps : e.heaps = s.heaps) :
    Stationary ⟨s, k⟩ ⟨e, l⟩ where
  active := hactive
  contexts h := by rw [Store.heap, Store.heap, hheaps]
  size_le := Nat.le_of_eq (congrArg Array.size hheaps.symm)

theorem updateHeap {f : Heap → Heap} (hf : ∀ x, (f x).contexts = x.contexts) (s : Store) (h : HeapId)
    (k l : List Frame) : Stationary ⟨s, k⟩ ⟨s.updateHeap h f, l⟩ where
  active := rfl
  contexts := Store.field_updateHeap hf s h
  size_le := Nat.le_of_eq (Store.size_updateHeap s h f).symm

theorem register (s : Store) (h : HeapId) (st : CellState) (k l : List Frame) :
    Stationary ⟨s, k⟩ ⟨s.register h st, l⟩ := by
  let made : Store := { s with cells := s.cells.push ⟨h, (s.heap h).created + 1, st, st⟩ }
  have hmade : Stationary ⟨s, k⟩ ⟨made, k⟩ := of_heaps rfl rfl
  refine hmade.trans (updateHeap ?_ made h k l)
  exact fun _ => rfl

theorem finished (s : Store) (c : CellId) (h : HeapId) (v : Value) (k l : List Frame) :
    Stationary ⟨s, k⟩ ⟨s.finished c h v, l⟩ := by
  let valued := (s.recorded (.returned (some c) v)).setState c (.evaluated v)
  have hvalued : Stationary ⟨s, k⟩ ⟨valued, k⟩ := of_heaps rfl rfl
  refine hvalued.trans (updateHeap ?_ valued h k l)
  exact fun _ => rfl

end Stationary

/-- A change that runs no thunk is stationary, but for those that enter or leave a heap. -/
theorem stationary_of_step {s e : Store} (k : List Frame) (hstep : Step s e) :
    Stationary ⟨s, k⟩ ⟨e, k⟩ ∨ (∃ h, e = s.entered h) ∨
      ∃ h previous contexts, (s.heap h).contexts = previous :: contexts ∧ e = s.left h previous contexts := by
  cases hstep with
  | entered h => exact .inr (.inl ⟨h, rfl⟩)
  | left h previous contexts entry => exact .inr (.inr ⟨h, previous, contexts, entry, rfl⟩)
  | newHeap traces samplesForces temporary =>
    let made : Heap := { traces, samplesForces, temporary }
    refine .inl ⟨rfl, Store.field_pushHeap (r := Heap.contexts) (x := made) rfl s, ?_⟩
    rw [Array.size_push]
    exact Nat.le_succ _
  | newCell h st => exact .inl (.register s h st k k)
  | closed h | sampled h | collected h | rooted h | unrooted h =>
    refine .inl (.updateHeap ?_ s h k k)
    exact fun _ => rfl
  | _ => exact .inl (.of_heaps rfl rfl)

/-- **Every transition is stationary, but for those that enter or leave a heap.** -/
theorem Next.stationary (hnext : Next m m') : Stationary m m' ∨ (∃ h, m'.store = m.store.entered h) ∨
    ∃ h previous contexts, (m.store.heap h).contexts = previous :: contexts ∧
      m'.store = m.store.left h previous contexts := by
  cases hnext with
  | change k hstep => exact stationary_of_step k hstep
  | finished s k c h v => exact .inl (.finished s c h v _ k)
  | _ => exact .inl (.of_heaps rfl rfl)

theorem Proceeds.placed (hm : Proceeds ⟨{}, []⟩ m) : m.Placed := by
  cases hm with
  | refl => exact fun h ha => by cases ha
  | tail _ hlast => exact hlast.2

theorem Stationary.placed (hm : Stationary m m') (hp : m.Placed) : m'.Placed := fun h ha =>
  Nat.lt_of_lt_of_le (hp h (hm.active.symm.trans ha)) hm.size_le

/-- A stretch that keeps the contexts ends with the context of the entry before it still on top. -/
theorem Stationary.contexts_entered {s : Store} {h : HeapId} {k : List Frame} (hh : h < s.heaps.size)
    (hm : Stationary ⟨s.entered h, k⟩ m) : (m.store.heap h).contexts = s.active :: (s.heap h).contexts := by
  rw [hm.contexts h, Store.heap_entered hh]

namespace Nested

theorem trans (hm : Nested m m') (hm' : Nested m' m'') : Nested m m'' := by
  induction hm' with
  | refl => exact hm
  | other _ hnext hstays ih => exact .other (ih hm) hnext hstays
  | block _ hthere hinside ih _ => exact .block (ih hm) hthere hinside

theorem of_next (hnext : Next m m') (hstays : Stationary m m') : Nested m m' := .other (.refl m) hnext hstays

theorem of_step {s e : Store} (k : List Frame) (hstep : Step s e) (hstays : Stationary ⟨s, k⟩ ⟨e, k⟩) :
    Nested ⟨s, k⟩ ⟨e, k⟩ := of_next (.change k hstep) hstays

/-- **What is well nested is stationary as a whole**: each heap ends with the contexts that it began with. -/
theorem stationary (hn : Nested m m') : Stationary m m' := by
  induction hn with
  | refl m => exact .refl m
  | other _ _ hstays ih => exact ih.trans hstays
  | @block m a b h _ hthere _ ih hinside =>
    have hcontexts := hinside.contexts_entered hthere
    rw [Store.leave_apply hcontexts]
    refine ih.trans ⟨rfl, fun g => ?_, ?_⟩
    · by_cases hg : g = h
      · subst hg
        rw [show Run.finalStore _ = b.store.exited g a.store.active _ from rfl,
          Store.heap_exited (Store.lt_of_contexts hcontexts)]
      · rw [show Run.finalStore _ = b.store.exited h a.store.active _ from rfl, Store.heap_exited_of_ne hg]
        exact (hinside.contexts g).trans (congrArg Heap.contexts (Store.heap_entered_of_ne hg))
    · refine Nat.le_trans ?_ (Nat.le_of_eq (Store.size_exited b.store h _ _).symm)
      exact Nat.le_trans (Nat.le_of_eq (Store.size_updateHeap a.store h _).symm) hinside.size_le

/-- **The exit that matches an entry succeeds, and restores what was active before the entry.** -/
theorem leave {s e : Store} {h : HeapId} {k l : List Frame} (hh : h < s.heaps.size)
    (hn : Nested ⟨s.entered h, k⟩ ⟨e, l⟩) :
    ∃ f, Run.leave h e = .ok () f ∧ Restored h s e f := by
  have hcontexts := hn.stationary.contexts_entered hh
  refine ⟨_, Store.leave_apply hcontexts, rfl, Store.heap_exited (Store.lt_of_contexts hcontexts) _ _, fun g hg => ?_, ?_,
    rfl⟩
  · exact Store.heap_exited_of_ne hg _ _
  · exact Store.size_exited e h _ _

/-- What is well nested makes no heap active before it is there. -/
theorem proceeds (hn : Nested m m') (hp : m.Placed) : Proceeds m m' := by
  induction hn with
  | refl => exact .refl
  | other hbefore hnext hstays ih => exact (ih hp).tail ⟨hnext, hstays.placed (hbefore.stationary.placed hp)⟩
  | @block m a b h hbefore hthere hinside ih ihInside =>
    have ha := hbefore.stationary.placed hp
    have hentered : Placed ⟨a.store.entered h, a.pending⟩ := fun g hg => by
      cases hg
      exact (Store.size_updateHeap a.store h _).symm ▸ hthere
    have hb := hinside.stationary.placed hentered
    have hcontexts := hinside.stationary.contexts_entered hthere
    have hend := (Nested.block hbefore hthere hinside).stationary.placed hp
    have hcloses : Stationary ⟨b.store.closing h, b.pending⟩ ⟨(b.store.closing h).closed h, b.pending⟩ := by
      refine .updateHeap ?_ (b.store.closing h) h _ _
      exact fun _ => rfl
    rw [Store.leave_apply hcontexts] at hend ⊢
    -- to leave a heap is to log it, to close the heap, and to make active what was active before
    have hlogged : Next b ⟨b.store.closing h, b.pending⟩ := .change _ (.logged b.store _)
    have hclosed : Next ⟨b.store.closing h, b.pending⟩ ⟨(b.store.closing h).closed h, b.pending⟩ :=
      .change _ (.closed (b.store.closing h) h)
    refine ((ih hp).tail ⟨.change _ (.entered a.store h), hentered⟩).trans ((ihInside hentered).trans ?_)
    refine .head ⟨hlogged, hb⟩ (.head ⟨hclosed, hcloses.placed hb⟩ (.single ⟨?_, hend⟩))
    exact .change _ (.left ((b.store.closing h).closed h) h _ _ (Store.contexts_closed hcontexts))

end Nested
end Moment

/-! ## Computations that nest -/

open Moment (Nested Stationary)

namespace Run
variable {α β : Type} {n : Nat}

/-- What a computation did from a store on is well nested, if it is over. -/
def NestsAt (s : Store) : EStateM.Result Halt Store α → Prop
  | .ok _ e => ∀ k, Nested ⟨s, k⟩ ⟨e, k⟩
  | .error (.raised _) e => ∀ k, Nested ⟨s, k⟩ ⟨e, k⟩
  | .error .tooDeep _ => True

/-- From every store with at least so many heaps, what a computation does is well nested. -/
def Nests (n : Nat) (x : Run α) : Prop := ∀ s : Store, n ≤ s.heaps.size → NestsAt s (x s)

theorem NestsAt.after {s m : Store} {r : EStateM.Result Halt Store α} (hn : ∀ k, Nested ⟨s, k⟩ ⟨m, k⟩)
    (hr : NestsAt m r) : NestsAt s r := by
  match r, hr with
  | .ok _ _, hr => exact fun k => (hn k).trans (hr k)
  | .error (.raised _) _, hr => exact fun k => (hn k).trans (hr k)
  | .error .tooDeep _, _ => trivial

theorem nestsAt_bind {x : Run α} {f : α → Run β} {s : Store} (hx : NestsAt s (x s))
    (hf : ∀ a m, x s = .ok a m → s.heaps.size ≤ m.heaps.size → NestsAt m (f a m)) : NestsAt s ((x >>= f) s) := by
  rw [bind_apply]
  match hr : x s with
  | .ok a m =>
    rw [hr] at hx
    exact .after hx (hf a m hr (hx []).stationary.size_le)
  | .error (.raised _) m => rw [hr] at hx; exact hx
  | .error .tooDeep m => trivial

theorem nestsAt_map {x : Run α} {f : α → β} {s m : Store} (hx : NestsAt s (x m)) : NestsAt s ((f <$> x) m) := by
  rw [map_apply]
  match x m, hx with
  | .ok _ _, hx => exact hx
  | .error (.raised _) _, hx => exact hx
  | .error .tooDeep _, hx => exact hx

@[grind ←] theorem nests_bind {x : Run α} {f : α → Run β} (hx : Nests n x) (hf : ∀ a, Nests n (f a)) :
    Nests n (x >>= f) :=
  fun s hs => nestsAt_bind (hx s hs) fun a m _ hle => hf a m (Nat.le_trans hs hle)

@[grind ←] theorem nests_pure (a : α) : Nests n (pure a : Run α) := fun _ _ _ => .refl _

@[grind ←] theorem nests_reraise (e : FaultId) : Nests n (reraise e : Run α) := fun _ _ _ => .refl _

@[grind ←] theorem nests_tooDeep : Nests n (throw .tooDeep : Run α) := fun _ _ => trivial

@[grind ←] theorem nests_get : Nests n (get : Run Store) := fun _ _ _ => .refl _

@[grind ←] theorem nests_discard {x : Run α} (hx : Nests n x) : Nests n (discard x) :=
  nests_bind hx fun _ => nests_pure _

@[grind ←] theorem nests_attempt {x : Run α} (hx : Nests n x) : Nests n (attempt x) := by
  intro s hs
  have h := hx s hs
  unfold attempt
  match x s, h with
  | .ok _ _, h => exact h
  | .error (.raised _) _, h => exact h
  | .error .tooDeep _, h => exact h

theorem nests_modifyGet {f : Store → α × Store} (hstep : ∀ s, Step s (f s).2)
    (hstays : ∀ s k, Stationary ⟨s, k⟩ ⟨(f s).2, k⟩) : Nests n (modifyGet f : Run α) :=
  fun s _ k => .of_step k (hstep s) (hstays s k)

theorem nests_modify {f : Store → Store} (hstep : ∀ s, Step s (f s)) (hstays : ∀ s k, Stationary ⟨s, k⟩ ⟨f s, k⟩) :
    Nests n (modify f : Run Unit) := fun s _ k => .of_step k (hstep s) (hstays s k)

@[grind ←] theorem nests_newFault (cause : Fault) (context : List Value) : Nests n (newFault cause context) :=
  nests_modifyGet (fun s => .newFault s ⟨cause, context⟩) fun _ _ => .of_heaps rfl rfl

@[grind ←] theorem nests_raiseIn (context : List Value) (cause : Fault) : Nests n (raiseIn context cause : Run α) :=
  nests_bind (nests_newFault cause context) nests_reraise

@[grind ←] theorem nests_raise (cause : Fault) : Nests n (raise cause : Run α) := nests_raiseIn [] cause

@[grind ←] theorem nests_raiseValue (v : Value) : Nests n (raiseValue v : Run α) := by unfold raiseValue; grind

@[grind ←] theorem nests_note (e : Event) : Nests n (note e) :=
  nests_modify (fun s => .logged s (e :: s.events)) fun _ _ => .of_heaps rfl rfl

@[grind ←] theorem nests_typeName (v : Value) : Nests n (typeName v) := by unfold typeName; grind

@[grind ←] theorem nests_lacks (v : Value) (attr : String) : Nests n (lacks v attr : Run α) := by unfold lacks; grind

@[grind ←] theorem nests_lengthBetween (lo hi : Value) : Nests n (lengthBetween lo hi) := by
  unfold lengthBetween; grind

@[grind ←] theorem nests_truth (v : Value) : Nests n (truth v) := by unfold truth; grind

@[grind ←] theorem nests_activeHeap : Nests n activeHeap := by unfold activeHeap; grind

/-! ## Making, rooting, sampling and collecting -/

@[grind ←] theorem nests_newCell (st : CellState) : Nests n (newCell st) := by
  intro s hs
  refine nestsAt_bind (nests_activeHeap s hs) fun h m hr _ => ?_
  obtain ⟨ha, rfl⟩ := activeHeap_ok hr
  exact fun k => .of_step k (.newCell m h st ha) (.register m h st k k)

@[grind ←] theorem nests_reachable (h : HeapId) : Nests n (reachable h) := by unfold reachable; grind

@[grind ←] theorem nests_liveCount (h : HeapId) : Nests n (liveCount h) := by unfold liveCount; grind

@[grind ←] theorem nests_sample (h : HeapId) : Nests n (sample h) := by
  intro s hs
  refine nestsAt_bind (nests_liveCount h s hs) fun live m hr _ => ?_
  obtain ⟨⟨found, hl, rfl⟩, rfl⟩ := liveCount_eq_ok_iff.1 hr
  have hstays : ∀ k, Stationary ⟨m, k⟩ ⟨m.noteLive h found.size, k⟩ := fun k => by
    refine .updateHeap ?_ m h k k
    exact fun _ => rfl
  refine nestsAt_bind (fun k => .of_step k (.sampled m h found hl) (hstays k)) fun _ e _ hle => ?_
  exact (by grind : Nests n _) e (Nat.le_trans hs hle)

theorem nestsAt_noteForced (h : HeapId) (s : Store) : NestsAt (s.counted h) (noteForced h s) := by
  have hrest : Nests 0 (do if ← truth ((← get).heap h).samplesForces then discard (sample h)) := by grind
  unfold noteForced
  rw [bind_ok (modify_apply _ s)]
  exact hrest (s.counted h) (Nat.zero_le _)

@[grind ←] theorem nests_collect (h : HeapId) : Nests n (collect h) := by
  intro s hs
  refine nestsAt_bind (nests_reachable h s hs) fun live m hr _ => ?_
  obtain ⟨hl, rfl⟩ := reachable_eq_ok_iff.1 hr
  have hstays : ∀ k, Stationary ⟨m, k⟩ ⟨m.keepOnly h live, k⟩ := fun k => by
    refine .updateHeap ?_ m h k k
    exact fun _ => rfl
  rw [bind_ok (get_apply m)]
  refine nestsAt_bind (fun k => .of_step k (.collected m h live hl) (hstays k)) fun _ e _ hle => ?_
  exact (by grind : Nests n _) e (Nat.le_trans hs hle)

@[grind ←] theorem nests_setRoot (h : HeapId) (name v : Value) : Nests n (setRoot h name v) := by
  have hcheck : Nests n (checkKey name) := by unfold checkKey; grind
  refine nests_bind hcheck fun _ => nests_modify (fun s => .rooted s h name v) fun s k => ?_
  refine .updateHeap ?_ s h k k
  exact fun _ => rfl

/-! ## Forces and blocks -/

/-- **A force nests if its thunk does.** -/
theorem nests_force {run : Runner} {c : CellId}
    (hr : ∀ t, ∃ body, Nests n body ∧ run (some c) t = turn (some c) t body) : Nests n (force run c) := by
  intro s hs
  cases hstate : s.state c with
  | evaluated v =>
    rw [force_apply, hstate]
    exact nests_pure v s hs
  | failed error =>
    rw [force_apply, hstate]
    exact nests_raiseValue error s hs
  | inProgress t =>
    rw [force_apply, hstate]
    exact nests_raiseIn _ _ s hs
  | suspended t =>
    cases ha : s.active with
    | none =>
      rw [force_apply, hstate, ha]
      exact nests_raise _ s hs
    | some h =>
      obtain ⟨body, hb, hbody⟩ := hr t
      have hrun := hb (s.began c h t) hs
      have hbegan : ∀ k, Nested ⟨s, k⟩ ⟨s.began c h t, .force c h :: k⟩ := fun k =>
        .of_next (.force s k c h t hstate ha) (.of_heaps rfl rfl)
      rw [force_of_turn hstate ha hbody]
      match body (s.began c h t), hrun with
      | .ok v e, hrun =>
        have hover : ∀ k, Nested ⟨s, k⟩ ⟨e.finished c h v, k⟩ := fun k =>
          ((hbegan k).trans (hrun _)).trans (.of_next (.finished e k c h v) (.finished e c h v _ k))
        have hnote := nestsAt_noteForced h ((e.recorded (.returned (some c) v)).setState c (.evaluated v))
        exact .after hover (nestsAt_map (f := fun _ => v) hnote)
      | .error (.raised x) e, hrun =>
        exact fun k => ((hbegan k).trans (hrun _)).trans (.of_next (.aborted e k c h x) (.of_heaps rfl rfl))
      | .error .tooDeep e, _ => trivial

/-- Enters a heap for the time of a computation, and leaves it however that ends. -/
def inside (h : HeapId) (body : Run α) : Run α := do
  enter h
  let result ← attempt body
  leave h
  match result with
  | .ok a => return a
  | .error e => reraise e

end Run

/-- The store that the body of a block starts from. -/
def Store.opened (s : Store) (h : HeapId) : Store := { s.entered h with events := .opened :: s.events }

namespace Moment
variable {s e : Store} {h : HeapId} {k l : List Frame}

theorem Nested.of_opened (hn : Nested ⟨s.opened h, k⟩ ⟨e, l⟩) : Nested ⟨s.entered h, k⟩ ⟨e, l⟩ :=
  (Nested.of_step k (.logged (s.entered h) (.opened :: s.events)) (.of_heaps rfl rfl)).trans hn

end Moment

namespace Run
variable {α : Type} {n : Nat} {s e f : Store} {h : HeapId} {body : Run α}

/-- A block that is left without an error ends as its body does. -/
theorem inside_ok {a : α} (hbody : body (s.opened h) = .ok a e) (hl : leave h e = .ok () f) :
    inside h body s = .ok a f := by
  have hattempt : attempt body (s.opened h) = .ok (.ok a) e := by rw [attempt_apply, hbody]
  unfold inside
  rw [bind_ok (show enter h s = .ok () (s.opened h) from rfl), bind_ok hattempt, bind_ok hl]
  rfl

theorem inside_raised {x : FaultId} (hbody : body (s.opened h) = .error (.raised x) e) (hl : leave h e = .ok () f) :
    inside h body s = .error (.raised x) f := by
  have hattempt : attempt body (s.opened h) = .ok (.error x) e := by rw [attempt_apply, hbody]
  unfold inside
  rw [bind_ok (show enter h s = .ok () (s.opened h) from rfl), bind_ok hattempt, bind_ok hl]
  rfl

/-- **A block nests if its body does.** -/
@[grind ←] theorem nests_inside (hh : h < n) (hb : Nests n body) : Nests n (inside h body) := by
  intro s hs
  have hthere : h < s.heaps.size := Nat.lt_of_lt_of_le hh hs
  have hrun := hb (s.opened h) ((Store.size_updateHeap s h _).symm ▸ hs)
  have hblock : ∀ e, (∀ k, Nested ⟨s.opened h, k⟩ ⟨e, k⟩) →
      ∃ f, leave h e = .ok () f ∧ ∀ k, Nested ⟨s, k⟩ ⟨f, k⟩ := fun e he => by
    obtain ⟨f, hleave, -⟩ := (he []).of_opened.leave hthere
    refine ⟨f, hleave, fun k => ?_⟩
    have hover := Nested.block (.refl ⟨s, k⟩) hthere (he k).of_opened
    rwa [hleave] at hover
  match hend : body (s.opened h), hrun with
  | .ok a e, hrun =>
    obtain ⟨f, hleave, hf⟩ := hblock e hrun
    rw [inside_ok hend hleave]
    exact hf
  | .error (.raised x) e, hrun =>
    obtain ⟨f, hleave, hf⟩ := hblock e hrun
    rw [inside_raised hend hleave]
    exact hf
  | .error .tooDeep e, _ =>
    have hattempt : attempt body (s.opened h) = .error .tooDeep e := by rw [attempt_apply, hend]
    unfold inside
    rw [bind_ok (show enter h s = .ok () (s.opened h) from rfl), bind_error hattempt]
    trivial

end Run

/-- A scenario runs in a block over a new heap. -/
theorem Scenario.within_eq {α : Type} (traces : Value) (body : HeapId → Run α) : within traces body = (do
    let h ← Run.newHeap { traces := traces, temporary := true }
    Run.inside h (body h)) := rfl

open Moment (Next Proceeds) in
/-- **Heap contexts nest.**  Every transition enters a heap, takes off the latest context of a heap, or does neither.
Where a heap is entered, be it open already or not, and what happens then is well nested, leaving it raises no error:
it makes active what was active before it was entered, and empties the roots and the table of the heap, which keeps its
counters and samples, and nothing else changes.  No address that the heap gives later is one that it gave before.  So a
block over a heap ends as its body does, with a value or with an error, and the heap is left in both cases. -/
theorem exits_match_entries :
    (∀ m m', Next m m' → Stationary m m' ∨ (∃ h, m'.store = m.store.entered h) ∨
      ∃ h previous contexts, (m.store.heap h).contexts = previous :: contexts ∧
        m'.store = m.store.left h previous contexts) ∧
    (∀ s e h k l, h < s.heaps.size → Nested ⟨s.entered h, k⟩ ⟨e, l⟩ →
      ∃ f, Run.leave h e = .ok () f ∧ Restored h s e f ∧
        (Proceeds ⟨{}, []⟩ ⟨s, k⟩ → ∀ m, Proceeds ⟨f, l⟩ m →
          Set.InjOn m.store.address {c | m.store.home? c = some h})) ∧
    (∀ {α : Type} (n : Nat) (body : Run α), body.Nests n → ∀ s h, n ≤ s.heaps.size → h < s.heaps.size →
      (∀ a e, body (s.opened h) = .ok a e → ∃ f, Run.inside h body s = .ok a f ∧ Restored h s e f) ∧
      (∀ x e, body (s.opened h) = .error (.raised x) e →
        ∃ f, Run.inside h body s = .error (.raised x) f ∧ Restored h s e f)) := by
  refine ⟨fun m m' hnext => hnext.stationary, fun s e h k l hh hn => ?_, fun n body hb s h hs hh => ?_⟩
  · obtain ⟨f, hleave, hrestored⟩ := hn.leave hh
    refine ⟨f, hleave, hrestored, fun hs m hm => ?_⟩
    -- addresses are not given twice in any run that makes no heap active before it is there
    have hover : Nested ⟨s, k⟩ ⟨f, l⟩ := by
      have hblock := Nested.block (.refl ⟨s, k⟩) hh hn
      rwa [hleave] at hblock
    have hall : Proceeds ⟨{}, []⟩ m := (hs.trans (hover.proceeds hs.placed)).trans hm
    exact hall.balanced.store.injOn_address h
  · have hrun := hb (s.opened h) ((Store.size_updateHeap s h _).symm ▸ hs)
    refine ⟨fun a e hend => ?_, fun x e hend => ?_⟩
    · rw [hend] at hrun
      obtain ⟨f, hleave, hrestored⟩ := (hrun []).of_opened.leave hh
      exact ⟨f, Run.inside_ok hend hleave, hrestored⟩
    · rw [hend] at hrun
      obtain ⟨f, hleave, hrestored⟩ := (hrun []).of_opened.leave hh
      exact ⟨f, Run.inside_raised hend hleave, hrestored⟩

namespace Nesting
open Run

/-- Two heaps that are open, the second within the first. -/
def twoOpen : Store := finalStore ((do enter (← newHeap {}); enter (← newHeap {}) : Run Unit) {})

/-- Runs every thunk by raising an error. -/
def failing : Runner := fun owner t => turn owner t (raise .tooLong)

/-- On the first of two heaps: makes a cell and roots it, makes another on the second heap, and forces one that fails. -/
def busy : Run Value := do
  setRoot 0 (.str "page") (.cell (← newCell (.evaluated (.int 7))))
  discard (inside 1 (newCell (.evaluated (.int 8))))
  force failing (← newCell (.suspended (.intervalNode 0 (.int 7) (.int 8))))

theorem nests_busy : busy.Nests 2 := by
  have hforce : ∀ c, (force failing c).Nests 2 := fun c => nests_force fun t => ⟨_, nests_raise _, rfl⟩
  have hinner : (inside 1 (newCell (.evaluated (.int 8)))).Nests 2 := nests_inside (by decide) (nests_newCell _)
  exact nests_bind (nests_newCell _) fun c => nests_bind (nests_setRoot 0 _ _) fun _ =>
    nests_bind (nests_discard hinner) fun _ => nests_bind (nests_newCell _) hforce

theorem proceeds_twoOpen : Moment.Proceeds ⟨{}, []⟩ ⟨twoOpen, []⟩ := by
  have hopen : Keeps 0 (do enter (← newHeap {}); enter (← newHeap {}) : Run Unit) :=
    keeps_bindHeap (keepsHeap_newHeap _ _ _) fun h m _ hh => keeps_bind (keeps_enter hh) fun _ m _ _ =>
      keeps_bindHeap (keepsHeap_newHeap _ _ _) fun h m _ hh => keeps_enter hh
  exact (hopen {} (Nat.zero_le _) Store.grounded_empty).1.path []

/-- The store that a computation leaves when it raises an error. -/
def raised? {α : Type} : EStateM.Result Halt Store α → Option FaultId
  | .error (.raised x) _ => some x
  | _ => none

theorem eq_error_of_raised? {α : Type} {r : EStateM.Result Halt Store α} {x : FaultId} (hr : raised? r = some x) :
    r = .error (.raised x) (finalStore r) := by
  match r, hr with
  | .error (.raised _) _, hr => cases hr; rfl

end Nesting

open Nesting in
/-- The first of the two heaps is entered again, and left by an error: the second is active again, the first keeps its
counters but has no roots, and does not give the addresses of its two cells again. -/
theorem exits_match_entries_reentered : ∃ x f, Run.inside 0 busy twoOpen = .error (.raised x) f ∧
    twoOpen.active = some 1 ∧ f.active = some 1 ∧ (f.heap 0).roots = [] ∧ (f.heap 0).table = #[] ∧
    (f.heap 0).created = 2 ∧ (f.heap 0).contexts = [none] ∧
    ∀ m, Moment.Proceeds ⟨f, []⟩ m → Set.InjOn m.store.address {c | m.store.home? c = some 0} := by
  obtain ⟨-, exits, blocks⟩ := exits_match_entries
  obtain ⟨x, hx⟩ : ∃ x, raised? (busy (twoOpen.opened 0)) = some x :=
    Option.isSome_iff_exists.1 (by decide +kernel)
  have hend := eq_error_of_raised? hx
  obtain ⟨f, hblock, hf⟩ := (blocks 2 busy nests_busy twoOpen 0 (by decide +kernel) (by decide +kernel)).2 x _ hend
  have hrun : Run.NestsAt (twoOpen.opened 0) (busy (twoOpen.opened 0)) := nests_busy _ (by decide +kernel)
  rw [hend] at hrun
  obtain ⟨f', hleave, -, apart⟩ := exits twoOpen _ 0 [] [] (by decide +kernel) (hrun []).of_opened
  obtain rfl : f = f' := by
    have hinside := Run.inside_raised hend hleave
    rw [hblock] at hinside
    cases hinside
    rfl
  have hheap := hf.heap
  refine ⟨x, f, hblock, rfl, hf.active, congrArg Heap.roots hheap, congrArg Heap.table hheap, ?_,
    congrArg Heap.contexts hheap, apart proceeds_twoOpen⟩
  rw [hheap]
  decide +kernel

end Retention
