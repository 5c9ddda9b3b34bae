import Retention.Proofs.Following
import Retention.Proofs.Naming
/-!
# Grounding — no heap is active before it is there

The transitions of `Moment.Next` let any number be entered as a heap.  A computation enters only what it was given or has
made, so from a grounded store on every heap that it makes active is there: it makes its run by transitions to moments
whose active heap exists (`Moment.Placed`), and ends in a grounded store (`Run.Keeps`).  What it hands out names only
heaps that are there when it ends.  Heaps are never removed, so what was known of a value before a part of a computation
is still so after it; this is what lets `Run.keeps_bind` pass it on.
-/
namespace Retention

open Store (Step)

namespace Moment

/-- The heap that is active is there. -/
def Placed (m : Moment) : Prop := ∀ h, m.store.active = some h → h < m.store.heaps.size

/-- What can come sooner or later, if every heap that is made active is there. -/
def Proceeds : Moment → Moment → Prop := Relation.ReflTransGen fun m m' => Next m m' ∧ m'.Placed

end Moment

namespace Store
variable {s m e : Store}

theorem Grounded.placed (h : s.Grounded) (k : List Frame) : Moment.Placed ⟨s, k⟩ := h.active

/-- A run that is over leads to a grounded store, with no heap active before it is there. -/
structure Goes (s e : Store) : Prop where
  path : ∀ k, Moment.Proceeds ⟨s, k⟩ ⟨e, k⟩
  size_le : s.heaps.size ≤ e.heaps.size
  grounded : e.Grounded

/-- A run leads to a grounded store, where thunks may still be running, with no heap active before it is there. -/
structure GoesInto (s e : Store) : Prop where
  path : ∀ k, ∃ more, Moment.Proceeds ⟨s, k⟩ ⟨e, more ++ k⟩
  size_le : s.heaps.size ≤ e.heaps.size
  grounded : e.Grounded

namespace Goes

theorem refl (hs : s.Grounded) : Goes s s := ⟨fun _ => .refl, Nat.le_refl _, hs⟩

theorem trans (h : Goes s m) (h' : Goes m e) : Goes s e :=
  ⟨fun k => (h.path k).trans (h'.path k), Nat.le_trans h.size_le h'.size_le, h'.grounded⟩

theorem of_step (h : Step s e) (hsize : s.heaps.size ≤ e.heaps.size) (he : e.Grounded) : Goes s e :=
  ⟨fun k => .single ⟨.change k h, he.placed k⟩, hsize, he⟩

theorem into (h : Goes s e) : GoesInto s e := ⟨fun k => ⟨[], h.path k⟩, h.size_le, h.grounded⟩

end Goes

theorem GoesInto.after (h : Goes s m) (h' : GoesInto m e) : GoesInto s e where
  path k := by
    obtain ⟨more, hm⟩ := h'.path k
    exact ⟨more, (h.path k).trans hm⟩
  size_le := Nat.le_trans h.size_le h'.size_le
  grounded := h'.grounded

/-- A run inside a thunk's, which then ends: where both the beginning and the end are transitions. -/
theorem Goes.inside {b f : Store} {x : Frame} (hbegan : ∀ k, Moment.Next ⟨s, k⟩ ⟨b, x :: k⟩) (hb : b.Grounded)
    (hr : Goes b e) (hended : ∀ k, Moment.Next ⟨e, x :: k⟩ ⟨f, k⟩) (hf : f.Grounded) (hsize : s.heaps.size ≤ f.heaps.size) :
    Goes s f where
  path k := .head ⟨hbegan k, hb.placed _⟩ ((hr.path (x :: k)).tail ⟨hended k, hf.placed k⟩)
  size_le := hsize
  grounded := hf

/-- A run inside a thunk's that does not end. -/
theorem GoesInto.inside {b : Store} {x : Frame} (hbegan : ∀ k, Moment.Next ⟨s, k⟩ ⟨b, x :: k⟩) (hb : b.Grounded)
    (hr : GoesInto b e) (hsize : s.heaps.size ≤ b.heaps.size) : GoesInto s e where
  path k := by
    obtain ⟨more, hm⟩ := hr.path (x :: k)
    refine ⟨more ++ [x], .head ⟨hbegan k, hb.placed _⟩ ?_⟩
    rw [List.append_assoc]
    exact hm
  size_le := Nat.le_trans hsize hr.size_le
  grounded := hr.grounded

end Store

open Store (Goes GoesInto)

namespace Run
variable {α β : Type}

/-! ## What computations are put together with -/

/-- What a computation did from a store on: how it may end, given what its value must be like. -/
def KeepsAt (q : Nat → α → Prop) (s : Store) : EStateM.Result Halt Store α → Prop
  | .ok a e => Goes s e ∧ q e.heaps.size a
  | .error (.raised _) e => Goes s e
  | .error .tooDeep e => GoesInto s e

/-- From every grounded store with at least so many heaps, a computation keeps the store grounded. -/
def KeepsIn (q : Nat → α → Prop) (n : Nat) (x : Run α) : Prop :=
  ∀ s : Store, n ≤ s.heaps.size → s.Grounded → KeepsAt q s (x s)

/-- A computation keeps the store grounded and hands out what names only heaps that are there. -/
def Keeps [Naming α] (n : Nat) (x : Run α) : Prop := KeepsIn Below n x

/-- A computation keeps the store grounded and hands out a heap that is there. -/
def KeepsHeap (n : Nat) (x : Run HeapId) : Prop := KeepsIn (fun n h => h < n) n x

variable {q : Nat → α → Prop} {r : Nat → β → Prop} {n : Nat} {x : Run α}

theorem KeepsAt.after {s m : Store} {t : EStateM.Result Halt Store α} (h : Goes s m) (ht : KeepsAt q m t) :
    KeepsAt q s t := by
  match t, ht with
  | .ok _ _, ht => exact ⟨h.trans ht.1, ht.2⟩
  | .error (.raised _) _, ht => exact h.trans ht
  | .error .tooDeep _, ht => exact GoesInto.after h ht

theorem KeepsAt.into {s : Store} {t : EStateM.Result Halt Store α} (h : KeepsAt q s t) : GoesInto s (finalStore t) := by
  match t, h with
  | .ok _ _, h => exact h.1.into
  | .error (.raised _) _, h => exact Goes.into h
  | .error .tooDeep _, h => exact h

theorem keepsAt_bind {f : α → Run β} {s : Store} (hx : KeepsAt q s (x s))
    (hf : ∀ a m, x s = .ok a m → Goes s m → q m.heaps.size a → KeepsAt r m (f a m)) : KeepsAt r s ((x >>= f) s) := by
  rw [bind_apply]
  match hr : x s with
  | .ok a m =>
    rw [hr] at hx
    exact .after hx.1 (hf a m hr hx.1 hx.2)
  | .error (.raised _) m => rw [hr] at hx; exact hx
  | .error .tooDeep m => rw [hr] at hx; exact hx

theorem keepsAt_map {f : α → β} {s m : Store} (hx : KeepsAt q s (x m))
    (hf : ∀ a e, Goes s e → q e.heaps.size a → r e.heaps.size (f a)) : KeepsAt r s ((f <$> x) m) := by
  rw [map_apply]
  match x m, hx with
  | .ok a e, hx => exact ⟨hx.1, hf a e hx.1 hx.2⟩
  | .error (.raised _) _, hx => exact hx
  | .error .tooDeep _, hx => exact hx

theorem keepsIn_bind {f : α → Run β} (hx : KeepsIn q n x) (hf : ∀ a m, n ≤ m → q m a → KeepsIn r m (f a)) :
    KeepsIn r n (x >>= f) := fun s hn hs =>
  keepsAt_bind (hx s hn hs) fun a m _ hm ha =>
    hf a m.heaps.size (Nat.le_trans hn hm.size_le) ha m (Nat.le_refl _) hm.grounded

theorem keepsIn_pure {a : α} (h : ∀ m, n ≤ m → q m a) : KeepsIn q n (pure a) := fun _ hn hs => ⟨.refl hs, h _ hn⟩

@[grind ←] theorem keepsHeap_pure {h : HeapId} (hh : h < n) : KeepsHeap n (pure h) :=
  keepsIn_pure fun _ hn => Nat.lt_of_lt_of_le hh hn

theorem keepsIn_reraise (e : FaultId) : KeepsIn q n (reraise e : Run α) := fun _ _ hs => Goes.refl hs

section
variable [Naming α] [Naming β]

@[grind ←] theorem keeps_pure {a : α} (h : Below n a) : Keeps n (pure a : Run α) := keepsIn_pure fun _ hn => h.mono hn

/-- From a store with more heaps, too. -/
theorem Keeps.mono {m : Nat} (h : Keeps n x) (hn : n ≤ m) : Keeps m x := fun s hs => h s (Nat.le_trans hn hs)

@[grind ←] theorem keeps_reraise (e : FaultId) : Keeps n (reraise e : Run α) := keepsIn_reraise e

@[grind ←] theorem keeps_tooDeep : Keeps n (throw .tooDeep : Run α) := fun _ _ hs => (Goes.refl hs).into

@[grind ←] theorem keeps_get : Keeps n (get : Run Store) := fun _ _ hs => ⟨.refl hs, hs⟩

@[grind ←] theorem keeps_bind {f : α → Run β} (hx : Keeps n x) (hf : ∀ a m, n ≤ m → Below m a → Keeps m (f a)) :
    Keeps n (x >>= f) := keepsIn_bind hx hf

@[grind ←] theorem keeps_bindHeap {x : Run HeapId} {f : HeapId → Run β} (hx : KeepsHeap n x)
    (hf : ∀ h m, n ≤ m → h < m → Keeps m (f h)) : Keeps n (x >>= f) := keepsIn_bind hx hf

@[grind ←] theorem keepsHeap_bind {f : α → Run HeapId} (hx : Keeps n x)
    (hf : ∀ a m, n ≤ m → Below m a → KeepsHeap m (f a)) : KeepsHeap n (x >>= f) := keepsIn_bind hx hf

@[grind ←] theorem keeps_discard (hx : Keeps n x) : Keeps n (discard x) :=
  keeps_bind hx fun _ _ _ _ => keeps_pure trivial

@[grind ←] theorem keeps_attempt (hx : Keeps n x) : Keeps n (attempt x) := by
  intro s hn hs
  have h := hx s hn hs
  unfold attempt
  match x s, h with
  | .ok _ _, h => exact ⟨h.1, below_ok.2 h.2⟩
  | .error (.raised e) _, h => exact ⟨h, fun a ha => by cases ha⟩
  | .error .tooDeep _, h => exact h

theorem keeps_mapM {γ : Type} [Naming γ] {f : γ → Run β} {xs : List γ} (hxs : Below n xs)
    (hf : ∀ a m, n ≤ m → Below m a → Keeps m (f a)) : Keeps n (xs.mapM f) := by
  induction xs generalizing n with
  | nil => exact keeps_pure (below_listNil.2 trivial)
  | cons x xs ih =>
    rw [List.mapM_cons]
    obtain ⟨hx, hrest⟩ := below_listCons.1 hxs
    refine keeps_bind (hf x n (Nat.le_refl n) hx) fun b m hn hb => ?_
    refine keeps_bind (ih (hrest.mono hn) fun a m' hm => hf a m' (Nat.le_trans hn hm)) fun bs m' hm hbs => ?_
    exact keeps_pure (below_listCons.2 ⟨hb.mono hm, hbs⟩)

theorem keeps_modifyGet {f : Store → α × Store} (hstep : ∀ s, Step s (f s).2)
    (hf : ∀ s : Store, n ≤ s.heaps.size → s.Grounded →
      s.heaps.size ≤ (f s).2.heaps.size ∧ (f s).2.Grounded ∧ Below (f s).2.heaps.size (f s).1) :
    Keeps n (modifyGet f : Run α) := fun s hn hs =>
  have h := hf s hn hs
  ⟨.of_step (hstep s) h.1 h.2.1, h.2.2⟩

end

theorem keeps_modify {f : Store → Store} (hstep : ∀ s, Step s (f s))
    (hf : ∀ s : Store, n ≤ s.heaps.size → s.Grounded → s.heaps.size ≤ (f s).heaps.size ∧ (f s).Grounded) :
    Keeps n (modify f : Run Unit) := fun s hn hs =>
  have h := hf s hn hs
  ⟨.of_step (hstep s) h.1 h.2, trivial⟩

/-! ## Reading the store, and errors -/

@[grind ←] theorem keeps_newFault (cause : Fault) (context : List Value) : Keeps n (newFault cause context) :=
  keeps_modifyGet (fun s => .newFault s ⟨cause, context⟩) fun _ _ hs => ⟨Nat.le_refl _, { hs with }, trivial⟩

theorem keepsIn_raise (cause : Fault) : KeepsIn q n (raise cause : Run α) :=
  keepsIn_bind (keeps_newFault cause []) fun e _ _ _ => keepsIn_reraise e

@[grind ←] theorem keepsHeap_raise (cause : Fault) : KeepsHeap n (raise cause) := keepsIn_raise cause

section
variable [Naming α]

@[grind ←] theorem keeps_raiseIn (context : List Value) (cause : Fault) : Keeps n (raiseIn context cause : Run α) := by
  unfold raiseIn; grind

@[grind ←] theorem keeps_raise (cause : Fault) : Keeps n (raise cause : Run α) := keepsIn_raise cause

@[grind ←] theorem keeps_raiseValue (v : Value) : Keeps n (raiseValue v : Run α) := by unfold raiseValue; grind

@[grind ←] theorem keeps_freshTag : Keeps n freshTag :=
  keeps_modifyGet (fun s => .freshTag s) fun _ _ hs => ⟨Nat.le_refl _, { hs with }, trivial⟩

@[grind ←] theorem keeps_note (e : Event) : Keeps n (note e) :=
  keeps_modify (fun s => .logged s (e :: s.events)) fun _ _ hs => ⟨Nat.le_refl _, { hs with }⟩

@[grind ←] theorem keeps_cons {head tail : Value} (hh : Below n head) (ht : Below n tail) :
    Keeps n (cons head tail) := by unfold cons; grind

@[grind ←] theorem keeps_list {items : List Value} (h : Below n items) : Keeps n (list items) := by unfold list; grind

@[grind ←] theorem keeps_tuple {items : List Value} (h : Below n items) : Keeps n (tuple items) := by
  unfold tuple Value.unit; grind

@[grind ←] theorem keeps_typeName (v : Value) : Keeps n (typeName v) := by unfold typeName; grind

@[grind ←] theorem keeps_lacks (v : Value) (attr : String) : Keeps n (lacks v attr : Run α) := by unfold lacks; grind

@[grind ←] theorem keepsHeap_lacks (v : Value) (attr : String) : KeepsHeap n (lacks v attr) := by unfold lacks; grind

@[grind ←] theorem keeps_told {γ : Type} [Nameless γ] (x : Store → Except Fault γ) : Keeps n (told x) := by
  unfold told; grind

@[grind ←] theorem keeps_written (v : Value) : Keeps n (written v) := keeps_told _

@[grind ←] theorem keeps_lengthBetween (lo hi : Value) : Keeps n (lengthBetween lo hi) := by unfold lengthBetween; grind

@[grind ←] theorem keeps_truth (v : Value) : Keeps n (truth v) := by unfold truth; grind

@[grind ←] theorem keeps_cellOf (attr : String) (v : Value) : Keeps n (cellOf attr v) := by unfold cellOf; grind

end

/-! ## Heaps -/

@[grind ←] theorem keepsHeap_activeHeap : KeepsHeap n activeHeap := by
  intro s _ hs
  rw [activeHeap_apply]
  cases ha : s.active with
  | none => exact keepsHeap_raise _ s (Nat.le_refl _) hs
  | some h => exact ⟨.refl hs, hs.active h ha⟩

theorem size_register (s : Store) (h : HeapId) (st : CellState) : (s.register h st).heaps.size = s.heaps.size :=
  Array.size_modify ..

theorem keeps_register {f : Store → CellId} {g : Store → CellState} (hg : ∀ s, n ≤ s.heaps.size → Below n (g s)) :
    Keeps n (do let h ← activeHeap; modifyGet fun s => (f s, s.register h (g s))) := by
  intro s hn hs
  refine keepsAt_bind (keepsHeap_activeHeap s hn hs) fun h m hr _ _ => ?_
  obtain ⟨ha, rfl⟩ := activeHeap_ok hr
  have hsize := size_register m h (g m)
  refine ⟨.of_step (.newCell m h (g m) ha) (Nat.le_of_eq hsize.symm) ?_, trivial⟩
  unfold Store.Grounded
  rw [hsize]
  exact hs.register h ((hg m hn).mono hn)

@[grind ←] theorem keeps_newCell {st : CellState} (hst : Below n st) : Keeps n (newCell st) :=
  keeps_register fun _ _ => hst

@[grind ←] theorem keeps_suspend {t : Thunk} (ht : Below n t) : Keeps n (suspend t) := keeps_newCell ht

@[grind ←] theorem keeps_suspendSelf {thunk : CellId → Thunk} (h : ∀ c, Below n (thunk c)) :
    Keeps n (suspendSelf thunk) := keeps_register fun _ _ => h _

@[grind ←] theorem keeps_ready {v : Value} (hv : Below n v) : Keeps n (ready v) := keeps_newCell hv

@[grind ←] theorem keeps_reachable (h : HeapId) : Keeps n (reachable h) := by unfold reachable; grind

@[grind ←] theorem keeps_liveCount (h : HeapId) : Keeps n (liveCount h) := by unfold liveCount; grind

/-- A change of the record of a heap. -/
theorem goes_updateHeap {s : Store} {h : HeapId} {f : Heap → Heap} (hstep : Step s (s.updateHeap h f))
    (hs : (s.updateHeap h f).BelowIn s.heaps.size) : Goes s (s.updateHeap h f) := by
  have hsize := Store.size_updateHeap s h f
  refine .of_step hstep (Nat.le_of_eq hsize.symm) ?_
  unfold Store.Grounded
  rw [hsize]
  exact hs

@[grind ←] theorem keeps_sample (h : HeapId) : Keeps n (sample h) := by
  intro s hn hs
  refine keepsAt_bind (keeps_liveCount h s hn hs) fun live m hr _ _ => ?_
  obtain ⟨⟨found, hl, rfl⟩, rfl⟩ := liveCount_eq_ok_iff.1 hr
  have hnoted : Goes m (m.noteLive h found.size) := goes_updateHeap (.sampled m h found hl) (Store.BelowIn.noteLive hs _ _)
  refine .after hnoted ?_
  have hrest : Keeps m.heaps.size (do discard (truth ((← get).heap h).traces); return found.size) := by grind
  exact hrest _ hnoted.size_le hnoted.grounded

theorem keepsAt_noteForced (h : HeapId) {s : Store} (hs : (s.counted h).Grounded) :
    KeepsAt Below (s.counted h) (noteForced h s) := by
  have hrest : Keeps (s.counted h).heaps.size
    (do if ← truth ((← get).heap h).samplesForces then discard (sample h)) := by grind
  unfold noteForced
  rw [bind_ok (modify_apply _ s)]
  exact hrest _ (Nat.le_refl _) hs

@[grind ←] theorem keeps_collect (h : HeapId) : Keeps n (collect h) := by
  intro s hn hs
  refine keepsAt_bind (keeps_reachable h s hn hs) fun live m hr _ _ => ?_
  obtain ⟨hl, rfl⟩ := reachable_eq_ok_iff.1 hr
  have hkept : Goes m (m.keepOnly h live) := goes_updateHeap (.collected m h live hl) (Store.BelowIn.keepOnly hs _ _)
  refine keepsAt_bind (keeps_get (n := m.heaps.size) m (Nat.le_refl _) hs) fun tracked e he _ _ => ?_
  cases he
  refine .after hkept ?_
  have hrest : Keeps m.heaps.size (do
      let dead := (m.heap h).table.size - ((← get).heap h).table.size
      note (.collected dead live.size)
      return dead) := by grind
  exact hrest _ hkept.size_le hkept.grounded

@[grind ←] theorem keepsHeap_newHeap (traces samplesForces : Value) (temporary : Bool) :
    KeepsHeap n (newHeap { traces, samplesForces, temporary }) := by
  intro s _ hs
  have hsize : (s.heaps.push { traces, samplesForces, temporary }).size = s.heaps.size + 1 := Array.size_push ..
  refine ⟨.of_step (.newHeap s traces samplesForces temporary) ?_ ?_, ?_⟩
  · exact Nat.le_of_lt (by rw [hsize]; exact Nat.lt_succ_self _)
  · have hbelow : Store.BelowIn { s with heaps := s.heaps.push { traces, samplesForces, temporary } } s.heaps.size :=
      Store.BelowIn.pushHeap hs ⟨fun _ h => (List.not_mem_nil h).elim, below_listNil.2 trivial⟩
    exact Below.mono (a := ({ s with heaps := s.heaps.push { traces, samplesForces, temporary } } : Store)) hbelow
      (by rw [hsize]; exact Nat.le_succ _)
  · show s.heaps.size < (s.heaps.push _).size
    rw [hsize]
    exact Nat.lt_succ_self _

@[grind ←] theorem keeps_enter {h : HeapId} (hh : h < n) : Keeps n (enter h) := by
  refine keeps_bind (fun s hn hs => ⟨?_, trivial⟩) fun _ _ _ _ => keeps_note _
  have hsize : (s.entered h).heaps.size = s.heaps.size := Array.size_modify ..
  refine .of_step (.entered s h) (Nat.le_of_eq hsize.symm) ?_
  unfold Store.Grounded
  rw [hsize]
  exact Store.BelowIn.entered hs (Nat.lt_of_lt_of_le hh hn)

@[grind ←] theorem keeps_close (h : HeapId) : Keeps n (close h) := by
  have hc : ∀ m, Keeps m (modify fun s => s.closed h : Run Unit) := fun _ s _ hs =>
    ⟨goes_updateHeap (.closed s h) (Store.BelowIn.closed hs h), trivial⟩
  unfold close
  grind

@[grind ←] theorem keeps_leave (h : HeapId) : Keeps n (leave h) := by
  refine keeps_bind (keeps_close h) fun _ n _ _ s hn hs => ?_
  refine keepsAt_bind (keeps_get s hn hs) fun m e he _ _ => ?_
  cases he
  cases hc : (s.heap h).contexts with
  | nil => exact keeps_raise _ s hn hs
  | cons previous contexts =>
    refine ⟨?_, trivial⟩
    have hsize : (s.left h previous contexts).heaps.size = s.heaps.size := Array.size_modify ..
    refine .of_step (.left s h previous contexts hc) (Nat.le_of_eq hsize.symm) ?_
    unfold Store.Grounded
    rw [hsize]
    exact Store.BelowIn.left hs hc

@[grind ←] theorem keeps_checkKey (k : Value) : Keeps n (checkKey k) := by unfold checkKey; grind

@[grind ←] theorem keeps_setRoot (h : HeapId) {name v : Value} (hname : Below n name) (hv : Below n v) :
    Keeps n (setRoot h name v) :=
  keeps_bind (keeps_checkKey name) fun _ _ hm _ s hs hgrounded =>
    ⟨goes_updateHeap (.rooted s h name v) (Store.BelowIn.rooted hgrounded h
      (hname.mono (Nat.le_trans hm hs)) (hv.mono (Nat.le_trans hm hs))), trivial⟩

/-- What is read of a store that is below a number. -/
theorem below_roots {s : Store} (hs : Below n s) (h : HeapId) : Below n (s.heap h).roots := (hs.heaps h).2

@[grind ←] theorem keeps_root (h : HeapId) (name : Value) : Keeps n (root h name) := by
  refine keeps_bind (keeps_checkKey name) fun _ m _ _ => keeps_bind keeps_get fun s m _ hs => ?_
  have hroots := below_roots hs h
  grind

@[grind ←] theorem keeps_removeRoot (h : HeapId) (name : Value) : Keeps n (removeRoot h name) :=
  keeps_bind (keeps_discard (keeps_root h name)) fun _ _ _ _ s _ hs =>
    ⟨goes_updateHeap (.unrooted s h name) (Store.BelowIn.unrooted hs h name), trivial⟩

end Run

/-! ## Forcing -/

open Run

/-- A runner makes a turn of every thunk, which keeps the store grounded. -/
def Runner.Keeps (run : Runner) : Prop := ∀ (n : Nat) (owner : Option CellId) (t : Thunk), Below n t →
  ∃ body, Run.Keeps n body ∧ run owner t = Run.turn owner t body

variable {run : Runner} {n : Nat}

/-- A thunk that is run for no cell keeps the store grounded. -/
theorem keeps_run_none (hr : run.Keeps) {t : Thunk} (ht : Below n t) : Keeps n (run none t) := by
  obtain ⟨body, hb, hbody⟩ := hr n none t ht
  rw [hbody]
  intro s hn hs
  have hbegan : Store.Grounded (s.recorded (.began none s.active t)) := Store.BelowIn.recorded hs _
  have hr := hb (s.recorded (.began none s.active t)) hn hbegan
  rw [turn_apply]
  match body (s.recorded (.began none s.active t)), hr with
  | .ok v e, hr =>
    exact ⟨.inside (fun k => .call s k t) hbegan hr.1 (fun k => .returned e k v) (Store.BelowIn.recorded hr.1.grounded _)
      hr.1.size_le, hr.2⟩
  | .error (.raised x) e, hr =>
    exact Goes.inside (fun k => .call s k t) hbegan hr (fun k => .raised e k x) (Store.BelowIn.recorded hr.grounded _)
      hr.size_le
  | .error .tooDeep e, hr => exact GoesInto.inside (fun k => .call s k t) hbegan hr (Nat.le_refl _)

theorem grounded_began {s : Store} {c : CellId} {h : HeapId} {t : Thunk} (hs : s.Grounded)
    (hstate : s.state c = .suspended t) : (s.began c h t).Grounded := by
  have ht : Below s.heaps.size (CellState.inProgress t) := by
    have hc := hs.states c
    rw [hstate] at hc
    exact hc
  exact Store.BelowIn.recorded (Store.BelowIn.setState hs c ht) _

theorem size_counted (s : Store) (h : HeapId) : (s.counted h).heaps.size = s.heaps.size := Array.size_modify ..

theorem grounded_finished {s : Store} {c : CellId} {h : HeapId} {v : Value} (hs : s.Grounded)
    (hv : Below s.heaps.size v) : (s.finished c h v).Grounded := by
  have hstate : Below s.heaps.size (CellState.evaluated v) := hv
  have hbelow := ((Store.BelowIn.recorded hs (.returned (some c) v)).setState c hstate).counted h
  unfold Store.Grounded Store.finished
  rw [size_counted]
  exact hbelow

/-- **A force keeps the store grounded.** -/
@[grind ←] theorem keeps_force (hr : run.Keeps) (c : CellId) : Keeps n (force run c) := by
  intro s hn hs
  cases hstate : s.state c with
  | evaluated v =>
    rw [force_apply, hstate]
    have hc := hs.states c
    rw [hstate] at hc
    exact ⟨.refl hs, hc⟩
  | failed error =>
    rw [force_apply, hstate]
    exact keeps_raiseValue error s hn hs
  | inProgress t =>
    rw [force_apply, hstate]
    exact keeps_raiseIn _ _ s hn hs
  | suspended t =>
    cases ha : s.active with
    | none =>
      rw [force_apply, hstate, ha]
      exact keeps_raise _ s hn hs
    | some h =>
      have ht : Below s.heaps.size t := by
        have hc := hs.states c
        rw [hstate] at hc
        exact hc
      obtain ⟨body, hb, hbody⟩ := hr s.heaps.size (some c) t ht
      have hbegan : (s.began c h t).Grounded := grounded_began hs hstate
      have hrun := hb (s.began c h t) (Nat.le_refl _) hbegan
      rw [force_of_turn hstate ha hbody]
      match body (s.began c h t), hrun with
      | .ok v e, hrun =>
        obtain ⟨hgoes, hv⟩ := hrun
        have hfinished : (e.finished c h v).Grounded := grounded_finished hgoes.grounded hv
        have hsize : (e.finished c h v).heaps.size = e.heaps.size := size_counted _ h
        have hover : Goes s (e.finished c h v) := .inside (fun k => .force s k c h t hstate ha) hbegan hgoes
          (fun k => .finished e k c h v) hfinished (Nat.le_trans hgoes.size_le (Nat.le_of_eq hsize.symm))
        refine .after hover ?_
        exact keepsAt_map (keepsAt_noteForced h hfinished) fun _ m hm _ =>
          hv.mono (Nat.le_trans (Nat.le_of_eq hsize.symm) hm.size_le)
      | .error (.raised x) e, hrun =>
        exact Goes.inside (fun k => .force s k c h t hstate ha) hbegan hrun (fun k => .aborted e k c h x)
          (Store.BelowIn.setState (Store.BelowIn.recorded hrun.grounded _) c trivial) hrun.size_le
      | .error .tooDeep e, hrun =>
        exact GoesInto.inside (fun k => .force s k c h t hstate ha) hbegan hrun (Nat.le_refl _)

@[grind ←] theorem keeps_forceValue (hr : run.Keeps) (v : Value) : Keeps n (forceValue run v) := by
  unfold forceValue; grind

end Retention
