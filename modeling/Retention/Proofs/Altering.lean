import Retention.Proofs.Homonyms
import Retention.Proofs.Stepping
/-!
# Altering — what can change what a heap keeps alive

A search for live cells reads the roots of one heap, and of each cell that it finds the address and the references.  It
finds the same wherever these are the same (`Store.Whole.reachable_eq`), whatever else becomes of the store: cells that
were made since are referred to by none of the older ones, and a cell that was not found was not looked into, be it that
nothing leads to it or that another cell hides it under the same address.

So most of what is done to a store leaves alone what a heap keeps alive.  What does not is told by `Moment.Touches`: a
change of the heap's own roots, and the end of the force of a cell that the heap keeps alive.
-/
namespace Retention

namespace Store
variable {s m e : Store} {g : HeapId} {found live : Found} {stack : List Value}

/-- Heaps and cells refer to nothing but cells, all of which are there. -/
structure Whole (s : Store) : Prop where
  roots : ∀ h, ∀ v ∈ (s.heap h).roots.map (·.2), ∃ c < s.cells.size, v = .cell c
  refs : ∀ c, ∀ v ∈ s.refs c, ∃ d < s.cells.size, v = .cell d

/-- The cell is among those that a search from the roots of the heap finds. -/
def Finds (s : Store) (g : HeapId) (c : CellId) : Prop :=
  ∃ (found : Found) (a : Nat), s.reachable g = .ok found ∧ found[a]? = some c

/-! ## What a search reads -/

/-- What was found stays found. -/
theorem walk_keeps (hlive : s.walk found stack = .ok live) {a : Nat} {c : CellId} (hc : found[a]? = some c) :
    live[a]? = some c := by
  fun_induction s.walk found stack with
  | case1 found =>
    cases hlive
    exact hc
  | case2 found d stack hnone ih => exact ih hlive hc
  | case3 found d stack cell hcell hmet ih => exact ih hlive hc
  | case4 found d stack cell hcell hnew ih =>
    refine ih hlive ?_
    have hother : cell.address ≠ a := by
      rintro rfl
      rw [Std.TreeMap.contains_eq_isSome_getElem?, hc] at hnew
      exact hnew rfl
    rw [Std.TreeMap.getElem?_insert, if_neg (mt Nat.compare_eq_eq.1 hother)]
    exact hc
  | case5 found v stack hv => cases hlive

/-- Where the cells that are found have kept their addresses and references, the same is found. -/
theorem Whole.walk_eq (hs : s.Whole) (hcells : ∀ c < s.cells.size, c < e.cells.size ∧ e.address c = s.address c)
    (hstack : ∀ v ∈ stack, ∃ c < s.cells.size, v = .cell c) (hlive : s.walk found stack = .ok live)
    (hrefs : ∀ (a : Nat) (c : CellId), live[a]? = some c → e.refs c = s.refs c) : e.walk found stack = .ok live := by
  fun_induction s.walk found stack with
  | case1 found => rw [walk, hlive]
  | case2 found c stack hnone ih =>
    obtain ⟨d, hd, heq⟩ := hstack (.cell c) List.mem_cons_self
    cases heq
    exact absurd hd (Nat.not_lt.2 (Array.getElem?_eq_none_iff.1 hnone))
  | case3 found c stack cell hcell hmet ih =>
    have hc := (Array.getElem?_eq_some_iff.1 hcell).1
    have hmet' : found.contains (e.address c) = true := by rw [(hcells c hc).2, address_of_cell hcell]; exact hmet
    rw [walk_pass (hcells c hc).1 hmet']
    exact ih (fun v hv => hstack v (List.mem_cons_of_mem _ hv)) hlive
  | case4 found c stack cell hcell hnew ih =>
    have hc := (Array.getElem?_eq_some_iff.1 hcell).1
    have haddress := address_of_cell hcell
    have hnew' : found.contains (e.address c) = false := by
      rw [(hcells c hc).2, haddress]
      exact eq_false_of_ne_true hnew
    -- the cell is visited here, so it is among those that are found in the end
    have hfound : live[cell.address]? = some c := walk_keeps hlive Std.TreeMap.getElem?_insert_self
    rw [walk_visit (hcells c hc).1 hnew', (hcells c hc).2, haddress, hrefs _ c hfound, refs_of_cell hcell]
    refine ih (fun v hv => ?_) hlive
    rcases List.mem_append.1 hv with hv | hv
    · exact hs.refs c v (refs_of_cell hcell ▸ List.mem_reverse.1 hv)
    · exact hstack v (List.mem_cons_of_mem _ hv)
  | case5 found v stack hv => cases hlive

theorem Whole.reachable_eq_ok (hs : s.Whole) (g : HeapId) : ∃ found, s.reachable g = .ok found :=
  s.walk_of_cells (fun c v hv => (hs.refs c v hv).imp fun _ hd => hd.2) {} _ fun v hv =>
    (hs.roots g v (List.mem_reverse.1 hv)).imp fun _ hd => hd.2

/-- What a heap keeps alive is left alone: its roots, the cells that there are, and the references of those it finds. -/
structure Bypasses (g : HeapId) (s e : Store) : Prop where
  roots : (e.heap g).roots = (s.heap g).roots
  cells : ∀ c < s.cells.size, c < e.cells.size ∧ e.address c = s.address c
  refs : ∀ c < s.cells.size, s.Finds g c → e.refs c = s.refs c

/-- **A search finds the same where what it reads is the same.** -/
theorem Whole.reachable_eq (hs : s.Whole) (h : Bypasses g s e) : e.reachable g = s.reachable g := by
  obtain ⟨found, hfound⟩ := hs.reachable_eq_ok g
  have hwalk : s.walk {} ((s.heap g).roots.map (·.2)).reverse = .ok found := hfound
  have hsound := walk_sound ((s.heap g).roots.map (·.2)) {} _ (fun a c hc => by simp at hc)
    (fun c hc => .root (List.mem_reverse.1 hc)) hwalk
  rw [hfound, reachable, h.roots]
  refine hs.walk_eq h.cells (fun v hv => hs.roots g v (List.mem_reverse.1 hv)) hwalk fun a c hc => ?_
  exact h.refs c (hsound a c hc).1.2 ⟨found, a, hfound, hc⟩

/-! ## Changes that are not read -/

/-- The roots of a heap, and the addresses and references of all cells, are what they were; there may be more cells. -/
structure Intact (g : HeapId) (s e : Store) : Prop where
  roots : (e.heap g).roots = (s.heap g).roots
  cells : ∀ c < s.cells.size, c < e.cells.size ∧ e.address c = s.address c ∧ e.refs c = s.refs c

namespace Intact

theorem refl (g : HeapId) (s : Store) : Intact g s s := ⟨rfl, fun _ hc => ⟨hc, rfl, rfl⟩⟩

theorem trans (h : Intact g s m) (h' : Intact g m e) : Intact g s e where
  roots := h'.roots.trans h.roots
  cells c hc := by
    obtain ⟨hlt, haddress, hrefs⟩ := h.cells c hc
    obtain ⟨hlt', haddress', hrefs'⟩ := h'.cells c hlt
    exact ⟨hlt', haddress'.trans haddress, hrefs'.trans hrefs⟩

theorem bypasses (h : Intact g s e) : Bypasses g s e where
  roots := h.roots
  cells c hc := ⟨(h.cells c hc).1, (h.cells c hc).2.1⟩
  refs c hc _ := (h.cells c hc).2.2

/-- A change that concerns no cells and leaves the roots alone. -/
theorem of_cells (hcells : e.cells = s.cells) (hroots : (e.heap g).roots = (s.heap g).roots) : Intact g s e where
  roots := hroots
  cells c hc := by
    refine ⟨hcells ▸ hc, ?_, ?_⟩
    · rw [address, address, hcells]
    · rw [refs, refs, state_of_cells hcells]

theorem recorded (s : Store) (g : HeapId) (x : Turn) : Intact g s (s.recorded x) := .of_cells rfl rfl

theorem updateHeap (s : Store) (g h : HeapId) {f : Heap → Heap} (hf : ∀ x, (f x).roots = x.roots) :
    Intact g s (s.updateHeap h f) := .of_cells rfl (field_updateHeap (r := Heap.roots) hf s h g)

theorem register (s : Store) (g h : HeapId) (st : CellState) : Intact g s (s.register h st) where
  roots := by
    let f : Heap → Heap := fun x =>
      { x with created := (s.heap h).created + 1, table := x.table.push s.cells.size }
    exact field_updateHeap (r := Heap.roots) (f := f) (fun _ => rfl) _ h g
  cells c hc := by
    refine ⟨?_, address_register_of_lt hc h st, ?_⟩
    · rw [size_register]
      exact Nat.lt_succ_of_lt hc
    · rw [refs, refs, state_register_of_lt hc]

/-- A cell goes to a state in which it refers to what it referred to. -/
theorem setState (s : Store) (g : HeapId) {c : CellId} {st : CellState} (hst : st.refs = s.refs c) :
    Intact g s (s.setState c st) where
  roots := rfl
  cells d hd := by
    refine ⟨(size_setState s c st).symm ▸ hd, address_setState s c d st, ?_⟩
    by_cases heq : d = c
    · subst heq
      rw [refs, state_setState_self s d st hd, hst]
    · rw [refs, refs, state_setState_of_ne s st heq]

/-- The thunk of a cell begins to run: the cell refers to the arguments as before. -/
theorem began {c : CellId} {t : Thunk} (hc : s.state c = .suspended t) (g h : HeapId) :
    Intact g s (s.began c h t) := by
  have hstate : Intact g s (s.setState c (.inProgress t)) := by
    refine setState s g ?_
    rw [refs_of_state hc]
    rfl
  exact hstate.trans (.recorded _ g _)

end Intact

/-- A cell that is not found goes to another state. -/
theorem Bypasses.setState {c : CellId} (hc : ¬ s.Finds g c) (st : CellState) (hcells : e.cells = (s.setState c st).cells)
    (hroots : (e.heap g).roots = (s.heap g).roots) : Bypasses g s e := by
  have hlast : Intact g (s.setState c st) e := .of_cells hcells hroots
  refine ⟨hroots, fun d hd => ?_, fun d hd hfound => ?_⟩
  · obtain ⟨hlt, haddress, -⟩ := hlast.cells d ((size_setState s c st).symm ▸ hd)
    exact ⟨hlt, haddress.trans (address_setState s c d st)⟩
  · have hne : d ≠ c := fun heq => hc (heq ▸ hfound)
    have hsame : (s.setState c st).refs d = s.refs d := by rw [Store.refs, Store.refs, state_setState_of_ne s st hne]
    exact (hlast.cells d ((size_setState s c st).symm ▸ hd)).2.2.trans hsame

/-- **A change that runs no thunk leaves alone what a heap keeps alive, or it changes the roots of that heap.** -/
theorem Step.intact_or (h : Step s e) (g : HeapId) : Intact g s e ∨ e = s.closed g ∨
    (∃ name v, e = s.rooted g name v) ∨ ∃ name, e = s.unrooted g name := by
  cases h with
  | newCell h st => exact .inl (.register s g h st)
  | newHeap traces samplesForces temporary =>
    exact .inl (.of_cells rfl (field_pushHeap (r := Heap.roots) (x := { traces, samplesForces, temporary }) rfl s g))
  | entered h =>
    let f : Heap → Heap := fun x => { x with contexts := s.active :: x.contexts }
    exact .inl (.of_cells rfl (field_updateHeap (r := Heap.roots) (f := f) (fun _ => rfl) s h g))
  | left h previous contexts =>
    let f : Heap → Heap := fun x => { x with contexts := contexts }
    exact .inl (.of_cells rfl (field_updateHeap (r := Heap.roots) (f := f) (fun _ => rfl) s h g))
  | sampled h => exact .inl (.updateHeap s g h fun _ => rfl)
  | collected h => exact .inl (.updateHeap s g h fun _ => rfl)
  | closed h =>
    by_cases hg : g = h
    · exact .inr (.inl (hg ▸ rfl))
    · exact .inl (.of_cells rfl (congrArg Heap.roots (heap_updateHeap_of_ne s hg _)))
  | rooted h name v =>
    by_cases hg : g = h
    · exact .inr (.inr (.inl ⟨name, v, hg ▸ rfl⟩))
    · exact .inl (.of_cells rfl (congrArg Heap.roots (heap_updateHeap_of_ne s hg _)))
  | unrooted h name =>
    by_cases hg : g = h
    · exact .inr (.inr (.inr ⟨name, hg ▸ rfl⟩))
    · exact .inl (.of_cells rfl (congrArg Heap.roots (heap_updateHeap_of_ne s hg _)))
  | _ => exact .inl (.of_cells rfl rfl)

theorem Bypasses.finished {c : CellId} (hc : ¬ s.Finds g c) (h : HeapId) (v : Value) : Bypasses g s (s.finished c h v) :=
  .setState hc (.evaluated v) rfl (field_counted (r := Heap.roots) (fun _ _ => rfl) _ h g)

theorem Bypasses.aborted {c : CellId} (hc : ¬ s.Finds g c) (x : FaultId) : Bypasses g s (s.aborted c x) :=
  .setState hc (.failed (.fault x)) rfl rfl

end Store

/-! ## Transitions and runs -/

namespace Moment
variable {m m' : Moment} {g : HeapId}

/-- What can change what a heap keeps alive: its roots are changed or dropped, or the force of a cell that it keeps alive
ends. -/
inductive Touches (g : HeapId) : Moment → Moment → Prop
  | rooted (s : Store) (k : List Frame) (name v : Value) : Touches g ⟨s, k⟩ ⟨s.rooted g name v, k⟩
  | unrooted (s : Store) (k : List Frame) (name : Value) : Touches g ⟨s, k⟩ ⟨s.unrooted g name, k⟩
  | closed (s : Store) (k : List Frame) : Touches g ⟨s, k⟩ ⟨s.closed g, k⟩
  | finished {s : Store} {c : CellId} (k : List Frame) (h : HeapId) (v : Value) (found : s.Finds g c) :
    Touches g ⟨s, .force c h :: k⟩ ⟨s.finished c h v, k⟩
  | aborted {s : Store} {c : CellId} (k : List Frame) (h : HeapId) (x : FaultId) (found : s.Finds g c) :
    Touches g ⟨s, .force c h :: k⟩ ⟨s.aborted c x, k⟩

/-- What touches a heap changes its roots, or ends the force of a cell that it keeps alive. -/
theorem Touches.pending (h : Touches g m m') :
    m'.pending = m.pending ∨ ∃ c h, m.store.Finds g c ∧ m.pending = .force c h :: m'.pending := by
  cases h with
  | finished k h v found => exact .inr ⟨_, h, found, rfl⟩
  | aborted k h x found => exact .inr ⟨_, h, found, rfl⟩
  | _ => exact .inl rfl

/-- **What a transition that does not touch a heap leaves alone.** -/
theorem Next.bypasses_or_touches (h : Next m m') (g : HeapId) : Store.Bypasses g m.store m'.store ∨ Touches g m m' := by
  cases h with
  | change k hstep =>
    rcases hstep.intact_or g with hkept | rfl | ⟨name, v, rfl⟩ | ⟨name, rfl⟩
    · exact .inl hkept.bypasses
    · exact .inr (.closed _ k)
    · exact .inr (.rooted _ k name v)
    · exact .inr (.unrooted _ k name)
  | call s k t => exact .inl (Store.Intact.recorded s g _).bypasses
  | returned s k v => exact .inl (Store.Intact.recorded s g _).bypasses
  | raised s k x => exact .inl (Store.Intact.recorded s g _).bypasses
  | force s k c h t hsuspended => exact .inl (Store.Intact.began hsuspended g h).bypasses
  | finished s k c h v =>
    by_cases hc : s.Finds g c
    · exact .inr (.finished k h v hc)
    · exact .inl (.finished hc h v)
  | aborted s k c h x =>
    by_cases hc : s.Finds g c
    · exact .inr (.aborted k h x hc)
    · exact .inl (.aborted hc x)

/-- What can come of a moment while nothing but cells that are there is referred to, and a heap is not touched. -/
def Untouched (g : HeapId) : Moment → Moment → Prop :=
  Relation.ReflTransGen fun m m' => Next m m' ∧ m.store.Whole ∧ ¬ Touches g m m'

theorem Untouched.reachable_eq (h : Untouched g m m') : m'.store.reachable g = m.store.reachable g := by
  induction h with
  | refl => rfl
  | tail _ hlast ih =>
    obtain ⟨hnext, hwhole, huntouched⟩ := hlast
    exact (hwhole.reachable_eq ((hnext.bypasses_or_touches g).resolve_right huntouched)).trans ih

end Moment

/-! ## Computations -/

namespace Run
variable {α β : Type}

/-- A computation leaves alone what the heaps keep alive, however it ends. -/
def LeavesIntact (x : Run α) : Prop := ∀ g s, Store.Intact g s (finalStore (x s))

theorem leavesIntact_of_eq {x : Run α} (h : ∀ s, (finalStore (x s)).cells = s.cells ∧ (finalStore (x s)).heaps = s.heaps) :
    LeavesIntact x := fun g s => .of_cells (h s).1 (by rw [Store.heap, Store.heap, (h s).2])

theorem leavesIntact_pure (a : α) : LeavesIntact (pure a : Run α) := leavesIntact_of_eq fun _ => ⟨rfl, rfl⟩

theorem leavesIntact_get : LeavesIntact (get : Run Store) := leavesIntact_of_eq fun _ => ⟨rfl, rfl⟩

theorem leavesIntact_bind {x : Run α} {f : α → Run β} (hx : LeavesIntact x) (hf : ∀ a, LeavesIntact (f a)) :
    LeavesIntact (x >>= f) := by
  intro g s
  have hm := hx g s
  rw [bind_apply]
  cases hr : x s with
  | ok a m =>
    rw [hr] at hm
    exact hm.trans (hf a g m)
  | error halt m =>
    rw [hr] at hm
    exact hm

theorem leavesIntact_raiseIn (context : List Value) (cause : Fault) : LeavesIntact (raiseIn context cause : Run α) :=
  leavesIntact_of_eq fun _ => ⟨rfl, rfl⟩

theorem leavesIntact_raiseValue (v : Value) : LeavesIntact (raiseValue v : Run α) := by
  unfold raiseValue
  split
  · exact leavesIntact_of_eq fun _ => ⟨rfl, rfl⟩
  · exact leavesIntact_raiseIn [] _

theorem leavesIntact_lacks (v : Value) (attr : String) : LeavesIntact (lacks v attr : Run α) :=
  leavesIntact_bind (leavesIntact_of_eq fun _ => ⟨rfl, rfl⟩) fun _ => leavesIntact_raiseIn [] _

theorem leavesIntact_lengthBetween (lo hi : Value) : LeavesIntact (lengthBetween lo hi) := by
  unfold lengthBetween
  split
  · split
    · exact leavesIntact_pure _
    · exact leavesIntact_raiseIn [] _
  · exact leavesIntact_of_eq fun _ => ⟨rfl, rfl⟩

theorem leavesIntact_truth (v : Value) : LeavesIntact (truth v) := by
  unfold truth
  split
  · exact leavesIntact_pure _
  · split
    · exact leavesIntact_bind (leavesIntact_lengthBetween _ _) fun _ => leavesIntact_pure _
    · exact leavesIntact_pure true

theorem leavesIntact_reachable (h : HeapId) : LeavesIntact (reachable h) := by
  refine leavesIntact_bind leavesIntact_get fun s => ?_
  split
  · exact leavesIntact_pure _
  · exact leavesIntact_lacks _ _

theorem leavesIntact_sample (h : HeapId) : LeavesIntact (sample h) := by
  refine leavesIntact_bind (leavesIntact_bind (leavesIntact_reachable h) fun _ => leavesIntact_pure _) fun live => ?_
  have hnote : LeavesIntact (modify fun s => s.noteLive h live : Run Unit) := fun g s => .updateHeap s g h fun _ => rfl
  refine leavesIntact_bind hnote fun _ => leavesIntact_bind leavesIntact_get fun s => ?_
  have hflag : LeavesIntact (discard (truth (s.heap h).traces)) :=
    leavesIntact_bind (leavesIntact_truth _) fun _ => leavesIntact_pure ()
  exact leavesIntact_bind hflag fun _ => leavesIntact_pure live

theorem leavesIntact_collect (h : HeapId) : LeavesIntact (collect h) := by
  refine leavesIntact_bind (leavesIntact_reachable h) fun live => leavesIntact_bind leavesIntact_get fun s => ?_
  have hkeep : LeavesIntact (modify fun s => s.keepOnly h live : Run Unit) := fun g s => .updateHeap s g h fun _ => rfl
  exact leavesIntact_bind hkeep fun _ => leavesIntact_of_eq fun _ => ⟨rfl, rfl⟩

/-- A cell is made on the active heap, if there is one. -/
theorem leavesIntact_register {f : Store → α} {st : Store → CellState} :
    LeavesIntact (do let h ← activeHeap; modifyGet fun s => (f s, s.register h (st s))) := by
  refine leavesIntact_bind ?_ fun h g s => .register s g h (st s)
  refine leavesIntact_bind leavesIntact_get fun s => ?_
  split
  · exact leavesIntact_pure _
  · exact leavesIntact_raiseIn [] _

theorem leavesIntact_ofValue (v : Value) : LeavesIntact (Iterator.ofValue v) := by
  unfold Iterator.ofValue
  split
  all_goals first | exact leavesIntact_pure _ | exact leavesIntact_of_eq fun _ => ⟨rfl, rfl⟩

/-- The computations that make cells and force none. -/
inductive Creates : Run CellId → Prop
  | suspend (t : Thunk) : Creates (suspend t)
  | fix (thunk : CellId → Thunk) : Creates (suspendSelf thunk)
  | ready (v : Value) : Creates (ready v)
  | inState (st : CellState) : Creates (newCell st)
  | between (lo hi : Value) : Creates (Sequence.between lo hi)
  | append (xs ys : Value) : Creates (Sequence.append xs ys)
  | ofItems (v : Value) : Creates (do Sequence.ofIterator (← Iterator.ofValue v))
  | shared (source : Value) : Creates (Cycle.shared source)
  | fresh (maker : Maker Value) : Creates (do Cycle.fresh (← freshTag) maker)
  | cycle (lo hi : Value) (d : Discipline) : Creates (d.cycle lo hi)

theorem Creates.leavesIntact {x : Run CellId} (h : Creates x) : LeavesIntact x := by
  have hcell : ∀ st, LeavesIntact (newCell st) := fun _ => leavesIntact_register
  have htag : LeavesIntact freshTag := leavesIntact_of_eq fun _ => ⟨rfl, rfl⟩
  have hbetween : ∀ lo hi, LeavesIntact (Sequence.between lo hi) := fun _ _ => leavesIntact_bind htag fun _ => hcell _
  cases h with
  | suspend t => exact hcell _
  | fix thunk => exact leavesIntact_register
  | ready v => exact hcell _
  | inState st => exact hcell st
  | between lo hi => exact hbetween lo hi
  | append xs ys => exact hcell _
  | ofItems v => exact leavesIntact_bind (leavesIntact_ofValue v) fun _ => hcell _
  | shared source => exact leavesIntact_register
  | fresh maker => exact leavesIntact_bind htag fun _ => hcell _
  | cycle lo hi d =>
    cases d with
    | need => exact leavesIntact_bind (hbetween lo hi) fun _ => leavesIntact_register
    | name => exact leavesIntact_bind htag fun _ => hcell _

end Run

/-- A force of a cell whose thunk has begun to run, or never will, leaves alone what the heaps keep alive. -/
theorem intact_force {s : Store} {c : CellId} (hc : ∀ t, s.state c ≠ .suspended t) (run : Runner) (g : HeapId) :
    Store.Intact g s (Run.finalStore (force run c s)) := by
  rw [force_apply]
  cases hstate : s.state c with
  | evaluated v => exact .refl g s
  | failed error => exact Run.leavesIntact_raiseValue error g s
  | inProgress t => exact Run.leavesIntact_raiseIn _ _ g s
  | suspended t => exact absurd hstate (hc t)

open Moment (Next Leads Touches Untouched) in
/-- **What can change what a heap keeps alive.**  Where heaps and cells refer to nothing but cells, each heap keeps alive
a map of addresses to cells, and a transition either leaves the map of a heap as it is or touches that heap: its roots are
changed or dropped, or the force of a cell in the map ends.  So the map is the same after any run that touches the heap
nowhere, and evaluations are made of such transitions.  In particular the map is what it was when cells have been made,
when a thunk begins to run, after a force of a cell whose thunk is running or has run, after a sample or a collection of
any heap, and after the end of the force of a cell that is not in the map. -/
theorem reachable_unless_touched (g : HeapId) :
    (∀ m m', Next m m' → m.store.Whole → (∃ found, m.store.reachable g = .ok found) ∧
      (m'.store.reachable g = m.store.reachable g ∨ Touches g m m')) ∧
    (∀ m m', Untouched g m m' → m'.store.reachable g = m.store.reachable g) ∧
    (∀ (p : Program) depth args (e : Expr) s k, ∃ more,
      Leads ⟨s, k⟩ ⟨Run.finalStore (e.eval p (p.runAt depth) args s), more ++ k⟩) ∧
    (∀ s : Store, s.Whole →
      (∀ x, Run.Creates x → (Run.finalStore (x s)).reachable g = s.reachable g) ∧
      (∀ c h t, s.state c = .suspended t → (s.began c h t).reachable g = s.reachable g) ∧
      (∀ run c, (∀ t, s.state c ≠ .suspended t) → (Run.finalStore (force run c s)).reachable g = s.reachable g) ∧
      (∀ h, (Run.finalStore (Run.sample h s)).reachable g = s.reachable g ∧
        (Run.finalStore (Run.collect h s)).reachable g = s.reachable g) ∧
      (∀ c, ¬ s.Finds g c → (∀ h v, (s.finished c h v).reachable g = s.reachable g) ∧
        ∀ x, (s.aborted c x).reachable g = s.reachable g)) := by
  refine ⟨fun m m' hnext hs => ⟨hs.reachable_eq_ok g, ?_⟩, fun m m' h => h.reachable_eq, fun p depth args e s k => ?_,
    fun s hs => ⟨fun x hx => ?_, fun c h t hc => ?_, fun run c hc => ?_, fun h => ⟨?_, ?_⟩, fun c hc => ⟨fun h v => ?_,
      fun x => ?_⟩⟩⟩
  · exact (hnext.bypasses_or_touches g).imp_left hs.reachable_eq
  · exact (e.follows_eval (p.follows_runAt depth) args s).reaches k
  · exact hs.reachable_eq (hx.leavesIntact g s).bypasses
  · exact hs.reachable_eq (Store.Intact.began hc g h).bypasses
  · exact hs.reachable_eq (intact_force hc run g).bypasses
  · exact hs.reachable_eq (Run.leavesIntact_sample h g s).bypasses
  · exact hs.reachable_eq (Run.leavesIntact_collect h g s).bypasses
  · exact hs.reachable_eq (.finished hc h v)
  · exact hs.reachable_eq (.aborted hc x)

/-! ## A cell that refers to itself, and its homonym -/

namespace Store

/-- Whether the values are cells of numbers below the given one. -/
def cellsBelow? (n : Nat) (vs : List Value) : Bool := vs.all fun
  | .cell c => decide (c < n)
  | _ => false

theorem exists_of_cellsBelow? {n : Nat} {vs : List Value} (h : cellsBelow? n vs = true) :
    ∀ v ∈ vs, ∃ c < n, v = .cell c := by
  intro v hv
  have hcell := List.all_eq_true.1 h v hv
  cases v with
  | cell c => exact ⟨c, of_decide_eq_true hcell, rfl⟩
  | _ => cases hcell

/-- Whether heaps and cells refer to nothing but cells that are there, told by looking at each. -/
def whole? (s : Store) : Bool :=
  (s.heaps.all fun x => cellsBelow? s.cells.size (x.roots.map (·.2))) &&
    s.cells.all fun x => cellsBelow? s.cells.size x.state.refs

theorem whole_of_whole? {s : Store} (h : s.whole? = true) : s.Whole := by
  obtain ⟨hheaps, hcells⟩ := Bool.and_eq_true_iff.1 h
  refine ⟨fun g => ?_, fun c => ?_⟩
  · unfold heap
    cases hx : s.heaps[g]? with
    | none => exact fun v hv => absurd hv List.not_mem_nil
    | some x => exact exists_of_cellsBelow? (Array.all_eq_true'.1 hheaps x (Array.mem_of_getElem? hx))
  · unfold refs state
    cases hx : s.cells[c]? with
    | none => exact fun v hv => absurd hv List.not_mem_nil
    | some x => exact exists_of_cellsBelow? (Array.all_eq_true'.1 hcells x (Array.mem_of_getElem? hx))

end Store

namespace Session

/-- The function gives back what it is given. -/
def givingBack : Program := [("f", ⟨.argument 0, false⟩)]

/-- Roots a cell that refers to itself in the second of two heaps, and makes a cell of the same address in the first. -/
def selfReferring : List Expr := [
  .assign "g" (.apply (.heap .openNew) []), .apply (.heap .openNew) [],
  .assign "c" (.apply (.cell .fix) [.constant (.str "f")]), .apply (.heap .root) [.constant (.str "c"), .lookup "c"],
  .apply (.heap .enter) [.lookup "g"], .apply (.cell .suspend) [.constant (.str "f"), .constant (.int 5)]]

end Session

open Session in
/-- The second heap keeps alive the one cell that refers to itself, also while its homonym is forced and when that has got
its value; it no longer does so when the cell is no root any more. -/
theorem reachable_unless_touched_selfReferring :
    let s := after givingBack selfReferring
    let began := s.began 1 0 (.call (.defined "f" false) [.int 5])
    let finished := began.finished 1 0 (.int 5)
    s.Whole ∧ .cell 0 ∈ s.refs 0 ∧ s.address 1 = s.address 0 ∧ s.reachable 1 = .ok (({} : Found).insert 1 0) ∧
    (Run.finalStore (Run.ready .null s)).reachable 1 = s.reachable 1 ∧
    Moment.Untouched 1 ⟨s, []⟩ ⟨finished, []⟩ ∧ finished.reachable 1 = s.reachable 1 ∧
    Moment.Touches 1 ⟨finished, []⟩ ⟨finished.unrooted 1 (.str "c"), []⟩ ∧
    (finished.unrooted 1 (.str "c")).reachable 1 = .ok {} := by
  intro s began finished
  obtain ⟨-, unchanged, -, kept⟩ := reachable_unless_touched 1
  have hs : s.Whole := Store.whole_of_whole? (by decide +kernel)
  have hbegan : began.Whole := Store.whole_of_whole? (by decide +kernel)
  obtain ⟨creating, beginning, -⟩ := kept s hs
  have hsuspended : s.state 1 = .suspended (.call (.defined "f" false) [.int 5]) := rfl
  have hsame : began.reachable 1 = s.reachable 1 := beginning 1 0 _ hsuspended
  have hfound : s.reachable 1 = .ok (({} : Found).insert 1 0) := by
    have hrefs : s.refs 0 = [.cell 0] := rfl
    have haddress : s.address 0 = 1 := rfl
    calc s.reachable 1 = s.walk {} [.cell 0] := rfl
      _ = s.walk (({} : Found).insert 1 0) [.cell 0] := by
        rw [Store.walk_visit (by decide +kernel) rfl, haddress, hrefs]
        rfl
      _ = s.walk (({} : Found).insert 1 0) [] := Store.walk_pass (by decide +kernel) (by simp [haddress]) _
      _ = .ok (({} : Found).insert 1 0) := by rw [Store.walk]
  have hhidden : ¬ began.Finds 1 1 := by
    rintro ⟨found, a, hreachable, ha⟩
    cases hreachable.symm.trans (hsame.trans hfound)
    rw [Std.TreeMap.getElem?_insert] at ha
    split at ha
    · cases ha
    · simp at ha
  have hrun : Moment.Untouched 1 ⟨s, []⟩ ⟨finished, []⟩ := by
    refine .tail (.single ⟨.force s [] 1 0 _ hsuspended rfl, hs, fun h => ?_⟩)
      ⟨.finished began [] 1 0 (.int 5), hbegan, fun h => ?_⟩
    · obtain hpending | ⟨c, h, -, hpending⟩ := h.pending
      · cases hpending
      · cases hpending
    · obtain hpending | ⟨c, h, hc, hpending⟩ := h.pending
      · cases hpending
      · cases hpending
        exact hhidden hc
  refine ⟨hs, List.mem_singleton.2 rfl, rfl, hfound, creating _ (.ready .null), hrun, unchanged _ _ hrun,
    .unrooted finished [] (.str "c"), ?_⟩
  calc (finished.unrooted 1 (.str "c")).reachable 1 = (finished.unrooted 1 (.str "c")).walk {} [] := rfl
    _ = .ok {} := by rw [Store.walk]

end Retention
