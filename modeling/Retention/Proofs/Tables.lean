import Mathlib.Data.List.Perm.Basic
import Retention.Proofs.Alike
import Retention.Proofs.Nesting
/-!
# Tables — what heaps track, and what they have reclaimed

A heap tracks the cells in its table.  A cell comes into the table of its heap when it is made, and leaves it when the heap
is closed, or by a collection that does not find its address.  What collections have dropped is counted as reclaimed, and
what is dropped by closing is not.  So the cells that a heap has created are those that it tracks, those that it has
reclaimed, and those that it dropped when it was closed (`Moment.Clears`).

`Store.Retabled` says what a transition does to a table, and everything else is derived from that: what is in a table was
registered there, and nothing is twice in a table (`Store.Tabled`).
-/
namespace Retention

open Store (Step OnlyCells)

variable {s e : Store} {g h : HeapId} {c : CellId} {found : Found} {n : Nat}

/-! ## What a transition does to a table -/

/-- What a heap tracks, and how many cells it has reclaimed and created. -/
def Heap.tally (x : Heap) : Array CellId × Nat × Nat := (x.table, x.reclaimed, x.created)

namespace Store

/-- What a transition does to the table of a heap. -/
inductive Retabled (h : HeapId) (s e : Store) : Prop
  | kept (tally : (e.heap h).tally = (s.heap h).tally)
  | made (st : CellState) (active : s.active = some h) (store : e = s.register h st)
  | closed (store : e = s.closed h)
  | collected (found : Found) (store : e = s.keepOnly h found)

theorem retabled_of_heap (hheap : e.heap h = s.heap h) : Retabled h s e := .kept (congrArg Heap.tally hheap)

theorem retabled_of_step (hstep : Step s e) (h : HeapId) : Retabled h s e := by
  cases hstep with
  | newCell g st ha =>
    by_cases hg : h = g
    · exact .made st (hg ▸ ha) (hg ▸ rfl)
    · exact retabled_of_heap (heap_register_of_ne s hg st)
  | closed g =>
    by_cases hg : h = g
    · exact .closed (hg ▸ rfl)
    · exact retabled_of_heap (heap_updateHeap_of_ne s hg _)
  | collected g found =>
    by_cases hg : h = g
    · exact .collected found (hg ▸ rfl)
    · exact retabled_of_heap (heap_updateHeap_of_ne s hg _)
  | newHeap traces samplesForces temporary =>
    exact .kept (field_pushHeap (r := Heap.tally) (x := { traces, samplesForces, temporary }) rfl s h)
  | entered g =>
    exact .kept (field_updateHeap (f := fun x => { x with contexts := s.active :: x.contexts }) (fun _ => rfl) s g h)
  | left g previous contexts =>
    exact .kept (field_updateHeap (f := fun x => { x with contexts }) (fun _ => rfl) s g h)
  | sampled g found | rooted g name v | unrooted g name =>
    refine .kept (field_updateHeap ?_ s g h)
    exact fun _ => rfl
  | _ => exact retabled_of_heap rfl

/-- A change that leaves a heap of which nothing is known as it is. -/
theorem heap_updateHeap_of_fixed {f : Heap → Heap} (hf : f {} = {}) (s : Store) (h : HeapId) :
    (s.updateHeap h f).heap h = f (s.heap h) := by
  rcases Nat.lt_or_ge h s.heaps.size with hlt | hge
  · exact heap_updateHeap hlt f
  · rw [heap, heap, Array.getElem?_eq_none hge, Array.getElem?_eq_none (by rw [size_updateHeap]; exact hge)]
    exact hf.symm

theorem heap_closed_self (s : Store) (h : HeapId) : (s.closed h).heap h = { s.heap h with roots := [], table := #[] } :=
  heap_updateHeap_of_fixed (f := fun x => { x with roots := [], table := #[] }) rfl s h

/-- The cells of a heap's table whose addresses were found. -/
def foundIn (s : Store) (h : HeapId) (found : Found) : Array CellId :=
  (s.heap h).table.filter fun c => found.contains (s.address c)

theorem size_foundIn_le (s : Store) (h : HeapId) (found : Found) : (s.foundIn h found).size ≤ (s.heap h).table.size :=
  Array.size_filter_le

theorem heap_keepOnly_self (s : Store) (h : HeapId) (found : Found) : (s.keepOnly h found).heap h =
    { s.heap h with
      table := s.foundIn h found
      reclaimed := (s.heap h).reclaimed + ((s.heap h).table.size - (s.foundIn h found).size) } :=
  heap_updateHeap_of_fixed rfl s h

theorem heap_keepOnly_of_ne (s : Store) (hg : g ≠ h) (found : Found) : (s.keepOnly h found).heap g = s.heap g :=
  heap_updateHeap_of_ne s hg _

theorem lt_of_home? (hc : s.home? c = some h) : c < s.cells.size := by
  refine Nat.lt_of_not_le fun hle => ?_
  rw [home?, Array.getElem?_eq_none hle] at hc
  cases hc

end Store

namespace Moment
variable {m m' : Moment}

theorem Next.retabled (hnext : Next m m') (h : HeapId) : m.store.Retabled h m'.store := by
  cases hnext with
  | change k hstep => exact Store.retabled_of_step hstep h
  | finished s k c g v =>
    exact .kept (Store.field_updateHeap (f := fun x => { x with forced := x.forced + 1 }) (fun _ => rfl)
      ((s.recorded (.returned (some c) v)).setState c (.evaluated v)) g h)
  | _ => exact Store.retabled_of_heap rfl

/-- A cell stays where it was registered. -/
theorem Next.home? (hnext : Next m m') (hc : m.store.home? c = some h) : m'.store.home? c = some h := by
  cases hnext with
  | change k hstep =>
    rcases hstep.cells.2 with hcells | ⟨x, -, hcells⟩
    · rwa [Store.home?, hcells]
    · rw [Store.home?, hcells, Array.getElem?_push_lt (Store.lt_of_home? hc), ← Array.getElem?_eq_getElem]
      exact hc
  | call | returned | raised => exact hc
  | force s k d g t => exact (Store.home?_setState s d c _).trans hc
  | finished s k d g v => exact (Store.home?_setState (s.recorded _) d c _).trans hc
  | aborted s k d g x => exact (Store.home?_setState (s.recorded _) d c _).trans hc

end Moment

/-! ## What is in a table -/

namespace Store

/-- What is in the table of a heap was registered there, and is there once. -/
structure Tabled (s : Store) : Prop where
  home : ∀ h, ∀ c ∈ (s.heap h).table, s.home? c = some h
  distinct : ∀ h, (s.heap h).table.toList.Nodup

theorem tabled_start : Tabled {} where
  home _ c hc := (Array.not_mem_empty c hc).elim
  distinct _ := .nil

end Store

namespace Moment
variable {m m' : Moment}

/-- **What a table holds is kept by every transition.** -/
theorem Next.tabled (hnext : Next m m') (hplaced : m.Placed) (hs : m.store.Tabled) : m'.store.Tabled := by
  -- it suffices that a table only loses cells, or gets one that is new
  suffices htables : ∀ h, (m'.store.heap h).table.toList.Nodup ∧ ∀ c ∈ (m'.store.heap h).table, m'.store.home? c = some h from
    ⟨fun h => (htables h).2, fun h => (htables h).1⟩
  intro h
  have hhome : ∀ c ∈ (m.store.heap h).table, m'.store.home? c = some h := fun c hc => hnext.home? (hs.home h c hc)
  rcases hnext.retabled h with htally | ⟨st, hactive, hstore⟩ | hstore | ⟨found, hstore⟩
  · have htable : (m'.store.heap h).table = (m.store.heap h).table := congrArg Prod.fst htally
    rw [htable]
    exact ⟨hs.distinct h, hhome⟩
  · have hnew : m.store.cells.size ∉ (m.store.heap h).table.toList := fun hmem =>
      absurd (Store.lt_of_home? (hs.home h _ (Array.mem_toList_iff.1 hmem))) (Nat.lt_irrefl _)
    have htable : (m'.store.heap h).table = (m.store.heap h).table.push m.store.cells.size := by
      rw [hstore, Store.heap_register (hplaced h hactive)]
    rw [htable, Array.toList_push]
    refine ⟨List.nodup_append.2 ⟨hs.distinct h, List.nodup_singleton _, ?_⟩, fun c hc => ?_⟩
    · rintro c hc d hd rfl
      exact hnew (List.mem_singleton.1 hd ▸ hc)
    · rcases Array.mem_push.1 hc with hc | rfl
      · exact hhome c hc
      · rw [hstore]
        exact Store.home?_register_new m.store h st
  · rw [hstore, Store.heap_closed_self]
    exact ⟨.nil, fun c hc => (Array.not_mem_empty c hc).elim⟩
  · have htable : (m'.store.heap h).table = m.store.foundIn h found := by rw [hstore, Store.heap_keepOnly_self]
    rw [htable]
    refine ⟨?_, fun c hc => hhome c (Array.mem_filter.1 hc).1⟩
    unfold Store.foundIn
    rw [Array.toList_filter]
    exact (hs.distinct h).filter _

theorem Proceeds.tabled (hm : Proceeds ⟨{}, []⟩ m) : m.store.Tabled := by
  induction hm with
  | refl => exact Store.tabled_start
  | tail hbefore hnext ih => exact hnext.1.tabled (Proceeds.placed hbefore) ih

/-! ## What the tables add up to -/

/-- A run from the beginning, and how many cells of a heap its closings have dropped. -/
inductive Clears (h : HeapId) : Moment → Nat → Prop
  | start : Clears h ⟨{}, []⟩ 0
  | other {m m' : Moment} {n : Nat} (before : Clears h m n) (next : Next m m') (placed : m'.Placed)
    (other : m'.store ≠ m.store.closed h) : Clears h m' n
  | closed {m m' : Moment} {n : Nat} (before : Clears h m n) (next : Next m m') (placed : m'.Placed)
    (closed : m'.store = m.store.closed h) : Clears h m' (n + (m.store.heap h).table.size)

/-- A run that never closes a heap while it tracks a cell. -/
def Unclosed (h : HeapId) : Moment → Moment → Prop := Relation.ReflTransGen fun m m' =>
  Next m m' ∧ m'.Placed ∧ (m'.store = m.store.closed h → (m.store.heap h).table = #[])

namespace Clears

theorem proceeds (hm : Clears h m n) : Proceeds ⟨{}, []⟩ m := by
  induction hm with
  | start => exact .refl
  | other _ hnext hplaced _ ih | closed _ hnext hplaced _ ih => exact ih.tail ⟨hnext, hplaced⟩

/-- **Every cell that a heap has created is tracked, was reclaimed, or was dropped by closing the heap.** -/
theorem adds_up (hm : Clears h m n) :
    (m.store.heap h).table.size + (m.store.heap h).reclaimed + n = (m.store.heap h).created := by
  induction hm with
  | start => rfl
  | @other m m' n hbefore hnext hplaced hother ih =>
    rcases hnext.retabled h with htally | ⟨st, hactive, hstore⟩ | hstore | ⟨found, hstore⟩
    · obtain ⟨htable, hrest⟩ := Prod.mk.inj htally
      obtain ⟨hreclaimed, hcreated⟩ := Prod.mk.inj hrest
      rw [htable, hreclaimed, hcreated]
      exact ih
    · rw [hstore, Store.heap_register (Proceeds.placed hbefore.proceeds h hactive)]
      dsimp only
      rw [Array.size_push]
      omega
    · exact absurd hstore hother
    · have hle := m.store.size_foundIn_le h found
      rw [hstore, Store.heap_keepOnly_self]
      dsimp only
      omega
  | @closed m m' n hbefore hnext hplaced hclosed ih =>
    rw [hclosed, Store.heap_closed_self]
    dsimp only
    rw [Array.size_empty]
    omega

end Clears

theorem Proceeds.clears (hm : Proceeds ⟨{}, []⟩ m) (h : HeapId) : ∃ n, Clears h m n := by
  induction hm with
  | refl => exact ⟨0, .start⟩
  | @tail m m' _ hnext ih =>
    obtain ⟨n, hn⟩ := ih
    by_cases hclosed : m'.store = m.store.closed h
    · exact ⟨_, hn.closed hnext.1 hnext.2 hclosed⟩
    · exact ⟨n, hn.other hnext.1 hnext.2 hclosed⟩

theorem Unclosed.clears (hm : Unclosed h ⟨{}, []⟩ m) : Clears h m 0 := by
  induction hm with
  | refl => exact .start
  | @tail m m' _ hnext ih =>
    obtain ⟨hnext, hplaced, hempty⟩ := hnext
    by_cases hclosed : m'.store = m.store.closed h
    · have hclears := ih.closed hnext hplaced hclosed
      rwa [hempty hclosed] at hclears
    · exact ih.other hnext hplaced hclosed

end Moment

/-! ## What a collection does -/

namespace Store

/-- The addresses of what a heap tracks are different, and are among those that it has given. -/
theorem Attained.table (hs : s.Attained) (h : HeapId) : ((s.heap h).table.toList.map s.address).Nodup ∧
    ∀ c ∈ (s.heap h).table, s.home? c = some h ∧ 1 ≤ s.address c ∧ s.address c ≤ (s.heap h).created := by
  obtain ⟨k, hk⟩ := hs
  have htabled := hk.tabled
  have hbalanced := hk.balanced.store
  refine ⟨List.Nodup.map_on (fun c hc d hd heq => ?_) (htabled.distinct h), fun c hc => ?_⟩
  · exact hbalanced.injOn_address h (htabled.home h c (Array.mem_toList_iff.1 hc))
      (htabled.home h d (Array.mem_toList_iff.1 hd)) heq
  · have hhome := htabled.home h c hc
    have hregistered : c ∈ s.registered h :=
      List.mem_filter.2 ⟨List.mem_range.2 (lt_of_home? hhome), beq_iff_eq.2 hhome⟩
    have haddress := List.mem_map_of_mem (f := s.address) hregistered
    rw [hbalanced.addresses, List.mem_range'_1] at haddress
    have hlt : s.address c < 1 + (s.heap h).created := haddress.2
    exact ⟨hhome, haddress.1, by omega⟩

/-- The store after a collection that has found this. -/
def collected (s : Store) (h : HeapId) (found : Found) : Store :=
  { s.keepOnly h found with
    events := .collected ((s.heap h).table.size - (s.foundIn h found).size) found.size :: s.events }

theorem collect_apply (hfound : s.reachable h = .ok found) :
    Run.collect h s = .ok ((s.heap h).table.size - (s.foundIn h found).size) (s.collected h found) := by
  have htable : ((s.keepOnly h found).heap h).table = s.foundIn h found := by rw [heap_keepOnly_self]
  unfold Run.collect
  rw [Run.bind_ok (Run.reachable_eq_ok_iff.2 ⟨hfound, rfl⟩), Run.bind_ok (Run.get_apply s), Run.bind_ok (Run.modify_apply _ s),
    Run.bind_ok (Run.get_apply _), htable]
  rfl

theorem heap_collected_self (s : Store) (h : HeapId) (found : Found) : (s.collected h found).heap h =
    { s.heap h with
      table := s.foundIn h found
      reclaimed := (s.heap h).reclaimed + ((s.heap h).table.size - (s.foundIn h found).size) } := heap_keepOnly_self s h found

theorem heap_collected_of_ne (s : Store) (hg : g ≠ h) (found : Found) : (s.collected h found).heap g = s.heap g :=
  heap_keepOnly_of_ne s hg found

/-- A collection changes nothing that a search looks at. -/
theorem reachable_collected (s : Store) (h : HeapId) (found : Found) (g : HeapId) :
    (s.collected h found).reachable g = s.reachable g := by
  refine reachable_congr rfl ?_
  rcases eq_or_ne g h with rfl | hg
  · rw [heap_collected_self]
  · rw [heap_collected_of_ne s hg]

/-- A collection finds again what it has kept. -/
theorem foundIn_collected (s : Store) (h : HeapId) (found : Found) :
    (s.collected h found).foundIn h found = s.foundIn h found := by
  have htable : ((s.collected h found).heap h).table = s.foundIn h found := by rw [heap_collected_self]
  unfold foundIn at htable ⊢
  rw [htable, Array.filter_filter]
  exact congrArg (fun q => (s.heap h).table.filter q) (funext fun c => Bool.and_self _)

/-- Where all that was found is tracked, a collection keeps as many cells as were found. -/
theorem size_foundIn (hfound : s.reachable h = .ok found) (hdistinct : ((s.heap h).table.toList.map s.address).Nodup)
    (htracked : ∀ (a : Nat) (c : CellId), found[a]? = some c → c ∈ (s.heap h).table) : (s.foundIn h found).size = found.size := by
  have hwalk : s.walk {} ((s.heap h).roots.map (·.2)).reverse = .ok found := hfound
  have hsound := walk_sound ((s.heap h).roots.map (·.2)) {} _ (fun a c hc => by simp at hc)
    (fun c hc => .root (List.mem_reverse.1 hc)) hwalk
  have hsame : ((s.foundIn h found).toList.map s.address).Perm found.keys := by
    refine (List.perm_ext_iff_of_nodup ?_ Std.TreeMap.nodup_keys).2 fun a => ?_
    · unfold foundIn
      rw [Array.toList_filter]
      exact hdistinct.sublist (List.filter_sublist.map _)
    · rw [Std.TreeMap.mem_keys, List.mem_map, Std.TreeMap.mem_iff_isSome_getElem?, Option.isSome_iff_exists]
      constructor
      · rintro ⟨c, hc, rfl⟩
        have hmet := (Array.mem_filter.1 (Array.mem_toList_iff.1 hc)).2
        rwa [Std.TreeMap.contains_eq_isSome_getElem?, Option.isSome_iff_exists] at hmet
      · rintro ⟨c, hc⟩
        obtain rfl := (hsound a c hc).2
        refine ⟨c, Array.mem_toList_iff.2 (Array.mem_filter.2 ⟨htracked _ c hc, ?_⟩), rfl⟩
        rw [Std.TreeMap.contains_eq_isSome_getElem?, hc]
        rfl
  have hlength := hsame.length_eq
  rwa [List.length_map, Array.length_toList, Std.TreeMap.length_keys] at hlength

end Store

/-- **What heaps track and what they have reclaimed adds up, and a collection is done at once.**  Every store that a session
comes to is reached by transitions that make no heap active before it is there.  In every store that such transitions
pass through, with any number of heaps, the cells in the table of a heap were registered there, and their addresses are
different and from 1 up to the number of cells that it has created; and what it tracks and what it has reclaimed are no more
than that.  The rest is what was dropped when it was closed: in a run in which it was not closed while it tracked a cell,
there is no rest.

In every store in which nothing but cells is referred to, a collection comes to a number by which the tracked cells become
fewer and the reclaimed ones more.  It changes no cell, no other heap, and of this heap only the table and what is
reclaimed; each heap keeps alive what it did before.  Another collection after it comes to nothing.  If all
that it finds is tracked, what it tracks afterwards is as many cells as are live. -/
theorem tables_add_up :
    (∀ f : Form, (Expr.ofForm f).Plain) ∧
    (∀ (p : Program) (es : List Expr), (∀ x ∈ p, x.2.body.Plain) → (∀ e ∈ es, e.Plain) →
      ∀ o ∈ Session.run p es, o.store.Attained) ∧
    (∀ s : Store, s.Attained → ∀ h,
      ((s.heap h).table.toList.map s.address).Nodup ∧
      (∀ c ∈ (s.heap h).table, s.home? c = some h ∧ 1 ≤ s.address c ∧ s.address c ≤ (s.heap h).created) ∧
      (s.heap h).table.size + (s.heap h).reclaimed ≤ (s.heap h).created) ∧
    (∀ h s k, Moment.Proceeds ⟨{}, []⟩ ⟨s, k⟩ → ∃ n, Moment.Clears h ⟨s, k⟩ n) ∧
    (∀ h s k n, Moment.Clears h ⟨s, k⟩ n → (s.heap h).table.size + (s.heap h).reclaimed + n = (s.heap h).created) ∧
    (∀ h s k, Moment.Unclosed h ⟨{}, []⟩ ⟨s, k⟩ → (s.heap h).table.size + (s.heap h).reclaimed = (s.heap h).created) ∧
    ∀ (s : Store) (h : HeapId), OnlyCells ((s.heap h).roots.map (·.2)) → (∀ c, OnlyCells (s.refs c)) →
      ∃ (found : Found) (dead : Nat) (e : Store), s.reachable h = .ok found ∧ Run.collect h s = .ok dead e ∧
        (e.heap h).table.size + dead = (s.heap h).table.size ∧ (e.heap h).reclaimed = (s.heap h).reclaimed + dead ∧
        e.heap h = { s.heap h with table := (e.heap h).table, reclaimed := (e.heap h).reclaimed } ∧
        (∀ g ≠ h, e.heap g = s.heap g) ∧ e = { s with heaps := e.heaps, events := e.events } ∧
        (∀ g, e.reachable g = s.reachable g ∧ e.liveCount g = s.liveCount g) ∧
        (∃ e', Run.collect h e = .ok 0 e' ∧ ∀ g, e'.heap g = e.heap g) ∧
        (((s.heap h).table.toList.map s.address).Nodup → (∀ (a : Nat) (c : CellId), found[a]? = some c → c ∈ (s.heap h).table) →
          e.liveCount h = .ok (e.heap h).table.size) := by
  refine ⟨Expr.plain_ofForm, fun p es hp hes o ho => Session.attained_of_mem (Program.plain_of_bodies hp) hes ho,
    fun s hs h => ⟨(hs.table h).1, (hs.table h).2, ?_⟩, fun h s k hk => hk.clears h, fun h s k n hn => hn.adds_up,
    fun h s k hk => hk.clears.adds_up, fun s h hroots hrefs => ?_⟩
  · obtain ⟨k, hk⟩ := hs
    obtain ⟨n, hn⟩ := hk.clears h
    have hsum : (s.heap h).table.size + (s.heap h).reclaimed + n = (s.heap h).created := hn.adds_up
    omega
  · obtain ⟨found, hfound⟩ : ∃ found, s.reachable h = .ok found :=
      s.walk_of_cells hrefs {} _ fun v hv => hroots v (List.mem_reverse.1 hv)
    have hheap := s.heap_collected_self h found
    have hreachable := s.reachable_collected h found
    have hlive : ∀ g, (s.collected h found).liveCount g = s.liveCount g := fun g => by
      rw [Store.liveCount, Store.liveCount, hreachable]
    have hagain := Store.collect_apply ((hreachable h).trans hfound)
    rw [s.foundIn_collected, hheap, Nat.sub_self] at hagain
    have hsame : ∀ g, ((s.collected h found).collected h found).heap g = (s.collected h found).heap g := fun g => by
      rcases eq_or_ne g h with rfl | hg
      · rw [Store.heap_collected_self, s.foundIn_collected, hheap, Nat.sub_self, Nat.add_zero]
      · exact Store.heap_collected_of_ne _ hg found
    refine ⟨found, _, _, hfound, Store.collect_apply hfound, ?_, ?_, ?_, fun g hg => s.heap_collected_of_ne hg found, rfl,
      fun g => ⟨hreachable g, hlive g⟩, ⟨_, hagain, hsame⟩, fun hdistinct htracked => ?_⟩
    · rw [hheap]
      exact Nat.add_sub_cancel' (s.size_foundIn_le h found)
    · rw [hheap]
    · rw [hheap]
    · rw [hlive, hheap, Store.liveCount, hfound, Store.size_foundIn hfound hdistinct htracked]
      rfl

namespace Tables
open Run

/-- On a heap that is opened two cells are made, -/
def made : Store := finalStore ((do enter (← newHeap {}); discard (ready (.int 1)); ready (.int 2)) {})

/-- and one of them is rooted. -/
def tracking : Store := finalStore (setRoot 0 (.str "a") (.cell 0) made)

/-- The heap was not closed on the way. -/
theorem unclosed_tracking : Moment.Unclosed 0 ⟨{}, []⟩ ⟨tracking, []⟩ := by
  let there : Store := { heaps := #[{}] }
  let logged : Store := { there.entered 0 with events := [.opened] }
  let first := logged.register 0 (.evaluated (.int 1))
  have hplaced : ∀ s : Store, s.active = some 0 → s.heaps.size = 1 → Moment.Placed ⟨s, []⟩ := fun s ha hsize g hg => by
    cases ha.symm.trans hg
    exact hsize ▸ Nat.one_pos
  have hthere : Moment.Unclosed 0 ⟨{}, []⟩ ⟨there, []⟩ :=
    .single ⟨.change [] (.newHeap {} (.bool false) (.bool false) false), nofun, fun _ => rfl⟩
  have hentered : Moment.Unclosed 0 ⟨{}, []⟩ ⟨there.entered 0, []⟩ :=
    hthere.tail ⟨.change [] (.entered there 0), hplaced _ rfl rfl, fun _ => rfl⟩
  have hlogged : Moment.Unclosed 0 ⟨{}, []⟩ ⟨logged, []⟩ :=
    hentered.tail ⟨.change [] (.logged _ [.opened]), hplaced _ rfl rfl, fun _ => rfl⟩
  have hfirst : Moment.Unclosed 0 ⟨{}, []⟩ ⟨first, []⟩ :=
    hlogged.tail ⟨.change [] (.newCell logged 0 (.evaluated (.int 1)) rfl), hplaced _ rfl rfl, fun _ => rfl⟩
  -- from here on the heap tracks a cell, and neither step is what closing it would be
  refine (hfirst.tail ⟨.change [] (.newCell first 0 (.evaluated (.int 2)) rfl), hplaced made rfl rfl, fun hclosed => ?_⟩).tail
    ⟨.change [] (.rooted made 0 (.str "a") (.cell 0)), hplaced tracking rfl rfl, fun hclosed => ?_⟩
  · cases congrArg (fun s : Store => s.cells.size) hclosed
  · cases congrArg (fun s : Store => (s.heap 0).table.size) hclosed

end Tables

open Tables in
/-- Of two cells that are tracked one is live, and the other is collected, once. -/
theorem tables_add_up_collected : Moment.Unclosed 0 ⟨{}, []⟩ ⟨tracking, []⟩ ∧
    (tracking.heap 0).table.size + (tracking.heap 0).reclaimed = (tracking.heap 0).created ∧
    ∃ dead e e', Run.collect 0 tracking = .ok dead e ∧ (e.heap 0).table.size + dead = 2 ∧ Run.collect 0 e = .ok 0 e' ∧
      e.liveCount 0 = tracking.liveCount 0 := by
  obtain ⟨-, -, -, -, -, hunclosed, hcollect⟩ := tables_add_up
  have hrefs : ∀ c, OnlyCells (tracking.refs c) := fun c => by
    rcases Nat.lt_or_ge c 2 with hlt | hge
    · have hcells : ∀ c < 2, OnlyCells (tracking.refs c) := by decide +kernel
      exact hcells c hlt
    · rw [Store.refs_of_state (Store.state_of_size_le hge)]
      exact Store.onlyCells_map []
  obtain ⟨found, dead, e, -, hcollected, htracked, -, -, -, -, hsame, ⟨e', hagain, -⟩, -⟩ :=
    hcollect tracking 0 (Store.onlyCells_map [0]) hrefs
  exact ⟨unclosed_tracking, hunclosed 0 tracking [] unclosed_tracking, dead, e, e', hcollected, htracked, hagain, (hsame 0).2⟩

end Retention
