import Retention.Proofs.Course
import Retention.Proofs.Demanding
import Retention.Proofs.Homonyms
/-!
# Driving — a consumer of a shared repetition retains all that it dropped

The heap of a consumer has one root, the cell that is left, and every step moves it forward.  What holds between two
steps is that the consumer stands before a cell of the repetition from which links lead to a lap (`Consumer.Stands`).
The lap refers to the origin, and from there the nodes lead back to the cell that is left (`Stands.keepsAlive`).

`Driven` says what can be done around a repetition, in any order: a consumer drops elements, others look further ahead,
and anything may happen that spares the repetition.  Of the list that is repeated nothing is asked but that it comes to
list nodes and spares the repetition, whenever one of its cells is forced (`Undisturbed`).
-/
namespace Retention

open Store (Leaves Spares Sustains OnlyCells)

variable {p : Program} {depth : Nat} {h : HeapId} {origin source c : CellId} {d : ConsumerId} {s m e : Store}

/-! ## What is left of a list -/

namespace Store

theorem equal_rootName (s e : Store) : s.equal Consumer.rootName = e.equal Consumer.rootName := by
  funext v
  unfold equal Consumer.rootName
  rw [show nestingBound = 4294967295 + 1 from rfl]
  cases v <;> simp [equalIn]

/-- What stands on a heap under the name for what is left of a list. -/
def left? (s : Store) (h : HeapId) : Option Value := Entries.get? s.equal (s.heap h).roots Consumer.rootName

theorem left?_congr (hr : (e.heap h).roots = (s.heap h).roots) : e.left? h = s.left? h := by
  unfold left? Entries.get?
  rw [hr, equal_rootName e s]

theorem left?_rooted (hh : h < s.heaps.size) (v : Value) : (s.rooted h Consumer.rootName v).left? h = some v := by
  have hsame : s.equal Consumer.rootName Consumer.rootName = true := s.equal_of_same rfl
  unfold Store.left? Entries.get?
  rw [rooted, heap_updateHeap hh, equal_rootName _ s]
  exact Entries.get?_put_self _ _ hsame

theorem mem_roots_of_left? {v : Value} (hv : s.left? h = some v) : ∃ name, (name, v) ∈ (s.heap h).roots := by
  unfold left? Entries.get? at hv
  obtain ⟨x, hx, rfl⟩ := Option.map_eq_some_iff.1 hv
  exact ⟨x.1, List.mem_of_find?_eq_some hx⟩

theorem lt_of_left? {v : Value} (hv : s.left? h = some v) : h < s.heaps.size := by
  refine Nat.lt_of_not_le fun hle => ?_
  obtain ⟨name, hmem⟩ := mem_roots_of_left? hv
  rw [heap, Array.getElem?_eq_none hle] at hmem
  cases hmem

/-- A cell of a list, counted from its first cell: it is reached along the tails of nodes that are evaluated. -/
inductive SpineAt (s : Store) (origin : CellId) : Nat → CellId → Prop
  | first : SpineAt s origin 0 origin
  | next {i : Nat} {c r : CellId} {tag : Tag} {head : Value} (hc : SpineAt s origin i c)
    (hnode : s.state c = .evaluated (.cons tag head (.cell r))) : SpineAt s origin (i + 1) r

namespace SpineAt
variable {i j : Nat} {b : CellId} {n : Nat}

theorem unique (hc : s.SpineAt origin i c) (hb : s.SpineAt origin i b) : b = c := by
  induction hc generalizing b with
  | first =>
    cases hb
    rfl
  | next _ hnode ih =>
    cases hb with
    | next hb hnode' =>
      rw [ih hb, hnode] at hnode'
      cases hnode'
      rfl

/-- Every cell before one from which links lead to a lap has a link more for each position between them. -/
theorem before (hc : s.SpineAt origin i c) (hcarries : s.Carries origin source n c) (hle : j ≤ i) :
    ∃ b, s.SpineAt origin j b ∧ s.Carries origin source (n + (i - j)) b := by
  induction hc generalizing n with
  | first =>
    obtain rfl := Nat.le_zero.1 hle
    exact ⟨origin, .first, hcarries⟩
  | @next i c r tag head hc hnode ih =>
    rcases Nat.lt_or_eq_of_le hle with hlt | rfl
    · obtain ⟨b, hb, hcarries'⟩ := ih (.node hnode hcarries) (Nat.le_of_lt_succ hlt)
      exact ⟨b, hb, by rwa [show n + (i + 1 - j) = n + 1 + (i - j) by omega]⟩
    · exact ⟨r, .next hc hnode, by rwa [Nat.sub_self]⟩

/-- No cell stands at two positions before one from which links lead to a lap. -/
theorem injective (hc : s.SpineAt origin i c) (hcarries : s.Carries origin source n c) {j' : Nat} (hj : j ≤ i)
    (hj' : j' ≤ i) (hb : s.SpineAt origin j b) (hb' : s.SpineAt origin j' b) : j = j' := by
  obtain ⟨x, hx, hcx⟩ := hc.before hcarries hj
  obtain ⟨y, hy, hcy⟩ := hc.before hcarries hj'
  obtain rfl := hb.unique hx
  obtain rfl := hb'.unique hy
  have := hcx.unique hcy
  omega

theorem sustained (hc : s.SpineAt origin i c) (hcarries : s.Carries origin source n c)
    (hs : Sustains origin source s e) : e.SpineAt origin i c := by
  induction hc generalizing n with
  | first => exact .first
  | next _ hnode ih =>
    have hbefore := hcarries.node hnode
    exact .next (ih hbefore) ((hs.settled _ _ hbefore fun t => by rw [hnode]; simp).trans hnode)

theorem path (hc : s.SpineAt origin i c) : s.Path origin c := by
  induction hc with
  | first => exact .refl origin
  | next _ hnode ih =>
    refine ih.snoc ?_
    rw [refs_of_state hnode]
    exact List.mem_cons_of_mem _ List.mem_cons_self

end SpineAt
end Store

/-! ## Steps -/

namespace Consumer
variable {k : Nat}

/-- After `k` steps a consumer of a heap stands before the cell `c` of a repetition, and the repetition goes on from
there. -/
structure Stands (h : HeapId) (origin source : CellId) (d : ConsumerId) (k : Nat) (c : CellId) (s : Store) : Prop where
  consumer : ∃ x, s.consumers[d]? = some x ∧ x.heap = h
  left : s.left? h = some (.cell c)
  spine : s.SpineAt origin k c
  carries : ∃ n, s.Carries origin source n c

namespace Stands

theorem remaining (hs : Stands h origin source d k c s) : remaining d s = .ok (.cell c) s := by
  obtain ⟨x, hx, rfl⟩ := hs.consumer
  unfold Consumer.remaining
  rw [Run.bind_ok (find_apply hx)]
  exact root_of_get? hs.left

/-- What sustains the repetition and leaves the root does not move the consumer. -/
theorem sustained (hs : Stands h origin source d k c s) (hsustains : Sustains origin source s e) (hl : s.Leaves h e) :
    Stands h origin source d k c e := by
  obtain ⟨n, hcarries⟩ := hs.carries
  obtain ⟨x, hx, hxh⟩ := hs.consumer
  obtain ⟨y, hy, hyx⟩ := hl.consumers d x hx
  exact ⟨⟨y, hy, hyx.trans hxh⟩, (Store.left?_congr hl.roots).trans hs.left, hs.spine.sustained hcarries hsustains,
    hsustains.carries n c hcarries⟩

/-- **A step leads to the next cell of the repetition.** -/
theorem step {b : Bool} (hs : Stands h origin source d k c s) (hquiet : Undisturbed p h origin source depth s c)
    (hr : Consumer.step (p.runAt depth) d s = .ok b e) : b = true ∧ ∃ r, Stands h origin source d (k + 1) r e := by
  obtain ⟨n, hcarries⟩ := hs.carries
  have hsteps := hr
  rw [step_eq, Run.bind_ok hs.remaining] at hsteps
  obtain ⟨rest, m, hdrop, -⟩ := Run.bind_eq_ok hsteps
  obtain ⟨v, m, hforce, hrest⟩ := Run.bind_eq_ok hdrop
  have hforced : force (p.runAt depth) c s = .ok v m := hforce
  obtain ⟨tag, head, r, j, rfl, hcarries', hsustains, hleaves⟩ := hcarries.force hquiet hforced
  cases hrest
  have hnode := force_ok_state hforced
  have hm := hs.sustained hsustains hleaves
  -- the cell that was left has one link more than its tail, so the two are not the same
  have hne : r ≠ c := fun heq => Nat.succ_ne_self j ((hcarries'.node hnode).unique (heq ▸ hcarries'))
  obtain ⟨x, hx, rfl⟩ := hm.consumer
  rw [step_of_moved hs.remaining (Run.bind_ok hforced) hx (beq_false_of_ne hne)] at hr
  obtain ⟨sampled, m', htruth, hsampled⟩ := Run.bind_eq_ok hr
  obtain rfl := Run.truth_ok htruth
  have hstepped : Stands x.heap origin source d (k + 1) r (moved x d (.cell r) m) := by
    refine ⟨⟨{ x with steps := x.steps + 1 }, consumer_moved hx _, rfl⟩, ?_, ?_, j, ?_⟩
    · have hroots : ((moved x d (.cell r) m).heap x.heap).roots =
        ((m.rooted x.heap rootName (.cell r)).heap x.heap).roots := rfl
      exact (Store.left?_congr hroots).trans (Store.left?_rooted (Store.lt_of_left? hm.left) (.cell r))
    · exact (hm.spine.next hnode).sustained hcarries' (.of_state fun _ _ _ => rfl)
    · exact hcarries'.congr_state fun _ _ _ _ => rfl
  cases sampled with
  | false =>
    cases hsampled
    exact ⟨rfl, r, hstepped⟩
  | true =>
    obtain ⟨live, m', hsample, hnote⟩ := Run.bind_eq_ok hsampled
    cases hnote
    obtain ⟨-, -, -, rfl⟩ := Run.sample_ok hsample
    have hleaves := Store.Leaves.noteLive (h := x.heap) (moved x d (.cell r) m) x.heap live
    exact ⟨rfl, r, hstepped.sustained (.of_state fun _ _ _ => rfl) ⟨hleaves.roots, hleaves.consumers⟩⟩

/-- So do several steps, one after the other. -/
theorem advance {n : Nat} {u : Unit} (hs : Stands h origin source d k c s)
    (hquiet : ∀ i < n, ∀ m b, Consumer.advance (p.runAt depth) d i s = .ok () m →
      Consumer.remaining d m = .ok (.cell b) m → Undisturbed p h origin source depth m b)
    (hr : Consumer.advance (p.runAt depth) d n s = .ok u e) : ∃ r, Stands h origin source d (k + n) r e := by
  induction n generalizing s k c with
  | zero =>
    cases hr
    exact ⟨c, hs⟩
  | succ n ih =>
    obtain ⟨b, m, hstep, hrest⟩ := Run.bind_eq_ok hr
    obtain ⟨rfl, r, hm⟩ := hs.step (hquiet 0 (Nat.succ_pos n) s c rfl hs.remaining) hstep
    obtain ⟨r', hr'⟩ := ih hm (fun i hi m' b hadvance =>
      hquiet (i + 1) (Nat.succ_lt_succ hi) m' b ((Run.bind_ok hstep).trans hadvance)) hrest
    exact ⟨r', by rwa [show k + (n + 1) = k + 1 + n by omega]⟩

/-- A new consumer stands at the origin. -/
theorem ofNew {samples : Value} {n : Nat} (hcarries : s.Carries origin source n origin) (hh : h < s.heaps.size)
    (hr : Consumer.new h samples (.cell origin) s = .ok d e) : Stands h origin source d 0 origin e := by
  let rooted := s.rooted h rootName (.cell origin)
  have hleft : rooted.left? h = some (.cell origin) := Store.left?_rooted hh (.cell origin)
  unfold Consumer.new at hr
  rw [Run.bind_ok (setRoot_apply s h (.cell origin))] at hr
  obtain ⟨sampled, m, htruth, hrest⟩ := Run.bind_eq_ok hr
  obtain rfl := Run.truth_ok htruth
  obtain ⟨m, hcells, hleaves, hpush⟩ : ∃ m : Store, m.cells = s.cells ∧ rooted.Leaves h m ∧
      (m.consumers.size, { m with consumers := m.consumers.push ⟨h, samples, 0⟩ }) = (d, e) := by
    cases sampled with
    | false =>
      cases hrest
      exact ⟨rooted, rfl, .refl h rooted, rfl⟩
    | true =>
      obtain ⟨u, m, hdiscard, hpush⟩ := Run.bind_eq_ok hrest
      obtain ⟨live, m', hsample, hunit⟩ := Run.bind_eq_ok hdiscard
      cases hunit
      cases hpush
      obtain ⟨-, -, -, rfl⟩ := Run.sample_ok hsample
      exact ⟨rooted.noteLive h live, rfl, .noteLive rooted h live, rfl⟩
  cases hpush
  refine ⟨⟨⟨h, samples, 0⟩, Array.getElem?_push_size, rfl⟩, ?_, .first, n, ?_⟩
  · refine (Store.left?_congr ?_).trans hleft
    exact hleaves.roots
  · exact hcarries.congr_state fun _ b _ _ => congrFun (Store.state_of_cells (e := m) hcells) b

/-- **The heap of the consumer keeps all of this alive**: the origin, the list that is repeated, and the cells of the
repetition up to the one that is left. -/
theorem keepsAlive (hs : Stands h origin source d k c s) (hsource : source < s.cells.size) :
    s.KeepsAlive h source ∧ ∀ i ≤ k, ∀ b, s.SpineAt origin i b → s.KeepsAlive h b := by
  obtain ⟨n, hcarries⟩ := hs.carries
  obtain ⟨name, hroot⟩ := Store.mem_roots_of_left? hs.left
  obtain ⟨horigin, hlist⟩ := hcarries.path
  refine ⟨⟨hsource, name, c, hroot, Store.path_iff_connected.1 hlist⟩, fun i hi b hb => ?_⟩
  obtain ⟨b', hb', hbcarries⟩ := hs.spine.before hcarries hi
  obtain rfl := hb'.unique hb
  exact ⟨hbcarries.lt, name, c, hroot,
    (Store.path_iff_connected.1 horigin).trans (Store.path_iff_connected.1 hb.path)⟩

end Stands
end Consumer

/-! ## Whatever is done around a repetition -/

/-- What is done around the shared repetition of a list of the store, one thing after the other.  There is a consumer of
it on a heap once so many elements were dropped, be it none. -/
inductive Driven (p : Program) (h : HeapId) (origin source : CellId) (d : ConsumerId) : Option Nat → Store → Prop
  /-- The repetition is made. -/
  | shared {s e : Store} (hsource : source < s.cells.size) (hr : Cycle.shared (.cell source) s = .ok origin e) :
    Driven p h origin source d none e
  /-- The consumer is made, with or without samples. -/
  | consumer {s e : Store} {samples : Value} (hs : Driven p h origin source d none s) (hh : h < s.heaps.size)
    (hr : Consumer.new h samples (.cell origin) s = .ok d e) : Driven p h origin source d (some 0) e
  /-- The consumer drops elements, and the list that is repeated is undisturbed at every step. -/
  | dropped {s e : Store} {k n depth : Nat} {v : Value} (hs : Driven p h origin source d (some k) s)
    (hquiet : ∀ i < n, ∀ m c, Consumer.advance (p.runAt depth) d i s = .ok () m →
      Consumer.remaining d m = .ok (.cell c) m → Undisturbed p h origin source depth m c)
    (hr : Consumer.drop (p.runAt depth) d n s = .ok v e) : Driven p h origin source d (some (k + n)) e
  /-- Someone else forces a cell of the repetition, be it ahead of the consumer or behind. -/
  | forced {s e : Store} {k : Option Nat} {n depth : Nat} {c : CellId} {v : Value} (hs : Driven p h origin source d k s)
    (hc : s.Carries origin source n c) (hquiet : Undisturbed p h origin source depth s c)
    (hr : force (p.runAt depth) c s = .ok v e) : Driven p h origin source d k e
  /-- Anything else happens that spares the repetition. -/
  | other {s e : Store} {k : Option Nat} (hs : Driven p h origin source d k s) (hr : s.Runs e)
    (hspares : s.Spares h origin source e) : Driven p h origin source d k e

namespace Driven
variable {k : Option Nat}

theorem source_lt (hs : Driven p h origin source d k s) : source < s.cells.size := by
  induction hs with
  | shared hsource hr => exact ((Cycle.follows_shared _).runs_of_ok hr).lt_size hsource
  | consumer _ _ hr ih => exact ((Consumer.follows_new h _ _).runs_of_ok hr).lt_size ih
  | @dropped _ _ _ n depth _ _ _ hr ih =>
    exact ((Consumer.follows_drop (p.follows_runAt depth) d n).runs_of_ok hr).lt_size ih
  | forced _ _ _ hr ih => exact (runs_of_force_ok hr).lt_size ih
  | other _ hr _ ih => exact hr.lt_size ih

/-- Before there is a consumer, links lead from the origin to a lap; afterwards it stands before a cell of the
repetition. -/
theorem stands (hs : Driven p h origin source d k s) :
    (∃ n, s.Carries origin source n origin) ∧ ∀ i, k = some i → ∃ c, Consumer.Stands h origin source d i c s := by
  induction hs with
  | @shared s e _ hr =>
    obtain ⟨g, m, hactive, hmade⟩ := Run.bind_eq_ok hr
    obtain ⟨-, rfl⟩ := Run.activeHeap_ok hactive
    cases hmade
    have hstate := Store.state_register_new m g (.suspended (.cycleStart m.cells.size (.cell source)))
    exact ⟨⟨0, .lap (by rw [hstate]; rfl) (.inl rfl)⟩, fun i hi => by cases hi⟩
  | consumer _ hh hr ih =>
    obtain ⟨⟨n, hcarries⟩, -⟩ := ih
    have hnew := Consumer.Stands.ofNew hcarries hh hr
    exact ⟨hnew.carries, fun i hi => by cases hi; exact ⟨origin, hnew⟩⟩
  | @dropped s e k n depth v _ hquiet hr ih =>
    obtain ⟨c, hstands⟩ := ih.2 k rfl
    obtain ⟨u, m, hadvance, hremaining⟩ := Run.bind_eq_ok hr
    rw [Int.toNat_natCast] at hadvance
    obtain ⟨r, hr'⟩ := hstands.advance hquiet hadvance
    rw [hr'.remaining] at hremaining
    cases hremaining
    obtain ⟨j, hcarries⟩ := hr'.carries
    obtain ⟨b, hb, hbcarries⟩ := hr'.spine.before hcarries (Nat.zero_le _)
    cases hb
    exact ⟨⟨_, hbcarries⟩, fun i hi => by cases hi; exact ⟨r, hr'⟩⟩
  | forced _ hc hquiet hr ih =>
    obtain ⟨⟨n, hcarries⟩, hstands⟩ := ih
    obtain ⟨_, _, _, _, -, -, hsustains, hleaves⟩ := hc.force hquiet hr
    refine ⟨hsustains.carries n origin hcarries, fun i hi => ?_⟩
    obtain ⟨c, hc⟩ := hstands i hi
    exact ⟨c, hc.sustained hsustains hleaves⟩
  | other _ _ hspares ih =>
    obtain ⟨⟨n, hcarries⟩, hstands⟩ := ih
    refine ⟨hspares.sustains.carries n origin hcarries, fun i hi => ?_⟩
    obtain ⟨c, hc⟩ := hstands i hi
    exact ⟨c, hc.sustained hspares.sustains hspares.toLeaves⟩

end Driven

/-- **Whatever a consumer of a shared repetition dropped stays alive.**  Take any list of the store, which may or may not
end, and any run of things done around its shared repetition in which a consumer on a heap dropped `k` elements, while
others looked further ahead or not.  Wherever a cell of the list was forced for that, it came to a list node and spared
the repetition.  Then the search of the heap, if all that the heap keeps alive was registered with one heap and refers to
nothing but cells, comes to a result and finds the origin, the list, and each of the `k + 1` cells of the repetition up
to the one that is left, which are all different. -/
theorem dropped_elements_are_retained (p : Program) {h g : HeapId} {origin source : CellId} {d : ConsumerId} {k : Nat}
    {s : Store} (hs : Driven p h origin source d (some k) s) (hattained : s.Attained)
    (hhome : ∀ c, s.KeepsAlive h c → s.home? c = some g) (hroots : OnlyCells ((s.heap h).roots.map (·.2)))
    (hrefs : ∀ c, s.KeepsAlive h c → OnlyCells (s.refs c)) :
    ∃ found : Found, Run.reachable h s = .ok found s ∧ found[s.address origin]? = some origin ∧
      found[s.address source]? = some source ∧
      (∀ i ≤ k, ∃ c, (∀ b, s.SpineAt origin i b ↔ b = c) ∧ found[s.address c]? = some c) ∧
      (∀ i j c, i ≤ k → j ≤ k → s.SpineAt origin i c → s.SpineAt origin j c → i = j) ∧
      ∃ c, s.SpineAt origin k c ∧ Consumer.remaining d s = .ok (.cell c) s := by
  obtain ⟨-, hall⟩ := hs.stands
  obtain ⟨c, hstands⟩ := hall k rfl
  obtain ⟨hsource, hspine⟩ := hstands.keepsAlive hs.source_lt
  obtain ⟨n, hcarries⟩ := hstands.carries
  obtain ⟨pending, hproceeds⟩ := hattained
  have hapart : Set.InjOn s.address {c | s.KeepsAlive h c} := (hproceeds.balanced.store.injOn_address g).mono hhome
  obtain ⟨found, hfound, hexact, -⟩ := Store.reachable_of_injOn hapart hroots hrefs
  refine ⟨found, Run.reachable_eq_ok_iff.2 ⟨hfound, rfl⟩, (hexact _ origin).2 ⟨hspine 0 (Nat.zero_le k) origin .first, rfl⟩,
    (hexact _ source).2 ⟨hsource, rfl⟩, fun i hi => ?_, fun i j b hi hj hb hb' => ?_, c, hstands.spine, hstands.remaining⟩
  · obtain ⟨b, hb, -⟩ := hstands.spine.before hcarries hi
    exact ⟨b, fun b' => ⟨fun hb' => hb.unique hb', fun heq => heq ▸ hb⟩, (hexact _ b).2 ⟨hspine i hi b hb, rfl⟩⟩
  · exact hstands.spine.injective hcarries hi hj hb hb'

/-- **The list over an interval spares every repetition**, on a heap that takes no samples of its own accord. -/
theorem force_interval_spares {r : Interval} {tag : Tag} {v : Value} (hs : s.Hosts h)
    (hc : s.state c = .suspended (.intervalNode tag (.int r.lo) (.int r.hi))) (hlimit : r.length ≤ sizeLimit)
    (hr : force (p.runAt depth) c s = .ok v e) : v.IsListNode ∧ s.Spares h origin source e := by
  have hspares : ∀ made forced, Store.Grown h s e made forced [c] → s.Spares h origin source e := fun made forced hg => by
    obtain ⟨table, hheap⟩ := hg.heap
    refine ⟨.of_eq (by rw [hheap]) hg.consumers, fun n b hb => hg.state b hb.lt fun hmem => ?_⟩
    obtain rfl := List.mem_singleton.1 hmem
    cases hb with
    | lap hthunk ht =>
      rw [hc] at hthunk
      cases hthunk
      obtain ht | ⟨_, ht⟩ := ht <;> cases ht
    | tail hthunk =>
      rw [hc] at hthunk
      cases hthunk
    | node hnode =>
      rw [hc] at hnode
      cases hnode
  obtain ⟨depth, _, _, rfl, -⟩ := force_ok_of_suspended hc hr
  rcases Int.lt_or_le r.hi r.lo with hempty | hne
  · obtain ⟨e', hforce, hg, -⟩ := force_interval_empty p depth hs hc hempty
    cases hforce.symm.trans hr
    exact ⟨trivial, hspares _ _ hg⟩
  · obtain ⟨next, rest, e', hforce, hg, -⟩ := force_interval p depth hs hc hne hlimit
    cases hforce.symm.trans hr
    exact ⟨trivial, hspares _ _ hg⟩

namespace Driving
open Run

/-- The value that a computation came to. -/
def value? {α : Type} : EStateM.Result Halt Store α → Option α
  | .ok a _ => some a
  | .error _ _ => none

theorem eq_ok_of_value? {α : Type} {r : EStateM.Result Halt Store α} {a : α} (hr : value? r = some a) :
    r = .ok a (finalStore r) := by
  cases r <;> cases hr
  rfl

/-- Opens a heap, and makes the list over an interval on it. -/
def openWithInterval (lo hi : Int) : Run CellId := do
  enter (← newHeap {})
  Sequence.between (.int lo) (.int hi)

/-- A heap with the list over two integers, -/
def opened : Store := finalStore (openWithInterval 7 8 {})

/-- with the shared repetition of the list, -/
def repeated : Store := finalStore (Cycle.shared (.cell 0) opened)

/-- with a consumer of it, -/
def consumed : Store := finalStore (Consumer.new 0 (.bool false) (.cell 1) repeated)

/-- and after the consumer dropped an element. -/
def dropped : Store := finalStore (Consumer.drop (Program.runAt [] 3) 0 (1 : Nat) consumed)

theorem attained_dropped : dropped.Attained := by
  have hopens : Keeps 0 (openWithInterval 7 8) := keeps_bindHeap (keepsHeap_newHeap _ _ _) fun h m _ hh =>
    keeps_bind (keeps_enter hh) fun _ _ _ _ =>
      Sequence.keeps_between (below_of_isLeaf (v := .int 7) trivial) (below_of_isLeaf (v := .int 8) trivial)
  have hplain : Program.Plain [] := Program.plain_of_bodies fun x hx => absurd hx List.not_mem_nil
  obtain ⟨hopened, hgrounded⟩ := Store.Attained.of_keeps (s := {}) ⟨[], .refl⟩ Store.grounded_empty hopens
  obtain ⟨hrepeated, hgrounded⟩ := hopened.of_keeps hgrounded
    (Cycle.keeps_shared (below_of_isLeaf (v := .cell 0) trivial))
  obtain ⟨hconsumed, hgrounded⟩ := hrepeated.of_keeps hgrounded
    (Consumer.keeps_new 0 (below_of_isLeaf (v := .bool false) trivial) (below_of_isLeaf (v := .cell 1) trivial))
  exact (hconsumed.of_keeps hgrounded (Consumer.keeps_drop (Program.keeps_runAt hplain 3) 0 (1 : Nat))).1

theorem driven_consumed : Driven [] 0 1 0 0 (some 0) consumed := by
  have hrepeated : Driven [] 0 1 0 0 none repeated :=
    .shared (show 0 < opened.cells.size by decide +kernel) (eq_ok_of_value? (by decide +kernel))
  exact .consumer hrepeated (by decide +kernel) (eq_ok_of_value? (by decide +kernel))

theorem undisturbed_consumed : Undisturbed [] 0 1 0 3 consumed 1 := by
  have horigin : consumed.state 1 = .suspended (.cycleStart 1 (.cell 0)) := rfl
  have hlist : consumed.state 0 = .suspended (.intervalNode 1 (.int 7) (.int 8)) := rfl
  have hhosts : consumed.Hosts 0 := ⟨by decide +kernel, by decide +kernel, rfl⟩
  intro n m x hdemand v e hforce
  cases hdemand with
  | start ha hc =>
    obtain ⟨rfl⟩ := hhosts.active.symm.trans ha
    have hbegan : (consumed.began 1 0 (.cycleStart 1 (.cell 0))).state 0 = consumed.state 0 :=
      Store.state_began_of_ne consumed (by decide) 0 _
    exact force_interval_spares (r := ⟨7, 8⟩) ⟨hhosts.active, hhosts.valid, hhosts.quiet⟩ (hbegan.trans hlist) (by decide)
      hforce
  | lap _ hc | first _ hc | second _ hc =>
    rw [horigin] at hc
    cases hc

theorem driven_dropped : Driven [] 0 1 0 0 (some 1) dropped := by
  obtain ⟨v, hv⟩ : ∃ v, value? (Consumer.drop (Program.runAt [] 3) 0 (1 : Nat) consumed) = some v :=
    Option.isSome_iff_exists.1 (by decide +kernel)
  have hdrop : Consumer.drop (Program.runAt [] 3) 0 (1 : Nat) consumed = .ok v dropped := eq_ok_of_value? hv
  refine .dropped driven_consumed (fun i hi m c hadvance hremaining => ?_) hdrop
  obtain rfl := Nat.lt_one_iff.1 hi
  cases hadvance
  obtain ⟨c', hstands⟩ := driven_consumed.stands.2 0 rfl
  obtain rfl := Store.SpineAt.first.unique hstands.spine
  rw [hstands.remaining] at hremaining
  cases hremaining
  exact undisturbed_consumed

end Driving

open Driving in
theorem dropped_elements_are_retained_interval :
    Driven [] 0 1 0 0 (some 1) dropped ∧ dropped.Attained ∧ (∀ c, dropped.KeepsAlive 0 c → dropped.home? c = some 0) ∧
      OnlyCells ((dropped.heap 0).roots.map (·.2)) ∧ (∀ c, dropped.KeepsAlive 0 c → OnlyCells (dropped.refs c)) ∧
      ∃ found : Found, Run.reachable 0 dropped = .ok found dropped ∧ found[dropped.address 1]? = some 1 ∧
        found[dropped.address 0]? = some 0 ∧ ∃ c, dropped.SpineAt 1 1 c ∧ found[dropped.address c]? = some c := by
  have hsize : dropped.cells.size = 7 := by decide +kernel
  have hall : ∀ c < 7, dropped.home? c = some 0 ∧ OnlyCells (dropped.refs c) := by decide +kernel
  have hhome : ∀ c, dropped.KeepsAlive 0 c → dropped.home? c = some 0 := fun c hc => (hall c (hsize ▸ hc.1)).1
  have hrefs : ∀ c, dropped.KeepsAlive 0 c → OnlyCells (dropped.refs c) := fun c hc => (hall c (hsize ▸ hc.1)).2
  have hroots : OnlyCells ((dropped.heap 0).roots.map (·.2)) := by decide +kernel
  obtain ⟨found, hfound, horigin, hsource, hspine, -⟩ :=
    dropped_elements_are_retained [] driven_dropped attained_dropped hhome hroots hrefs
  obtain ⟨c, hc, hcfound⟩ := hspine 1 (Nat.le_refl 1)
  exact ⟨driven_dropped, attained_dropped, hhome, hroots, hrefs, found, hfound, horigin, hsource, c, (hc c).2 rfl, hcfound⟩

end Retention
