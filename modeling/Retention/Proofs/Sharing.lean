import Retention.Proofs.Pulling
/-!
# Sharing — lists that share an iterator

Several lists over one iterator share its items among them, as it happens: each item goes to the cell whose force pulled
it, and stays there.

The pulls are kept account of in a log, one entry each (`Pull`).  `Sharing` is anything that can be done while lists share
an iterator: a cell of any of them draws on it, from wherever; or anything else happens, in which no cell of them is
forced and the iterator does not move.  `Shared` is the invariant.  What carries it is that cells are numbered as they are
made: the node that a pull makes has fields that are later than all cells of the pulls before (`Shared.apart`).  So the
links between cells of the lists lead to later pulls, no two of them to the same cell, and every cell of a list can be
traced back to where the list begins (`Shared.root`).
-/
namespace Retention

open Run (finalStore)

variable {p : Program} {i : IteratorId} {depth : Nat} {g : HeapId} {s m e f : Store} {c d x y : CellId} {k k₀ k' : Cursor}
  {v : Value} {o : Yield} {l : List CellId}

/-! ## The log -/

/-- One pull: the cell whose force made it, how it ended, how far the iterator was before it and after it, and how many
cells there were after it. -/
structure Pull where
  cell : CellId
  outcome : Yield
  before : Cursor
  after : Cursor
  size : Nat

/-- The item that a pull gave. -/
def Pull.item? (q : Pull) : Option Value :=
  match q.outcome with
  | .item v => some v
  | _ => none

/-- From pull to pull the iterator moves on, and nothing else moves it. -/
inductive Turned (k₀ : Cursor) : List Pull → Cursor → Prop
  | start : Turned k₀ [] k₀
  | pull {log : List Pull} {q : Pull} (hlog : Turned k₀ log q.before) (hturn : q.before.Turns q.outcome q.after) :
    Turned k₀ (log ++ [q]) q.after

namespace Cursor.Turns

theorem not_busy (h : k.Turns o k') : k' ≠ .busy := by
  cases h <;> exact Cursor.noConfusion

theorem finished (h : k.Turns o k') (ho : ∀ v, o ≠ .item v) : k' = .finished := by
  cases h with
  | item | call | visit => exact absurd rfl (ho _)
  | empty | spent | ended | raised => rfl

/-- Once an iterator is finished, it gives nothing any more. -/
theorem of_finished (h : Cursor.finished.Turns o k') : o = .exhausted ∧ k' = .finished := by
  cases h with
  | spent => exact ⟨rfl, rfl⟩
  | ended hk => cases hk
  | raised hk => cases hk

end Cursor.Turns

namespace Turned
variable {log : List Pull}

theorem not_busy (h : Turned k₀ log k) (h₀ : k₀ ≠ .busy) : k ≠ .busy := by
  cases h with
  | start => exact h₀
  | pull _ hturn => exact hturn.not_busy

/-- **After a pull that gave no item, the iterator is finished**, and every pull finds that there are no more. -/
theorem no_more (h : Turned k₀ log k) : ((∃ q ∈ log, ∀ v, q.outcome ≠ .item v) → k = .finished) ∧
    log.Pairwise fun q q' => (∀ v, q.outcome ≠ .item v) → q'.outcome = .exhausted := by
  induction h with
  | start => exact ⟨fun ⟨q, hq, _⟩ => absurd hq List.not_mem_nil, .nil⟩
  | @pull log q _ hturn ih =>
    have hlast : ∀ q' ∈ log, (∀ v, q'.outcome ≠ .item v) → q.outcome = .exhausted ∧ q.after = .finished :=
      fun q' hq' hnone => by
        rw [ih.1 ⟨q', hq', hnone⟩] at hturn
        exact hturn.of_finished
    refine ⟨fun ⟨q', hq', hnone⟩ => ?_, List.pairwise_append.2 ⟨ih.2, List.pairwise_singleton _ _, fun q' hq' => ?_⟩⟩
    · rcases List.mem_append.1 hq' with hq' | hq'
      · exact (hlast q' hq' hnone).2
      · rw [List.mem_singleton.1 hq'] at hnone
        exact hturn.finished hnone
    · exact List.forall_mem_singleton.2 fun hnone => (hlast q' hq' hnone).1

/-- The items that were pulled are the first of those that there were, in this order; they are all, once a pull found
that there are no more. -/
theorem items {vs : List Value} (h : Turned (.items vs) log k) : ∃ rest, vs = log.filterMap Pull.item? ++ rest ∧
    (k = .items rest ∧ (∀ q ∈ log, ∃ v, q.outcome = .item v) ∨ k = .finished ∧ rest = []) := by
  induction h with
  | start => exact ⟨vs, rfl, .inl ⟨rfl, fun q hq => absurd hq List.not_mem_nil⟩⟩
  | @pull log q _ hturn ih =>
    obtain ⟨rest, hvs, ⟨hk, hall⟩ | ⟨hk, rfl⟩⟩ := ih
    · obtain ⟨c, o, before, after, size⟩ := q
      cases hk
      cases hturn with
      | @item v rest =>
        refine ⟨rest, ?_, .inl ⟨rfl, List.forall_mem_append.2 ⟨hall, List.forall_mem_singleton.2 ⟨v, rfl⟩⟩⟩⟩
        rw [hvs, List.filterMap_append, List.append_assoc]
        rfl
      | empty =>
        refine ⟨[], ?_, .inr ⟨rfl, rfl⟩⟩
        rw [hvs, List.filterMap_append, List.append_assoc]
        rfl
      | ended hk => cases hk
      | raised hk => cases hk
    · rw [hk] at hturn
      obtain ⟨ho, hafter⟩ := hturn.of_finished
      refine ⟨[], ?_, .inr ⟨hafter, rfl⟩⟩
      rw [hvs, List.filterMap_append, List.filterMap_cons_none (by rw [Pull.item?, ho]), List.append_assoc]
      rfl

/-- The items of an iterator over the results of a function are those of the calls on one integer after the other. -/
theorem calls {fn : Function} {n : Int} {stop : Value} (h : Turned (.calls fn n stop) log k) :
    (k = .calls fn (n + log.length) stop ∨ k = .finished) ∧
      ∀ (j : Nat) q v, log[j]? = some q → q.outcome = .item v → q.before = .calls fn (n + j) stop := by
  induction h with
  | start => exact ⟨.inl (by rw [List.length_nil, Int.natCast_zero, Int.add_zero]), fun j q v hq => by cases hq⟩
  | @pull log q _ hturn ih =>
    obtain ⟨hk, hall⟩ := ih
    refine ⟨?_, fun j q' v hq' ho => ?_⟩
    · obtain ⟨c, o, before, after, size⟩ := q
      rcases hk with rfl | rfl
      · cases hturn with
        | call =>
          refine .inl ?_
          rw [List.length_append, List.length_singleton, Int.natCast_add, ← Int.add_assoc]
          rfl
        | ended | raised => exact .inr rfl
      · exact .inr hturn.of_finished.2
    · rcases Nat.lt_or_ge j log.length with hlt | hge
      · rw [List.getElem?_append_left hlt] at hq'
        exact hall j q' v hq' ho
      · obtain rfl : j = log.length := by
          have hj := (List.getElem?_eq_some_iff.1 hq').1
          rw [List.length_append, List.length_singleton] at hj
          omega
        rw [List.getElem?_concat_length] at hq'
        cases hq'
        refine hk.resolve_right fun hfinished => ?_
        rw [hfinished] at hturn
        cases hturn.of_finished.1.symm.trans ho

end Turned

/-! ## What can be done while lists share an iterator -/

/-- What can be done while lists share an iterator: a cell of any of them draws on it, which is noted in the log; or
anything else happens, in which no cell of them is forced and the iterator does not move. -/
inductive Sharing (p : Program) (i : IteratorId) : List Pull × Moment → List Pull × Moment → Prop
  | drawn {log : List Pull} {s e : Store} {K : List Frame} {c : CellId} {depth : Nat} {g : HeapId} {o : Yield}
    (h : Draw p i depth g s c o e) :
    Sharing p i (log, ⟨s, K⟩) (log ++ [⟨c, o, s.cursor i, e.cursor i, e.cells.size⟩],
      ⟨finalStore (force (p.runAt (depth + 1)) c s), K⟩)
  | other {log : List Pull} {a a' : Moment} (hnext : Moment.Next a a') (hundrawn : a.store.Undrawn i a'.store)
    (hcursor : a'.store.cursor i = a.store.cursor i) : Sharing p i (log, a) (log, a')

theorem Sharing.leads {a a' : List Pull × Moment} (h : Sharing p i a a') : Moment.Leads a.2 a'.2 := by
  cases h with
  | drawn h => exact h.leads _
  | other hnext => exact .single hnext

/-- A list is made over the iterator, for which nothing is pulled yet. -/
theorem Sharing.ofIterator {log : List Pull} (hx : Sequence.ofIterator i s = .ok x e) (K : List Frame) :
    Sharing p i (log, ⟨s, K⟩) (log, ⟨e, K⟩) := by
  obtain ⟨g, ha, rfl, rfl⟩ := Run.suspend_ok hx
  exact .other (.change K (.newCell s g _ ha)) ⟨[], rfl, fun _ hz => absurd hz List.not_mem_nil⟩ rfl

/-- A cell with which a list over an iterator begins: no cell of such a list has it for its tail. -/
structure Store.Root (s : Store) (i : IteratorId) (x : CellId) : Prop where
  drawn : s.DrawsOn i x
  first : ∀ c tag head, s.DrawsOn i c → s.state c ≠ .evaluated (.cons tag head (.cell x))

/-- What a store holds of a pull: its cell holds what it gave, in later cells. -/
structure Store.Logs (s : Store) (i : IteratorId) (q : Pull) : Prop where
  drawn : s.DrawsOn i q.cell
  gets : s.Gets i q.cell q.size q.outcome
  before : q.cell < q.size
  size : q.size + q.outcome.made ≤ s.cells.size

/-- While lists share an iterator, the log tells all that was pulled for their cells, and each cell pulled once. -/
structure Shared (i : IteratorId) (k₀ : Cursor) (log : List Pull) (a : Moment) : Prop where
  sound : a.Sound
  turned : Turned k₀ log (a.store.cursor i)
  once : (log.map Pull.cell).Nodup
  begun : ∀ z ∈ a.store.begun, z.2 = .iteratorNode i → z.1 ∈ log.map Pull.cell
  logs : ∀ q ∈ log, a.store.Logs i q
  apart : log.Pairwise fun q q' => q.size + q.outcome.made ≤ q'.size

namespace Moment
variable {a a' : Moment}

/-- A cell of which a force has begun was made over the thunk that began to run. -/
theorem Sound.initial?_of_mem_begun (ha : a.Sound) {z : CellId × Thunk} (hz : z ∈ a.store.begun) :
    a.store.initial? z.1 = some (.suspended z.2) := by
  obtain ⟨turn, hturn, hbegun⟩ := List.mem_filterMap.1 hz
  have howner : turn ∈ a.store.turnsOf z.1 := by
    unfold Store.turnsOf
    rw [List.mem_reverse, List.mem_filter]
    exact ⟨hturn, by simp [Turn.owner_of_begun? hbegun]⟩
  rcases Nat.lt_or_ge z.1 a.store.cells.size with hlt | hge
  · obtain ⟨st, hst⟩ := Store.initial?_eq_some_of_lt hlt
    cases ha.lived z.1 st hst with
    | unrun hturns =>
      rw [hturns] at howner
      exact absurd howner List.not_mem_nil
    | running hturns | evaluated hturns | failed hturns =>
      rw [hturns] at howner
      simp only [List.mem_cons, List.not_mem_nil, or_false] at howner
      grind [Turn.begun?]
  · rw [ha.unborn z.1 hge] at howner
    exact absurd howner List.not_mem_nil

end Moment

/-- A head cell of a list that was read is in a node at some position. -/
theorem Store.Begins.head_mem {head : CellId} (h : s.Begins x l c) (hmem : head ∈ l) : ∃ n d tag next,
    s.SpineAt x n d ∧ s.state d = .evaluated (.cons tag (.cell head) (.cell next)) := by
  induction h with
  | here => exact absurd hmem List.not_mem_nil
  | @node x next r head' tag l hx _ ih =>
    rcases List.mem_cons.1 hmem with rfl | hmem
    · exact ⟨0, x, tag, next, .first, hx⟩
    · obtain ⟨n, d, tag', next', hd, hnode⟩ := ih hmem
      exact ⟨n + 1, d, tag', next', hd.cons hx, hnode⟩

/-- What a pull gave is there for good. -/
theorem Store.Logs.leads {a a' : Moment} {q : Pull} (hq : a.store.Logs i q) (ha : a.Sound) (h : Moment.Leads a a') :
    a'.store.Logs i q where
  drawn := h.initial? hq.drawn
  before := hq.before
  size := hq.size.trans h.size_le
  gets := by
    have hgets := hq.gets
    generalize q.outcome = o at hgets ⊢
    cases hgets with
    | node hc hhead hready htail =>
      exact .node (h.evaluated ha hc (by simp)) (h.value ha hhead (Store.lt_of_initial? hready)) (h.initial? hready)
        (h.initial? htail)
    | ended hc => exact .ended (h.evaluated ha hc (by simp [Value.listEnd]))
    | failed hc => exact .failed (h.failed ha hc)

namespace Shared
variable {log log' : List Pull} {a a' : Moment} {q q' : Pull}

theorem start (ha : a.Sound) (hnone : ∀ c, ¬ a.store.DrawsOn i c) : Shared i (a.store.cursor i) [] a where
  sound := ha
  turned := .start
  once := .nil
  begun z hz ht := absurd ((ha.initial?_of_mem_begun hz).trans (congrArg (some ∘ CellState.suspended) ht)) (hnone z.1)
  logs _ hq := absurd hq List.not_mem_nil
  apart := .nil

section
variable (h : Shared i k₀ log a)
include h

/-- A cell of a list that was pulled for is over. -/
theorem not_waiting (hc : c ∈ log.map Pull.cell) : a.store.state c ≠ .suspended (.iteratorNode i) := by
  obtain ⟨q, hq, rfl⟩ := List.mem_map.1 hc
  exact (h.logs q hq).gets.not_suspended _

/-- A cell of a list that was not pulled for waits. -/
theorem waits (hc : a.store.DrawsOn i c) (hout : c ∉ log.map Pull.cell) :
    a.store.state c = .suspended (.iteratorNode i) := by
  refine Classical.byContradiction fun hstate => hout ?_
  obtain ⟨z, hz, rfl⟩ := List.mem_map.1 (h.sound.mem_begun hc hstate)
  have hthunk := Option.some.inj ((h.sound.initial?_of_mem_begun hz).symm.trans hc)
  exact h.begun z hz (CellState.suspended.inj hthunk)

theorem next (h₀ : k₀ ≠ .busy) (hnext : Sharing p i (log, a) (log', a')) : Shared i k₀ log' a' := by
  cases hnext with
  | @drawn _ s e K c depth g o hdraw =>
    have hleads := hdraw.leads K
    have hdrawn := hdraw.drawn h.sound
    have hlt := Store.lt_of_state (hdraw.running h.sound) (by simp)
    have hsize : s.cells.size ≤ e.cells.size := hdraw.size_le
    refine ⟨h.sound.leads hleads, ?_, ?_, fun z hz ht => ?_, ?_, ?_⟩
    · have hturn : (s.cursor i).Turns o (e.cursor i) :=
        Iterator.pull_turns (s := s.began c g _) (p.obeys_runAt Moment.law_lasts depth) hdraw.pulled (h.turned.not_busy h₀)
      rw [hdrawn.cursor]
      exact .pull (q := ⟨c, o, s.cursor i, e.cursor i, e.cells.size⟩) h.turned hturn
    · rw [List.map_append]
      exact List.concat_eq_append ▸ h.once.concat fun hc => h.not_waiting hc hdraw.waits
    · rw [List.map_append]
      obtain ⟨new, hnew, hother⟩ := hdraw.undrawn
      rw [hdrawn.begun, hnew] at hz
      rcases List.mem_append.1 hz with hz | hz
      · exact absurd ht (hother z hz)
      · rcases List.mem_cons.1 hz with rfl | hz
        · exact List.mem_append_right _ List.mem_cons_self
        · exact List.mem_append_left _ (h.begun z hz ht)
    · refine List.forall_mem_append.2 ⟨fun q hq => (h.logs q hq).leads h.sound hleads, List.forall_mem_singleton.2 ?_⟩
      exact ⟨hleads.initial? (h.sound.of_suspended hdraw.waits).1, hdrawn.gets, hlt, Nat.le_of_eq hdrawn.size.symm⟩
    · refine List.pairwise_append.2 ⟨h.apart, List.pairwise_singleton _ _, fun q hq => List.forall_mem_singleton.2 ?_⟩
      exact (h.logs q hq).size.trans hsize
  | other hleads hundrawn hcursor =>
    refine ⟨h.sound.next hleads, hcursor ▸ h.turned, h.once, fun z hz ht => ?_,
      fun q hq => (h.logs q hq).leads h.sound (.single hleads), h.apart⟩
    obtain ⟨new, hnew, hother⟩ := hundrawn
    rw [hnew] at hz
    rcases List.mem_append.1 hz with hz | hz
    · exact absurd ht (hother z hz)
    · exact h.begun z hz ht

/-- A cell of a list that does not wait was pulled for. -/
theorem pulled (hc : a.store.DrawsOn i c) (hstate : a.store.state c ≠ .suspended (.iteratorNode i)) :
    ∃ q ∈ log, q.cell = c :=
  List.mem_map.1 (Classical.byContradiction fun hout => hstate (h.waits hc hout))

/-- A node of a list over the iterator was made by the pull of an item. -/
theorem node {tag : Tag} {head next : Value} (hc : a.store.DrawsOn i c)
    (hnode : a.store.state c = .evaluated (.cons tag head next)) : ∃ q ∈ log, ∃ v, q.cell = c ∧ q.outcome = .item v ∧
    head = .cell q.size ∧ next = .cell (q.size + 1) := by
  obtain ⟨q, hq, rfl⟩ := h.pulled hc (by simp [hnode])
  obtain ⟨v, ho, hhead, hnext⟩ := (h.logs q hq).gets.of_cons hnode
  exact ⟨q, hq, v, rfl, ho, hhead, hnext⟩

/-- A list ends where a pull found that there are no more items. -/
theorem nil_iff (hc : a.store.DrawsOn i c) :
    (∃ tag, a.store.state c = .evaluated (.nil tag)) ↔ ∃ q ∈ log, q.cell = c ∧ q.outcome = .exhausted := by
  constructor
  · rintro ⟨tag, hend⟩
    obtain ⟨q, hq, rfl⟩ := h.pulled hc (by simp [hend])
    exact ⟨q, hq, rfl, (h.logs q hq).gets.nil_iff.1 ⟨tag, hend⟩⟩
  · rintro ⟨q, hq, rfl, ho⟩
    exact (h.logs q hq).gets.nil_iff.2 ho

/-- No two pulls made the same cells. -/
theorem eq_of_size {v w : Value} (hq : q ∈ log) (hq' : q' ∈ log) (ho : q.outcome = .item v) (ho' : q'.outcome = .item w)
    (hsize : q.size = q'.size) : q = q' := by
  let R (q q' : Pull) : Prop := q.size + q.outcome.made ≤ q'.size ∨ q'.size + q'.outcome.made ≤ q.size
  have hsymm : Std.Symm R := ⟨fun _ _ => Or.symm⟩
  have hall : log.Pairwise R := h.apart.imp .inl
  refine Classical.byContradiction fun hne => ?_
  have hR : R q q' := hall.forall hq hq' hne
  unfold R at hR
  rw [ho, ho', hsize] at hR
  simp [Yield.made] at hR

/-- The cells that were pulled for before an item was, and for the item, are all earlier than the cells of its node. -/
theorem cell_lt {l₁ l₂ : List Pull} (hsplit : log = l₁ ++ q :: l₂) : ∀ q' ∈ l₁ ++ [q], q'.cell < q.size := by
  subst hsplit
  refine List.forall_mem_append.2 ⟨fun q' hq' => ?_, List.forall_mem_singleton.2 (h.logs q (by simp)).before⟩
  have hapart := (List.pairwise_append.1 h.apart).2.2 q' hq' q List.mem_cons_self
  exact Nat.lt_of_lt_of_le (h.logs q' (List.mem_append_left _ hq')).before ((Nat.le_add_right _ _).trans hapart)

/-! ## Along the lists -/

theorem drawsOn_tail (hq : q ∈ log) (ho : q.outcome = .item v) : a.store.DrawsOn i (q.size + 1) := by
  have hgets := (h.logs q hq).gets
  rw [ho] at hgets
  cases hgets with
  | node _ _ _ htail => exact htail

theorem drawsOn_of_spineAt {n : Nat} (hx : a.store.DrawsOn i x) (hc : a.store.SpineAt x n c) : a.store.DrawsOn i c := by
  induction hc with
  | first => exact hx
  | next _ hnode ih =>
    obtain ⟨q, hq, v, -, ho, -, hnext⟩ := h.node ih hnode
    cases hnext
    exact h.drawsOn_tail hq ho

/-- What was read of a list was pulled in this order, by pulls that came after whatever had been pulled before the list
was there. -/
theorem shows_of_split {l₁ l₂ : List Pull} (hsplit : log = l₁ ++ l₂) (hnew : ∀ q ∈ l₁, q.cell ≠ x)
    (hx : a.store.DrawsOn i x) (hl : a.store.Begins x l c) : ∃ (part : List Pull) (vs : List Value), part.Sublist l₂ ∧
    part.map Pull.outcome = vs.map Yield.item ∧ part.map Pull.size = l ∧
    a.store.Shows x (part.map fun q => (q.cell, q.size)) vs c := by
  induction hl generalizing l₁ l₂ with
  | here x => exact ⟨[], [], List.nil_sublist _, rfl, rfl, .here x⟩
  | @node x next c head tag l hnode _ ih =>
    obtain ⟨q, hq, v, rfl, ho, hhead, hnext⟩ := h.node hx hnode
    cases hhead
    cases hnext
    have hlater : q ∈ l₂ := (List.mem_append.1 (hsplit ▸ hq)).resolve_left fun hq₁ => hnew q hq₁ rfl
    obtain ⟨l₃, l₄, rfl⟩ := List.append_of_mem hlater
    have hbefore : ∀ q' ∈ l₁ ++ l₃ ++ [q], q'.cell ≠ q.size + 1 := fun q' hq' =>
      Nat.ne_of_lt (Nat.lt_succ_of_lt (h.cell_lt (hsplit.trans (List.append_assoc l₁ l₃ _).symm) q' hq'))
    have hrest : log = l₁ ++ l₃ ++ [q] ++ l₄ := by
      rw [hsplit]
      simp
    obtain ⟨part, vs, hpart, houtcomes, hsizes, hshows⟩ := ih hrest hbefore (h.drawsOn_tail hq ho)
    have hlogs := h.logs q hq
    have hgets := hlogs.gets
    have hsize := hlogs.size
    rw [ho] at hgets hsize
    refine ⟨q :: part, v :: vs, (hpart.cons_cons q).trans (List.sublist_append_right l₃ _), ?_, ?_, ?_⟩
    · rw [List.map_cons, List.map_cons, ho, houtcomes]
    · rw [List.map_cons, hsizes]
    · cases hgets with
      | node _ hhead => exact .next hnode (Nat.lt_of_lt_of_le (Nat.lt_add_of_pos_right Nat.two_pos) hsize) hhead hshows

/-- **A list holds its items in the order in which they were pulled.** -/
theorem shows (hx : a.store.DrawsOn i x) (hl : a.store.Begins x l c) : ∃ (part : List Pull) (vs : List Value),
    part.Sublist log ∧ part.map Pull.outcome = vs.map Yield.item ∧ part.map Pull.size = l ∧
    a.store.Shows x (part.map fun q => (q.cell, q.size)) vs c :=
  h.shows_of_split (List.nil_append log).symm (fun _ hq => absurd hq List.not_mem_nil) hx hl

/-- **Every cell of a list over the iterator is at one position of one list.** -/
theorem root (hc : a.store.DrawsOn i c) : ∃ x n, a.store.Root i x ∧ a.store.SpineAt x n c ∧
    ∀ y n', a.store.Root i y → a.store.SpineAt y n' c → y = x ∧ n' = n := by
  induction c using Nat.strongRecOn with
  | ind c ih =>
    by_cases hfirst : ∃ d tag head, a.store.DrawsOn i d ∧ a.store.state d = .evaluated (.cons tag head (.cell c))
    · obtain ⟨d, tag, head, hd, hnode⟩ := hfirst
      obtain ⟨q, hq, v, rfl, ho, -, hnext⟩ := h.node hd hnode
      cases hnext
      have hlt : q.cell < q.size + 1 := Nat.lt_succ_of_lt (h.logs q hq).before
      obtain ⟨x, n, hx, hspine, honly⟩ := ih q.cell hlt hd
      refine ⟨x, n + 1, hx, hspine.next hnode, fun y n' hy hn' => ?_⟩
      cases hn' with
      | first => exact absurd hnode (hy.first _ _ _ hd)
      | @next n' c _ tag' head' hc' hnode' =>
        have hc := h.drawsOn_of_spineAt hy.drawn hc'
        obtain ⟨q', hq', w, rfl, ho', -, hnext⟩ := h.node hc hnode'
        cases h.eq_of_size hq hq' ho ho' (Nat.succ.inj (Value.cell.inj hnext))
        obtain ⟨rfl, rfl⟩ := honly y n' hy hc'
        exact ⟨rfl, rfl⟩
    · have hroot : a.store.Root i c := ⟨hc, fun d tag head hd hnode => hfirst ⟨d, tag, head, hd, hnode⟩⟩
      refine ⟨c, 0, hroot, .first, fun y n' hy hn' => ?_⟩
      cases hn' with
      | first => exact ⟨rfl, rfl⟩
      | next hc' hnode => exact absurd hnode (hroot.first _ _ _ (h.drawsOn_of_spineAt hy.drawn hc'))

/-- No item is at two positions of a list. -/
theorem nodup (hx : a.store.DrawsOn i x) (hl : a.store.Begins x l c) : l.Nodup := by
  obtain ⟨part, vs, hpart, houtcomes, rfl, -⟩ := h.shows hx hl
  have hitems : ∀ q ∈ part, q.outcome.made = 2 := fun q hq => by
    obtain ⟨v, -, hv⟩ := List.mem_map.1 (houtcomes ▸ List.mem_map_of_mem hq)
    rw [← hv]
    rfl
  refine List.pairwise_map.2 ((h.apart.sublist hpart).imp_of_mem fun {q q'} hq _ hle => ?_)
  rw [hitems q hq] at hle
  exact Nat.ne_of_lt (Nat.lt_of_lt_of_le (Nat.lt_add_of_pos_right Nat.two_pos) hle)

/-- No item is in two lists. -/
theorem disjoint {l' : List CellId} (hx : a.store.Root i x) (hy : a.store.Root i y) (hne : x ≠ y)
    (hl : a.store.Begins x l c) (hl' : a.store.Begins y l' d) : l.Disjoint l' := by
  intro head hmem hmem'
  obtain ⟨n, b, tag, next, hb, hnode⟩ := hl.head_mem hmem
  obtain ⟨n', b', tag', next', hb', hnode'⟩ := hl'.head_mem hmem'
  have hdrawn := h.drawsOn_of_spineAt hx.drawn hb
  obtain ⟨q, hq, v, rfl, ho, hhead, -⟩ := h.node hdrawn hnode
  obtain ⟨q', hq', w, rfl, ho', hhead', -⟩ := h.node (h.drawsOn_of_spineAt hy.drawn hb') hnode'
  cases h.eq_of_size hq hq' ho ho' (Value.cell.inj (hhead.symm.trans hhead'))
  obtain ⟨z, m, -, -, honly⟩ := h.root hdrawn
  exact hne ((honly x n hx hb).1.trans (honly y n' hy hb').1.symm)

/-- A list begins where it did, whatever is pulled for it and for others. -/
theorem root_next (h₀ : k₀ ≠ .busy) (hx : a.store.Root i x) (hnext : Sharing p i (log, a) (log', a')) :
    a'.store.Root i x where
  drawn := hnext.leads.initial? hx.drawn
  first c tag head hc hnode := by
    obtain ⟨q, hq, v, rfl, ho, -, hlast⟩ := (h.next h₀ hnext).node hc hnode
    cases hlast
    have hold : q ∉ log := fun hq => by
      have hlogs := h.logs q hq
      have hgets := hlogs.gets
      rw [ho] at hgets
      cases hgets with
      | node hnode => exact hx.first _ _ _ hlogs.drawn hnode
    cases hnext with
    | other => exact hold hq
    | @drawn _ s e K c depth g o hdraw =>
      obtain rfl := List.mem_singleton.1 ((List.mem_append.1 hq).resolve_left hold)
      exact Nat.not_lt_of_le (Nat.le_succ_of_le hdraw.size_le) (Store.lt_of_initial? hx.drawn)

end

/-- A list that is made over the iterator begins with a cell of its own. -/
theorem root_ofIterator {s e : Store} {K : List Frame} (h : Shared i k₀ log ⟨s, K⟩) (h₀ : k₀ ≠ .busy)
    (hx : Sequence.ofIterator i s = .ok x e) : e.Root i x := by
  have hnext : Sharing [] i (log, ⟨s, K⟩) (log, ⟨e, K⟩) := .ofIterator hx K
  obtain ⟨g, ha, rfl, rfl⟩ := Run.suspend_ok hx
  refine ⟨Store.initial?_register_new s g _, fun c tag head hc hnode => ?_⟩
  obtain ⟨q, hq, v, -, ho, -, hlast⟩ := (h.next h₀ hnext).node hc hnode
  have hsize := (h.logs q hq).size
  rw [ho] at hsize
  exact Nat.lt_irrefl _ (Nat.lt_of_lt_of_eq hsize (Value.cell.inj hlast))

/-- What was done while lists shared an iterator, one thing after the other. -/
theorem of_sharing {b b' : List Pull × Moment} (h : Shared i k₀ b.1 b.2) (h₀ : k₀ ≠ .busy)
    (hs : Relation.ReflTransGen (Sharing p i) b b') :
    Shared i k₀ b'.1 b'.2 ∧ ∀ x, b.2.store.Root i x → b'.2.store.Root i x := by
  induction hs with
  | refl => exact ⟨h, fun _ hx => hx⟩
  | tail _ hnext ih => exact ⟨ih.1.next h₀ hnext, fun x hx => ih.1.root_next h₀ (ih.2 x hx) hnext⟩

end Shared

/-! ## What consumers see -/

/-- What the force of a cell gives that was pulled for. -/
inductive Pull.Gives (q : Pull) : Except FaultId Value → Prop
  | item {v : Value} {tag : Tag} (ho : q.outcome = .item v) : Gives q (.ok (.cons tag (.cell q.size) (.cell (q.size + 1))))
  | exhausted (ho : q.outcome = .exhausted) : Gives q (.ok .listEnd)
  | raised {z : FaultId} (ho : q.outcome = .raised z) : Gives q (.error z)

/-- Whoever forces a cell, whichever heap is active, gets this answer and changes nothing. -/
def Store.Answers (s : Store) (c : CellId) (answer : Except FaultId Value) : Prop :=
  ∀ (run : Runner) (active : Option HeapId), force run c { s with active } =
    match answer with
    | .ok v => .ok v { s with active }
    | .error z => .error (.raised z) { s with active }

namespace Store

theorem answers_of_evaluated (hc : s.state c = .evaluated v) : s.Answers c (.ok v) :=
  fun run active => force_evaluated (s := { s with active }) hc run

theorem answers_of_failed {z : FaultId} (hc : s.state c = .failed (.fault z)) : s.Answers c (.error z) :=
  fun run active => force_failed (s := { s with active }) hc run

/-- **What a pull gave is what everybody gets, ever after.** -/
theorem Logs.answers {a : Moment} {q : Pull} (hq : a.store.Logs i q) (ha : a.Sound) :
    ∃ answer, q.Gives answer ∧ ∀ a', Moment.Leads a a' → a'.store.Answers q.cell answer ∧
      ∀ v, q.outcome = .item v → a'.store.Answers q.size (.ok v) := by
  have hgets := hq.gets
  generalize ho : q.outcome = o at hgets
  cases hgets with
  | node hc hhead hready =>
    refine ⟨_, .item ho, fun a' h => ⟨answers_of_evaluated (h.evaluated ha hc (by simp)), fun w hw => ?_⟩⟩
    cases hw
    exact answers_of_evaluated (h.value ha hhead (lt_of_initial? hready))
  | ended hc =>
    refine ⟨_, .exhausted ho, fun a' h => ⟨answers_of_evaluated (h.evaluated ha hc ?_), fun w hw => by cases hw⟩⟩
    simp [Value.listEnd]
  | failed hc => exact ⟨_, .raised ho, fun a' h => ⟨answers_of_failed (h.failed ha hc), fun w hw => by cases hw⟩⟩

/-- The cell of an element that was read is at its position. -/
theorem Shows.spineAt {read : List (CellId × CellId)} {vs : List Value} {j : Nat} {head : CellId} (h : s.Shows x read vs c)
    (hj : read[j]? = some (d, head)) : s.SpineAt x j d := by
  induction h generalizing j with
  | here => cases hj
  | @next c head' next e tag v read vs hc _ _ _ ih =>
    cases j with
    | zero =>
      cases hj
      exact .first
    | succ j => exact (ih hj).cons hc

/-- What was read of a list is read again by everybody, ever after. -/
theorem Shows.again {a a' : Moment} {read : List (CellId × CellId)} {vs : List Value} (h : a.store.Shows x read vs c)
    (ha : a.Sound) (hlater : Moment.Leads a a') (run : Runner) :
    Sequence.take run vs.length (.cell x) a'.store = .ok vs a'.store ∧
      ∀ (j : Nat) v, vs[j]? = some v → Sequence.nth run j (.cell x) a'.store = .ok v a'.store := by
  have hshows := (h.taken (Program.runAt [] 0)).shows (k := a.pending) ha hlater
  refine ⟨?_, fun j v hv => hshows.nth hv run⟩
  calc Sequence.take run vs.length (.cell x) a'.store
    _ = Sequence.takeOnto run 0 (vs.reverse ++ []) (.before (.cell c)) a'.store :=
      Sequence.takeOnto_of_taken (hshows.taken run) (fun _ => rfl) 0 []
    _ = .ok (vs.reverse ++ []).reverse a'.store := rfl
    _ = .ok vs a'.store := by rw [List.append_nil, List.reverse_reverse]

end Store

/-- **Lists over one iterator share its items among them.**  Any number of lists are made over an iterator, and their cells
are forced in any order, again and again, and anything else happens in between.  At every moment:

Each cell of these lists has pulled at most once, and it has if it does not wait any more.  The iterator has moved by these
pulls alone, one item after the other: the items of one that runs over items at hand are those that were pulled, then the
rest, and nothing is left once a pull found that there are no more; those of one that runs over the results of a function
are the results of the calls on one integer after the other.  After a pull that gave no item, all pulls find that there are
no more.  What a pull gave is what its cell and the head cell of its node give to everybody, ever after.

Each of these cells is at one position of one list.  A list holds the items that were pulled for its cells, in the order in
which they were pulled, no head cell twice and none that another list has, and whoever takes its elements or asks for one
by its position gets these, ever after.  It ends just where a pull found that there are no more.

Whichever cell draws on the iterator next, it has not pulled before.  It gets what the pull gives, and two cells are made
for an item and none otherwise; its force raises the error of a pull that raised one, and otherwise gives a value if the
heap can count it.  To make a list pulls nothing, and where a list begins it begins for good. -/
theorem lists_share_iterator (p : Program) {i : IteratorId} {s₀ : Store} {K₀ : List Frame} {log : List Pull} {m : Moment}
    (h₀ : Moment.Leads ⟨{}, []⟩ ⟨s₀, K₀⟩) (hnone : ∀ c, ¬ s₀.DrawsOn i c) (hidle : s₀.cursor i ≠ .busy)
    (h : Relation.ReflTransGen (Sharing p i) ([], ⟨s₀, K₀⟩) (log, m)) :
    ((log.map Pull.cell).Nodup ∧ ∀ c, m.store.DrawsOn i c →
      (c ∈ log.map Pull.cell ↔ m.store.state c ≠ .suspended (.iteratorNode i))) ∧
    (Turned (s₀.cursor i) log (m.store.cursor i) ∧
      (∀ vs, s₀.cursor i = .items vs → ∃ rest, vs = log.filterMap Pull.item? ++ rest ∧
        ((∃ q ∈ log, q.outcome = .exhausted) → rest = [])) ∧
      (∀ fn n stop, s₀.cursor i = .calls fn n stop → ∀ (j : Nat) q v, log[j]? = some q → q.outcome = .item v →
        q.before = .calls fn (n + j) stop) ∧
      log.Pairwise fun q q' => (∀ v, q.outcome ≠ .item v) → q'.outcome = .exhausted) ∧
    (∀ q ∈ log, ∃ answer, q.Gives answer ∧ ∀ m', Moment.Leads m m' → m'.store.Answers q.cell answer ∧
      ∀ v, q.outcome = .item v → m'.store.Answers q.size (.ok v)) ∧
    (∀ c, m.store.DrawsOn i c → ∃ x n, m.store.Root i x ∧ m.store.SpineAt x n c ∧
      ∀ y n', m.store.Root i y → m.store.SpineAt y n' c → y = x ∧ n' = n) ∧
    (∀ x l c, m.store.DrawsOn i x → m.store.Begins x l c → l.Nodup ∧ ∃ (part : List Pull) (vs : List Value),
      part.Sublist log ∧ part.map Pull.outcome = vs.map Yield.item ∧ part.map Pull.size = l ∧
      (∀ (j : Nat) q, part[j]? = some q → m.store.SpineAt x j q.cell) ∧
      ∀ m', Moment.Leads m m' → ∀ run, Sequence.take run vs.length (.cell x) m'.store = .ok vs m'.store ∧
        ∀ (j : Nat) v, vs[j]? = some v → Sequence.nth run j (.cell x) m'.store = .ok v m'.store) ∧
    (∀ x y l l' c d, m.store.Root i x → m.store.Root i y → x ≠ y → m.store.Begins x l c → m.store.Begins y l' d →
      l.Disjoint l') ∧
    (∀ c, m.store.DrawsOn i c →
      ((∃ tag, m.store.state c = .evaluated (.nil tag)) ↔ ∃ q ∈ log, q.cell = c ∧ q.outcome = .exhausted)) ∧
    (∀ depth g c o e, Draw p i depth g m.store c o e →
      let forced := force (p.runAt (depth + 1)) c m.store
      c ∉ log.map Pull.cell ∧ Store.Drawn i c o e (finalStore forced) ∧
        (∀ z, o = .raised z → forced = .error (.raised z) (finalStore forced)) ∧
        ((∀ z, o ≠ .raised z) → e.Serves g →
          (∀ v, o = .item v → (e.heap g).samplesForces.truth? = some true → Store.OnlyCells v.refs) →
          ∃ v, forced = .ok v (finalStore forced) ∧ (finalStore forced).state c = .evaluated v)) ∧
    (∀ x e, Sequence.ofIterator i m.store = .ok x e → Sharing p i (log, m) (log, ⟨e, m.pending⟩) ∧ e.Root i x) ∧
    ∀ b, Relation.ReflTransGen (Sharing p i) (log, m) b → ∀ x, m.store.Root i x → b.2.store.Root i x := by
  have hshared := ((Shared.start (Moment.sound_start.leads h₀) hnone).of_sharing hidle h).1
  dsimp only at hshared
  refine ⟨⟨hshared.once, fun c hc => ⟨hshared.not_waiting, fun hstate => List.mem_map.2 (hshared.pulled hc hstate)⟩⟩,
    ⟨hshared.turned, fun vs hvs => ?_, fun fn n stop hcalls => ?_, hshared.turned.no_more.2⟩,
    fun q hq => (hshared.logs q hq).answers hshared.sound, fun c => hshared.root, fun x l c hx hl => ?_,
    fun x y l l' c d => hshared.disjoint, fun c => hshared.nil_iff, fun depth g c o e hdraw => ?_, fun x e hx => ?_,
    fun b hb x => (hshared.of_sharing hidle hb).2 x⟩
  · obtain ⟨rest, hrest, hend⟩ := (hvs ▸ hshared.turned).items
    refine ⟨rest, hrest, fun ⟨q, hq, ho⟩ => ?_⟩
    rcases hend with ⟨-, hall⟩ | ⟨-, hend⟩
    · obtain ⟨v, hv⟩ := hall q hq
      cases ho.symm.trans hv
    · exact hend
  · exact (hcalls ▸ hshared.turned).calls.2
  · obtain ⟨part, vs, hpart, houtcomes, hsizes, hshows⟩ := hshared.shows hx hl
    refine ⟨hshared.nodup hx hl, part, vs, hpart, houtcomes, hsizes, fun j q hq => ?_,
      fun m' hlater run => hshows.again hshared.sound hlater run⟩
    exact hshows.spineAt (by rw [List.getElem?_map, hq]; rfl)
  · refine ⟨fun hc => hshared.not_waiting hc hdraw.waits, hdraw.drawn hshared.sound, fun z ho => ?_,
      fun ho hserves hv => ?_⟩
    · rw [hdraw.raises ho]
      rfl
    · obtain ⟨v, f, hforce⟩ := hdraw.answers ho hserves hv
      rw [hforce]
      exact ⟨v, rfl, force_ok_state hforce⟩
  · exact ⟨.ofIterator hx m.pending, hshared.root_ofIterator hidle hx⟩

namespace Sharing
open Run

/-- Opens a heap, and makes an iterator over two items. -/
def opens : Run IteratorId := do
  enter (← newHeap {})
  Iterator.new .list (.items [.int 7, .int 8])

/-- A heap is open and there is an iterator, -/
def opened : Store := finalStore (opens {})

/-- over which a list is made -/
def one : Store := finalStore (Sequence.ofIterator 0 opened)

/-- and another; -/
def two : Store := finalStore (Sequence.ofIterator 0 one)

/-- the first list is forced, -/
def first : Store := finalStore (force (Program.runAt [] 1) 0 two)

/-- then the other, -/
def second : Store := finalStore (force (Program.runAt [] 1) 1 first)

/-- and then the first list once more. -/
def third : Store := finalStore (force (Program.runAt [] 1) 3 second)

def waits? : CellState → Option IteratorId
  | .suspended (.iteratorNode i) => some i
  | _ => none

/-- How a pull ended that gave an integer, or found that there are no more items. -/
def pulled? : EStateM.Result Halt Store (Option Value) → Option (Option Int)
  | .ok (some (.int n)) _ => some (some n)
  | .ok none _ => some none
  | _ => none

def yield : Option Int → Yield
  | some n => .item (.int n)
  | none => .exhausted

theorem eq_of_waits? {st : CellState} (h : waits? st = some i) : st = .suspended (.iteratorNode i) := by
  unfold waits? at h
  split at h
  · cases h; rfl
  · cases h

theorem eq_of_pulled? {r : EStateM.Result Halt Store (Option Value)} {n : Option Int} (h : pulled? r = some n) :
    r = (yield n).result (finalStore r) := by
  unfold pulled? at h
  split at h
  · cases h; rfl
  · cases h; rfl
  · cases h

/-- The pull of a cell. -/
def pulling (s : Store) (c : CellId) : EStateM.Result Halt Store (Option Value) :=
  Iterator.pull (Program.runAt [] 0) 0 (s.began c 0 (.iteratorNode 0))

/-- Whether a cell is drawn on the iterator, with this outcome. -/
def draws (s : Store) (c : CellId) (n : Option Int) : Bool :=
  let e := finalStore (pulling s c)
  s.active == some 0 && waits? (s.state c) == some 0 && pulled? (pulling s c) == some n &&
    e.begun.length == s.begun.length + 1 && e.active == some 0

theorem draw_of_draws {n : Option Int} (h : draws s c n = true) :
    Draw [] 0 0 0 s c (yield n) (finalStore (pulling s c)) := by
  unfold draws at h
  simp only [Bool.and_eq_true, beq_iff_eq] at h
  obtain ⟨⟨⟨⟨hactive, hwaits⟩, hpulled⟩, hbegun⟩, hkept⟩ := h
  let began := s.began c 0 (.iteratorNode 0)
  obtain ⟨more, hleads⟩ := (Iterator.follows_pull (Program.follows_runAt [] 0) 0 began).reaches []
  have hsame : began.begun = (finalStore (pulling s c)).begun := hleads.begun.eq_of_length hbegun.symm
  have hundrawn : began.Undrawn 0 (finalStore (pulling s c)) := ⟨[], hsame.symm, fun _ hz => absurd hz List.not_mem_nil⟩
  exact ⟨hactive, eq_of_waits? hwaits, eq_of_pulled? hpulled, hundrawn, hkept⟩

end Sharing

open Sharing in
/-- Two lists share two items, one each, and the first to come back is at its end. -/
theorem lists_share_iterator_two :
    Moment.Leads ⟨{}, []⟩ ⟨opened, []⟩ ∧ (∀ c, ¬ opened.DrawsOn 0 c) ∧ opened.cursor 0 ≠ .busy ∧
    ∃ log, Relation.ReflTransGen (Sharing [] 0) ([], ⟨opened, []⟩) (log, ⟨third, []⟩) ∧
      log.map Pull.cell = [0, 1, 3] ∧ [Value.int 7, .int 8] = log.filterMap Pull.item? ∧
      third.Answers 3 (.ok .listEnd) := by
  have hopens : Run.Follows opens :=
    Run.follows_bind (Run.follows_newHeap _ _ _) fun h => Run.follows_bind (Run.follows_enter h) fun _ =>
      Iterator.follows_new _ _
  have hreached : Moment.Leads ⟨{}, []⟩ ⟨opened, []⟩ := hopens {} []
  have hnone : ∀ c, ¬ opened.DrawsOn 0 c := fun c hc => absurd (Store.lt_of_initial? hc) (Nat.not_lt_zero c)
  have hcursor : opened.cursor 0 = .items [.int 7, .int 8] := rfl
  have hidle : opened.cursor 0 ≠ .busy := hcursor ▸ Cursor.noConfusion
  have hone : Sequence.ofIterator 0 opened = .ok 0 one := rfl
  have htwo : Sequence.ofIterator 0 one = .ok 1 two := rfl
  have hfirst : Draw [] 0 0 0 two 0 (.item (.int 7)) _ := draw_of_draws (n := some 7) (by decide +kernel)
  have hsecond : Draw [] 0 0 0 first 1 (.item (.int 8)) _ := draw_of_draws (n := some 8) (by decide +kernel)
  have hthird : Draw [] 0 0 0 second 3 .exhausted _ := draw_of_draws (n := none) (by decide +kernel)
  have hmade : Relation.ReflTransGen (Sharing [] 0) ([], ⟨opened, []⟩) ([], ⟨two, []⟩) :=
    .head (.ofIterator hone []) (.single (.ofIterator htwo []))
  have hsharing := ((hmade.tail (.drawn hfirst)).tail (.drawn hsecond)).tail (.drawn hthird)
  obtain ⟨-, ⟨-, hitems, -⟩, hanswers, -⟩ := lists_share_iterator [] hreached hnone hidle hsharing
  refine ⟨hreached, hnone, hidle, _, hsharing, rfl, ?_, ?_⟩
  · obtain ⟨rest, hrest, hover⟩ := hitems _ hcursor
    rw [hover ⟨_, List.mem_append_right _ List.mem_cons_self, rfl⟩, List.append_nil] at hrest
    exact hrest
  · obtain ⟨answer, hgives, hlater⟩ := hanswers _ (List.mem_append_right _ List.mem_cons_self)
    cases hgives with
    | item ho => cases ho
    | exhausted => exact (hlater _ .refl).1
    | raised ho => cases ho

end Retention
