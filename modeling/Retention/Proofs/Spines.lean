import Retention.Proofs.Memoization
/-!
# Spines — how far lists were read

A list is read by forcing its cells one after the other, and what was read of it is for good: it is the head cells of
the nodes that are evaluated, from the first cell up to one that is not (`Store.Begins`), which may then turn out to be
the end of the list (`Store.Lists`).  Both are facts about cells in their final states, and whatever happens keeps these
(`Moment.Leads.final`).
-/
namespace Retention

variable {s e : Store} {c x r r' : CellId} {l l' : List CellId}

namespace Store

/-- From a cell of a list, nodes that are evaluated, with these head cells, lead to this cell. -/
inductive Begins (s : Store) : CellId → List CellId → CellId → Prop
  | here (x : CellId) : Begins s x [] x
  | node {x next r head : CellId} {tag : Tag} {l : List CellId}
    (hx : s.state x = .evaluated (.cons tag (.cell head) (.cell next))) (hrest : Begins s next l r) :
    Begins s x (head :: l) r

/-- A list was read to its end, and has these head cells. -/
def Lists (s : Store) (x : CellId) (l : List CellId) : Prop :=
  ∃ r tag, s.Begins x l r ∧ s.state r = .evaluated (.nil tag)

/-- A cell that is not known to be a node: what was read of a list goes no further. -/
def Ends (s : Store) (c : CellId) : Prop := ∀ tag head tail, s.state c ≠ .evaluated (.cons tag head tail)

theorem ends_of_suspended {t : Thunk} (hc : s.state c = .suspended t) : s.Ends c := fun _ _ _ h => by
  rw [hc] at h
  cases h

theorem ends_of_failed {v : Value} (hc : s.state c = .failed v) : s.Ends c := fun _ _ _ h => by
  rw [hc] at h
  cases h

namespace Begins

/-- One more node is read. -/
theorem snoc {head next : CellId} {tag : Tag} (h : s.Begins x l r)
    (hr : s.state r = .evaluated (.cons tag (.cell head) (.cell next))) : s.Begins x (l ++ [head]) next := by
  induction h with
  | here x => exact .node hr (.here next)
  | node hx _ ih => exact .node hx (ih hr)

theorem unique (h : s.Begins x l r) (h' : s.Begins x l r') : r = r' := by
  induction h with
  | here x =>
    cases h'
    rfl
  | node hx _ ih =>
    cases h' with
    | node hx' hrest =>
      cases hx.symm.trans hx'
      exact ih hrest

/-- From wherever one stands, nodes lead on to where what was read goes no further. -/
theorem rest (h' : s.Begins x l' r') (h : s.Begins x l r) (hr : s.Ends r) : ∃ more, l = l' ++ more ∧ s.Begins r' more r := by
  induction h' generalizing l with
  | here x => exact ⟨l, rfl, h⟩
  | node hx _ ih =>
    cases h with
    | here => exact absurd hx (hr _ _ _)
    | node hx' hrest =>
      cases hx.symm.trans hx'
      obtain ⟨more, rfl, hmore⟩ := ih hrest
      exact ⟨more, rfl, hmore⟩

theorem isPrefix (h' : s.Begins x l' r') (h : s.Begins x l r) (hr : s.Ends r) : l' <+: l := by
  obtain ⟨more, rfl, -⟩ := h'.rest h hr
  exact List.prefix_append l' more

/-- There is one cell at which what was read goes no further. -/
theorem end_unique (h : s.Begins x l r) (hr : s.Ends r) (h' : s.Begins x l' r') (hr' : s.Ends r') : l = l' ∧ r = r' := by
  have heq : l = l' := (h.isPrefix h' hr').eq_of_length_le (h'.isPrefix h hr).length_le
  subst heq
  exact ⟨rfl, h.unique h'⟩

end Begins

theorem Lists.isPrefix (h : s.Lists x l) (h' : s.Begins x l' r') : l' <+: l := by
  obtain ⟨r, tag, hl, hr⟩ := h
  refine h'.isPrefix hl fun _ _ _ hnode => ?_
  cases hnode.symm.trans hr

theorem Lists.unique (h : s.Lists x l) (h' : s.Lists x l') : l = l' := by
  obtain ⟨r, tag, hr, -⟩ := id h
  obtain ⟨r', tag', hr', -⟩ := id h'
  exact (h'.isPrefix hr).eq_of_length_le (h.isPrefix hr').length_le

/-- A list that was read is in the store. -/
theorem Lists.lt (h : s.Lists x l) : x < s.cells.size := by
  obtain ⟨r, tag, hbegins, hr⟩ := h
  cases hbegins with
  | here => exact lt_of_state hr (by simp)
  | node hx => exact lt_of_state hx (by simp)

end Store

/-! ## What is for good -/

namespace Moment
variable {m m' : Moment}

/-- **What a cell holds in the end is for good.** -/
theorem Leads.final (hm : m.Sound) (h : Leads m m') (hc : c < m.store.cells.size)
    (hfinal : ∀ st, ¬ CellState.Next (m.store.state c) st) : m'.store.state c = m.store.state c := by
  obtain ⟨st, hst⟩ := Store.initial?_eq_some_of_lt hc
  exact CellState.eq_of_final (Leads.state hm h hst) hfinal

/-- A value that a cell of the store has is its value for good, even if it is no value at all. -/
theorem Leads.value (hm : m.Sound) (h : Leads m m') {v : Value} (hc : m.store.state c = .evaluated v)
    (hlt : c < m.store.cells.size) : m'.store.state c = .evaluated v :=
  (Leads.final hm h hlt fun st hnext => by rw [hc] at hnext; cases hnext).trans hc

theorem Leads.evaluated (hm : m.Sound) (h : Leads m m') {v : Value} (hc : m.store.state c = .evaluated v)
    (hv : v ≠ .null) : m'.store.state c = .evaluated v :=
  h.value hm hc (Store.lt_of_state hc (by simpa using hv))

theorem Leads.failed (hm : m.Sound) (h : Leads m m') {v : Value} (hc : m.store.state c = .failed v) :
    m'.store.state c = .failed v := by
  have hlt : c < m.store.cells.size := Store.lt_of_state hc (by simp)
  exact (Leads.final hm h hlt fun st hnext => by rw [hc] at hnext; cases hnext).trans hc

theorem Leads.begins (hm : m.Sound) (h : Leads m m') (hl : m.store.Begins x l r) : m'.store.Begins x l r := by
  induction hl with
  | here x => exact .here x
  | node hx _ ih => exact .node (h.evaluated hm hx (by simp)) ih

theorem Leads.lists (hm : m.Sound) (h : Leads m m') (hl : m.store.Lists x l) : m'.store.Lists x l := by
  obtain ⟨r, tag, hbegins, hr⟩ := hl
  exact ⟨r, tag, h.begins hm hbegins, h.evaluated hm hr (by simp)⟩

/-- An error that is in the store stays there. -/
theorem Next.faults (h : Next m m') {i : FaultId} {y : Raised} (hi : m.store.faults[i]? = some y) :
    m'.store.faults[i]? = some y := by
  cases h with
  | change k hs =>
    cases hs with
    | newFault y =>
      obtain ⟨hlt, rfl⟩ := Array.getElem?_eq_some_iff.1 hi
      exact Array.getElem?_push_lt hlt
    | _ => exact hi
  | _ => exact hi

theorem Leads.faults (h : Leads m m') {i : FaultId} {y : Raised} (hi : m.store.faults[i]? = some y) :
    m'.store.faults[i]? = some y := by
  induction h with
  | refl => exact hi
  | tail _ hnext ih => exact hnext.faults ih

/-- The address of a cell never changes. -/
theorem Next.address (h : Next m m') (hc : c < m.store.cells.size) : m'.store.address c = m.store.address c := by
  cases h with
  | change k hs =>
    cases hs with
    | newCell g st => exact Store.address_register_of_lt hc g st
    | _ => rfl
  | call => rfl
  | returned => rfl
  | raised => rfl
  | force s k d h t => exact Store.address_setState s d c _
  | finished s k d h v => exact Store.address_setState (s.recorded _) d c _
  | aborted s k d h y => exact Store.address_setState (s.recorded _) d c _

theorem Leads.address (h : Leads m m') (hc : c < m.store.cells.size) : m'.store.address c = m.store.address c := by
  obtain ⟨st, hst⟩ := Store.initial?_eq_some_of_lt hc
  induction h with
  | refl => rfl
  | tail hleads hnext ih => exact (hnext.address (Store.lt_of_initial? (Leads.initial? hleads hst))).trans ih

end Moment
end Retention
