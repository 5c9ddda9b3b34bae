import Retention.Proofs.Taking
/-!
# Pulling — one pull, and the cell that it was made for

A list over an iterator pulls one item for each of its cells, when the cell is forced.  A pull ends with an item, finds
that there are no more, or raises an error (`Yield`), and moves the iterator on accordingly (`Cursor.Turns`).

A cell that is forced before it has a value draws on the iterator (`Draw`), if to compute the item forces no list over the
iterator and leaves the heap active.  Whatever becomes of the count of the force, the cell then holds what the pull gave
(`Store.Gets`): a node with the item and a cell that waits for the next one, the end of the list, or the error.
-/
namespace Retention

open Run (finalStore)

variable {p : Program} {run : Runner} {i : IteratorId} {depth : Nat} {g : HeapId} {s m e f : Store} {c d : CellId}
  {k : Cursor} {v : Value} {o : Yield}

/-! ## No iterator is ever removed -/

/-- No iterator is removed from one moment to the other. -/
def Moment.Lasts (m m' : Moment) : Prop := m.store.iterators.size ≤ m'.store.iterators.size

theorem Store.iterators_afterSample (s : Store) (h : HeapId) : (s.afterSample h).iterators = s.iterators := by
  unfold afterSample
  split
  · rfl
  · rfl

/-- **That no iterator is removed is a law.** -/
theorem Moment.law_lasts : Law Lasts where
  refl _ := Nat.le_refl _
  trans h h' := Nat.le_trans h h'
  silent _ h := h.iterators
  sampled s _ h := Nat.le_of_eq (congrArg Array.size (s.iterators_afterSample h)).symm
  called _ _ _ := Nat.le_refl _
  returned _ _ _ := Nat.le_refl _
  raised _ _ _ := Nat.le_refl _
  forced _ _ _ := Nat.le_refl _
  settled s k c h v := by
    unfold Store.settled
    split
    · exact Nat.le_of_eq (congrArg Array.size (Store.iterators_afterSample (s.finished c h v) h)).symm
    · exact Nat.le_refl _
  aborted _ _ _ _ _ := Nat.le_refl _

theorem Run.Composed.iterators_le {α : Type} {x : Run α} (hr : run.Obeys Moment.Lasts) (h : Composed run x) (s : Store) :
    s.iterators.size ≤ (finalStore (x s)).iterators.size :=
  ((h.obeys Moment.law_lasts hr s).finalStore []).elim fun _ hle => hle

/-! ## One pull -/

/-- How a pull ends. -/
inductive Yield where
  | item (v : Value)
  /-- The iterator has no more items. -/
  | exhausted
  | raised (z : FaultId)

/-- What a pull comes to that ends so, and leaves this store. -/
def Yield.result (o : Yield) (e : Store) : EStateM.Result Halt Store (Option Value) :=
  match o with
  | item v => .ok (some v) e
  | exhausted => .ok none e
  | raised z => .error (.raised z) e

theorem Yield.finalStore_result (o : Yield) (e : Store) : finalStore (o.result e) = e := by
  cases o <;> rfl

/-- How many cells are made for what a pull gave. -/
def Yield.made : Yield → Nat
  | item _ => 2
  | _ => 0

/-- An iterator that computes its items. -/
inductive Cursor.Computes : Cursor → Prop
  | calls (f : Function) (next : Int) (stop : Value) : Computes (.calls f next stop)
  | spine (place : Place) : Computes (.spine place)

/-- What a pull does to an iterator, by how it ends: it moves on by one item, or it is finished for good. -/
inductive Cursor.Turns : Cursor → Yield → Cursor → Prop
  | item {v : Value} {rest : List Value} : Turns (.items (v :: rest)) (.item v) (.items rest)
  | empty : Turns (.items []) .exhausted .finished
  | spent : Turns .finished .exhausted .finished
  | call {f : Function} {next : Int} {stop v : Value} : Turns (.calls f next stop) (.item v) (.calls f (next + 1) stop)
  | visit {place : Place} {node v : Value} : Turns (.spine place) (.item v) (.spine (.past node))
  | ended {k : Cursor} (hk : k.Computes) : Turns k .exhausted .finished
  | raised {k : Cursor} {z : FaultId} (hk : k.Computes) : Turns k (.raised z) .finished

namespace Store

theorem cursor_setCursor_of_lt (h : i < s.iterators.size) (k : Cursor) : (s.setCursor i k).cursor i = k := by
  unfold cursor setCursor
  dsimp only
  rw [Array.getElem?_modify, if_pos rfl, Array.getElem?_eq_getElem h]
  rfl

theorem cursor_of_size_le (h : s.iterators.size ≤ i) : s.cursor i = .finished := by
  unfold cursor
  rw [Array.getElem?_eq_none h]
  rfl

theorem lt_of_cursor (h : s.cursor i ≠ .finished) : i < s.iterators.size :=
  Nat.lt_of_not_le fun hle => h (cursor_of_size_le hle)

theorem size_setCursor (s : Store) (i : IteratorId) (k : Cursor) : (s.setCursor i k).iterators.size = s.iterators.size :=
  Array.size_modify ..

/-- An iterator that is not there counts as finished. -/
theorem cursor_setCursor_finished (s : Store) (i : IteratorId) : (s.setCursor i .finished).cursor i = .finished := by
  rcases Nat.lt_or_ge i s.iterators.size with hlt | hle
  · exact cursor_setCursor_of_lt hlt .finished
  · exact cursor_of_size_le (by rwa [size_setCursor])

end Store

namespace Iterator

theorem compute_apply (i : IteratorId) (item : Run (Option (Value × Cursor))) (s : Store) : compute i item s =
    match guarded item (s.setCursor i .busy) with
    | .ok (some (v, k)) e => .ok (some v) (e.setCursor i k)
    | .ok none e => .ok none (e.setCursor i .finished)
    | .error (.raised z) e => .error (.raised z) (e.setCursor i .finished)
    | .error .tooDeep e => .error .tooDeep e := by
  unfold compute
  rw [Run.bind_ok (Run.modify_apply _ s), Run.bind_apply, Run.attempt_apply]
  rcases guarded item (s.setCursor i .busy) with ⟨(_ | ⟨v, k⟩), e⟩ | ⟨⟨z⟩ | -, e⟩ <;> rfl

/-- An item that is computed was computed by what it was to be computed by. -/
theorem guarded_ok {α : Type} {x : Run α} {a : α} (h : guarded x s = .ok a e) : x s = .ok a e := by
  rw [guarded_apply] at h
  rcases hx : x s with ⟨a, e⟩ | ⟨⟨z⟩ | -, e⟩
  all_goals
    rw [hx] at h
    first
    | exact h
    | cases h

/-- How far an iterator that computes its items is after a pull. -/
theorem compute_turns {item : Run (Option (Value × Cursor))} (hr : compute i item s = o.result e) (hk : k.Computes)
    (hthere : i < e.iterators.size)
    (hitem : ∀ v k' e, item (s.setCursor i .busy) = .ok (some (v, k')) e → k.Turns (.item v) k') :
    k.Turns o (e.cursor i) := by
  rw [compute_apply] at hr
  rcases hg : guarded item (s.setCursor i .busy) with ⟨(_ | ⟨v, k'⟩), m⟩ | ⟨⟨z⟩ | -, m⟩
  all_goals
    rw [hg] at hr
    cases o <;> cases hr
  · rw [Store.cursor_setCursor_finished]
    exact .ended hk
  · rw [Store.size_setCursor] at hthere
    rw [Store.cursor_setCursor_of_lt hthere]
    exact hitem v k' m (guarded_ok hg)
  · rw [Store.cursor_setCursor_finished]
    exact .raised hk

theorem step_past {place place' : Place} (h : step run place s = .ok (some (v, place')) e) :
    ∃ node, place' = .past node := by
  obtain ⟨xs, m, -, h⟩ := Run.bind_eq_ok h
  obtain ⟨node, m, -, h⟩ := Run.bind_eq_ok h
  obtain ⟨b, m, -, h⟩ := Run.bind_eq_ok h
  cases b with
  | false => cases h
  | true =>
    obtain ⟨w, m, -, h⟩ := Run.bind_eq_ok h
    cases h
    exact ⟨node, rfl⟩

/-- **A pull moves an iterator on by one item, or finishes it.** -/
theorem pull_turns (hrun : run.Obeys Moment.Lasts) (hr : pull run i s = o.result e) (hidle : s.cursor i ≠ .busy) :
    (s.cursor i).Turns o (e.cursor i) := by
  have hthere : ∀ {k}, s.cursor i = k → k ≠ .finished → i < e.iterators.size := fun hk hne => by
    have hlasts := (composed_pull i).iterators_le hrun s
    rw [hr, o.finalStore_result] at hlasts
    exact Nat.lt_of_lt_of_le (Store.lt_of_cursor (hk ▸ hne)) hlasts
  unfold pull at hr
  rw [Run.bind_ok (Run.get_apply s)] at hr
  cases hk : s.cursor i with
  | busy => exact absurd hk hidle
  | finished =>
    rw [hk] at hr
    cases o <;> cases hr
    rw [hk]
    exact .spent
  | items l =>
    have hlt : i < s.iterators.size := Store.lt_of_cursor (hk ▸ Cursor.noConfusion)
    rw [hk] at hr
    cases l with
    | nil =>
      cases o <;> cases hr
      rw [Store.cursor_setCursor_finished]
      exact .empty
    | cons v rest =>
      cases o <;> cases hr
      rw [Store.cursor_setCursor_of_lt hlt]
      exact .item
  | calls f next stop =>
    rw [hk] at hr
    refine compute_turns hr (.calls f next stop) (hthere hk Cursor.noConfusion) fun v k' m hitem => ?_
    cases hstop : stop.int? with
    | none =>
      rw [hstop] at hitem
      cases hitem
    | some n =>
      rw [hstop] at hitem
      dsimp only at hitem
      split at hitem
      · obtain ⟨w, m', -, hitem⟩ := Run.bind_eq_ok hitem
        cases hitem
        exact .call
      · cases hitem
  | spine place =>
    rw [hk] at hr
    refine compute_turns hr (.spine place) (hthere hk Cursor.noConfusion) fun v k' m hitem => ?_
    obtain ⟨found, m', hstep, hitem⟩ := Run.bind_eq_ok hitem
    cases found with
    | none => cases hitem
    | some found =>
      cases hitem
      obtain ⟨node, hnode⟩ := step_past hstep
      rw [hnode]
      exact .visit

end Iterator

/-! ## The node that a pull makes -/

namespace Store

theorem initial?_register_new (s : Store) (h : HeapId) (st : CellState) :
    (s.register h st).initial? s.cells.size = some st := by
  unfold initial? register updateHeap
  rw [Array.getElem?_push_size]
  rfl

theorem initial?_register_of_lt (hc : c < s.cells.size) (h : HeapId) (st : CellState) :
    (s.register h st).initial? c = s.initial? c := by
  unfold initial? register updateHeap
  rw [Array.getElem?_push_lt hc, Array.getElem?_eq_getElem hc]

/-- The two cells of a node are made, one with the item and one that waits for the next. -/
def branched (s : Store) (g : HeapId) (i : IteratorId) (v : Value) : Store :=
  ((s.register g (.evaluated v)).register g (.suspended (.iteratorNode i))).tagged

theorem size_branched (s : Store) (g : HeapId) (i : IteratorId) (v : Value) :
    (s.branched g i v).cells.size = s.cells.size + 2 := by
  show ((s.register g _).register g _).cells.size = _
  rw [size_register, size_register]

/-- A heap on which forces can be counted still is one when a node is made on it; if the heap takes samples, nothing but
cells may be met in the item. -/
theorem Serves.branched (h : s.Serves g) (i : IteratorId)
    (hv : (s.heap g).samplesForces.truth? = some true → OnlyCells v.refs) : (s.branched g i v).Serves g := by
  have hfirst : (s.register g (.evaluated v)).Serves g := {
    active := h.active
    valid := (size_updateHeap _ g _).symm ▸ h.valid
    forces := by rw [heap_register h.valid]; exact h.forces
    sampled := by
      rw [heap_register h.valid]
      exact fun hb => (h.sampled hb).register h.valid (hv hb) }
  have hwaiting : OnlyCells (CellState.suspended (.iteratorNode i)).refs := onlyCells_map []
  exact (hfirst.register hwaiting).congr rfl rfl rfl

/-- A cell of a list over an iterator. -/
def DrawsOn (s : Store) (i : IteratorId) (c : CellId) : Prop := s.initial? c = some (.suspended (.iteratorNode i))

/-- From one store to a later one, no cell of a list over the iterator is forced. -/
def Undrawn (s : Store) (i : IteratorId) (e : Store) : Prop :=
  ∃ new, e.begun = new ++ s.begun ∧ ∀ z ∈ new, z.2 ≠ .iteratorNode i

/-- A cell holds what a pull gave that ended so when there were `n` cells: a node with the next cells as its fields, the
first of which holds the item and the second of which is a cell of the list again; the end of the list; or the error. -/
inductive Gets (s : Store) (i : IteratorId) (c : CellId) (n : Nat) : Yield → Prop
  | node {v : Value} {tag : Tag} (hc : s.state c = .evaluated (.cons tag (.cell n) (.cell (n + 1))))
    (hhead : s.state n = .evaluated v) (hready : s.initial? n = some (.evaluated v)) (htail : s.DrawsOn i (n + 1)) :
    Gets s i c n (.item v)
  | ended (hc : s.state c = .evaluated .listEnd) : Gets s i c n .exhausted
  | failed {z : FaultId} (hc : s.state c = .failed (.fault z)) : Gets s i c n (.raised z)

namespace Gets
variable {n : Nat}

theorem not_suspended (h : s.Gets i c n o) (t : Thunk) : s.state c ≠ .suspended t := by
  intro hwaits
  cases h with
  | node hc | ended hc | failed hc => cases hwaits.symm.trans hc

theorem of_cons {tag : Tag} {head next : Value} (h : s.Gets i c n o) (hnode : s.state c = .evaluated (.cons tag head next)) :
    ∃ v, o = .item v ∧ head = .cell n ∧ next = .cell (n + 1) := by
  cases h with
  | node hc =>
    cases hnode.symm.trans hc
    exact ⟨_, rfl, rfl, rfl⟩
  | ended hc | failed hc => cases hnode.symm.trans hc

theorem nil_iff (h : s.Gets i c n o) : (∃ tag, s.state c = .evaluated (.nil tag)) ↔ o = .exhausted := by
  cases h with
  | node hc | failed hc => simp [hc]
  | ended hc => exact iff_of_true ⟨_, hc⟩ rfl

end Gets

/-- The node that a pull makes. -/
theorem gets_branched {heaps : Array Heap} {faults : Array Raised} (hc : c < s.cells.size)
    (hf : f = { (s.branched g i v).valued c (.cons s.nextTag (.cell s.cells.size) (.cell (s.cells.size + 1))) heaps with
      faults }) : f.Gets i c s.cells.size (.item v) := by
  let made := s.register g (.evaluated v)
  have hsize : made.cells.size = s.cells.size + 1 := size_register s g _
  have hn : s.cells.size < made.cells.size := hsize ▸ Nat.lt_succ_self _
  have hinitial : ∀ {d st}, (made.register g (.suspended (.iteratorNode i))).initial? d = some st →
      f.initial? d = some st := fun hd => hf ▸ (initial?_setState _ c _ _).trans hd
  have hlt : c < (s.branched g i v).cells.size := size_branched s g i v ▸ Nat.lt_add_right 2 hc
  have hnode : f.state c = .evaluated (.cons s.nextTag (.cell s.cells.size) (.cell (s.cells.size + 1))) :=
    hf ▸ state_valued_self hlt _ heaps
  have hhead : f.state s.cells.size = .evaluated v := by
    rw [hf]
    refine (state_valued_of_ne (s := s.branched g i v) (Nat.ne_of_gt hc) _ heaps).trans ?_
    exact (state_register_of_lt hn g _).trans (state_register_new s g _)
  exact .node hnode hhead (hinitial ((initial?_register_of_lt hn g _).trans (initial?_register_new s g _)))
    (hinitial (hsize ▸ initial?_register_new made g _))

end Store

namespace Sequence

theorem iteratorNode_of_item (hr : Iterator.pull run i s = .ok (some v) e) (ha : e.active = some g) :
    iteratorNode run i s = .ok (.cons e.nextTag (.cell e.cells.size) (.cell (e.cells.size + 1))) (e.branched g i v) := by
  have hready : Run.ready v e = .ok e.cells.size (e.register g (.evaluated v)) := Run.bind_ok (Run.activeHeap_eq ha)
  have hrest : ofIterator i (e.register g (.evaluated v)) = .ok (e.cells.size + 1)
      ((e.register g (.evaluated v)).register g (.suspended (.iteratorNode i))) :=
    (Run.suspend_apply (s := e.register g (.evaluated v)) ha (.iteratorNode i)).trans (by rw [Store.size_register])
  unfold iteratorNode
  rw [Run.bind_ok hr]
  dsimp only
  rw [Run.bind_ok hready, Run.bind_ok hrest]
  rfl

theorem iteratorNode_of_exhausted (hr : Iterator.pull run i s = .ok none e) : iteratorNode run i s = .ok .listEnd e := by
  unfold iteratorNode
  rw [Run.bind_ok hr]
  rfl

theorem iteratorNode_of_error {halt : Halt} (hr : Iterator.pull run i s = .error halt e) :
    iteratorNode run i s = .error halt e := by
  unfold iteratorNode
  rw [Run.bind_error hr]

end Sequence

/-- What the thunk of a cell comes to when its pull has ended so. -/
def Yield.node (o : Yield) (g : HeapId) (i : IteratorId) (e : Store) : EStateM.Result Halt Store Value :=
  match o with
  | item v => .ok (.cons e.nextTag (.cell e.cells.size) (.cell (e.cells.size + 1))) (e.branched g i v)
  | exhausted => .ok .listEnd e
  | raised z => .error (.raised z) e

/-! ## A draw -/

/-- A cell of a list over an iterator is forced before it has a value, and its pull ends so and leaves this store.  To
compute the item forces no cell of the lists over the iterator, and leaves the heap active. -/
structure Draw (p : Program) (i : IteratorId) (depth : Nat) (g : HeapId) (s : Store) (c : CellId) (o : Yield) (e : Store) :
    Prop where
  active : s.active = some g
  waits : s.state c = .suspended (.iteratorNode i)
  pulled : Iterator.pull (p.runAt depth) i (s.began c g (.iteratorNode i)) = o.result e
  undrawn : (s.began c g (.iteratorNode i)).Undrawn i e
  kept : e.active = some g

/-- What the force of a cell leaves after its pull. -/
structure Store.Drawn (i : IteratorId) (c : CellId) (o : Yield) (e f : Store) : Prop where
  gets : f.Gets i c e.cells.size o
  begun : f.begun = e.begun
  cursor : f.cursor i = e.cursor i
  size : f.cells.size = e.cells.size + o.made

namespace Draw
variable (h : Draw p i depth g s c o e)
include h

theorem runs : (s.began c g (.iteratorNode i)).Runs e := by
  have hfollows := Iterator.follows_pull (p.follows_runAt depth) i
  cases o with
  | item | exhausted => exact hfollows.runs_of_ok h.pulled
  | raised => exact hfollows.runs_of_raised h.pulled

theorem size_le : s.cells.size ≤ e.cells.size :=
  (Store.size_setState s c _).symm.le.trans (h.runs []).size_le

/-- While the item is computed, the cell is in progress. -/
theorem running {K : List Frame} (hs : Moment.Sound ⟨s, K⟩) : e.state c = .inProgress (.iteratorNode i) :=
  running_of_runs hs h.waits h.runs

theorem produce : Thunk.produce p (p.runAt depth) (.iteratorNode i) (s.began c g (.iteratorNode i)) =
    o.node g i e := by
  have hpull := h.pulled
  cases o with
  | item v => exact Sequence.iteratorNode_of_item hpull h.kept
  | exhausted => exact Sequence.iteratorNode_of_exhausted hpull
  | raised z => exact Sequence.iteratorNode_of_error hpull

theorem not_tooDeep (m : Store) : force (p.runAt (depth + 1)) c s ≠ .error .tooDeep m := by
  have hproduce := h.produce
  have hsettles := force_settles p depth h.active h.waits
  intro hforce
  rw [hforce] at hsettles
  cases hsettles with
  | valued _ _ _ hdeep => exact hdeep m rfl
  | tooDeep hv => cases o <;> cases hproduce.symm.trans hv

theorem leads (K : List Frame) : Moment.Leads ⟨s, K⟩ ⟨finalStore (force (p.runAt (depth + 1)) c s), K⟩ :=
  leads_of_force h.not_tooDeep K

/-- **The cell that was demanded holds what its pull gave**, and nothing else was pulled. -/
theorem drawn {K : List Frame} (hs : Moment.Sound ⟨s, K⟩) :
    Store.Drawn i c o e (finalStore (force (p.runAt (depth + 1)) c s)) := by
  have hproduce := h.produce
  have hlt := Store.lt_of_state (h.running hs) (by simp)
  have hsettles := force_settles p depth h.active h.waits
  generalize force (p.runAt (depth + 1)) c s = result at hsettles ⊢
  cases hsettles with
  | @valued w m heaps faults _ hv hstore =>
    cases o with
    | item v =>
      cases hproduce.symm.trans hv
      refine ⟨Store.gets_branched hlt hstore, ?_, ?_, ?_⟩
      · rw [hstore]
        rfl
      · rw [hstore]
        rfl
      · rw [hstore]
        exact (Store.size_valued (e.branched g i v) c _ heaps).trans (Store.size_branched e g i v)
    | exhausted =>
      cases hproduce.symm.trans hv
      rw [hstore]
      exact ⟨.ended (Store.state_valued_self hlt .listEnd heaps), rfl, rfl, Store.size_valued e c .listEnd heaps⟩
    | raised z => cases hproduce.symm.trans hv
  | @failed z m hv =>
    cases o <;> cases hproduce.symm.trans hv
    exact ⟨.failed (Store.state_setState_self (e.recorded _) c _ hlt), rfl, rfl, Store.size_setState ..⟩
  | tooDeep hv => cases o <;> cases hproduce.symm.trans hv

/-- The force of a cell whose pull raised an error raises this error. -/
theorem raises {z : FaultId} (ho : o = .raised z) :
    force (p.runAt (depth + 1)) c s = .error (.raised z) (e.aborted c z) := by
  subst ho
  rw [force_of_suspended p depth h.active h.waits, h.produce]
  rfl

/-- Any other force hands out what the cell then holds, unless the count of the force fails.  The count does not fail on a
heap that takes no sample, nor if there is nothing but cells to be met. -/
theorem answers (ho : ∀ z, o ≠ .raised z) (hserves : e.Serves g)
    (hcells : ∀ v, o = .item v → (e.heap g).samplesForces.truth? = some true → Store.OnlyCells v.refs) :
    ∃ v f, force (p.runAt (depth + 1)) c s = .ok v f := by
  have hproduce := h.produce
  cases o with
  | item v =>
    obtain ⟨heaps, hforce, -⟩ := force_valued p depth h.active h.waits hproduce (hserves.branched i (hcells v rfl))
      (Store.onlyCells_pair _ _)
    exact ⟨_, _, hforce⟩
  | exhausted =>
    obtain ⟨heaps, hforce, -⟩ := force_valued p depth h.active h.waits hproduce hserves (Store.onlyCells_map [])
    exact ⟨_, _, hforce⟩
  | raised z => exact absurd rfl (ho z)

end Draw
end Retention
