import Retention.Proofs.Grounding
/-!
# GroundingLists — lists, repetitions and consumers keep the store grounded

One lemma for each operation on lists, iterators, repetitions and consumers, up to whole scenarios: given a runner that
keeps the store grounded and arguments that name only heaps that are there, so do they all.
-/
namespace Retention

open Run

variable {run : Runner} {n : Nat}

/-! ## Lists -/

namespace Sequence

@[grind ←] theorem keeps_unfold (tag : Tag) {lo hi : Value} (hlo : Below n lo) (hhi : Below n hi) :
    Keeps n (unfold tag lo hi) := keeps_suspend ⟨hlo, hhi⟩

@[grind ←] theorem keeps_between {lo hi : Value} (hlo : Below n lo) (hhi : Below n hi) : Keeps n (between lo hi) := by
  unfold between; grind

@[grind ←] theorem keeps_noElement {α : Type} [Naming α] (tag : Tag) (lo hi i : Value) :
    Keeps n (noElement tag lo hi i : Run α) := by
  unfold noElement; grind

@[grind ←] theorem keeps_element (tag : Tag) (lo hi i : Value) : Keeps n (element tag lo hi i) := by
  unfold element; grind

@[grind ←] theorem keeps_successor (v : Value) : Keeps n (successor v) := by unfold successor; grind

@[grind ←] theorem keeps_intervalNode (tag : Tag) {lo hi : Value} (hlo : Below n lo) (hhi : Below n hi) :
    Keeps n (intervalNode tag lo hi) := by
  unfold intervalNode Value.listEnd; grind

@[grind ←] theorem keeps_append {xs ys : Value} (hxs : Below n xs) (hys : Below n ys) : Keeps n (append xs ys) :=
  keeps_suspend ⟨hxs, hys⟩

@[grind ←] theorem keeps_appendNode (hr : run.Keeps) (xs : Value) {ys : Value} (hys : Below n ys) :
    Keeps n (appendNode run xs ys) := by
  unfold appendNode; grind

@[grind ←] theorem keeps_dropSteps (hr : run.Keeps) (k : Nat) {xs : Value} (hxs : Below n xs) :
    Keeps n (dropSteps run k xs) := by
  induction k generalizing n xs with
  | zero => exact keeps_pure hxs
  | succ k ih => unfold dropSteps; grind

@[grind ←] theorem keeps_drop (hr : run.Keeps) (k : Int) {xs : Value} (hxs : Below n xs) : Keeps n (drop run k xs) := by
  unfold drop; grind

@[grind ←] theorem keeps_head (hr : run.Keeps) (xs : Value) : Keeps n (head run xs) := by unfold head; grind

end Sequence

/-! ## Iterators -/

namespace Iterator

@[grind ←] theorem keeps_new (kind : IteratorKind) {cursor : Cursor} (hc : Below n cursor) : Keeps n (new kind cursor) :=
  keeps_modifyGet (fun s => .iterated s (s.iterators.push ⟨kind, cursor⟩)) fun _ hn hs =>
    ⟨Nat.le_refl _, Store.BelowIn.pushIterator hs (hc.mono hn), trivial⟩

theorem keeps_setCursor (i : IteratorId) {cursor : Cursor} (hc : Below n cursor) :
    Keeps n (modify fun s => s.setCursor i cursor : Run Unit) :=
  keeps_modify (fun s => .iterated s _) fun _ hn hs => ⟨Nat.le_refl _, Store.BelowIn.setCursor hs i (hc.mono hn)⟩

theorem below_chars (cs : List Char) : Below n (cs.map fun c => Value.str (String.singleton c)) := fun v hv => by
  obtain ⟨c, -, rfl⟩ := List.mem_map.1 hv
  exact below_of_isLeaf trivial

theorem below_keys {entries : List (Value × Value)} (h : Below n entries) : Below n (entries.map (·.1)) := fun v hv => by
  obtain ⟨entry, hentry, rfl⟩ := List.mem_map.1 hv
  exact (h entry hentry).1

@[grind ←] theorem keeps_ofValue {v : Value} (hv : Below n v) : Keeps n (ofValue v) := by
  have hchars := fun m cs => below_chars (n := m) cs
  have hkeys := fun (entries : List (Value × Value)) (h : Below n entries) => below_keys h
  unfold ofValue; grind

@[grind ←] theorem keeps_forceHead (hr : run.Keeps) (node : Value) : Keeps n (forceHead run node) := by
  unfold forceHead; grind

@[grind ←] theorem keeps_listAt {place : Place} (hp : Below n place) : Keeps n (listAt place) := by
  unfold listAt; grind

@[grind ←] theorem keeps_step (hr : run.Keeps) {place : Place} (hp : Below n place) : Keeps n (step run place) := by
  unfold step; grind

@[grind ←] theorem keeps_guarded {α : Type} [Naming α] {x : Run α} (hx : Keeps n x) : Keeps n (guarded x) := by
  unfold guarded; grind

@[grind ←] theorem keeps_compute (i : IteratorId) {item : Run (Option (Value × Cursor))}
    (hx : Keeps n item) : Keeps n (compute i item) := by
  refine keeps_bind (keeps_setCursor i trivial) fun _ m hm _ => ?_
  refine keeps_bind (keeps_attempt (keeps_guarded (hx.mono hm))) fun r m' _ hr => ?_
  match r, hr with
  | .ok (some (v, cursor)), hr =>
    obtain ⟨hv, hc⟩ := below_pair.1 (below_some.1 (below_ok.1 hr))
    exact keeps_bind (keeps_setCursor i hc) fun _ _ hm _ => keeps_pure (below_some.2 (hv.mono hm))
  | .ok none, _ => exact keeps_bind (keeps_setCursor i trivial) fun _ _ _ _ => keeps_pure (below_none.2 trivial)
  | .error e, _ => exact keeps_bind (keeps_setCursor i trivial) fun _ _ _ _ => keeps_reraise e

theorem below_cursor {s : Store} (hs : Below n s) (i : IteratorId) : Below n (s.cursor i) := hs.cursors i

@[grind ←] theorem keeps_pull (hr : run.Keeps) (i : IteratorId) : Keeps n (pull run i) := by
  refine keeps_bind keeps_get fun s m _ hs => ?_
  have hcursor := below_cursor hs i
  split
  · exact keeps_pure (below_none.2 trivial)
  · exact keeps_raise _
  · exact keeps_bind (keeps_setCursor i trivial) fun _ _ _ _ => keeps_pure (below_none.2 trivial)
  · rename_i v rest heq
    rw [heq] at hcursor
    obtain ⟨hv, hrest⟩ := below_listCons.1 (below_items.1 hcursor)
    exact keeps_bind (keeps_setCursor i hrest) fun _ _ hm _ => keeps_pure (below_some.2 (hv.mono hm))
  · rename_i f next stop heq
    rw [heq] at hcursor
    have hcall : ∀ m, Keeps m (run none (.call f [.int next])) := fun m => keeps_run_none hr (by grind)
    grind
  · rename_i place heq
    rw [heq] at hcursor
    refine keeps_compute i (keeps_bind (keeps_step hr (below_spine.1 hcursor)) fun item l _ hitem => ?_)
    cases item with
    | none => exact keeps_pure (below_none.2 trivial)
    | some item =>
      obtain ⟨hv, hplace⟩ := below_some.1 hitem
      exact keeps_pure (below_some.2 (below_pair.2 ⟨hv, below_spine.2 hplace⟩))

@[grind ←] theorem keeps_drainOnto (hr : run.Keeps) (i : IteratorId) (k : Nat) {taken : List Value}
    (ht : Below n taken) : Keeps n (drainOnto run i k taken) := by
  induction k generalizing n taken with
  | zero => exact keeps_pure (below_reverse.2 ht)
  | succ k ih => unfold drainOnto; grind

@[grind ←] theorem keeps_items (hr : run.Keeps) {v : Value} (hv : Below n v) : Keeps n (items run v) := by
  unfold items; grind

@[grind ←] theorem keeps_close (i : IteratorId) : Keeps n (close i) := by
  refine keeps_bind keeps_get fun s m _ _ => ?_
  split
  · exact keeps_raise _
  · exact keeps_setCursor i trivial

end Iterator

namespace Sequence

@[grind ←] theorem keeps_ofIterator (i : IteratorId) : Keeps n (ofIterator i) := keeps_suspend trivial

@[grind ←] theorem keeps_iteratorNode (hr : run.Keeps) (i : IteratorId) : Keeps n (iteratorNode run i) := by
  unfold iteratorNode Value.listEnd; grind

@[grind ←] theorem keeps_takeOnto (hr : run.Keeps) (k : Nat) {taken : List Value} {place : Place}
    (ht : Below n taken) (hp : Below n place) : Keeps n (takeOnto run k taken place) := by
  induction k generalizing n taken place with
  | zero => exact keeps_pure (below_reverse.2 ht)
  | succ k ih => unfold takeOnto; grind

@[grind ←] theorem keeps_take (hr : run.Keeps) (k : Nat) {xs : Value} (hxs : Below n xs) : Keeps n (take run k xs) :=
  keeps_takeOnto hr k (below_listNil.2 trivial) hxs

end Sequence

/-! ## Repetitions -/

namespace Cycle

@[grind ←] theorem keeps_lap (hr : run.Keeps) {source : Value} {next : Thunk} (hsource : Below n source)
    (hnext : Below n next) : Keeps n (lap run source next) := by
  have hrest : Keeps n (do
      let rest ← suspend next
      force run (← Sequence.append source (.cell rest))) := by grind
  refine keeps_bind (keeps_cellOf "state" source) fun c m hm _ => keeps_bind (keeps_force hr c) fun v m' hm' _ => ?_
  refine keeps_bind (keeps_truth v) fun b m'' hm'' _ => ?_
  have hover : n ≤ m'' := Nat.le_trans hm (Nat.le_trans hm' hm'')
  cases b with
  | true => exact hrest.mono hover
  | false =>
    exact keeps_bind keeps_get fun s k hk _ => keeps_bind (keeps_raiseIn _ _) fun _ l hl _ =>
      hrest.mono (Nat.le_trans hover (Nat.le_trans hk hl))

@[grind ←] theorem keeps_shared {source : Value} (hsource : Below n source) : Keeps n (shared source) :=
  keeps_suspendSelf fun _ => hsource

@[grind ←] theorem keeps_start (hr : run.Keeps) (origin : CellId) {source : Value} (hsource : Below n source) :
    Keeps n (start run origin source) := by
  unfold start; grind

@[grind ←] theorem keeps_fresh (tag : Tag) {maker : Maker Value} (hm : Below n maker) : Keeps n (fresh tag maker) :=
  keeps_suspend hm

@[grind ←] theorem keeps_make (hr : run.Keeps) {maker : Maker Value} (hm : Below n maker) : Keeps n (make run maker) := by
  have hcall : ∀ f, Keeps n (run none (.call f [])) := fun f => keeps_run_none hr (by grind)
  unfold make; grind

@[grind ←] theorem keeps_callValue (hr : run.Keeps) {v : Value} (hv : Below n v) : Keeps n (callValue run v) := by
  unfold callValue; grind

@[grind ←] theorem keeps_freshLap (hr : run.Keeps) (tag : Tag) {maker : Maker Value} (hm : Below n maker) :
    Keeps n (freshLap run tag maker) := by
  unfold freshLap; grind

end Cycle

@[grind ←] theorem Discipline.keeps_cycle {lo hi : Value} (hlo : Below n lo) (hhi : Below n hi) (d : Discipline) :
    Keeps n (d.cycle lo hi) := by
  unfold Discipline.cycle; grind

/-! ## Consumers and scenarios -/

namespace Consumer

theorem below_rootName : Below n rootName := below_of_isLeaf trivial

@[grind ←] theorem keeps_new (h : HeapId) {samples xs : Value} (hs : Below n samples) (hxs : Below n xs) :
    Keeps n (new h samples xs) := by
  have hpush : ∀ m, n ≤ m → Keeps m (modifyGet fun s : Store =>
      (s.consumers.size, { s with consumers := s.consumers.push ⟨h, samples, 0⟩ }) : Run ConsumerId) := fun m hm =>
    keeps_modifyGet (fun s => .consumed s _) fun _ hn hgrounded =>
      ⟨Nat.le_refl _, Store.BelowIn.pushConsumer hgrounded (hs.mono (Nat.le_trans hm hn)), trivial⟩
  have hname := below_rootName (n := n)
  unfold new; grind

theorem below_consumer {s : Store} (hs : Below n s) (d : ConsumerId) :
    Below n (s.consumers[d]?.getD ⟨0, .bool false, 0⟩) := by
  have hd := hs.consumers d
  cases hx : s.consumers[d]? with
  | none => exact below_of_isLeaf (v := .bool false) trivial
  | some x => rw [hx] at hd; exact below_some.1 hd

@[grind ←] theorem keeps_find (d : ConsumerId) : Keeps n (find d) :=
  keeps_bind keeps_get fun _ _ _ hs => keeps_pure (below_consumer hs d)

@[grind ←] theorem keeps_remaining (d : ConsumerId) : Keeps n (remaining d) := by unfold remaining; grind

theorem keeps_moveTo (d : ConsumerId) (current : Value) {rest : Value} (hrest : Below n rest) (x : Consumer) :
    Keeps n (moveTo d current rest x) := by
  unfold moveTo
  split
  · grind
  · refine keeps_bind (keeps_setRoot _ below_rootName hrest) fun _ m _ _ => ?_
    refine keeps_bind (keeps_modify (fun s => .consumed s _) fun _ _ hs => ⟨Nat.le_refl _, ?_⟩) fun _ _ _ _ => ?_
    · exact Store.BelowIn.stepConsumer hs d _
    · grind

@[grind ←] theorem keeps_step (hr : run.Keeps) (d : ConsumerId) : Keeps n (step run d) := by
  rw [step_eq]
  exact keeps_bind (keeps_remaining d) fun _ _ _ hcurrent => keeps_bind (Sequence.keeps_dropSteps hr 1 hcurrent)
    fun _ _ _ hrest => keeps_bind (keeps_find d) fun x _ hm _ => keeps_moveTo d _ (hrest.mono hm) x

@[grind ←] theorem keeps_advance (hr : run.Keeps) (d : ConsumerId) (k : Nat) : Keeps n (advance run d k) := by
  induction k generalizing n with
  | zero => exact keeps_pure trivial
  | succ k ih => unfold advance; grind

@[grind ←] theorem keeps_drop (hr : run.Keeps) (d : ConsumerId) (k : Int) : Keeps n (drop run d k) := by
  unfold drop; grind

@[grind ←] theorem keeps_head (hr : run.Keeps) (d : ConsumerId) : Keeps n (head run d) := by unfold head; grind

@[grind ←] theorem keeps_headValue (hr : run.Keeps) (d : ConsumerId) : Keeps n (headValue run d) := by
  unfold headValue; grind

end Consumer

@[grind ←] theorem Run.keeps_integerOf (v : Value) : Keeps n (integerOf v) := by unfold integerOf; grind

namespace Scenario

@[grind ←] theorem keeps_within {α : Type} [Naming α] (traces : Value) {body : HeapId → Run α}
    (hb : ∀ h m, n ≤ m → h < m → Keeps m (body h)) : Keeps n (within traces body) := by
  unfold within; grind

@[grind ←] theorem keeps_announce (x : Scenario) (d : Discipline) : Keeps n (x.announce d) := by unfold announce; grind

@[grind ←] theorem keeps_measure (hr : run.Keeps) {x : Scenario} (hlo : Below n x.lo) (hhi : Below n x.hi)
    (hsamples : Below n x.samples) (d : Discipline) (h : HeapId) : Keeps n (x.measure run d h) := by
  refine keeps_bind (keeps_announce x d) fun _ m hm _ => ?_
  refine keeps_bind (Discipline.keeps_cycle (hlo.mono hm) (hhi.mono hm) d) fun c m' hm' _ => ?_
  have hc : Below m' (Value.cell c) := below_of_isLeaf trivial
  refine keeps_bind (Consumer.keeps_new h (hsamples.mono (Nat.le_trans hm hm')) hc) fun consumer k _ _ => ?_
  refine keeps_bind (keeps_integerOf x.drop) fun drop k _ _ => ?_
  refine keeps_bind (keeps_discard (Consumer.keeps_drop hr consumer drop)) fun _ k _ _ => ?_
  refine keeps_bind (Consumer.keeps_headValue hr consumer) fun head k _ hhead => ?_
  refine keeps_bind (keeps_sample h) fun live k' hk _ => ?_
  exact keeps_bind keeps_get fun s k'' hk' _ => keeps_pure (hhead.mono (Nat.le_trans hk hk') : Below k'' head)

@[grind ←] theorem keeps_report (hr : run.Keeps) {x : Scenario} (hlo : Below n x.lo) (hhi : Below n x.hi)
    (hsamples : Below n x.samples) (d : Discipline) : Keeps n (x.report run d) := by
  unfold report; grind

end Scenario
end Retention
