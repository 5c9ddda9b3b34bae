import Retention.Proofs.Agreeing
/-!
# AgreeingLists — lists, repetitions and consumers agree

One lemma for each operation on lists, iterators, repetitions and consumers: given runners that agree, the operation
agrees with itself, and consumers do so whatever their flags are.
-/
namespace Retention

open Run

variable {run run' : Runner}

/-! ## Lists -/

namespace Sequence

@[grind ←] theorem agrees_unfold (tag : Tag) (lo hi : Value) : Agrees (unfold tag lo hi) (unfold tag lo hi) :=
  agrees_suspend _

@[grind ←] theorem agrees_between (lo hi : Value) : Agrees (between lo hi) (between lo hi) :=
  agrees_bind agrees_freshTag fun tag => agrees_unfold tag lo hi

@[grind ←] theorem agrees_successor (v : Value) : Agrees (successor v) (successor v) := by unfold successor; grind

@[grind ←] theorem agrees_intervalNode (tag : Tag) (lo hi : Value) :
    Agrees (intervalNode tag lo hi) (intervalNode tag lo hi) := by
  unfold intervalNode; grind

@[grind ←] theorem agrees_append (xs ys : Value) : Agrees (append xs ys) (append xs ys) := agrees_suspend _

@[grind ←] theorem agrees_appendNode (hr : run.Agrees run') (xs ys : Value) :
    Agrees (appendNode run xs ys) (appendNode run' xs ys) := by
  unfold appendNode; grind

@[grind ←] theorem agrees_dropSteps (hr : run.Agrees run') :
    ∀ (n : Nat) (xs : Value), Agrees (dropSteps run n xs) (dropSteps run' n xs)
  | 0, xs => agrees_pure xs
  | n + 1, xs => by
    have ih := agrees_dropSteps hr n
    unfold dropSteps; grind

@[grind ←] theorem agrees_drop (hr : run.Agrees run') (n : Int) (xs : Value) :
    Agrees (drop run n xs) (drop run' n xs) := by
  have htold : Agrees (told fun _ => integerText n) (told fun _ => integerText n) := agrees_told fun _ _ _ => rfl
  unfold drop; grind

@[grind ←] theorem agrees_head (hr : run.Agrees run') (xs : Value) : Agrees (head run xs) (head run' xs) := by
  refine agrees_bind (agrees_cellOf "state" xs) fun c => agrees_bind (agrees_force hr c) fun v => ?_
  split
  · refine agrees_get fun s s' hs => ?_
    rw [Store.address_of_bare hs]
    exact agrees_raiseIn _ _
  · exact agrees_pure _
  · exact agrees_pure _

end Sequence

/-! ## Elements of intervals -/

namespace Store

/-- An integer is written the same in all stores. -/
theorem writtenIn_of_int {v : Value} {k : Int} (h : v.int? = some k) (s s' : Store) (depth : Nat) (n : Nesting) :
    s'.writtenIn depth n v = s.writtenIn depth n v := by
  cases depth with
  | zero => rfl
  | succ depth => cases v <;> first | rfl | cases h

/-- And so is an interval of integers. -/
theorem writtenIn_interval {lo hi : Value} {k l : Int} (hlo : lo.int? = some k) (hhi : hi.int? = some l) (tag : Tag)
    (s s' : Store) (depth : Nat) (n : Nesting) :
    s'.writtenIn depth n (.interval tag lo hi) = s.writtenIn depth n (.interval tag lo hi) := by
  cases depth with
  | zero => rfl
  | succ depth => simp only [writtenIn, writtenIn_of_int hlo s s', writtenIn_of_int hhi s s']

theorem textIn_of_int {v : Value} {k : Int} (h : v.int? = some k) (s s' : Store) (depth : Nat) :
    s'.textIn depth v = s.textIn depth v := by
  cases depth with
  | zero => rfl
  | succ depth =>
    have hwritten : s'.written v = s.written v := writtenIn_of_int h s s' textDepth {}
    cases v <;> first | exact hwritten | cases h

end Store

/-- An interval of which the length can be told has integers for bounds. -/
theorem ints_of_lengthBetween {lo hi : Value} {s m : Store} {n : Nat} (h : lengthBetween lo hi s = .ok n m) :
    ∃ k l, lo.int? = some k ∧ hi.int? = some l := by
  unfold lengthBetween Value.between? at h
  cases hlo : lo.int? with
  | none => simp only [hlo] at h; cases h
  | some k =>
    cases hhi : hi.int? with
    | none => simp only [hlo, hhi] at h; cases h
    | some l => exact ⟨k, l, rfl, rfl⟩

namespace Sequence
variable {s s' : Store}

theorem agreesAt_noElement {tag : Tag} {lo hi i : Value} {k : Int} (hs : s.bare = s'.bare) (hi' : i.int? = some k)
    (hw : s.Settles fun s => s.written (.interval tag lo hi)) :
    AgreesAt Eq s s' (noElement tag lo hi i : Run Value) (noElement tag lo hi i) := by
  have htext : Agrees (told fun s => s.text i) (told fun s => s.text i) := agrees_told fun s s' _ =>
    Store.textIn_of_int hi' s s' textDepth
  exact agreesAt_bind (agreesAt_told hs (hw s' hs)) fun interval => agrees_bind htext fun _ => agrees_raise _

/-- An element is looked for, where only a negative index asks how the interval is written, if its bounds are not
integers. -/
theorem agreesAt_element {tag : Tag} {lo hi i : Value} (hs : s.bare = s'.bare)
    (hw : ∀ k, i.int? = some k → k < 0 → s.Settles fun s => s.written (.interval tag lo hi)) :
    AgreesAt Eq s s' (element tag lo hi i) (element tag lo hi i) := by
  unfold element
  cases hk : i.int? with
  | none => exact (agrees_bind (agrees_typeName i) fun _ => agrees_raise _).at hs
  | some k =>
    dsimp only
    split
    · rename_i hneg
      exact agreesAt_noElement hs hk (hw k hk hneg)
    · by_cases hints : ∃ l m, lo.int? = some l ∧ hi.int? = some m
      · obtain ⟨l, m, hlo, hhi⟩ := hints
        have hno : Agrees (noElement tag lo hi i : Run Value) (noElement tag lo hi i) := fun s s' hs =>
          agreesAt_noElement hs hk fun s' _ => Store.writtenIn_interval hlo hhi tag s s' textDepth {}
        exact (agrees_bind (agrees_lengthBetween lo hi) fun length => by grind).at hs
      · -- without integers for bounds there is no length, and no element is looked for
        exact agreesAt_bindAt ((agrees_lengthBetween lo hi).at hs) fun length m m' hlength _ =>
          absurd (ints_of_lengthBetween hlength) hints

@[grind ←] theorem agrees_element_of_nonneg (tag : Tag) (lo hi : Value) {k : Int} (hk : 0 ≤ k) :
    Agrees (element tag lo hi (.int k)) (element tag lo hi (.int k)) := fun s s' hs =>
  agreesAt_element hs fun l hl hneg => by
    cases hl
    exact absurd hneg (Int.not_lt.2 hk)

end Sequence

/-! ## Iterators -/

namespace Iterator

@[grind ←] theorem agrees_new (kind : IteratorKind) (cursor : Cursor) : Agrees (new kind cursor) (new kind cursor) :=
  agrees_modifyGet (follows_new kind cursor) (fun _ _ hs => by rw [Store.iterators_of_bare hs]) fun _ _ h =>
    h.frame (f := fun s => { s with iterators := s.iterators.push ⟨kind, cursor⟩ }) (fun _ => rfl) (fun _ => rfl)
      fun _ => rfl

theorem agrees_setCursor (i : IteratorId) (cursor : Cursor) :
    Agrees (modify fun s => s.setCursor i cursor : Run Unit) (modify fun s => s.setCursor i cursor) :=
  agrees_modify (follows_setCursor i cursor) fun _ _ h =>
    h.frame (f := fun s => s.setCursor i cursor) (fun _ => rfl) (fun _ => rfl) fun _ => rfl

@[grind ←] theorem agrees_ofValue (v : Value) : Agrees (ofValue v) (ofValue v) := by unfold ofValue; grind

@[grind ←] theorem agrees_forceHead (hr : run.Agrees run') (node : Value) :
    Agrees (forceHead run node) (forceHead run' node) := by
  unfold forceHead
  split
  · grind
  · refine agrees_get fun s s' hs => ?_
    rw [Store.reportAt_of_bare hs]
    grind
  · grind
  · grind

@[grind ←] theorem agrees_listAt (place : Place) : Agrees (listAt place) (listAt place) := by unfold listAt; grind

@[grind ←] theorem agrees_step (hr : run.Agrees run') (place : Place) : Agrees (step run place) (step run' place) := by
  unfold step; grind

@[grind ←] theorem agrees_guarded {α : Type} {x x' : Run α} (hx : Agrees x x') : Agrees (guarded x) (guarded x') := by
  refine agrees_bind (agrees_attempt hx) fun r => ?_
  match r with
  | .ok a => exact agrees_pure a
  | .error e =>
    refine agrees_get fun s s' hs => ?_
    rw [Store.faults_of_bare hs]
    grind

@[grind ←] theorem agrees_compute (i : IteratorId) {item item' : Run (Option (Value × Cursor))}
    (hx : Agrees item item') : Agrees (compute i item) (compute i item') := by
  refine agrees_bind (agrees_setCursor i .busy) fun _ => agrees_bind (agrees_attempt (agrees_guarded hx)) fun r => ?_
  match r with
  | .ok (some (v, cursor)) => exact agrees_bind (agrees_setCursor i cursor) fun _ => agrees_pure _
  | .ok none => exact agrees_bind (agrees_setCursor i .finished) fun _ => agrees_pure _
  | .error e => exact agrees_bind (agrees_setCursor i .finished) fun _ => agrees_reraise e

@[grind ←] theorem agrees_pull (hr : run.Agrees run') (i : IteratorId) : Agrees (pull run i) (pull run' i) := by
  refine agrees_get fun s s' hs => ?_
  rw [Store.cursor_of_bare hs]
  split
  · exact agrees_pure _
  · exact agrees_raise _
  · exact agrees_bind (agrees_setCursor i .finished) fun _ => agrees_pure _
  · exact agrees_bind (agrees_setCursor i _) fun _ => agrees_pure _
  · refine agrees_compute i ?_
    split
    · grind
    · split
      · exact agrees_bind (agrees_run_none hr _) fun _ => agrees_pure _
      · exact agrees_pure _
  · grind

@[grind ←] theorem agrees_drainOnto (hr : run.Agrees run') (i : IteratorId) :
    ∀ (n : Nat) (taken : List Value), Agrees (drainOnto run i n taken) (drainOnto run' i n taken)
  | 0, taken => agrees_pure taken.reverse
  | n + 1, taken => by
    unfold drainOnto
    refine agrees_bind (agrees_pull hr i) fun item => ?_
    cases item with
    | none => exact agrees_pure taken.reverse
    | some v => exact agrees_drainOnto hr i n (v :: taken)

@[grind ←] theorem agrees_items (hr : run.Agrees run') (v : Value) : Agrees (items run v) (items run' v) := by
  unfold items; grind

@[grind ←] theorem agrees_close (i : IteratorId) : Agrees (close i) (close i) := by
  refine agrees_get fun s s' hs => ?_
  rw [Store.cursor_of_bare hs]
  split
  · exact agrees_raise _
  · exact agrees_setCursor i .finished

end Iterator

namespace Sequence

@[grind ←] theorem agrees_ofIterator (i : IteratorId) : Agrees (ofIterator i) (ofIterator i) := agrees_suspend _

@[grind ←] theorem agrees_iteratorNode (hr : run.Agrees run') (i : IteratorId) :
    Agrees (iteratorNode run i) (iteratorNode run' i) := by
  unfold iteratorNode; grind

@[grind ←] theorem agrees_takeOnto (hr : run.Agrees run') :
    ∀ (n : Nat) (taken : List Value) (place : Place), Agrees (takeOnto run n taken place) (takeOnto run' n taken place)
  | 0, taken, place => agrees_pure taken.reverse
  | n + 1, taken, place => by
    unfold takeOnto
    refine agrees_bind (Iterator.agrees_guarded (Iterator.agrees_step hr place)) fun item => ?_
    cases item with
    | none => exact agrees_pure taken.reverse
    | some x => exact agrees_takeOnto hr n (x.1 :: taken) x.2

@[grind ←] theorem agrees_take (hr : run.Agrees run') (n : Nat) (xs : Value) :
    Agrees (take run n xs) (take run' n xs) :=
  agrees_takeOnto hr n [] (.before xs)

end Sequence

/-! ## Repetitions -/

namespace Cycle

@[grind ←] theorem agrees_lap (hr : run.Agrees run') (source : Value) (next : Thunk) :
    Agrees (lap run source next) (lap run' source next) := by
  refine agrees_bind (agrees_cellOf "state" source) fun c => agrees_bind (agrees_force hr c) fun v =>
    agrees_bind (agrees_truth v) fun b => ?_
  split
  · refine agrees_get fun s s' hs => ?_
    rw [Store.address_of_bare hs]
    grind
  · grind

@[grind ←] theorem agrees_shared (source : Value) : Agrees (shared source) (shared source) := agrees_suspendSelf _

@[grind ←] theorem agrees_start (hr : run.Agrees run') (origin : CellId) (source : Value) :
    Agrees (start run origin source) (start run' origin source) :=
  agrees_bind agrees_freshTag fun _ => agrees_lap hr source _

@[grind ←] theorem agrees_fresh (tag : Tag) (maker : Maker Value) : Agrees (fresh tag maker) (fresh tag maker) :=
  agrees_suspend _

@[grind ←] theorem agrees_make (hr : run.Agrees run') (maker : Maker Value) :
    Agrees (make run maker) (make run' maker) := by
  match maker with
  | .function f => exact agrees_run_none hr (.call f [])
  | .interval lo hi => exact agrees_bind (Sequence.agrees_between lo hi) fun c => agrees_pure (Value.cell c)

@[grind ←] theorem agrees_callValue (hr : run.Agrees run') (v : Value) :
    Agrees (callValue run v) (callValue run' v) := by
  unfold callValue; grind

@[grind ←] theorem agrees_freshLap (hr : run.Agrees run') (tag : Tag) (maker : Maker Value) :
    Agrees (freshLap run tag maker) (freshLap run' tag maker) :=
  agrees_bind (agrees_make hr maker) fun source => agrees_lap hr source _

end Cycle

@[grind ←] theorem Discipline.agrees_cycle (lo hi : Value) (d : Discipline) : Agrees (d.cycle lo hi) (d.cycle lo hi) := by
  unfold Discipline.cycle; grind

/-! ## Consumers -/

namespace Consumer

/-- A consumer is added whose flags may differ. -/
theorem agrees_add (h : HeapId) {samples samples' : Value} (hs : samples.IsFlag) (hs' : samples'.IsFlag) :
    Agrees (modifyGet fun s => (s.consumers.size, { s with consumers := s.consumers.push ⟨h, samples, 0⟩ }) : Run ConsumerId)
      (modifyGet fun s => (s.consumers.size, { s with consumers := s.consumers.push ⟨h, samples', 0⟩ })) := by
  have hflagged : ∀ {xs : Array Consumer} {flag : Value}, flag.IsFlag →
      (∀ (d : ConsumerId) (x : Consumer), xs[d]? = some x → x.samples.IsFlag) →
      ∀ (d : ConsumerId) (x : Consumer), (xs.push ⟨h, flag, 0⟩)[d]? = some x → x.samples.IsFlag := by
    intro xs flag hflag hxs d x hx
    rw [Array.getElem?_push] at hx
    split at hx
    · cases hx
      exact hflag
    · exact hxs d x hx
  refine agrees_modifyGet (follows_modifyGet fun s => .consumed s _)
    (fun _ _ hs => (Store.consumers_size_of_bare hs).symm) fun s s' halike => ?_
  refine halike.consumers ?_ (hflagged hs halike.flagged.consumers) (hflagged hs' halike.flagged'.consumers)
  rw [Array.map_push, Array.map_push]
  exact congrArg (fun s : Store => s.consumers.push ⟨h, .bool false, 0⟩) halike.bare

theorem discard_bind {α β : Type} (x : Run α) (f : Unit → Run β) : discard x >>= f = x >>= fun _ => f () := by
  funext s
  show ((Functor.map (fun _ => ()) x) >>= f) s = _
  rw [bind_apply, bind_apply, map_apply]
  cases x s <;> rfl

/-- New consumers whose flags may differ. -/
theorem agrees_new (h : HeapId) {samples samples' xs : Value} (hxs : xs.IsCell) (hs : samples.IsFlag)
    (hs' : samples'.IsFlag) : Agrees (new h samples xs) (new h samples' xs) := by
  refine agrees_bind (agrees_setRoot h rootName hxs) fun _ => ?_
  have hadd := agrees_add h hs hs'
  simp only [discard_bind]
  exact agrees_ifFlag hs hs' (fun _ _ => hadd) (fun _ => hadd) (fun _ => hadd) hadd

/-- The same consumer, whose flags may differ. -/
structure Same (x x' : Consumer) : Prop where
  bare : x.bare = x'.bare
  flag : x.samples.IsFlag
  flag' : x'.samples.IsFlag

theorem Same.heap {x x' : Consumer} (h : Same x x') : x'.heap = x.heap := (congrArg Consumer.heap h.bare).symm

theorem Same.steps {x x' : Consumer} (h : Same x x') : x'.steps = x.steps := (congrArg Consumer.steps h.bare).symm

theorem agreesIn_find (d : ConsumerId) : AgreesIn Same (find d) (find d) := fun s s' _ =>
  ⟨follows_find d s, fun _ halike _ => by
    refine ⟨_, s', rfl, ?_, halike⟩
    have hbare : s.consumers[d]?.map Consumer.bare = s'.consumers[d]?.map Consumer.bare := by
      rw [← Array.getElem?_map, ← Array.getElem?_map]
      exact congrArg (fun s : Store => s.consumers[d]?) halike.bare
    cases hx : s.consumers[d]? with
    | none =>
      rw [hx] at hbare
      rw [Option.map_eq_none_iff.1 hbare.symm]
      exact ⟨rfl, ⟨false, rfl⟩, ⟨false, rfl⟩⟩
    | some x =>
      rw [hx] at hbare
      obtain ⟨x', hx', hsame⟩ := Option.map_eq_some_iff.1 hbare.symm
      rw [hx']
      exact ⟨hsame.symm, halike.flagged.consumers d x hx, halike.flagged'.consumers d x' hx'⟩⟩

@[grind ←] theorem agrees_remaining (d : ConsumerId) : Agrees (remaining d) (remaining d) :=
  agreesIn_bind (agreesIn_find d) (fun x => follows_root x.heap rootName) fun x x' hx => by
    rw [hx.heap]
    exact agrees_root x.heap rootName

/-- A step is counted. -/
theorem agrees_count (d : ConsumerId) (steps : Nat) :
    Agrees (modify fun s => { s with consumers := s.consumers.modify d fun x => { x with steps := steps } } : Run Unit)
      (modify fun s => { s with consumers := s.consumers.modify d fun x => { x with steps := steps } }) := by
  have hflagged : ∀ {xs : Array Consumer}, (∀ (d : ConsumerId) (x : Consumer), xs[d]? = some x → x.samples.IsFlag) →
      ∀ (i : ConsumerId) (x : Consumer), (xs.modify d fun x => { x with steps := steps })[i]? = some x →
        x.samples.IsFlag := by
    intro xs hxs i x hx
    rw [Array.getElem?_modify] at hx
    split at hx
    · obtain ⟨y, hy, rfl⟩ := Option.map_eq_some_iff.1 hx
      exact hxs i y hy
    · exact hxs i x hx
  have hbare : ∀ xs : Array Consumer, (xs.modify d fun x => { x with steps := steps }).map Consumer.bare =
      (xs.map Consumer.bare).modify d fun x => { x with steps := steps } := by
    intro xs
    refine Array.ext_getElem? fun i => ?_
    simp only [Array.getElem?_map, Array.getElem?_modify]
    split
    · cases xs[i]? <;> rfl
    · rfl
  refine agrees_modify (follows_modify fun s => .consumed s _) fun s s' halike => ?_
  refine halike.consumers ?_ (hflagged halike.flagged.consumers) (hflagged halike.flagged'.consumers)
  rw [hbare, hbare]
  exact congrArg (fun s : Store => s.consumers.modify d fun x => { x with steps := steps }) halike.bare

/-- What is left after one step is the list itself or what its cell refers to. -/
theorem isCell_of_dropSteps (hr : run.Follows) {s e : Store} {xs rest : Value} (ht : e.Tidy)
    (h : Sequence.dropSteps run 1 xs s = .ok rest e) : rest.same xs ∨ rest.IsCell := by
  unfold Sequence.dropSteps forceValue at h
  cases xs with
  | cell c =>
    change (Retention.force run c >>= _) s = _ at h
    rw [bind_apply] at h
    cases hf : Retention.force run c s with
    | error x m =>
      rw [hf] at h
      cases h
    | ok v m =>
      rw [hf] at h
      have hstate := evaluated_of_force hr hf
      cases v with
      | cons tag head tail =>
        cases h
        refine .inr (ht.refs c rest ?_)
        rw [Store.refs_of_state hstate]
        exact List.mem_cons_of_mem _ List.mem_cons_self
      | _ =>
        cases h
        exact .inl (BEq.rfl (a := c))
  | _ => cases h

/-- The end of a step to a place that it may set the root to. -/
theorem agrees_moveTo (d : ConsumerId) {current rest : Value} (hrest : rest.same current ∨ rest.IsCell) {x x' : Consumer}
    (hx : Same x x') : Agrees (moveTo d current rest x) (moveTo d current rest x') := by
  unfold moveTo
  rw [hx.heap, hx.steps]
  split
  · exact agrees_bind (agrees_note _ _) fun _ => agrees_pure _
  · rename_i hne
    refine agrees_bind (agrees_setRoot _ _ (hrest.resolve_left hne)) fun _ => agrees_bind (agrees_count d _) fun _ => ?_
    exact agrees_ifFlag hx.flag hx.flag' (fun _ _ => agrees_bind (agrees_note _ _) fun _ => agrees_pure true)
      (fun _ => agrees_note_left _ (agrees_pure true)) (fun _ => agrees_note_right _ (agrees_pure true)) (agrees_pure true)

theorem agrees_step (hr : run.Agrees run') (d : ConsumerId) : Agrees (step run d) (step run' d) := by
  rw [step_eq, step_eq]
  refine agrees_bind (agrees_remaining d) fun current s s' hs => ?_
  have hfollows := fun rest => follows_bind (follows_find d) (follows_moveTo d current rest)
  refine agreesAt_bindIn ((Sequence.agrees_dropSteps hr 1 current).at hs) (fun rest m _ => hfollows rest m)
    fun rest rest' m m' _ hrest hm ht heq halike => ?_
  subst heq
  -- where the list was left is a cell, as it is referred to in a tidy store
  have hcell := isCell_of_dropSteps hr.follows ht hrest
  have hagrees := agreesIn_bind (agreesIn_find d) (follows_moveTo d current rest) fun x x' hx => agrees_moveTo d hcell hx
  exact (hagrees m m' halike.bare).ends hm halike

@[grind ←] theorem agrees_advance (hr : run.Agrees run') (d : ConsumerId) :
    ∀ n : Nat, Agrees (advance run d n) (advance run' d n)
  | 0 => agrees_pure ()
  | n + 1 => by
    have ih := agrees_advance hr d n
    have hstep := agrees_step hr d
    unfold advance; grind

@[grind ←] theorem agrees_drop (hr : run.Agrees run') (d : ConsumerId) (n : Int) : Agrees (drop run d n) (drop run' d n) :=
  agrees_bind (agrees_advance hr d n.toNat) fun _ => agrees_remaining d

@[grind ←] theorem agrees_head (hr : run.Agrees run') (d : ConsumerId) : Agrees (head run d) (head run' d) :=
  agrees_bind (agrees_remaining d) fun xs => Sequence.agrees_head hr xs

@[grind ←] theorem agrees_headValue (hr : run.Agrees run') (d : ConsumerId) :
    Agrees (headValue run d) (headValue run' d) :=
  agrees_bind (agrees_head hr d) fun v => agrees_forceValue hr v

end Consumer

/-! ## Scenarios -/

@[grind ←] theorem Run.agrees_integerOf (v : Value) : Agrees (integerOf v) (integerOf v) := by unfold integerOf; grind

namespace Scenario

theorem agreesIn_within {α : Type} {q : α → α → Prop} {traces traces' : Value} (ht : traces.IsFlag) (ht' : traces'.IsFlag)
    {body body' : HeapId → Run α} (hb : ∀ h, AgreesIn q (body h) (body' h)) :
    AgreesIn q (within traces body) (within traces' body') := by
  refine agrees_bindIn (agrees_newHeap true ht ⟨false, rfl⟩ ht' ⟨false, rfl⟩) fun h => ?_
  refine agrees_bindIn (agrees_enter h) fun _ => ?_
  refine agreesIn_bind (agreesIn_attempt (hb h)) (fun result => follows_of_composed fun _ => by grind) fun result result' hresult => ?_
  refine agrees_bindIn (agrees_leave h) fun _ => ?_
  cases result with
  | ok a =>
    cases result' with
    | ok a' => exact agreesIn_pure hresult
    | error e' => cases hresult
  | error e =>
    cases result' with
    | ok a' => cases hresult
    | error e' =>
      obtain rfl : e = e' := hresult
      exact agreesIn_reraise e

/-- A scenario whose flags may differ measures what may differ, but it comes to a report either way, or to neither. -/
theorem agreesIn_report (hr : run.Agrees run') (x : Scenario) (d : Discipline) {traces samples : Value}
    (ht : x.traces.IsFlag) (hf : x.samples.IsFlag) (ht' : traces.IsFlag) (hf' : samples.IsFlag) :
    AgreesIn (fun _ _ => True) (x.report run d) (({ x with traces, samples } : Scenario).report run' d) := by
  have hannounce : Agrees (x.announce d) (({ x with traces, samples } : Scenario).announce d) := by
    unfold announce; grind
  refine agreesIn_within ht ht' fun h => agrees_bindIn hannounce fun _ => ?_
  refine agrees_bindIn (d.agrees_cycle x.lo x.hi) fun c => ?_
  refine agrees_bindIn (Consumer.agrees_new h ⟨c, rfl⟩ hf hf') fun consumer => ?_
  refine agrees_bindIn (agrees_integerOf x.drop) fun n => ?_
  refine agrees_bindIn (agrees_discard (Consumer.agrees_drop hr consumer n)) fun _ => ?_
  refine agrees_bindIn (Consumer.agrees_headValue hr consumer) fun v => agrees_bindIn (agrees_sample h) fun live => ?_
  exact agreesIn_get fun s s' hs => agreesIn_pure trivial s s' hs

end Scenario
end Retention
