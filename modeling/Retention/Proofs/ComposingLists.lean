import Retention.Scenario
import Retention.Proofs.Composing
/-!
# ComposingLists — what lists, repetitions and consumers are put together with

One lemma for each operation on lists, iterators, repetitions and consumers, up to whole scenarios.
-/
namespace Retention

open Run

variable {run : Runner}

/-! ## Lists -/

namespace Sequence

@[grind ←] theorem composed_unfold (tag : Tag) (lo hi : Value) : Composed run (unfold tag lo hi) := composed_suspend _

@[grind ←] theorem composed_between (lo hi : Value) : Composed run (between lo hi) :=
  composed_bind composed_freshTag fun tag => composed_unfold tag lo hi

@[grind ←] theorem composed_noElement {α : Type} (tag : Tag) (lo hi i : Value) :
    Composed run (noElement tag lo hi i : Run α) := by
  unfold noElement; grind

@[grind ←] theorem composed_element (tag : Tag) (lo hi i : Value) : Composed run (element tag lo hi i) := by
  unfold element; grind

@[grind ←] theorem composed_successor (v : Value) : Composed run (successor v) := by unfold successor; grind

@[grind ←] theorem composed_intervalNode (tag : Tag) (lo hi : Value) : Composed run (intervalNode tag lo hi) := by
  unfold intervalNode; grind

@[grind ←] theorem composed_append (xs ys : Value) : Composed run (append xs ys) := composed_suspend _

@[grind ←] theorem composed_appendNode (xs ys : Value) : Composed run (appendNode run xs ys) := by
  unfold appendNode; grind

@[grind ←] theorem composed_dropSteps : ∀ (n : Nat) (xs : Value), Composed run (dropSteps run n xs)
  | 0, xs => composed_pure xs
  | n + 1, xs => by
    have ih := composed_dropSteps n
    unfold dropSteps; grind

@[grind ←] theorem composed_drop (n : Int) (xs : Value) : Composed run (drop run n xs) := by
  unfold drop; grind

@[grind ←] theorem composed_head (xs : Value) : Composed run (head run xs) := by
  unfold head; grind

end Sequence

/-! ## Iterators -/

namespace Iterator

@[grind ←] theorem composed_new (kind : IteratorKind) (cursor : Cursor) : Composed run (new kind cursor) :=
  composed_modifyGet fun s => .of_step (.iterated s (s.iterators.push ⟨kind, cursor⟩)) rfl
    (by rw [Array.size_push]; exact Nat.le_succ _)

theorem composed_setCursor (i : IteratorId) (cursor : Cursor) :
    Composed run (modify fun s => s.setCursor i cursor : Run Unit) :=
  composed_modify fun s => .of_step (.iterated s _) rfl (Nat.le_of_eq Array.size_modify.symm)

@[grind ←] theorem composed_ofValue (v : Value) : Composed run (ofValue v) := by unfold ofValue; grind

@[grind ←] theorem composed_forceHead (node : Value) : Composed run (forceHead run node) := by
  unfold forceHead; grind

@[grind ←] theorem composed_listAt (place : Place) : Composed run (listAt place) := by unfold listAt; grind

@[grind ←] theorem composed_step (place : Place) : Composed run (step run place) := by
  unfold step; grind

@[grind ←] theorem composed_guarded {α : Type} {x : Run α} (hx : Composed run x) : Composed run (guarded x) := by
  unfold guarded; grind

@[grind ←] theorem composed_compute (i : IteratorId) {item : Run (Option (Value × Cursor))} (hx : Composed run item) :
    Composed run (compute i item) := by
  refine composed_bind (composed_setCursor i .busy) fun _ => composed_bind (composed_attempt (composed_guarded hx)) fun r => ?_
  match r with
  | .ok (some (v, cursor)) => exact composed_bind (composed_setCursor i cursor) fun _ => composed_pure _
  | .ok none => exact composed_bind (composed_setCursor i .finished) fun _ => composed_pure _
  | .error e => exact composed_bind (composed_setCursor i .finished) fun _ => composed_reraise e

@[grind ←] theorem composed_pull (i : IteratorId) : Composed run (pull run i) := by
  refine composed_bind composed_get fun s => ?_
  split
  · exact composed_pure _
  · exact composed_raise _
  · exact composed_bind (composed_setCursor i .finished) fun _ => composed_pure _
  · exact composed_bind (composed_setCursor i _) fun _ => composed_pure _
  · rename_i f next stop _
    have hcall := composed_call run (.call f [.int next])
    grind
  · grind

@[grind ←] theorem composed_drainOnto (i : IteratorId) :
    ∀ (n : Nat) (taken : List Value), Composed run (drainOnto run i n taken)
  | 0, taken => composed_pure taken.reverse
  | n + 1, taken => by
    have ih := composed_drainOnto i n
    unfold drainOnto; grind

@[grind ←] theorem composed_items (v : Value) : Composed run (items run v) := by unfold items; grind

@[grind ←] theorem composed_close (i : IteratorId) : Composed run (close i) := by
  refine composed_bind composed_get fun s => ?_
  split
  · exact composed_raise _
  · exact composed_setCursor i .finished

end Iterator

namespace Sequence

@[grind ←] theorem composed_ofIterator (i : IteratorId) : Composed run (ofIterator i) := composed_suspend _

@[grind ←] theorem composed_iteratorNode (i : IteratorId) : Composed run (iteratorNode run i) := by
  unfold iteratorNode; grind

@[grind ←] theorem composed_takeOnto :
    ∀ (n : Nat) (taken : List Value) (place : Place), Composed run (takeOnto run n taken place)
  | 0, taken, place => composed_pure taken.reverse
  | n + 1, taken, place => by
    have ih := composed_takeOnto n
    unfold takeOnto; grind

@[grind ←] theorem composed_take (n : Nat) (xs : Value) : Composed run (take run n xs) :=
  composed_takeOnto n [] (.before xs)

end Sequence

/-! ## Repetitions -/

namespace Cycle

@[grind ←] theorem composed_lap (source : Value) (next : Thunk) : Composed run (lap run source next) := by
  unfold lap; grind

@[grind ←] theorem composed_shared (source : Value) : Composed run (shared source) := composed_suspendSelf _

@[grind ←] theorem composed_start (origin : CellId) (source : Value) :
    Composed run (start run origin source) :=
  composed_bind composed_freshTag fun _ => composed_lap source _

@[grind ←] theorem composed_fresh (tag : Tag) (maker : Maker Value) : Composed run (fresh tag maker) := composed_suspend _

@[grind ←] theorem composed_make (maker : Maker Value) : Composed run (make run maker) := by
  have hcall := composed_call run
  unfold make; grind

@[grind ←] theorem composed_callValue (v : Value) : Composed run (callValue run v) := by
  unfold callValue; grind

@[grind ←] theorem composed_freshLap (tag : Tag) (maker : Maker Value) :
    Composed run (freshLap run tag maker) :=
  composed_bind (composed_make maker) fun source => composed_lap source _

end Cycle

@[grind ←] theorem Discipline.composed_cycle (lo hi : Value) (d : Discipline) : Composed run (d.cycle lo hi) := by
  unfold Discipline.cycle; grind

/-! ## Consumers and scenarios -/

namespace Consumer

@[grind ←] theorem composed_new (h : HeapId) (samples xs : Value) : Composed run (new h samples xs) := by
  have hpush : Composed run (modifyGet fun s : Store =>
      (s.consumers.size, { s with consumers := s.consumers.push ⟨h, samples, 0⟩ }) : Run ConsumerId) :=
    composed_modifyGet fun s => .of_step (.consumed s _) rfl (Nat.le_refl _)
  unfold new; grind

@[grind ←] theorem composed_find (d : ConsumerId) : Composed run (find d) := by unfold find; grind

@[grind ←] theorem composed_remaining (d : ConsumerId) : Composed run (remaining d) := by unfold remaining; grind

/-- The end of a step, once it is known what is left after it. -/
def moveTo (d : ConsumerId) (current rest : Value) (consumer : Consumer) : Run Bool := do
  if rest.same current then
    note (.ranOff consumer.steps)
    return false
  else
    setRoot consumer.heap rootName rest
    let steps := consumer.steps + 1
    modify fun s => { s with consumers := s.consumers.modify d fun x => { x with steps := steps } }
    if ← truth consumer.samples then
      note (.step steps (← sample consumer.heap))
    return true

theorem step_eq (run : Runner) (d : ConsumerId) : step run d = (do
    let current ← remaining d
    let rest ← Sequence.dropSteps run 1 current
    moveTo d current rest (← find d)) := rfl

theorem composed_moveTo (d : ConsumerId) (current rest : Value) (x : Consumer) : Composed run (moveTo d current rest x) := by
  unfold moveTo
  split
  · grind
  · refine composed_bind (composed_setRoot _ _ _) fun _ => composed_bind (composed_modify fun s => ?_) fun _ => ?_
    · exact .of_step (.consumed s _) rfl (Nat.le_refl _)
    · grind

@[grind ←] theorem composed_step (d : ConsumerId) : Composed run (step run d) := by
  rw [step_eq]
  exact composed_bind (composed_remaining d) fun current => composed_bind (Sequence.composed_dropSteps 1 current) fun rest =>
    composed_bind (composed_find d) (composed_moveTo d current rest)

@[grind ←] theorem composed_advance (d : ConsumerId) : ∀ n : Nat, Composed run (advance run d n)
  | 0 => composed_pure ()
  | n + 1 => by
    have ih := composed_advance d n
    unfold advance; grind

@[grind ←] theorem composed_drop (d : ConsumerId) (n : Int) : Composed run (drop run d n) :=
  composed_bind (composed_advance d n.toNat) fun _ => composed_remaining d

@[grind ←] theorem composed_head (d : ConsumerId) : Composed run (head run d) :=
  composed_bind (composed_remaining d) fun xs => Sequence.composed_head xs

@[grind ←] theorem composed_headValue (d : ConsumerId) : Composed run (headValue run d) :=
  composed_bind (composed_head d) fun v => composed_forceValue v

end Consumer

@[grind ←] theorem Run.composed_integerOf (v : Value) : Composed run (integerOf v) := by unfold integerOf; grind

namespace Scenario

@[grind ←] theorem composed_within {α : Type} (traces : Value) {body : HeapId → Run α} (hb : ∀ h, Composed run (body h)) :
    Composed run (within traces body) := by
  unfold within; grind

@[grind ←] theorem composed_announce (x : Scenario) (d : Discipline) : Composed run (x.announce d) := by
  unfold announce; grind

@[grind ←] theorem composed_measure (x : Scenario) (d : Discipline) (h : HeapId) :
    Composed run (x.measure run d h) := by
  refine composed_bind (composed_announce x d) fun _ => composed_bind (d.composed_cycle x.lo x.hi) fun c =>
    composed_bind (Consumer.composed_new h x.samples (.cell c)) fun consumer => ?_
  grind

@[grind ←] theorem composed_report (x : Scenario) (d : Discipline) : Composed run (x.report run d) :=
  composed_within _ fun h => composed_measure x d h

end Scenario
end Retention
