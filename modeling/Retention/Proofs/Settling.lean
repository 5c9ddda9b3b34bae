import Retention.Proofs.Alike
/-!
# Settling — written forms in which no heap is met

A written form can tell what is observed only of a heap, whose flags and peak are in it.  So it settles
(`Store.Settles`) unless a heap is met on the way through what it shows, from one value to the next (`Store.Meets`).
-/
namespace Retention

/-- The values that the written form of a suspended computation shows. -/
def Thunk.shown : Thunk → List Value
  | .intervalHead tag lo hi => [.interval tag lo hi, .int 0]
  | t => t.args

/-- The values that the written form of a state shows. -/
def CellState.shown : CellState → List Value
  | .suspended t => t.shown
  | .inProgress t => t.shown
  | .evaluated v => [v]
  | .failed error => [error]

namespace Store

/-- The values that the written form of a value shows, and its text. -/
def shown (s : Store) : Value → List Value
  | .list _ items => items
  | .tuple _ items => items
  | .dict _ entries => entries.map (·.1) ++ entries.map (·.2)
  | .cell c => (s.state c).shown
  | .interval _ lo hi => [lo, hi]
  | .state c phase => (s.snapshot c phase).shown
  | .shared _ source origin => [source, origin]
  | .unshared _ (.interval lo hi) => [lo, hi]
  | .report r =>
    let report := s.reportAt r
    [report.head, report.live, report.peak, report.created, report.forced] ++ report.samples
  | .fault e => (s.raised e).cause.args
  | _ => []

/-- A value is a heap, or shows a value in which one is met. -/
inductive Meets (s : Store) : Value → Prop
  | here (h : HeapId) : Meets s (.heap h)
  | inside {v w : Value} : w ∈ s.shown v → Meets s w → Meets s v

variable {s s' : Store}

theorem mapM_congr {α β ε : Type} {f g : α → Except ε β} {xs : List α} (h : ∀ x ∈ xs, f x = g x) :
    xs.mapM f = xs.mapM g := by
  induction xs with
  | nil => rfl
  | cons x xs ih =>
    rw [List.mapM_cons, List.mapM_cons, h x List.mem_cons_self, ih fun y hy => h y (List.mem_cons_of_mem x hy)]

theorem addressOf_of_bare (hs : s.bare = s'.bare) : s'.addressOf = s.addressOf := by
  funext v
  unfold addressOf
  rw [address_of_bare hs, typeName_of_bare hs]

/-- What is written `depth` deep is the same in both stores, unless a heap is met. -/
structure WritesSame (s s' : Store) (depth : Nat) : Prop where
  value : ∀ n v, ¬ s.Meets v → s'.writtenIn depth n v = s.writtenIn depth n v
  stateText : ∀ n st, (∀ w ∈ st.shown, ¬ s.Meets w) → s'.stateTextIn depth n st = s.stateTextIn depth n st
  thunkText : ∀ n t, (∀ w ∈ t.shown, ¬ s.Meets w) → s'.thunkTextIn depth n t = s.thunkTextIn depth n t
  state : ∀ n c st, (∀ w ∈ st.shown, ¬ s.Meets w) → s'.writtenStateIn depth n c st = s.writtenStateIn depth n c st
  thunk : ∀ n t, (∀ w ∈ t.shown, ¬ s.Meets w) → s'.writtenThunkIn depth n t = s.writtenThunkIn depth n t

theorem args_subset_shown (t : Thunk) : ∀ w ∈ t.args, w ∈ t.shown := by
  intro w hw
  cases t with
  | intervalHead tag lo hi => exact List.mem_cons_of_mem _ hw
  | _ => exact hw

namespace WritesSame
variable {depth : Nat} (h : WritesSame s s' depth)
include h

/-- Values are written the same, one after the other. -/
theorem values (vs : List Value) (hvs : ∀ w ∈ vs, ¬ s.Meets w) (n : Nesting) :
    vs.mapM (fun v => s'.writtenIn depth n v) = vs.mapM fun v => s.writtenIn depth n v :=
  mapM_congr fun v hv => h.value n v (hvs v hv)

theorem thunk_succ (n : Nesting) {t : Thunk} (ht : ∀ w ∈ t.shown, ¬ s.Meets w) :
    s'.writtenThunkIn (depth + 1) n t = s.writtenThunkIn (depth + 1) n t := by
  have hargs := h.values t.args (fun w hw => ht w (args_subset_shown t w hw)) n
  cases t with
  | intervalHead tag lo hi =>
    simp only [writtenThunkIn, hargs, h.value n (.interval tag lo hi) (ht _ List.mem_cons_self)]
  | _ => simp only [writtenThunkIn, hargs]

theorem state_succ (n : Nesting) (c : CellId) {st : CellState} (hst : ∀ w ∈ st.shown, ¬ s.Meets w) :
    s'.writtenStateIn (depth + 1) n c st = s.writtenStateIn (depth + 1) n c st := by
  cases st with
  | suspended t => simp only [writtenStateIn, h.thunk n t hst]
  | inProgress t =>
    have hthunk := fun n => h.thunk n t hst
    simp only [writtenStateIn, hthunk]
  | evaluated v => simp only [writtenStateIn, h.value n v (hst v List.mem_cons_self)]
  | failed error => simp only [writtenStateIn, h.value n error (hst error List.mem_cons_self)]

theorem stateText_succ (n : Nesting) {st : CellState} (hst : ∀ w ∈ st.shown, ¬ s.Meets w) :
    s'.stateTextIn (depth + 1) n st = s.stateTextIn (depth + 1) n st := by
  cases st with
  | suspended t => simp only [stateTextIn, h.thunkText n t hst]
  | inProgress t => simp only [stateTextIn, h.thunkText n t hst]
  | evaluated v => simp only [stateTextIn, h.value n v (hst v List.mem_cons_self)]
  | failed error => simp only [stateTextIn, h.value n error (hst error List.mem_cons_self)]

variable (hs : s.bare = s'.bare)
include hs

theorem thunkText_succ (n : Nesting) {t : Thunk} (ht : ∀ w ∈ t.shown, ¬ s.Meets w) :
    s'.thunkTextIn (depth + 1) n t = s.thunkTextIn (depth + 1) n t := by
  simp only [thunkTextIn, address_of_bare hs]
  refine congrArg (· >>= _) (mapM_congr fun w hw => ?_)
  split
  · rfl
  · exact h.value n w (ht w (args_subset_shown t w hw))

theorem value_succ (n : Nesting) {v : Value} (hv : ¬ s.Meets v) :
    s'.writtenIn (depth + 1) n v = s.writtenIn (depth + 1) n v := by
  have hshown : ∀ w ∈ s.shown v, ¬ s.Meets w := fun w hw hm => hv (.inside hw hm)
  have hsame : ∀ n, ∀ w ∈ s.shown v, s'.writtenIn depth n w = s.writtenIn depth n w := fun n w hw =>
    h.value n w (hshown w hw)
  cases v with
  | list tag items => simp only [writtenIn, h.values items hshown]
  | tuple tag items => simp only [writtenIn, h.values items hshown]
  | dict tag entries =>
    simp only [writtenIn]
    congr 1
    funext n
    rw [mapM_congr fun entry he => by
      rw [hsame n _ (List.mem_append_left _ (List.mem_map_of_mem he)),
        hsame n _ (List.mem_append_right _ (List.mem_map_of_mem he))]]
  | cell c =>
    have hstate := fun n => h.stateText n (s.state c) hshown
    simp only [writtenIn, address_of_bare hs, state_of_bare hs, hstate]
  | cons tag head tail => simp only [writtenIn, addressOf_of_bare hs]
  | interval tag lo hi =>
    simp only [shown, List.forall_mem_cons] at hsame
    simp only [writtenIn, hsame]
  | state c phase =>
    have hstate := fun n => h.state n c _ hshown
    simp only [writtenIn, snapshot_of_bare hs, hstate]
  | shared tag source origin =>
    simp only [shown, List.forall_mem_cons] at hsame
    simp only [writtenIn, hsame]
  | unshared tag maker =>
    cases maker with
    | function f => simp only [writtenIn]
    | interval lo hi =>
      simp only [shown, List.forall_mem_cons] at hsame
      simp only [writtenIn, hsame]
  | report r =>
    have hsamples := h.values (s.reportAt r).samples fun w hw => hshown w (List.mem_append_right _ hw)
    have hfields := fun n w hw => hsame n w (List.mem_append_left _ hw)
    simp only [List.forall_mem_cons] at hfields
    simp only [writtenIn, reportAt_of_bare hs, hsamples, hfields]
  | heap g => exact absurd (.here g) hv
  | fault e =>
    simp only [writtenIn, raised_of_bare hs]
    split
    · rename_i arg hargs
      have harg : arg ∈ (s.raised e).cause.args := hargs ▸ List.mem_cons_self
      rw [hsame n arg harg]
    · simp only [h.values (s.raised e).cause.args hshown]
  | iterator i => simp only [writtenIn, iterators_of_bare hs]
  | _ => simp only [writtenIn]

end WritesSame

theorem writesSame (hs : s.bare = s'.bare) : ∀ depth, WritesSame s s' depth
  | 0 => by
    refine ⟨fun _ _ _ => ?_, fun _ _ _ => ?_, fun _ _ _ => ?_, fun _ _ _ _ => ?_, fun _ _ _ => ?_⟩
    all_goals simp only [writtenIn, stateTextIn, thunkTextIn, writtenStateIn, writtenThunkIn]
  | depth + 1 =>
    have ih := writesSame hs depth
    { value := fun n _ hv => ih.value_succ hs n hv
      stateText := fun n _ hst => ih.stateText_succ n hst
      thunkText := fun n _ ht => ih.thunkText_succ hs n ht
      state := fun n c _ hst => ih.state_succ n c hst
      thunk := fun n _ ht => ih.thunk_succ n ht }

/-- **The written form of a value settles unless a heap is met in it.** -/
theorem settles_written {v : Value} (hv : ¬ s.Meets v) : s.Settles fun s => s.written v := fun _ hs =>
  (writesSame hs textDepth).value {} v hv

end Store
end Retention
