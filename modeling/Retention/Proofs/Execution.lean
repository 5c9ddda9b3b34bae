import Retention.Force
/-!
# Execution — what a computation does to a given store

The equations by which computations are followed step by step: `Run.bind_apply` for the sequence of two, one equation
for each way to read or change the store, and `force_apply` for a force, with all the ways it can end.
-/
namespace Retention

namespace Run
variable {α β : Type}

/-- The store that a computation leaves, however it ends. -/
def finalStore : EStateM.Result Halt Store α → Store
  | .ok _ e => e
  | .error _ e => e

theorem bind_apply (x : Run α) (f : α → Run β) (s : Store) : (x >>= f) s =
    match x s with
    | .ok a s => f a s
    | .error e s => .error e s := by
  show EStateM.bind x f s = _
  unfold EStateM.bind
  cases x s <;> rfl

/-- A first part that gives a value is followed by the rest. -/
theorem bind_ok {x : Run α} {f : α → Run β} {s m : Store} {a : α} (h : x s = .ok a m) : (x >>= f) s = f a m := by
  rw [bind_apply, h]

/-- A first part that ends without a value is all. -/
theorem bind_error {x : Run α} {f : α → Run β} {s m : Store} {e : Halt} (h : x s = .error e m) :
    (x >>= f) s = .error e m := by
  rw [bind_apply, h]

/-- What a sequence comes to, its first part came to something that the rest goes on from. -/
theorem bind_eq_ok {x : Run α} {f : α → Run β} {s e : Store} {b : β} (h : (x >>= f) s = .ok b e) :
    ∃ a m, x s = .ok a m ∧ f a m = .ok b e := by
  rw [bind_apply] at h
  cases hx : x s with
  | ok a m =>
    rw [hx] at h
    exact ⟨a, m, rfl, h⟩
  | error _ _ =>
    rw [hx] at h
    cases h

theorem map_apply (f : α → β) (x : Run α) (s : Store) : (f <$> x) s =
    match x s with
    | .ok a s => .ok (f a) s
    | .error e s => .error e s := by
  show EStateM.map f x s = _
  unfold EStateM.map
  cases x s <;> rfl

@[simp] theorem pure_apply (a : α) (s : Store) : (pure a : Run α) s = .ok a s := rfl

@[simp] theorem get_apply (s : Store) : (get : Run Store) s = .ok s s := rfl

@[simp] theorem modify_apply (f : Store → Store) (s : Store) : (modify f : Run Unit) s = .ok () (f s) := rfl

@[simp] theorem record_apply (t : Turn) (s : Store) : record t s = .ok () (s.recorded t) := rfl

theorem activeHeap_apply (s : Store) : activeHeap s =
    match s.active with
    | some h => .ok h s
    | none => raise .noActiveHeap s := by
  unfold activeHeap
  rw [bind_ok (get_apply s)]
  cases s.active <;> rfl

theorem activeHeap_ok {s m : Store} {h : HeapId} (hr : activeHeap s = .ok h m) : s.active = some h ∧ m = s := by
  rw [activeHeap_apply] at hr
  cases ha : s.active with
  | none => rw [ha] at hr; cases hr
  | some g => rw [ha] at hr; cases hr; exact ⟨rfl, rfl⟩

theorem reachable_apply (h : HeapId) (s : Store) : reachable h s =
    match s.reachable h with
    | .ok found => .ok found s
    | .error v => lacks v "address" s := by
  unfold reachable
  rw [bind_ok (get_apply s)]
  cases s.reachable h <;> rfl

theorem reachable_eq_ok_iff {h : HeapId} {s m : Store} {found : Found} :
    reachable h s = .ok found m ↔ s.reachable h = .ok found ∧ m = s := by
  rw [reachable_apply]
  cases s.reachable h with
  | ok live =>
    constructor
    · intro hr; cases hr; exact ⟨rfl, rfl⟩
    · rintro ⟨hr, rfl⟩; cases hr; rfl
  | error v =>
    constructor
    · intro hr; cases hr
    · rintro ⟨hr, -⟩; cases hr

theorem liveCount_eq_ok_iff {h : HeapId} {s m : Store} {live : Nat} :
    liveCount h s = .ok live m ↔ (∃ found, s.reachable h = .ok found ∧ found.size = live) ∧ m = s := by
  unfold liveCount
  rw [bind_apply]
  constructor
  · intro hr
    cases hl : reachable h s with
    | ok found e =>
      obtain ⟨hf, rfl⟩ := reachable_eq_ok_iff.1 hl
      rw [hl] at hr
      cases hr
      exact ⟨⟨found, hf, rfl⟩, rfl⟩
    | error x e =>
      rw [hl] at hr
      cases hr
  · rintro ⟨⟨found, hf, rfl⟩, rfl⟩
    rw [reachable_eq_ok_iff.2 ⟨hf, rfl⟩]
    rfl

theorem attempt_apply (x : Run α) (s : Store) : attempt x s =
    match x s with
    | .ok a e => .ok (.ok a) e
    | .error (.raised f) e => .ok (.error f) e
    | .error .tooDeep e => .error .tooDeep e := rfl

theorem turn_apply (owner : Option CellId) (t : Thunk) (body : Run Value) (s : Store) : turn owner t body s =
    match body (s.recorded (.began owner s.active t)) with
    | .ok v e => .ok v (e.recorded (.returned owner v))
    | .error (.raised x) e => .error (.raised x) (e.recorded (.raised owner x))
    | .error .tooDeep e => .error .tooDeep e := by
  simp only [turn, bind_apply, get_apply, record_apply, attempt_apply]
  rcases body (s.recorded (.began owner s.active t)) with ⟨v, e⟩ | ⟨⟨x⟩ | -, e⟩ <;> rfl

end Run

/-- What a force does, by the state of the cell, the active heap and how its thunk ends. -/
theorem force_apply (run : Runner) (c : CellId) (s : Store) : force run c s =
    match s.state c with
    | .evaluated v => .ok v s
    | .failed error => Run.raiseValue error s
    | .inProgress _ => Run.raiseIn [.cell c] (.reentrantForce (s.address c)) s
    | .suspended t =>
      match s.active with
      | none => Run.raise .noActiveHeap s
      | some h =>
        match run (some c) t (s.setState c (.inProgress t)) with
        | .ok v e => ((fun _ => v) <$> Run.noteForced h) (e.setState c (.evaluated v))
        | .error (.raised x) e => .error (.raised x) (e.setState c (.failed (.fault x)))
        | .error .tooDeep e => .error .tooDeep e := by
  unfold force
  simp only [Run.bind_apply, Run.get_apply]
  cases s.state c with
  | evaluated v => rfl
  | failed error => rfl
  | inProgress t => rfl
  | suspended t =>
    simp only [Run.bind_apply, Run.activeHeap_apply]
    cases s.active with
    | none => rfl
    | some h =>
      simp only [Run.modify_apply, Run.attempt_apply, Run.map_apply]
      rcases run (some c) t (s.setState c (.inProgress t)) with ⟨v, e⟩ | ⟨⟨x⟩ | -, e⟩
      · simp only [Run.modify_apply, Run.bind_apply]
        cases Run.noteForced h (e.setState c (.evaluated v)) <;> rfl
      · rfl
      · rfl

/-- A force of an evaluated cell hands out its value. -/
theorem force_evaluated {s : Store} {c : CellId} {v : Value} (h : s.state c = .evaluated v) (run : Runner) :
    force run c s = .ok v s := by
  rw [force_apply, h]

/-- A force of a failed cell raises its error. -/
theorem force_failed {s : Store} {c : CellId} {e : FaultId} (h : s.state c = .failed (.fault e)) (run : Runner) :
    force run c s = .error (.raised e) s := by
  rw [force_apply, h]
  rfl

end Retention
