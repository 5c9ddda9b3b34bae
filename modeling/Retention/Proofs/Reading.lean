import Retention.Proofs.Recurring
import Retention.Proofs.Stepping
/-!
# Reading — which forces it takes to read a list

What was read of a list tells how far it was forced; which forces that took, and in which order, is told by the history
(`Store.Forced`).  A force of a cell whose thunk forces nothing itself begins one force, its own.
-/
namespace Retention

open Store (OnlyCells)

variable {p : Program} {depth : Nat} {g : HeapId} {s m e : Store} {c d x r : CellId} {l : List CellId} {t : Thunk} {v : Value}

namespace Store

/-- From one store to a later one, forces of these cells have begun, in this order, and of no others. -/
def Forced (s : Store) (cs : List CellId) (e : Store) : Prop :=
  e.begun.map Prod.fst = cs.reverse ++ s.begun.map Prod.fst

namespace Forced
variable {cs cs' : List CellId}

theorem refl (s : Store) : s.Forced [] s := rfl

theorem trans (h : s.Forced cs m) (h' : m.Forced cs' e) : s.Forced (cs ++ cs') e := by
  unfold Forced at *
  rw [h', h, List.reverse_append, List.append_assoc]

/-- A force begins. -/
theorem began (s : Store) (c : CellId) (h : HeapId) (t : Thunk) : s.Forced [c] (s.began c h t) := rfl

/-- What is only the end of a force begins none. -/
theorem returned (h : s.Forced cs m) (he : e.history = .returned (some c) v :: m.history) : s.Forced cs e := by
  unfold Forced
  rw [begun_cons he rfl]
  exact h

end Forced

/-- The store in which a cell has got its value, with the heaps as the count of the force has left them. -/
def valued (s : Store) (c : CellId) (v : Value) (heaps : Array Heap) : Store :=
  { (s.recorded (.returned (some c) v)).setState c (.evaluated v) with heaps }

theorem state_valued_self (hc : c < s.cells.size) (v : Value) (heaps : Array Heap) :
    (s.valued c v heaps).state c = .evaluated v := state_setState_self (s.recorded _) c (.evaluated v) hc

theorem state_valued_of_ne (hd : d ≠ c) (v : Value) (heaps : Array Heap) : (s.valued c v heaps).state d = s.state d :=
  state_setState_of_ne (s.recorded _) (.evaluated v) hd

theorem size_valued (s : Store) (c : CellId) (v : Value) (heaps : Array Heap) :
    (s.valued c v heaps).cells.size = s.cells.size := size_setState (s.recorded _) c (.evaluated v)

end Store

/-- **A force whose thunk gives a value, on a heap that serves then, gives the cell this value** and changes nothing else
but the heaps. -/
theorem force_valued (p : Program) (depth : Nat) (ha : s.active = some g) (hc : s.state c = .suspended t)
    (hproduce : t.produce p (p.runAt depth) (s.began c g t) = .ok v m) (hm : m.Serves g) (hv : OnlyCells v.refs) :
    ∃ heaps, force (p.runAt (depth + 1)) c s = .ok v (m.valued c v heaps) ∧ (m.valued c v heaps).Serves g := by
  let n := (m.recorded (.returned (some c) v)).setState c (.evaluated v)
  have hn : n.Serves g := (hm.recorded (.returned (some c) v)).setState c hv
  obtain ⟨heaps, hnote, hserves⟩ := Run.noteForced_eq_ok hn
  refine ⟨heaps, ?_, hserves⟩
  rw [force_of_suspended p depth ha hc, hproduce]
  exact Run.bind_ok hnote

/-! ## Every way in which a force can end -/

namespace Run
variable {α β : Type}

/-- A computation that changes nothing but the heaps and the errors, and runs no thunk. -/
def Slight (y : Run α) : Prop :=
  ∀ s, (∃ heaps faults, finalStore (y s) = { s with heaps, faults }) ∧ ∀ e, y s ≠ .error .tooDeep e

@[grind ←] theorem slight_pure (a : α) : Slight (pure a : Run α) := fun s => ⟨⟨s.heaps, s.faults, rfl⟩, fun _ h => by cases h⟩

@[grind ←] theorem slight_get : Slight (get : Run Store) := fun s => ⟨⟨s.heaps, s.faults, rfl⟩, fun _ h => by cases h⟩

@[grind ←] theorem slight_bind {y : Run α} {f : α → Run β} (hy : Slight y) (hf : ∀ a, Slight (f a)) : Slight (y >>= f) := by
  intro s
  obtain ⟨⟨heaps, faults, hstore⟩, hdeep⟩ := hy s
  rw [bind_apply]
  cases hr : y s with
  | ok a m =>
    rw [hr] at hstore
    obtain rfl : m = { s with heaps, faults } := hstore
    exact hf a _
  | error halt m =>
    rw [hr] at hstore hdeep
    refine ⟨⟨heaps, faults, hstore⟩, fun e he => ?_⟩
    cases he
    exact hdeep _ rfl

theorem slight_raise (cause : Fault) : Slight (raise cause : Run α) := fun s =>
  ⟨⟨s.heaps, s.faults.push ⟨cause, []⟩, rfl⟩, fun _ h => by cases h⟩

@[grind ←] theorem slight_typeName (v : Value) : Slight (typeName v) := slight_bind slight_get fun _ => slight_pure _

@[grind ←] theorem slight_lengthBetween (lo hi : Value) : Slight (lengthBetween lo hi) := by
  unfold lengthBetween
  split
  · split
    · exact slight_pure _
    · exact slight_raise _
  · exact slight_bind (slight_typeName _) fun _ => slight_bind (slight_typeName _) fun _ => slight_raise _

@[grind ←] theorem slight_truth (v : Value) : Slight (truth v) := by
  unfold truth
  grind

theorem slight_updateHeap (f : Store → Store) (hf : ∀ s, ∃ heaps, f s = { s with heaps }) :
    Slight (modify f : Run Unit) := fun s => by
  obtain ⟨heaps, hs⟩ := hf s
  exact ⟨⟨heaps, s.faults, hs⟩, fun _ h => by cases h⟩

theorem slight_liveCount (h : HeapId) : Slight (liveCount h) := by
  refine slight_bind (slight_bind slight_get fun s => ?_) fun _ => slight_pure _
  split
  · exact slight_pure _
  · exact slight_bind (slight_typeName _) fun _ => slight_raise _

theorem slight_discard {y : Run α} (hy : Slight y) : Slight (discard y) := slight_bind hy fun _ => slight_pure _

theorem slight_sample (h : HeapId) : Slight (sample h) := by
  refine slight_bind (slight_liveCount h) fun live => ?_
  refine slight_bind (slight_updateHeap _ fun _ => ⟨_, rfl⟩) fun _ => slight_bind slight_get fun s => ?_
  exact slight_bind (slight_discard (slight_truth _)) fun _ => slight_pure _

/-- The count of a force changes nothing but the heaps, and the errors if it fails. -/
theorem slight_noteForced (h : HeapId) : Slight (noteForced h) := by
  refine slight_bind (slight_updateHeap _ fun _ => ⟨_, rfl⟩) fun _ => slight_bind slight_get fun s => ?_
  refine slight_bind (slight_truth _) fun sampled => ?_
  split
  · exact slight_discard (slight_sample h)
  · exact slight_pure _

end Run

/-- How a force of a suspended cell can end: its thunk gives a value, which the cell has then, even if the count of the
force fails; its thunk raises an error, with which the cell has failed; or it runs out of depth. -/
inductive Settles (p : Program) (depth : Nat) (g : HeapId) (s : Store) (c : CellId) (t : Thunk) :
    EStateM.Result Halt Store Value → Prop
  | valued {v : Value} {m : Store} {heaps : Array Heap} {faults : Array Raised}
    {result : EStateM.Result Halt Store Value} (hproduce : t.produce p (p.runAt depth) (s.began c g t) = .ok v m)
    (hstore : Run.finalStore result = { m.valued c v heaps with faults }) (hv : ∀ w e, result = .ok w e → w = v)
    (hdeep : ∀ e, result ≠ .error .tooDeep e) : Settles p depth g s c t result
  | failed {z : FaultId} {m : Store} (hproduce : t.produce p (p.runAt depth) (s.began c g t) = .error (.raised z) m) :
    Settles p depth g s c t (.error (.raised z) (m.aborted c z))
  | tooDeep {m : Store} (hproduce : t.produce p (p.runAt depth) (s.began c g t) = .error .tooDeep m) :
    Settles p depth g s c t (.error .tooDeep m)

theorem force_settles (p : Program) (depth : Nat) (ha : s.active = some g) (hc : s.state c = .suspended t) :
    Settles p depth g s c t (force (p.runAt (depth + 1)) c s) := by
  rw [force_of_suspended p depth ha hc]
  cases hproduce : t.produce p (p.runAt depth) (s.began c g t) with
  | ok v m =>
    let n := (m.recorded (.returned (some c) v)).setState c (.evaluated v)
    obtain ⟨⟨heaps, faults, hstore⟩, hdeep⟩ := Run.slight_noteForced g n
    dsimp only
    rw [Run.map_apply]
    cases hnote : Run.noteForced g n with
    | ok u e =>
      rw [hnote] at hstore
      obtain rfl : e = { m.valued c v heaps with faults } := hstore
      exact .valued hproduce rfl (fun w e h => by cases h; rfl) fun e h => by cases h
    | error halt e =>
      rw [hnote] at hstore hdeep
      obtain rfl : e = { m.valued c v heaps with faults } := hstore
      refine .valued hproduce rfl (fun w e h => by cases h) fun e' h => ?_
      cases h
      exact hdeep _ rfl
  | error halt m =>
    cases halt with
    | raised z => exact .failed hproduce
    | tooDeep => exact .tooDeep hproduce

/-! ## Along a list -/

namespace Store
variable {i : Nat}

/-- As many cells down a list as nodes were read of it. -/
theorem Begins.spineAt (h : s.Begins x l r) : s.SpineAt x l.length r := by
  induction h with
  | here x => exact .first
  | node hx _ ih => exact ih.cons hx

/-- A position after the first is a position of the tail. -/
theorem SpineAt.tail (h : s.SpineAt x (i + 1) c) : ∃ tag head next,
    s.state x = .evaluated (.cons tag head (.cell next)) ∧ s.SpineAt next i c := by
  induction i generalizing c with
  | zero =>
    cases h with
    | next hx hnode =>
      cases hx
      exact ⟨_, _, _, hnode, .first⟩
  | succ i ih =>
    cases h with
    | next hx hnode =>
      obtain ⟨tag, head, next, hx', hrest⟩ := ih hx
      exact ⟨tag, head, next, hx', hrest.next hnode⟩

/-- Positions are counted on from any of them. -/
theorem SpineAt.add_iff (h : s.SpineAt x i c) {j : Nat} : s.SpineAt x (i + j) d ↔ s.SpineAt c j d := by
  refine ⟨fun hd => ?_, h.trans⟩
  induction j generalizing d with
  | zero =>
    obtain rfl := h.unique hd
    exact .first
  | succ j ih =>
    cases hd with
    | next hb hnode => exact (ih hb).next hnode

end Store

/-- A position that was read is there for good. -/
theorem Moment.Leads.spineAt {m m' : Moment} {i : Nat} (hm : m.Sound) (h : Leads m m') (hc : m.store.SpineAt x i c) :
    m'.store.SpineAt x i c := by
  induction hc with
  | first => exact .first
  | next _ hnode ih => exact ih.next (h.evaluated hm hnode (by simp))

namespace Sequence

theorem dropSteps_cons {run : Runner} {tag : Tag} {head tail : Value} (h : force run c s = .ok (.cons tag head tail) m)
    (k : Nat) : dropSteps run (k + 1) (.cell c) s = dropSteps run k tail m := by
  rw [dropSteps]
  exact Run.bind_ok (show forceValue run (.cell c) s = _ from h)

theorem dropSteps_nil {run : Runner} {tag : Tag} (h : force run c s = .ok (.nil tag) m) (k : Nat) :
    dropSteps run (k + 1) (.cell c) s = .ok (.cell c) m := by
  rw [dropSteps]
  exact Run.bind_ok (show forceValue run (.cell c) s = _ from h)

/-- Steps along what was read of a list change nothing. -/
theorem dropSteps_add {i : Nat} (h : s.SpineAt x i c) (run : Runner) (j : Nat) :
    dropSteps run (i + j) (.cell x) s = dropSteps run j (.cell c) s := by
  induction i generalizing x with
  | zero =>
    cases h
    rw [Nat.zero_add]
  | succ i ih =>
    obtain ⟨tag, head, next, hx, hrest⟩ := h.tail
    rw [Nat.add_right_comm, dropSteps_cons (force_evaluated hx run)]
    exact ih hrest

theorem dropSteps_of_spineAt {i : Nat} (h : s.SpineAt x i c) (run : Runner) :
    dropSteps run i (.cell x) s = .ok (.cell c) s := dropSteps_add h run 0

/-- Steps that have come as far as they can are steps again. -/
theorem dropSteps_of_stops {i k : Nat} (h : s.SpineAt x i c) (hle : i ≤ k)
    (hend : i = k ∨ ∃ tag, s.state c = .evaluated (.nil tag)) (run : Runner) :
    dropSteps run k (.cell x) s = .ok (.cell c) s := by
  obtain ⟨j, rfl⟩ := Nat.exists_eq_add_of_le hle
  rw [dropSteps_add h run j]
  cases j with
  | zero => rfl
  | succ j =>
    obtain ⟨tag, hc⟩ := hend.resolve_left (by omega)
    exact dropSteps_nil (force_evaluated hc run) j

theorem drop_natCast (run : Runner) (i : Nat) (xs : Value) : drop run i xs = dropSteps run i xs := by
  rw [drop, if_neg (Int.not_lt.2 (Int.natCast_nonneg i)), Int.toNat_natCast]

theorem head_of_force {run : Runner} {tag : Tag} {head tail : Value} (h : force run c s = .ok (.cons tag head tail) m) :
    Sequence.head run (.cell c) s = .ok head m := by
  unfold Sequence.head
  rw [Run.bind_ok (show Run.cellOf "state" (.cell c) s = .ok c s from rfl), Run.bind_ok h]
  rfl

theorem head_of_error {run : Runner} {halt : Halt} (h : force run c s = .error halt m) :
    Sequence.head run (.cell c) s = .error halt m := by
  unfold Sequence.head
  rw [Run.bind_ok (show Run.cellOf "state" (.cell c) s = .ok c s from rfl), Run.bind_error h]

/-- The first element of what is a cell was found in a node. -/
theorem head_ok {run : Runner} {xs : Value} (h : Sequence.head run xs s = .ok (.cell c) m) :
    ∃ d tag tail, xs = .cell d ∧ force run d s = .ok (.cons tag (.cell c) tail) m := by
  obtain ⟨d, m', hcell, hrest⟩ := Run.bind_eq_ok h
  obtain ⟨rfl, rfl⟩ : xs = .cell d ∧ m' = s := by
    cases xs with
    | cell d => cases hcell; exact ⟨rfl, rfl⟩
    | _ => cases hcell
  obtain ⟨v, e, hforce, hhead⟩ := Run.bind_eq_ok hrest
  cases v with
  | cons tag head tail =>
    cases hhead
    exact ⟨d, tag, tail, rfl, hforce⟩
  | _ => cases hhead

/-- Steps along a list that end at a cell have come to its position, or to a cell that is no node. -/
theorem dropSteps_ok {i : Nat} {k : List Frame} (hs : Moment.Sound ⟨s, k⟩)
    (h : dropSteps (p.runAt depth) i (.cell x) s = .ok (.cell c) m) : m.SpineAt x i c ∨ ∃ v, m.state c = .evaluated v ∧
      ∀ tag head tail, v ≠ .cons tag head tail := by
  induction i generalizing x s with
  | zero =>
    cases h
    exact .inl .first
  | succ i ih =>
    unfold dropSteps at h
    obtain ⟨v, e, hforce, hrest⟩ := Run.bind_eq_ok h
    have hx : e.state x = .evaluated v := force_ok_state (show force (p.runAt depth) x s = _ from hforce)
    cases v with
    | cons tag head tail =>
      have he := hs.leads (runs_of_force_ok (show force (p.runAt depth) x s = _ from hforce) k)
      cases tail with
      | cell r =>
        have hruns := (follows_dropSteps (p.follows_runAt depth) i (.cell r)).runs_of_ok hrest
        refine (ih he hrest).imp (fun hspine => ?_) id
        exact hspine.cons ((hruns k).evaluated he hx (by simp))
      | _ =>
        cases i with
        | zero => cases hrest
        | succ i => cases hrest
    | _ =>
      cases hrest
      exact .inr ⟨_, hx, by simp⟩

end Sequence
end Retention
