import Retention.Proofs.Obeying
/-!
# Following — every evaluation is a run

A computation follows the rules (`Run.Follows`) if what it makes of any store is a run of `Store.Runs`, or, where it
ends out of depth, a moment of one.  That transitions lead from moment to moment is a law (`Moment.law_leads`), so what is
put together of silent changes, samples, forces and calls follows the rules, and so do evaluations: whatever expression of
whatever program is evaluated, and however deep thunks may nest, the store is led along a run (`Expr.follows_eval`).  A
session is one run after the other (`Session.reached_of_mem`).
-/
namespace Retention

open Store (Step Runs Reaches)

theorem Store.runs_afterSample (s : Store) (h : HeapId) : Runs s (s.afterSample h) := by
  unfold afterSample liveCount
  cases hf : s.reachable h with
  | ok found => exact .of_step (.sampled s h found hf)
  | error v => exact .refl s

/-- **That transitions lead from one moment to another is a law.** -/
theorem Moment.law_leads : Law Leads where
  refl _ := .refl
  trans h h' := Relation.ReflTransGen.trans h h'
  silent k h := .single (.change k h.step)
  sampled s k h := s.runs_afterSample h k
  called s k t := .single (.call s k t)
  returned s k v := .single (.returned s k v)
  raised s k x := .single (.raised s k x)
  forced k hs ha := .single (.force _ k _ _ _ hs ha)
  settled s k c h v := by
    refine .head (.finished s k c h v) ?_
    unfold Store.settled
    split
    · exact Store.runs_afterSample _ h k
    · exact .refl
  aborted s k c h x := .single (.aborted s k c h x)

namespace Run
variable {α β : Type}

/-! ## What computations are put together with -/

/-- What a computation did from a store on is a run, or a moment of one if it ended out of depth. -/
def FollowsAt (s : Store) : EStateM.Result Halt Store α → Prop
  | .ok _ e => Runs s e
  | .error (.raised _) e => Runs s e
  | .error .tooDeep e => Reaches s e

/-- From every store, a computation makes a run. -/
def Follows (x : Run α) : Prop := ∀ s, FollowsAt s (x s)

theorem followsAt_iff {s : Store} {r : EStateM.Result Halt Store α} : FollowsAt s r ↔ ObeysAt Moment.Leads s r := by
  match r with
  | .ok _ _ => exact .rfl
  | .error (.raised _) _ => exact .rfl
  | .error .tooDeep _ => exact .rfl

theorem follows_iff {x : Run α} : Follows x ↔ Obeys Moment.Leads x := forall_congr' fun _ => followsAt_iff

theorem FollowsAt.after {s m : Store} {r : EStateM.Result Halt Store α} (h : Runs s m) (hr : FollowsAt m r) :
    FollowsAt s r := followsAt_iff.2 (.after Moment.law_leads h (followsAt_iff.1 hr))

theorem FollowsAt.reaches {s : Store} {r : EStateM.Result Halt Store α} (hr : FollowsAt s r) :
    s.Reaches (finalStore r) := (followsAt_iff.1 hr).finalStore

/-- A computation that does not end out of depth makes a whole run. -/
theorem FollowsAt.runs {s : Store} {r : EStateM.Result Halt Store α} (hr : FollowsAt s r)
    (hdeep : ∀ e, r ≠ .error .tooDeep e) : Runs s (finalStore r) := by
  match r, hr with
  | .ok _ _, hr => exact hr
  | .error (.raised _) _, hr => exact hr
  | .error .tooDeep e, _ => exact absurd rfl (hdeep e)

theorem Follows.runs_of_ok {x : Run α} {s e : Store} {a : α} (hx : Follows x) (hr : x s = .ok a e) : Runs s e := by
  have hfollows := hx s
  rwa [hr] at hfollows

theorem Follows.runs_of_raised {x : Run α} {s e : Store} {z : FaultId} (hx : Follows x)
    (hr : x s = .error (.raised z) e) : Runs s e := by
  have hfollows := hx s
  rwa [hr] at hfollows

theorem followsAt_bind {x : Run α} {f : α → Run β} {s : Store} (hx : FollowsAt s (x s))
    (hf : ∀ a m, x s = .ok a m → FollowsAt m (f a m)) : FollowsAt s ((x >>= f) s) :=
  followsAt_iff.2 (obeysAt_bind Moment.law_leads (followsAt_iff.1 hx) fun a m hm => followsAt_iff.1 (hf a m hm))

theorem followsAt_map (f : α → β) {x : Run α} {s m : Store} (h : FollowsAt s (x m)) : FollowsAt s ((f <$> x) m) :=
  followsAt_iff.2 (obeysAt_map f (followsAt_iff.1 h))

theorem follows_tooDeep : Follows (throw .tooDeep : Run α) := fun s => (Runs.refl s).reaches

theorem follows_pure (a : α) : Follows (pure a : Run α) := fun s => Runs.refl s

theorem follows_reraise (e : FaultId) : Follows (reraise e : Run α) := fun s => Runs.refl s

theorem follows_bind {x : Run α} {f : α → Run β} (hx : Follows x) (hf : ∀ a, Follows (f a)) : Follows (x >>= f) :=
  fun s => followsAt_bind (hx s) fun a m _ => hf a m

theorem follows_discard {x : Run α} (hx : Follows x) : Follows (discard x) := follows_bind hx fun _ => follows_pure _

theorem follows_attempt {x : Run α} (hx : Follows x) : Follows (attempt x) :=
  follows_iff.2 (obeys_attempt (follows_iff.1 hx))

theorem follows_modify {f : Store → Store} (h : ∀ s, Step s (f s)) : Follows (modify f : Run Unit) :=
  fun s => .of_step (h s)

theorem follows_modifyGet {f : Store → α × Store} (h : ∀ s, Step s (f s).2) : Follows (modifyGet f : Run α) :=
  fun s => .of_step (h s)

theorem follows_sample (h : HeapId) : Follows (sample h) := follows_iff.2 (obeys_sample Moment.law_leads h)

theorem followsAt_noteForced (h : HeapId) (s : Store) : FollowsAt (s.counted h) (noteForced h s) := by
  refine .after ?_ (followsAt_iff.2 ((quietly_noteForced h s).obeysAt Moment.law_leads))
  split
  · exact Store.runs_afterSample _ h
  · exact .refl _

end Run

/-! ## Forcing -/

open Run

/-- A runner makes a turn of every thunk, in which it makes a run. -/
def Runner.Follows (run : Runner) : Prop := ∀ owner t, ∃ body, Run.Follows body ∧ run owner t = Run.turn owner t body

variable {run : Runner}

theorem Runner.follows_iff : run.Follows ↔ run.Obeys Moment.Leads :=
  forall_congr' fun _ => forall_congr' fun _ => exists_congr fun _ => and_congr_left' Run.follows_iff

/-- **What is put together of silent changes, samples, forces and calls makes runs.** -/
theorem Run.Composed.follows {α : Type} {x : Run α} (hr : run.Follows) (h : Composed run x) : Follows x :=
  Run.follows_iff.2 (h.obeys Moment.law_leads (Runner.follows_iff.1 hr))

/-- A thunk that is run for no cell makes a run. -/
theorem follows_run_none (hr : run.Follows) (t : Thunk) : Follows (run none t) := (Composed.call t).follows hr

/-- **A force makes a run**, from the state in which it finds the cell to the one in which it leaves it. -/
theorem follows_force (hr : run.Follows) (c : CellId) : Follows (force run c) := (Composed.force c).follows hr

/-! ## Programs and sessions -/

/-- **Evaluating an expression makes a run of any store**, whatever the expression. -/
theorem Expr.follows_eval {p : Program} (hr : run.Follows) (args : List Value) (e : Expr) : Follows (e.eval p run args) :=
  (e.composed_eval args).follows hr

/-- **The program's thunks make turns**, however deep they may nest. -/
theorem Program.follows_runAt (p : Program) (depth : Nat) : (p.runAt depth).Follows :=
  Runner.follows_iff.2 (p.obeys_runAt Moment.law_leads depth)

theorem runs_of_force_ok {p : Program} {depth : Nat} {c : CellId} {v : Value} {s e : Store}
    (hr : force (p.runAt depth) c s = .ok v e) : s.Runs e :=
  (follows_force (p.follows_runAt depth) c).runs_of_ok hr

theorem runs_of_force_raised {p : Program} {depth : Nat} {c : CellId} {z : FaultId} {s e : Store}
    (hr : force (p.runAt depth) c s = .error (.raised z) e) : s.Runs e :=
  (follows_force (p.follows_runAt depth) c).runs_of_raised hr

/-- What is so composed whatever the runner forces no cell and calls no function. -/
theorem Run.follows_of_composed {α : Type} {x : Run α} (h : ∀ run, Composed run x) : Follows x :=
  (h (Program.runAt [] 0)).follows (Program.follows_runAt [] 0)

theorem Thunk.follows_produce {p : Program} (hr : run.Follows) (t : Thunk) : Follows (t.produce p run) :=
  t.composed_produce.follows hr

namespace Run

theorem follows_newFault (cause : Fault) (context : List Value) : Follows (newFault cause context) :=
  follows_of_composed fun _ => composed_newFault cause context

theorem follows_freshTag : Follows freshTag := follows_of_composed fun _ => composed_freshTag

theorem follows_note (e : Event) : Follows (note e) := follows_of_composed fun _ => composed_note e

theorem follows_register {α : Type} {f : Store → α} {st : Store → CellState} :
    Follows (do let h ← activeHeap; modifyGet fun s => (f s, s.register h (st s))) :=
  follows_of_composed fun _ => composed_register

theorem follows_collect (h : HeapId) : Follows (collect h) := follows_of_composed fun _ => composed_collect h

theorem follows_newHeap (traces samplesForces : Value) (temporary : Bool) :
    Follows (newHeap { traces, samplesForces, temporary }) := follows_of_composed fun _ => composed_newHeap _ _ _

theorem follows_enter (h : HeapId) : Follows (enter h) := follows_of_composed fun _ => composed_enter h

theorem follows_root (h : HeapId) (name : Value) : Follows (root h name) :=
  follows_of_composed fun _ => composed_root h name

theorem follows_assign (name : String) (v : Value) : Follows (assign name v) :=
  follows_of_composed fun _ => composed_assign name v

theorem follows_newReport (r : Report) : Follows (newReport r) := follows_of_composed fun _ => composed_newReport r

end Run

theorem follows_forceValue (hr : run.Follows) (v : Value) : Follows (forceValue run v) := (composed_forceValue v).follows hr

namespace Sequence

theorem follows_between (lo hi : Value) : Follows (between lo hi) := follows_of_composed fun _ => composed_between lo hi

theorem follows_appendNode (hr : run.Follows) (xs ys : Value) : Follows (appendNode run xs ys) :=
  (composed_appendNode xs ys).follows hr

theorem follows_dropSteps (hr : run.Follows) (n : Nat) (xs : Value) : Follows (dropSteps run n xs) :=
  (composed_dropSteps n xs).follows hr

end Sequence

namespace Iterator

theorem follows_new (kind : IteratorKind) (cursor : Cursor) : Follows (new kind cursor) :=
  follows_of_composed fun _ => composed_new kind cursor

theorem follows_setCursor (i : IteratorId) (cursor : Cursor) :
    Follows (modify fun s => s.setCursor i cursor : Run Unit) := follows_of_composed fun _ => composed_setCursor i cursor

theorem follows_pull (hr : run.Follows) (i : IteratorId) : Follows (pull run i) := (composed_pull i).follows hr

end Iterator

namespace Cycle

theorem follows_shared (source : Value) : Follows (shared source) := follows_of_composed fun _ => composed_shared source

theorem follows_callValue (hr : run.Follows) (v : Value) : Follows (callValue run v) := (composed_callValue v).follows hr

end Cycle

namespace Consumer

theorem follows_new (h : HeapId) (samples xs : Value) : Follows (new h samples xs) :=
  follows_of_composed fun _ => composed_new h samples xs

theorem follows_find (d : ConsumerId) : Follows (find d) := follows_of_composed fun _ => composed_find d

theorem follows_moveTo (d : ConsumerId) (current rest : Value) (x : Consumer) : Follows (moveTo d current rest x) :=
  follows_of_composed fun _ => composed_moveTo d current rest x

theorem follows_step (hr : run.Follows) (d : ConsumerId) : Follows (step run d) := (composed_step d).follows hr

theorem follows_advance (hr : run.Follows) (d : ConsumerId) (n : Nat) : Follows (advance run d n) :=
  (composed_advance d n).follows hr

theorem follows_drop (hr : run.Follows) (d : ConsumerId) (n : Int) : Follows (drop run d n) :=
  (composed_drop d n).follows hr

theorem follows_head (hr : run.Follows) (d : ConsumerId) : Follows (head run d) := (composed_head d).follows hr

theorem follows_headValue (hr : run.Follows) (d : ConsumerId) : Follows (headValue run d) :=
  (composed_headValue d).follows hr

end Consumer

namespace Session

/-- **Every store that a session comes to is reached by runs.** -/
theorem reached_of_mem (p : Program) (es : List Expr) {o : Outcome} (ho : o ∈ Session.run p es) : o.store.Reached :=
  obeys_of_mem Moment.law_leads p es ho

end Session

end Retention
