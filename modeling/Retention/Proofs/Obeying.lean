import Retention.Proofs.ComposingProgram
/-!
# Obeying — what holds of whatever is done

A relation of moments is a law (`Moment.Law`) if it holds from before to after a silent change, a sample, the beginning of
a run of a thunk and its end, and from the first to the last of any number of these.  Whatever expression is evaluated, in
whatever program and however deep thunks may nest, obeys every law (`Expr.obeys_eval`), and so does a session
(`Session.obeys_of_mem`).  Tying the knot is an induction on how deep thunks may nest (`Program.obeys_runAt`).
-/
namespace Retention

/-- The store that the force of a cell leaves that has got its value: if the heap takes samples after forces, one follows. -/
def Store.settled (s : Store) (c : CellId) (h : HeapId) (v : Value) : Store :=
  if (s.heap h).samplesForces.holds then (s.finished c h v).afterSample h else s.finished c h v

/-- A relation of moments that holds of everything that computations are put together with. -/
structure Moment.Law (R : Moment → Moment → Prop) : Prop where
  refl : ∀ m, R m m
  trans : ∀ {a b c}, R a b → R b c → R a c
  silent : ∀ {s e} k, s.Silent e → R ⟨s, k⟩ ⟨e, k⟩
  sampled : ∀ s k h, R ⟨s, k⟩ ⟨s.afterSample h, k⟩
  called : ∀ s k t, R ⟨s, k⟩ ⟨s.recorded (.began none s.active t), .call :: k⟩
  returned : ∀ s k v, R ⟨s, .call :: k⟩ ⟨s.recorded (.returned none v), k⟩
  raised : ∀ s k x, R ⟨s, .call :: k⟩ ⟨s.recorded (.raised none x), k⟩
  forced : ∀ {s c h t} k, s.state c = .suspended t → s.active = some h → R ⟨s, k⟩ ⟨s.began c h t, .force c h :: k⟩
  settled : ∀ s k c h v, R ⟨s, .force c h :: k⟩ ⟨s.settled c h v, k⟩
  aborted : ∀ s k c h x, R ⟨s, .force c h :: k⟩ ⟨s.aborted c x, k⟩

namespace Run
variable {α β : Type} {R : Moment → Moment → Prop}

/-! ## What computations are put together with -/

/-- From a store on, a computation obeys a law, however many runs are pending, and more of them if it ended in depth. -/
def ObeysAt (R : Moment → Moment → Prop) (s : Store) : EStateM.Result Halt Store α → Prop
  | .ok _ e => ∀ k, R ⟨s, k⟩ ⟨e, k⟩
  | .error (.raised _) e => ∀ k, R ⟨s, k⟩ ⟨e, k⟩
  | .error .tooDeep e => ∀ k, ∃ more, R ⟨s, k⟩ ⟨e, more ++ k⟩

/-- From every store on, a computation obeys a law. -/
def Obeys (R : Moment → Moment → Prop) (x : Run α) : Prop := ∀ s, ObeysAt R s (x s)

section
variable (hR : Moment.Law R)
include hR

theorem ObeysAt.after {s m : Store} {r : EStateM.Result Halt Store α} (h : ∀ k, R ⟨s, k⟩ ⟨m, k⟩) (hr : ObeysAt R m r) :
    ObeysAt R s r := by
  match r, hr with
  | .ok _ _, hr => exact fun k => hR.trans (h k) (hr k)
  | .error (.raised _) _, hr => exact fun k => hR.trans (h k) (hr k)
  | .error .tooDeep _, hr => exact fun k => (hr k).imp fun _ => hR.trans (h k)

omit hR in
/-- However a computation ended, it obeyed the law. -/
theorem ObeysAt.finalStore {s : Store} {r : EStateM.Result Halt Store α} (hr : ObeysAt R s r) (k : List Frame) :
    ∃ more, R ⟨s, k⟩ ⟨finalStore r, more ++ k⟩ := by
  match r, hr with
  | .ok _ _, hr => exact ⟨[], hr k⟩
  | .error (.raised _) _, hr => exact ⟨[], hr k⟩
  | .error .tooDeep _, hr => exact hr k

theorem obeysAt_bind {x : Run α} {f : α → Run β} {s : Store} (hx : ObeysAt R s (x s))
    (hf : ∀ a m, x s = .ok a m → ObeysAt R m (f a m)) : ObeysAt R s ((x >>= f) s) := by
  rw [bind_apply]
  match hr : x s with
  | .ok a m => rw [hr] at hx; exact .after hR hx (hf a m hr)
  | .error (.raised _) m => rw [hr] at hx; exact hx
  | .error .tooDeep m => rw [hr] at hx; exact hx

omit hR in
theorem obeysAt_map (f : α → β) {x : Run α} {s m : Store} (h : ObeysAt R s (x m)) : ObeysAt R s ((f <$> x) m) := by
  rw [map_apply]
  match x m, h with
  | .ok _ _, h => exact h
  | .error (.raised _) _, h => exact h
  | .error .tooDeep _, h => exact h

omit hR in
theorem obeys_attempt {x : Run α} (hx : Obeys R x) : Obeys R (attempt x) := by
  intro s
  have h := hx s
  unfold attempt
  match x s, h with
  | .ok _ _, h => exact h
  | .error (.raised _) _, h => exact h
  | .error .tooDeep _, h => exact h

theorem obeys_of_silent {s e : Store} (h : Relation.ReflTransGen Store.Silent s e) (k : List Frame) :
    R ⟨s, k⟩ ⟨e, k⟩ := by
  induction h with
  | refl => exact hR.refl _
  | tail _ hlast ih => exact hR.trans ih (hR.silent k hlast)

theorem Quietly.obeysAt {s : Store} {r : EStateM.Result Halt Store α} (h : Quietly s r) : ObeysAt R s r := by
  match r, h with
  | .ok _ _, h => exact obeys_of_silent hR h
  | .error (.raised _) _, h => exact obeys_of_silent hR h

theorem obeys_tooDeep : Obeys R (throw .tooDeep : Run α) := fun _ _ => ⟨[], hR.refl _⟩

theorem obeys_sample (h : HeapId) : Obeys R (sample h) := fun s =>
  .after hR (fun k => hR.sampled s k h) ((quietly_sample h s).obeysAt hR)

theorem obeys_turn_none {body : Run Value} (hb : Obeys R body) (t : Thunk) : Obeys R (turn none t body) := by
  intro s
  have hr := hb (s.recorded (.began none s.active t))
  rw [turn_apply]
  match body (s.recorded (.began none s.active t)), hr with
  | .ok v e, hr => exact fun k => hR.trans (hR.called s k t) (hR.trans (hr _) (hR.returned e k v))
  | .error (.raised x) e, hr => exact fun k => hR.trans (hR.called s k t) (hR.trans (hr _) (hR.raised e k x))
  | .error .tooDeep e, hr =>
    intro k
    obtain ⟨more, hmore⟩ := hr (.call :: k)
    exact ⟨more ++ [.call], hR.trans (hR.called s k t) (by rw [List.append_assoc]; exact hmore)⟩

end
end Run

/-! ## Forcing -/

open Run

variable {run : Runner} {R : Moment → Moment → Prop}

/-- A runner makes a turn of every thunk, in which it obeys the law. -/
def Runner.Obeys (R : Moment → Moment → Prop) (run : Runner) : Prop :=
  ∀ owner t, ∃ body, Run.Obeys R body ∧ run owner t = Run.turn owner t body

/-- What a force of a suspended cell does, by how its thunk ends. -/
theorem force_of_turn {s : Store} {c : CellId} {h : HeapId} {t : Thunk} {body : Run Value} (hs : s.state c = .suspended t)
    (ha : s.active = some h) (hbody : run (some c) t = Run.turn (some c) t body) : force run c s =
    match body (s.began c h t) with
    | .ok v e => ((fun _ => v) <$> noteForced h) ((e.recorded (.returned (some c) v)).setState c (.evaluated v))
    | .error (.raised x) e => .error (.raised x) (e.aborted c x)
    | .error .tooDeep e => .error .tooDeep e := by
  have hturn : (s.setState c (.inProgress t)).recorded (.began (some c) (s.setState c (.inProgress t)).active t)
      = s.began c h t := by rw [Store.began, ← ha]; rfl
  rw [force_apply, hs]
  simp only [ha, hbody, turn_apply, hturn]
  rcases body (s.began c h t) with ⟨v, e⟩ | ⟨⟨x⟩ | -, e⟩ <;> rfl

/-- A force that comes to a value found the cell evaluated, and changed nothing, or suspended. -/
theorem force_eq_ok {s e : Store} {c : CellId} {v : Value} (hr : force run c s = .ok v e) :
    s.state c = .evaluated v ∧ e = s ∨ ∃ t, s.state c = .suspended t := by
  rw [force_apply] at hr
  cases hs : s.state c with
  | evaluated w =>
    rw [hs] at hr
    cases hr
    exact .inl ⟨rfl, rfl⟩
  | failed error =>
    rw [hs] at hr
    cases error <;> cases hr
  | inProgress t =>
    rw [hs] at hr
    cases hr
  | suspended t => exact .inr ⟨t, rfl⟩

/-- If a force of a suspended cell comes to a value, the thunk gave that value, and then the force was noted. -/
theorem force_of_turn_eq_ok {s e : Store} {c : CellId} {t : Thunk} {body : Run Value} {v : Value}
    (hs : s.state c = .suspended t) (hbody : run (some c) t = Run.turn (some c) t body) (hr : force run c s = .ok v e) :
    ∃ h m, s.active = some h ∧ body (s.began c h t) = .ok v m ∧
      noteForced h ((m.recorded (.returned (some c) v)).setState c (.evaluated v)) = .ok () e := by
  cases ha : s.active with
  | none =>
    rw [force_apply, hs, ha] at hr
    cases hr
  | some h =>
    rw [force_of_turn hs ha hbody] at hr
    rcases hm : body (s.began c h t) with ⟨w, m⟩ | ⟨⟨x⟩ | -, m⟩
    all_goals rw [hm] at hr
    · simp only [map_apply] at hr
      cases hn : noteForced h ((m.recorded (.returned (some c) w)).setState c (.evaluated w)) with
      | ok u n =>
        rw [hn] at hr
        cases hr
        exact ⟨h, m, rfl, hm, hn⟩
      | error halt n =>
        rw [hn] at hr
        cases hr
    · cases hr
    · cases hr

/-- What follows a force leads on from the store in which it is settled. -/
theorem Run.quietly_settled (s : Store) (c : CellId) (h : HeapId) (v : Value) :
    Quietly (s.settled c h v) (noteForced h ((s.recorded (.returned (some c) v)).setState c (.evaluated v))) :=
  quietly_noteForced h _

section
variable (hR : Moment.Law R)
include hR

/-- **A force obeys the law**, from the state in which it finds the cell to the one in which it leaves it. -/
theorem obeys_force (hr : run.Obeys R) (c : CellId) : Run.Obeys R (force run c) := by
  intro s
  cases hs : s.state c with
  | evaluated v =>
    rw [force_apply, hs]
    exact fun _ => hR.refl _
  | failed error =>
    rw [force_apply, hs]
    exact (quietly_raiseValue error s).obeysAt hR
  | inProgress t =>
    rw [force_apply, hs]
    exact (quietly_raiseIn _ _ s).obeysAt hR
  | suspended t =>
    cases ha : s.active with
    | none =>
      rw [force_apply, hs, ha]
      exact (quietly_raise _ s).obeysAt hR
    | some h =>
      obtain ⟨body, hb, hbody⟩ := hr (some c) t
      have hrun := hb (s.began c h t)
      rw [force_of_turn hs ha hbody]
      match body (s.began c h t), hrun with
      | .ok v e, hrun =>
        have hsettled : ∀ k, R ⟨s, k⟩ ⟨e.settled c h v, k⟩ := fun k =>
          hR.trans (hR.forced k hs ha) (hR.trans (hrun _) (hR.settled e k c h v))
        exact .after hR hsettled (obeysAt_map _ ((quietly_settled e c h v).obeysAt hR))
      | .error (.raised x) e, hrun =>
        exact fun k => hR.trans (hR.forced k hs ha) (hR.trans (hrun _) (hR.aborted e k c h x))
      | .error .tooDeep e, hrun =>
        intro k
        obtain ⟨more, hmore⟩ := hrun (.force c h :: k)
        exact ⟨more ++ [.force c h], hR.trans (hR.forced k hs ha) (by rw [List.append_assoc]; exact hmore)⟩

/-- **What is put together of silent changes, samples, forces and calls obeys every law.** -/
theorem Run.Composed.obeys {α : Type} {x : Run α} (hr : run.Obeys R) (h : Composed run x) : Obeys R x := by
  induction h with
  | quiet silent => exact fun s => (silent s).obeysAt hR
  | tooDeep => exact obeys_tooDeep hR
  | bind _ _ hx hf => exact fun s => obeysAt_bind hR (hx s) fun a m hm => hf a s m hm m
  | attempt _ hx => exact obeys_attempt hx
  | sample h => exact obeys_sample hR h
  | force c => exact obeys_force hR hr c
  | call t =>
    obtain ⟨body, hb, hbody⟩ := hr none t
    rw [hbody]
    exact obeys_turn_none hR hb t

/-! ## Programs and sessions -/

/-- **The program's thunks obey every law**, however deep they may nest. -/
theorem Program.obeys_runAt (p : Program) : ∀ depth : Nat, (p.runAt depth).Obeys R
  | 0, _, _ => ⟨throw .tooDeep, obeys_tooDeep hR, rfl⟩
  | depth + 1, _, t => ⟨t.produce p (p.runAt depth), t.composed_produce.obeys hR (p.obeys_runAt depth), rfl⟩

/-- **Evaluating an expression obeys every law**, whatever the expression. -/
theorem Expr.obeys_eval (p : Program) (depth : Nat) (args : List Value) (e : Expr) :
    Run.Obeys R (e.eval p (p.runAt depth) args) := (e.composed_eval args).obeys hR (p.obeys_runAt hR depth)

namespace Session

theorem obeys_step (p : Program) (s : Store) (e : Expr) (k : List Frame) :
    ∃ more, R ⟨s, k⟩ ⟨(step p s e).store, more ++ k⟩ := by
  have hlogged : R ⟨s, k⟩ ⟨{ s with events := [] }, k⟩ := hR.silent k (.of_step (.logged s []) rfl (Nat.le_refl _))
  obtain ⟨more, hmore⟩ := (Expr.obeys_eval hR p depthLimit [] e { s with events := [] }).finalStore k
  refine ⟨more, hR.trans hlogged ?_⟩
  unfold step Program.run
  cases he : e.eval p (p.runAt depthLimit) [] { s with events := [] } with
  | ok v m => rw [he] at hmore; exact hmore
  | error halt m => rw [he] at hmore; exact hmore

theorem obeys_of_mem_stepsFrom (p : Program) (es : List Expr) {s : Store} {k : List Frame} {m : Moment}
    (hs : R m ⟨s, k⟩) {o : Outcome} (ho : o ∈ stepsFrom p s es) : ∃ l, R m ⟨o.store, l⟩ := by
  induction es generalizing s k with
  | nil => cases ho
  | cons e es ih =>
    obtain ⟨more, hmore⟩ := obeys_step hR p s e k
    rcases List.mem_cons.1 ho with rfl | ho
    · exact ⟨more ++ k, hR.trans hs hmore⟩
    · exact ih (hR.trans hs hmore) ho

/-- **A session obeys every law**, from its start to each of its outcomes. -/
theorem obeys_of_mem (p : Program) (es : List Expr) {o : Outcome} (ho : o ∈ Session.run p es) :
    ∃ k, R ⟨{}, []⟩ ⟨o.store, k⟩ := obeys_of_mem_stepsFrom hR p es (hR.refl _) ho

end Session
end
end Retention
