import Retention.Proofs.AgreeingProgram
/-!
# Watching — sessions that read nothing that is observed

Samples, peaks, logs and flags are there to be read from outside.  Whether a session reads them itself is told by
watching it: it is evaluated as ever, but comes to nothing where an operation is not blind (`Operation.Blind`), be it in
a step of the session or in a function that is called or forced anywhere below it.  A session is unobserving if, so
watched, all of its steps come to an end, and all fields of list nodes and of shared repetitions are cells
(`Session.Unobserving`).

Two expressions are alike if they are the same but for the flags that they give to heaps, consumers and scenarios
(`Expr.Like`).
-/
namespace Retention

/-! ## Watched evaluation -/

open Classical in
/-- Applies an operation that is blind here, and any other not at all. -/
noncomputable def Operation.watched (p : Program) (run : Runner) (o : Operation) (args : List Value) : Run Value :=
  fun s => if o.Blind run s args then o.apply p run args s else .error .tooDeep s

namespace Expr

mutual
/-- Evaluates an expression as `eval` does, where operations are applied as given. -/
def evalWith (apply : Operation → List Value → Run Value) (args : List Value) : Expr → Run Value
  | .constant v => return v
  | .lookup name => Run.valueOf name
  | .assign name e => do
    let v ← e.evalWith apply args
    Run.assign name v
    return v
  | .argument i => Run.argumentAt args i
  | .argumentAt type => Run.raise (.badIndex type)
  | .choose condition yes no => do
    if ← Run.truth (← condition.evalWith apply args) then
      yes.evalWith apply args
    else
      no.evalWith apply args
  | .recover e handler => do
    match ← Run.attempt (e.evalWith apply args) with
    | .ok v => return v
    | .error _ => handler.evalWith apply args
  | .caught e => do
    match ← Run.attempt (e.evalWith apply args) with
    | .ok _ => return .null
    | .error e => return .fault e
  | .times count e => do
    let n ← Run.integerOf (← count.evalWith apply args)
    Run.list (← Run.timesOnto (e.evalWith apply args) n.toNat 0 [])
  | .apply o es => do apply o (← evalAllWith apply args es)
  | .unreadable word => Run.raise (.unknownName (.str word))
/-- Evaluates expressions as `evalAll` does, where operations are applied as given. -/
def evalAllWith (apply : Operation → List Value → Run Value) (args : List Value) : List Expr → Run (List Value)
  | [] => return []
  | e :: es => do
    let v ← e.evalWith apply args
    let vs ← evalAllWith apply args es
    return v :: vs
end

mutual
/-- With the operations of the language, this is how expressions are evaluated. -/
theorem eval_eq_evalWith (p : Program) (run : Runner) (args : List Value) :
    ∀ e : Expr, e.eval p run args = e.evalWith (fun o => o.apply p run) args
  | .constant v => rfl
  | .lookup name => rfl
  | .assign name e => by simp only [eval, evalWith, eval_eq_evalWith p run args e]
  | .argument i => rfl
  | .argumentAt type => rfl
  | .choose c a b => by
    simp only [eval, evalWith, eval_eq_evalWith p run args c, eval_eq_evalWith p run args a, eval_eq_evalWith p run args b]
  | .recover e h =>
    -- `simp only` does not get at the handler inside the match
    congrArg₂ (fun x y : Run Value => do
      match ← Run.attempt x with
      | .ok v => return v
      | .error _ => y) (eval_eq_evalWith p run args e) (eval_eq_evalWith p run args h)
  | .caught e =>
    congrArg (fun x : Run Value => do
      match ← Run.attempt x with
      | .ok _ => return Value.null
      | .error e => return .fault e) (eval_eq_evalWith p run args e)
  | .times n e => by simp only [eval, evalWith, eval_eq_evalWith p run args n, eval_eq_evalWith p run args e]
  | .apply o es => by simp only [eval, evalWith, evalAll_eq_evalAllWith p run args es]
  | .unreadable word => rfl

theorem evalAll_eq_evalAllWith (p : Program) (run : Runner) (args : List Value) :
    ∀ es : List Expr, evalAll p run args es = evalAllWith (fun o => o.apply p run) args es
  | [] => rfl
  | e :: es => by
    simp only [evalAll, evalAllWith, eval_eq_evalWith p run args e, evalAll_eq_evalAllWith p run args es]
end

end Expr

/-- Runs a thunk; a body of one of the program's functions is watched. -/
noncomputable def Thunk.watched (p : Program) (run : Runner) : Thunk → Run Value
  | .call (.defined name _) args =>
    match p.definition? name with
    | some d => d.body.evalWith (Operation.watched p run) args
    | none => Run.raise (.unknownName (.str name))
  | t => t.produce p run

/-- Runs thunks that nest up to `depth` levels deep, watched. -/
noncomputable def Program.watchedAt (p : Program) : Nat → Runner
  | 0, owner, t => Run.turn owner t (throw .tooDeep)
  | depth + 1, owner, t => Run.turn owner t (t.watched p (p.watchedAt depth))

namespace Session

/-- Evaluates one expression of a session, watched. -/
noncomputable def watch (p : Program) (s : Store) (e : Expr) : EStateM.Result Halt Store Value :=
  e.evalWith (Operation.watched p (p.watchedAt depthLimit)) [] { s with events := [] }

/-- From a store on, all steps of a session come to an end even when watched, and all fields of list nodes and of shared
repetitions that cells refer to are cells after each of them. -/
def UnobservingFrom (p : Program) : Store → List Expr → Prop
  | _, [] => True
  | s, e :: es =>
    (∀ m, watch p s e ≠ .error .tooDeep m) ∧ (Run.finalStore (watch p s e)).Tidy ∧
      UnobservingFrom p (Run.finalStore (watch p s e)) es

/-- No step of the session reads anything that is observed, and everything is a cell that should be one. -/
def Unobserving (p : Program) (es : List Expr) : Prop := UnobservingFrom p {} es

end Session

/-! ## Programs that differ in flags -/

/-- Flags as they are written in a program. -/
def Expr.flags (fs : List Bool) : List Expr := (fs.map .bool).map .constant

mutual
/-- Expressions that are the same but for the flags that they give to heaps, consumers and scenarios. -/
inductive Expr.Like : Expr → Expr → Prop
  | constant (v : Value) : Like (.constant v) (.constant v)
  | lookup (name : String) : Like (.lookup name) (.lookup name)
  | assign (name : String) {e e' : Expr} : Like e e' → Like (.assign name e) (.assign name e')
  | argument (i : Int) : Like (.argument i) (.argument i)
  | argumentAt (type : String) : Like (.argumentAt type) (.argumentAt type)
  | choose {c c' a a' b b' : Expr} : Like c c' → Like a a' → Like b b' → Like (.choose c a b) (.choose c' a' b')
  | recover {e e' h h' : Expr} : Like e e' → Like h h' → Like (.recover e h) (.recover e' h')
  | caught {e e' : Expr} : Like e e' → Like (.caught e) (.caught e')
  | times {n n' e e' : Expr} : Like n n' → Like e e' → Like (.times n e) (.times n' e')
  | unreadable (word : String) : Like (.unreadable word) (.unreadable word)
  | apply (o : Operation) {es es' : List Expr} : LikeAll es es' → Like (.apply o es) (.apply o es')
  /-- Whether a new heap traces, and whether it samples after forces. -/
  | newHeap (fs fs' : List Bool) : Like (.apply (.heap .new) (flags fs)) (.apply (.heap .new) (flags fs'))
  | openHeap (fs fs' : List Bool) : Like (.apply (.heap .openNew) (flags fs)) (.apply (.heap .openNew) (flags fs'))
  /-- Whether a consumer samples after steps. -/
  | driver {x x' : Expr} (f f' : Option Bool) : Like x x' →
    Like (.apply (.demand .driver) (x :: flags f.toList)) (.apply (.demand .driver) (x' :: flags f'.toList))
  | driverOn {x x' : Expr} (f f' : Bool) {es es' : List Expr} : Like x x' → LikeAll es es' →
    Like (.apply (.demand .driver) (x :: .constant (.bool f) :: es))
      (.apply (.demand .driver) (x' :: .constant (.bool f') :: es'))
  /-- Whether the heap of a scenario traces, and whether its consumer samples. -/
  | scenario {d d' lo lo' hi hi' n n' : Expr} (fs fs' : List Bool) : Like d d' → Like lo lo' → Like hi hi' → Like n n' →
    Like (.apply (.demand .runScenario) (d :: lo :: hi :: n :: flags fs))
      (.apply (.demand .runScenario) (d' :: lo' :: hi' :: n' :: flags fs'))
/-- Expressions that are the same, one by one, but for flags. -/
inductive Expr.LikeAll : List Expr → List Expr → Prop
  | nil : LikeAll [] []
  | cons {e e' : Expr} {es es' : List Expr} : Expr.Like e e' → LikeAll es es' → LikeAll (e :: es) (e' :: es')
end

namespace Expr

mutual
theorem Like.refl : ∀ e : Expr, Like e e
  | .constant v => .constant v
  | .lookup name => .lookup name
  | .assign name e => .assign name (Like.refl e)
  | .argument i => .argument i
  | .argumentAt type => .argumentAt type
  | .choose c a b => .choose (Like.refl c) (Like.refl a) (Like.refl b)
  | .recover e h => .recover (Like.refl e) (Like.refl h)
  | .caught e => .caught (Like.refl e)
  | .times n e => .times (Like.refl n) (Like.refl e)
  | .apply o es => .apply o (LikeAll.refl es)
  | .unreadable word => .unreadable word

theorem LikeAll.refl : ∀ es : List Expr, LikeAll es es
  | [] => .nil
  | e :: es => .cons (Like.refl e) (LikeAll.refl es)
end

end Expr

/-- Definitions of the same name with bodies that are the same but for flags. -/
structure Definition.Like (x x' : String × Definition) : Prop where
  name : x'.1 = x.1
  anonymous : x'.2.anonymous = x.2.anonymous
  body : x.2.body.Like x'.2.body

/-- Programs that are the same but for flags. -/
def Program.Like (p p' : Program) : Prop := List.Forall₂ Definition.Like p p'

namespace Program

theorem Like.refl (p : Program) : p.Like p := List.forall₂_same.2 fun _ _ => ⟨rfl, rfl, .refl _⟩

/-- A name has a definition in both programs or in neither. -/
theorem Like.definition? {p p' : Program} (h : p.Like p') (name : String) :
    (p.definition? name = none ∧ p'.definition? name = none) ∨
    ∃ d d', p.definition? name = some d ∧ p'.definition? name = some d' ∧ d'.anonymous = d.anonymous ∧
      d.body.Like d'.body := by
  unfold Program.definition?
  induction h with
  | nil => exact .inl ⟨rfl, rfl⟩
  | @cons x x' p p' hx _ ih =>
    rw [List.find?_cons, List.find?_cons, hx.name]
    cases x.1 == name with
    | true => exact .inr ⟨x.2, x'.2, rfl, rfl, hx.anonymous, hx.body⟩
    | false => exact ih

theorem Like.function? {p p' : Program} (h : p.Like p') (name : String) : p'.function? name = p.function? name := by
  unfold Program.function?
  rcases h.definition? name with ⟨hn, hn'⟩ | ⟨d, d', hd, hd', hanon, -⟩
  · rw [hn, hn']
  · simp only [hd, hd', hanon]

end Program
end Retention
