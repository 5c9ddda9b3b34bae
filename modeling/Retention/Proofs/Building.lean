import Retention.Proofs.Observing
/-!
# Building — making lists, and functions that make them

The four ways to make a list, each with the sequence that the new list stands for.  None of them runs a thunk.  A
function whose body puts these together, out of intervals and of lists that variables hold, builds the same list
whenever it is called (`Collection.Builds`), so as a builder it keeps its promise (`Collection.honest_of_bodies`).
-/
namespace Retention

namespace Expr
variable {p : Program} {run : Runner} {args : List Value}

theorem eval_makeGenerator (lo hi : Value) :
    eval p run args (.apply (.list .makeGenerator) [.constant lo, .constant hi]) =
      do return .cell (← Sequence.between lo hi) := by
  simp [eval, evalAll, Operation.apply, ListOp.apply]

theorem eval_append (xs ys : Expr) : eval p run args (.apply (.list .append) [xs, ys]) = do
    let v ← xs.eval p run args
    let u ← ys.eval p run args
    return .cell (← Sequence.append v u) := by
  simp [eval, evalAll, Operation.apply, ListOp.apply]

theorem eval_shared (source : Expr) : eval p run args (.apply (.cycle .shared) [source]) = do
    let v ← source.eval p run args
    return .cell (← Cycle.shared v) := by
  simp [eval, evalAll, Operation.apply, CycleOp.apply]

theorem eval_unshared {name : String} {f : Function} (hf : p.function? name = some f) :
    eval p run args (.apply (.cycle .unshared) [.constant (.str name)]) = do
      return .cell (← Cycle.fresh (← Run.freshTag) (.function f)) := by
  simp [eval, evalAll, Operation.apply, CycleOp.apply, Run.functionOf, hf]

end Expr

namespace Collection

open Signature

variable {p : Program} {w : Collection} {s m e : Store} {n k : Nat} {a b c : CellId} {d d' : Meaning}

/-! ## Making lists -/

theorem between_observed {r : Interval} (hs : w.Sound s) (hr : r.length ≤ sizeLimit) :
    w.Observed s (fun c e => w.Lists e 1 c (.finite r.elements)) False
      (Sequence.between (.int r.lo) (.int r.hi) s) := by
  let t := Thunk.intervalNode s.nextTag (.int r.lo) (.int r.hi)
  have hnew := hs.tagged.register (t := t) (Store.onlyCells_map []) (by simp [t, Relied])
  rw [Sequence.between_apply hs.serves.active]
  exact .value hnew ((Store.Advances.tagged s).trans (.register _ _ t)) not_false (.interval (hs.tagged.built_new t) hr)

theorem append_observed (hs : w.Sound s) (ha : w.Lists s n a d) (hb : w.Lists s k b d') :
    w.Observed s (fun c e => w.Lists e (max n k + 1) c (d.append d')) False
      (Sequence.append (.cell a) (.cell b) s) := by
  have hnew := hs.register (t := .appendNode (.cell a) (.cell b)) (Store.onlyCells_pair a b) (relied_appendNode w s _ _)
  have hse := Store.Advances.register s w.heap (.appendNode (.cell a) (.cell b))
  rw [show Sequence.append (.cell a) (.cell b) s = _ from Run.suspend_apply hs.serves.active _]
  exact .value hnew hse not_false (.append (hs.built_new _) ha.lt hb.lt
    ((ha.later hse.toExtends).mono (Nat.le_max_left n k)) ((hb.later hse.toExtends).mono (Nat.le_max_right n k)))

theorem shared_observed (hs : w.Sound s) (ha : w.Lists s n a d) :
    w.Observed s (fun c e => w.Lists e (n + 3) c d.cycle) False (Cycle.shared (.cell a) s) := by
  let t := Thunk.cycleStart s.cells.size (.cell a)
  have hnew := hs.register (t := t) (Store.onlyCells_map [s.cells.size, a]) (by simp [t, Relied])
  have hse := Store.Advances.register s w.heap t
  rw [show Cycle.shared (.cell a) s = _ from Run.suspendSelf_apply hs.serves.active _]
  exact .value hnew hse not_false (.start (hs.built_new t) ha.lt (ha.later hse.toExtends))

theorem fresh_observed {maker : Maker Value} {q : Promise} (hs : w.Sound s) (hq : w.promises maker = some q)
    (hrelies : w.relies maker s) (tag : Tag) :
    w.Observed s (fun c e => w.Lists e (q.depth + 3) c q.meaning.cycle) False (Cycle.fresh tag maker s) := by
  have hnew := hs.register (t := .freshLap tag maker) (Store.onlyCells_map [])
    (fun tag' maker' h => by cases h; exact hrelies)
  rw [show Cycle.fresh tag maker s = _ from Run.suspend_apply hs.serves.active _]
  exact .value hnew (.register s w.heap _) not_false (.fresh (hs.built_new _) hq (Nat.le_refl _))

/-- A list that was made, as a value. -/
theorem Observed.cell {y : Run CellId} (h : w.Observed s (fun c e => w.Lists e n c d) False (y s)) :
    w.Observed s (fun v e => ∃ c, v = .cell c ∧ w.Lists e n c d) False ((do return .cell (← y) : Run Value) s) :=
  h.bind id fun c m hm _ _ hl => .value hm (.refl m) not_false ⟨c, rfl, hl⟩

/-! ## Functions that build lists -/

/-- An expression that builds a list, out of what is relied on. -/
inductive Builds (w : Collection) (p : Program) (relied : Store → Prop) : Expr → Nat → Meaning → Prop
  /-- A list that was made before and that a variable holds. -/
  | lookup {name : String} {n : Nat} {d : Meaning}
    (hold : ∀ s, relied s → ∃ c, Entries.get? (· == ·) s.bindings name = some (.cell c) ∧ w.Lists s n c d) :
    Builds w p relied (.lookup name) n d
  | interval {r : Interval} (hr : r.length ≤ sizeLimit) :
    Builds w p relied (.apply (.list .makeGenerator) [.constant (.int r.lo), .constant (.int r.hi)]) 1
      (.finite r.elements)
  | append {xs ys : Expr} {n k : Nat} {d d' : Meaning} (hfirst : Builds w p relied xs n d)
    (hsecond : Builds w p relied ys k d') :
    Builds w p relied (.apply (.list .append) [xs, ys]) (max n k + 1) (d.append d')
  | shared {source : Expr} {n : Nat} {d : Meaning} (hsource : Builds w p relied source n d) :
    Builds w p relied (.apply (.cycle .shared) [source]) (n + 3) d.cycle
  | fresh {name : String} {f : Function} {q : Promise} (hf : p.function? name = some f)
    (hq : w.promises (.function f) = some q) (hrelied : ∀ s, relied s → w.relies (.function f) s) :
    Builds w p relied (.apply (.cycle .unshared) [.constant (.str name)]) (q.depth + 3) q.meaning.cycle

theorem Builds.pos {relied : Store → Prop} {x : Expr} (hx : w.Builds p relied x n d) (hrelied : relied s) : 0 < n := by
  cases hx with
  | lookup hold =>
    obtain ⟨c, -, hl⟩ := hold s hrelied
    exact hl.pos
  | interval | append | shared | fresh => exact Nat.succ_pos _

theorem eval_observed {relied : Store → Prop} {x : Expr} {run : Runner} {args : List Value}
    (hlasting : ∀ {s e : Store}, s.Extends e → relied s → relied e) (hx : w.Builds p relied x n d) (hs : w.Sound s)
    (hrelied : relied s) :
    w.Observed s (fun v e => ∃ c, v = .cell c ∧ w.Lists e n c d) False (x.eval p run args s) := by
  induction hx generalizing s with
  | @lookup name n d hold =>
    obtain ⟨c, hget, hl⟩ := hold s hrelied
    have hvalue : (Expr.lookup name).eval p run args s = .ok (.cell c) s := by
      show Run.valueOf name s = _
      unfold Run.valueOf
      rw [Run.bind_ok (Run.get_apply s), hget]
      rfl
    rw [hvalue]
    exact .value hs (.refl s) not_false ⟨c, rfl, hl⟩
  | interval hr =>
    rw [Expr.eval_makeGenerator]
    exact (between_observed hs hr).cell
  | append _ _ ihx ihy =>
    rw [Expr.eval_append]
    refine (ihx hs hrelied).bind id fun v m hm hsm _ hv => ?_
    refine (ihy hm (hlasting hsm.toExtends hrelied)).bind id fun u e he hme _ hu => ?_
    obtain ⟨a, rfl, ha⟩ := hv
    obtain ⟨b, rfl, hb⟩ := hu
    exact (append_observed he (ha.later hme.toExtends) hb).cell
  | shared _ ih =>
    rw [Expr.eval_shared]
    refine (ih hs hrelied).bind id fun v m hm hsm _ hv => ?_
    obtain ⟨a, rfl, ha⟩ := hv
    exact (shared_observed hm ha).cell
  | fresh hf hq hinner =>
    rw [Expr.eval_unshared hf, Run.bind_ok (Run.freshTag_apply s)]
    have htag := Store.Advances.tagged s
    exact (fresh_observed hs.tagged hq (hinner _ (hlasting htag.toExtends hrelied)) _).cell.after htag

/-- A builder that is seen to do what is promised: it makes the list of an interval, or it is a function whose body
builds a list. -/
inductive Promised (w : Collection) (p : Program) : Maker Value → Promise → Prop
  | interval {r : Interval} (hr : r.length ≤ sizeLimit) :
    Promised w p (.interval (.int r.lo) (.int r.hi)) ⟨1, .finite r.elements⟩
  | function {name : String} {anonymous : Bool} {body : Definition} {n : Nat} {d : Meaning}
    (hbody : p.definition? name = some body)
    (hbuilds : w.Builds p (w.relies (.function (.defined name anonymous))) body.body n d) :
    Promised w p (.function (.defined name anonymous)) ⟨n, d⟩

/-- **Functions whose bodies build lists keep their promises.** -/
theorem honest_of_bodies (h : ∀ maker q, w.promises maker = some q → Promised w p maker q) : w.Honest p := by
  intro maker q hq s depth hs hrelies _ hdepth
  have hmake : w.Observed s (fun v e => ∃ c, v = .cell c ∧ w.Lists e q.depth c q.meaning) False
      (Cycle.make (p.runAt depth) maker s) := by
    cases h maker q hq with
    | interval hr => exact (between_observed hs hr).cell
    | @function name anonymous body n d hbody hbuilds =>
      -- the call of the function is a turn of its own
      obtain ⟨under, rfl⟩ : ∃ under, depth = under + 1 := by
        have hpos := hbuilds.pos hrelies
        have hle : n ≤ depth := hdepth
        exact ⟨depth - 1, by omega⟩
      have hbegan := Store.Advances.recorded s (.began none s.active (.call (.defined name anonymous) []))
      have hbody' : w.Observed _ _ _ (body.body.eval p (p.runAt under) [] _) := eval_observed (w.lasting _) hbuilds
        (hs.recorded (.began none s.active (.call (.defined name anonymous) []))) (w.lasting _ hbegan.toExtends hrelies)
      obtain ⟨v, e, hrun, he, hse, c, rfl, hl⟩ := hbody'.result
      have hcall : p.runAt (under + 1) none (.call (.defined name anonymous) []) s =
          .ok (.cell c) (e.recorded (.returned none (.cell c))) := by
        unfold Program.runAt
        rw [Run.turn_apply, show (Thunk.call (.defined name anonymous) []).produce p (p.runAt under) =
          body.body.eval p (p.runAt under) [] by simp [Thunk.produce, Function.call, hbody], hrun]
      show w.Observed s _ _ (p.runAt (under + 1) none (.call (.defined name anonymous) []) s)
      rw [hcall]
      have hend := Store.Advances.recorded e (.returned none (.cell c))
      exact .value (he.recorded _) ((hbegan.trans hse).trans hend) not_false ⟨c, rfl, hl.later hend.toExtends⟩
  obtain ⟨v, e, hrun, he, hse, c, rfl, hl⟩ := hmake.result
  exact ⟨c, e, hrun, he, hse, hl⟩

end Collection
end Retention
