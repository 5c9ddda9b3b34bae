import Retention.Proofs.Settling
import Retention.Proofs.Watching
/-!
# Observation — what is observed does not matter

Evaluation with samples and evaluation without them come to the same.  The expressions of a watched session agree with
those of any program that differs in its flags alone (`Expr.agrees_watched`), by induction on how the two are alike, and
tying the knot is an induction on how deep thunks may nest (`Program.agrees_watchedAt`).  The same watched session so
stands between two plain ones with different flags, and both tell what it tells (`Session.observation_passive`).
-/
namespace Retention

open Run

variable {p p' : Program} {run run' : Runner}

namespace Run

@[grind ←] theorem agrees_valueOf (name : String) : Agrees (valueOf name) (valueOf name) := by
  refine agrees_get fun s s' hs => ?_
  rw [Store.bindings_of_bare hs]
  grind

theorem agrees_assign (name : String) (v : Value) : Agrees (assign name v) (assign name v) :=
  agrees_modify (follows_assign name v) fun s s' h => by
    rw [Store.bindings_of_bare h.bare]
    exact h.frame (f := fun t => { t with bindings := Entries.put (· == ·) name v s.bindings }) (fun _ => rfl)
      (fun _ => rfl) fun _ => rfl

@[grind ←] theorem agrees_argumentAt (args : List Value) (i : Int) : Agrees (argumentAt args i) (argumentAt args i) := by
  unfold argumentAt; grind

theorem agrees_timesOnto {body body' : Run Value} (hb : Agrees body body') :
    ∀ (count i : Nat) (values : List Value), Agrees (timesOnto body count i values) (timesOnto body' count i values)
  | 0, _, values => agrees_pure values.reverse
  | count + 1, i, values =>
    agrees_bind (agrees_assign "i" _) fun _ => agrees_bind hb fun v => agrees_timesOnto hb count (i + 1) (v :: values)

end Run

namespace Expr
variable {apply apply' : Operation → List Value → Run Value}

theorem evalAllWith_constants (args vs : List Value) : evalAllWith apply args (vs.map .constant) = pure vs := by
  induction vs with
  | nil => rfl
  | cons v vs ih => simp only [List.map_cons, evalAllWith, evalWith, pure_bind, ih]

theorem evalAllWith_flags (args : List Value) (fs : List Bool) :
    evalAllWith apply args (flags fs) = pure (fs.map .bool) :=
  evalAllWith_constants args _

theorem isFlag_getD (fs : List Bool) (i : Nat) (b : Bool) :
    Value.IsFlag ((fs.map Value.bool)[i]?.getD (.bool b)) := by
  rw [List.getElem?_map]
  cases fs[i]? with
  | none => exact ⟨b, rfl⟩
  | some f => exact ⟨f, rfl⟩

theorem flagged_withFlags (fs : List Bool) : (HeapOp.apply.withFlags (fs.map .bool)).Flagged :=
  ⟨isFlag_getD fs 0 false, isFlag_getD fs 1 false⟩

mutual
theorem agrees_evalWith (h : ∀ o vs vs', o.Args vs vs' → Agrees (apply o vs) (apply' o vs')) (args : List Value) :
    ∀ {e e' : Expr}, e.Like e' → Agrees (e.evalWith apply args) (e'.evalWith apply' args)
  | _, _, .constant v => agrees_pure v
  | _, _, .lookup name => agrees_valueOf name
  | _, _, .assign name he => agrees_bind (agrees_evalWith h args he) fun v => agrees_bind (agrees_assign name v) fun _ =>
    agrees_pure v
  | _, _, .argument i => agrees_argumentAt args i
  | _, _, .argumentAt type => agrees_raise _
  | _, _, .choose hc ha hb => by
    have hc := agrees_evalWith h args hc
    have ha := agrees_evalWith h args ha
    have hb := agrees_evalWith h args hb
    unfold evalWith; grind
  | _, _, .recover he hh => by
    refine agrees_bind (agrees_attempt (agrees_evalWith h args he)) fun result => ?_
    match result with
    | .ok v => exact agrees_pure v
    | .error _ => exact agrees_evalWith h args hh
  | _, _, .caught he => by
    refine agrees_bind (agrees_attempt (agrees_evalWith h args he)) fun result => ?_
    match result with
    | .ok _ => exact agrees_pure _
    | .error e => exact agrees_pure _
  | _, _, .times hn he =>
    agrees_bind (agrees_evalWith h args hn) fun v => agrees_bind (agrees_integerOf v) fun n =>
      agrees_bind (agrees_timesOnto (agrees_evalWith h args he) n.toNat 0 []) fun vs => agrees_list vs
  | _, _, .unreadable word => agrees_raise _
  | _, _, .apply o hes => agrees_bind (agrees_evalAllWith h args hes) fun vs => h o vs vs (.same o vs)
  | _, _, .newHeap fs fs' => by
    simp only [evalWith, evalAllWith_flags, pure_bind]
    exact h _ _ _ (.newHeap _ (flagged_withFlags fs'))
  | _, _, .openHeap fs fs' => by
    simp only [evalWith, evalAllWith_flags, pure_bind]
    exact h _ _ _ (.openHeap _ (flagged_withFlags fs'))
  | _, _, .driver f f' hx => by
    have hx := agrees_evalWith h args hx
    simp only [evalWith, evalAllWith, evalAllWith_flags, pure_bind, bind_assoc]
    refine agrees_bind hx fun v => h _ _ _ (.driver v ?_ (isFlag_getD _ 0 true))
    cases f <;> cases f' <;> rfl
  | _, _, .driverOn f f' hx hes => by
    have hx := agrees_evalWith h args hx
    have hes := agrees_evalAllWith h args hes
    simp only [evalWith, evalAllWith, pure_bind, bind_assoc]
    exact agrees_bind hx fun v => agrees_bind hes fun vs => h _ _ _ (.driver v rfl ⟨f', rfl⟩)
  | _, _, .scenario fs fs' hd hlo hhi hn => by
    have hd := agrees_evalWith h args hd
    have hlo := agrees_evalWith h args hlo
    have hhi := agrees_evalWith h args hhi
    have hn := agrees_evalWith h args hn
    simp only [evalWith, evalAllWith, evalAllWith_flags, pure_bind, bind_assoc]
    exact agrees_bind hd fun d => agrees_bind hlo fun lo => agrees_bind hhi fun hi => agrees_bind hn fun n =>
      h _ _ _ (.scenario d lo hi n _ (isFlag_getD fs' 0 false) (isFlag_getD fs' 1 true))
theorem agrees_evalAllWith (h : ∀ o vs vs', o.Args vs vs' → Agrees (apply o vs) (apply' o vs')) (args : List Value) :
    ∀ {es es' : List Expr}, LikeAll es es' → Agrees (evalAllWith apply args es) (evalAllWith apply' args es')
  | _, _, .nil => agrees_pure []
  | _, _, .cons he hes => by
    have he := agrees_evalWith h args he
    have hes := agrees_evalAllWith h args hes
    unfold evalAllWith; grind
end

end Expr

/-! ## Watched and plain evaluation -/

/-- A watched operation agrees with the plain one, whatever flags it is given. -/
theorem Operation.agrees_watched (hp : p.Like p') (hr : run.Agrees run') {o : Operation} {args args' : List Value}
    (hargs : o.Args args args') : Agrees (o.watched p run args) (o.apply p' run' args') := fun s s' hs => by
  by_cases hb : o.Blind run s args
  · have hagrees := agreesAt_apply hp.function? hr hargs hs hb
    have hwatched : o.watched p run args s = o.apply p run args s := if_pos hb
    exact ⟨by rw [hwatched]; exact hagrees.follows, by rw [hwatched]; exact hagrees.ends⟩
  · -- watched, it comes to nothing, and there is nothing to agree with
    have hwatched : o.watched p run args s = .error .tooDeep s := if_neg hb
    exact ⟨by rw [hwatched]; exact follows_tooDeep (α := Value) s, fun _ _ => by rw [hwatched]; trivial⟩

theorem Expr.agrees_watched (hp : p.Like p') (hr : run.Agrees run') (args : List Value) {e e' : Expr} (he : e.Like e') :
    Agrees (e.evalWith (Operation.watched p run) args) (e'.eval p' run' args) := by
  rw [Expr.eval_eq_evalWith]
  refine Expr.agrees_evalWith (fun o vs vs' hargs => ?_) args he
  exact Operation.agrees_watched hp hr hargs

theorem Thunk.agrees_watched (hp : p.Like p') (hr : run.Agrees run') (t : Thunk) :
    Agrees (t.watched p run) (t.produce p' run') := by
  cases t with
  | call f args =>
    cases f with
    | builtin b => exact Builtin.agrees_apply hr b args
    | defined name anonymous =>
      unfold Thunk.watched Thunk.produce Function.call
      rcases hp.definition? name with ⟨hn, hn'⟩ | ⟨d, d', hd, hd', -, hbody⟩
      · simp only [hn, hn']
        exact agrees_raise _
      · simp only [hd, hd']
        exact Expr.agrees_watched hp hr args hbody
  | intervalHead tag lo hi => exact Sequence.agrees_element_of_nonneg tag lo hi (Int.le_refl 0)
  | _ => unfold Thunk.watched Thunk.produce; grind

/-- **Watched thunks agree with plain ones**, however deep they may nest. -/
theorem Program.agrees_watchedAt (hp : p.Like p') : ∀ depth : Nat, (p.watchedAt depth).Agrees (p'.runAt depth)
  | 0, _, _ => ⟨throw .tooDeep, throw .tooDeep, agrees_tooDeep, rfl, rfl⟩
  | depth + 1, _, t => ⟨t.watched p (p.watchedAt depth), t.produce p' (p'.runAt depth),
    t.agrees_watched hp (Program.agrees_watchedAt hp depth), rfl, rfl⟩

/-! ## Sessions -/

/-- Steps that tell the same in stores that are the same, but for what is observed: the value or the error, the
functions that were called, all thunks that were run so far, the cells with their addresses and their states, the
errors, and of each heap all but the flags, the peak and the samples. -/
structure Outcome.Same (o o' : Outcome) : Prop where
  result : o'.result = o.result
  calls : o'.calls = o.calls
  history : o'.store.history = o.store.history
  cells : o'.store.cells = o.store.cells
  faults : o'.store.faults = o.store.faults
  active : o'.store.active = o.store.active
  heaps : o'.store.heaps.size = o.store.heaps.size
  created : ∀ h, (o'.store.heap h).created = (o.store.heap h).created
  forced : ∀ h, (o'.store.heap h).forced = (o.store.heap h).forced
  reclaimed : ∀ h, (o'.store.heap h).reclaimed = (o.store.heap h).reclaimed
  roots : ∀ h, (o'.store.heap h).roots = (o.store.heap h).roots
  table : ∀ h, (o'.store.heap h).table = (o.store.heap h).table
  live : ∀ h, o'.store.liveCount h = o.store.liveCount h

open Store in
theorem Outcome.same_of_bare {o o' : Outcome} (hresult : o'.result = o.result) (hcalls : o'.calls = o.calls)
    (hs : o.store.bare = o'.store.bare) : o.Same o' where
  result := hresult
  calls := hcalls
  history := history_of_bare hs
  cells := cells_of_bare hs
  faults := faults_of_bare hs
  active := active_of_bare hs
  heaps := heaps_size_of_bare hs
  created h := field_of_bare (r := Heap.created) hs (fun _ => rfl) h
  forced h := field_of_bare (r := Heap.forced) hs (fun _ => rfl) h
  reclaimed h := field_of_bare (r := Heap.reclaimed) hs (fun _ => rfl) h
  roots h := roots_of_bare hs h
  table h := field_of_bare (r := Heap.table) hs (fun _ => rfl) h
  live h := liveCount_of_bare hs h

/-- How a computation ended. -/
def Run.ending {α : Type} : EStateM.Result Halt Store α → Except Halt α
  | .ok a _ => .ok a
  | .error halt _ => .error halt

theorem Run.EndsAs.same_end {α : Type} {r r' : EStateM.Result Halt Store α} (h : EndsAs Eq r r')
    (hends : ∀ m, r ≠ .error .tooDeep m) (ht : (finalStore r).Tidy) :
    ending r' = ending r ∧ (finalStore r).Alike (finalStore r') := by
  match r, h with
  | .ok a m, h =>
    obtain ⟨_, m', rfl, rfl, hm⟩ := h ht
    exact ⟨rfl, hm⟩
  | .error (.raised x) m, h =>
    obtain ⟨m', rfl, hm⟩ := h ht
    exact ⟨rfl, hm⟩
  | .error .tooDeep m, _ => exact absurd rfl (hends m)

namespace Store

/-- Whether cells refer to nothing but cells, told by looking at each. -/
def tidy? (s : Store) : Bool := s.cells.all fun x => onlyCells? x.initial.refs && onlyCells? x.state.refs

theorem tidy_of_tidy? {s : Store} (h : s.tidy? = true) : s.Tidy := by
  have hcells : ∀ (c : CellId) (x : Cell), s.cells[c]? = some x → OnlyCells x.initial.refs ∧ OnlyCells x.state.refs := by
    intro c x hx
    have hall := Array.all_eq_true'.1 h x (Array.mem_of_getElem? hx)
    rw [Bool.and_eq_true] at hall
    exact ⟨onlyCells?_iff.1 hall.1, onlyCells?_iff.1 hall.2⟩
  refine ⟨fun c st hst => ?_, fun c => ?_⟩
  · obtain ⟨x, hx, rfl⟩ := Option.map_eq_some_iff.1 hst
    exact (hcells c x hx).1
  · unfold refs state
    cases hx : s.cells[c]? with
    | none => exact onlyCells_map []
    | some x => exact (hcells c x hx).2

end Store

namespace Session

theorem alike_start : Store.Alike {} {} := by
  have hflagged : Store.Flagged {} := ⟨fun _ => ⟨false, rfl⟩, fun _ => ⟨false, rfl⟩, fun d x hx => by
    rw [Array.getElem?_empty] at hx
    cases hx⟩
  exact ⟨rfl, fun _ _ hv => absurd hv List.not_mem_nil, hflagged, hflagged⟩

theorem alike_quiet {s s' : Store} (h : s.Alike s') : Store.Alike { s with events := [] } { s' with events := [] } :=
  ⟨h.bare, h.rooted, h.flagged.congr rfl rfl, h.flagged'.congr rfl rfl⟩

theorem step_eq (p : Program) (s : Store) (e : Expr) : step p s e =
    .ofEnd s.history.length (ending (e.eval p p.run [] { s with events := [] }))
      (finalStore (e.eval p p.run [] { s with events := [] })) := by
  unfold step
  cases e.eval p p.run [] { s with events := [] } <;> rfl

theorem reached_watch (p : Program) {w : Store} (hw : w.Reached) (e : Expr) : (finalStore (watch p w e)).Reached := by
  have hquiet : w.Runs { w with events := [] } := .of_step (.logged w [])
  have hfollows := (Expr.agrees_watched (.refl p) (Program.agrees_watchedAt (.refl p) depthLimit) [] (.refl e)).follows
  exact (hw.after hquiet.reaches).after (hfollows { w with events := [] }).reaches

/-- A watched step and a plain one, with any other flags, come to the same. -/
theorem step_of_watch (hp : p.Like p') {w s : Store} (hw : w.Reached) (halike : w.Alike s) {e e' : Expr}
    (he : e.Like e') (hends : ∀ m, watch p w e ≠ .error .tooDeep m) (ht : (finalStore (watch p w e)).Tidy) :
    (step p' s e').result = ending (watch p w e) ∧
      (step p' s e').calls = (finalStore (watch p w e)).callsSince w.history.length ∧
      (finalStore (watch p w e)).Alike (step p' s e').store := by
  have hquiet := alike_quiet halike
  have hlogged : w.Runs { w with events := [] } := .of_step (.logged w [])
  have hagrees := (Expr.agrees_watched hp (Program.agrees_watchedAt hp depthLimit) [] he).at hquiet.bare
  obtain ⟨hresult, hstore⟩ := (hagrees.ends (hw.after hlogged.reaches) hquiet).same_end hends ht
  have hlength : s.history.length = w.history.length := by rw [Store.history_of_bare halike.bare]
  have hcalls := congrFun (Store.callsSince_of_bare hstore.bare) s.history.length
  rw [step_eq]
  exact ⟨hresult, hcalls.trans (by rw [hlength]; rfl), hstore⟩

theorem same_stepsFrom (hp : p.Like p') {es es' : List Expr} (hes : List.Forall₂ Expr.Like es es') {w s s' : Store}
    (hw : w.Reached) (hs : w.Alike s) (hs' : w.Alike s') (h : UnobservingFrom p w es) :
    List.Forall₂ Outcome.Same (stepsFrom p s es) (stepsFrom p' s' es') := by
  induction hes generalizing w s s' with
  | nil => exact .nil
  | @cons e e' es es' he _ ih =>
    obtain ⟨hends, ht, h⟩ := h
    obtain ⟨hresult, hcalls, hstore⟩ := step_of_watch (.refl p) hw hs (.refl e) hends ht
    obtain ⟨hresult', hcalls', hstore'⟩ := step_of_watch hp hw hs' he hends ht
    exact .cons (Outcome.same_of_bare (hresult'.trans hresult.symm) (hcalls'.trans hcalls.symm)
      (hstore.bare.symm.trans hstore'.bare)) (ih (reached_watch p hw e) hstore hstore' h)

/-- **What is observed does not matter.**  Run a session that reads nothing that is observed, and in which everything is
a cell that should be one, once more with any other flags for its heaps, its consumers and its scenarios.  Step by step,
the same is told, and the stores are the same but for flags, peaks and samples. -/
theorem observation_passive (hp : p.Like p') {es es' : List Expr} (hes : List.Forall₂ Expr.Like es es')
    (h : Unobserving p es) : List.Forall₂ Outcome.Same (Session.run p es) (Session.run p' es') :=
  same_stepsFrom hp hes ⟨[], .refl⟩ alike_start alike_start h

/-! ### A session that is sampled or not -/

/-- A watched operation on constants is applied if it is blind. -/
theorem watch_apply {o : Operation} (vs : List Value) {s : Store}
    (hb : o.Blind (p.watchedAt depthLimit) { s with events := [] } vs) :
    watch p s (.apply o (vs.map .constant)) = o.apply p (p.watchedAt depthLimit) vs { s with events := [] } := by
  unfold watch Expr.evalWith
  rw [Expr.evalAllWith_constants, pure_bind]
  exact if_pos hb

theorem UnobservingFrom.cons {s : Store} {e : Expr} {es : List Expr} {r : EStateM.Result Halt Store Value}
    (h : watch p s e = r) (hover : (ending r).isOk = true) (ht : (finalStore r).tidy? = true)
    (hrest : UnobservingFrom p (finalStore r) es) : UnobservingFrom p s (e :: es) := by
  subst h
  refine ⟨fun m hm => ?_, Store.tidy_of_tidy? ht, hrest⟩
  rw [hm] at hover
  cases hover

theorem observation_passive_sampled :
    let p : Program := [("f", ⟨.argument 0, false⟩)]
    let es : Bool → List Expr := fun flag => [
      .apply (.heap .openNew) (Expr.flags [flag, flag]),
      .apply (.list .makeGenerator) [.constant (.int 1), .constant (.int 2)],
      .apply (.demand .driver) (.constant (.cell 0) :: Expr.flags [flag]),
      .apply (.demand .drop) [.constant (.consumer 0), .constant (.int 1)],
      .apply (.cell .suspend) [.constant (.str "f"), .constant (.int 5)],
      .apply (.cell .force) [.constant (.cell 3)],
      .apply (.value .written) [.constant (.int 5)]]
    p.Like p ∧ List.Forall₂ Expr.Like (es false) (es true) ∧ Unobserving p (es false) ∧
      List.Forall₂ Outcome.Same (Session.run p (es false)) (Session.run p (es true)) := by
  intro p es
  have hes : List.Forall₂ Expr.Like (es false) (es true) :=
    .cons (.openHeap _ _) (.cons (.refl _) (.cons (.driver (some false) (some true) (.refl _))
      (List.forall₂_same.2 fun e _ => .refl e)))
  have hquiet : Unobserving p (es false) := by
    refine .cons (watch_apply [.bool false, .bool false] ⟨⟨false, rfl⟩, ⟨false, rfl⟩⟩) (by decide +kernel)
      (by decide +kernel) ?_
    refine .cons (watch_apply [.int 1, .int 2] trivial) (by decide +kernel) (by decide +kernel) ?_
    refine .cons (watch_apply [.cell 0, .bool false] ⟨⟨false, rfl⟩, fun _ _ _ => ⟨_, rfl⟩⟩) (by decide +kernel)
      (by decide +kernel) ?_
    refine .cons (watch_apply [.consumer 0, .int 1] trivial) (by decide +kernel) (by decide +kernel) ?_
    refine .cons (watch_apply [.str "f", .int 5] trivial) (by decide +kernel) (by decide +kernel) ?_
    refine .cons (watch_apply [.cell 3] trivial) (by decide +kernel) (by decide +kernel) ?_
    refine .cons (watch_apply [.int 5] (Store.settles_written fun hmeets => ?_)) (by decide +kernel)
      (by decide +kernel) trivial
    cases hmeets with
    | inside hshown _ => cases hshown
  exact ⟨.refl p, hes, hquiet, observation_passive (.refl p) hes hquiet⟩

end Session
end Retention
