import Retention.Proofs.AgreeingLists
/-!
# AgreeingProgram — operations agree that read nothing that is observed

Few operations read what is observed: the written form and the text of a heap or of what leads to one, the counters and
the samples of a heap, a report of a scenario, and errors that are worded with such texts.  Where they do not
(`Operation.Blind`), every operation agrees with itself, also if it is given other flags (`Operation.Args`); there is one
lemma for each family of operations, assembled in `Operation.agreesAt_apply`.
-/
namespace Retention

open Run

variable {p p' : Program} {run run' : Runner}

/-! ## Arguments -/

namespace Run

@[grind ←] theorem agrees_wrongCount {α : Type} (o : Operation) : Agrees (wrongCount o : Run α) (wrongCount o) :=
  agrees_raise _

@[grind ←] theorem agrees_heapOf (attr : String) (v : Value) : Agrees (heapOf attr v) (heapOf attr v) := by
  unfold heapOf; grind

@[grind ←] theorem agrees_heapOr (args : List Value) : Agrees (heapOr args) (heapOr args) := by unfold heapOr; grind

@[grind ←] theorem agrees_heapAmong (attr : String) (args : List Value) :
    Agrees (heapAmong attr args) (heapAmong attr args) := by
  unfold heapAmong; grind

@[grind ←] theorem agrees_consumerOf (attr : String) (v : Value) : Agrees (consumerOf attr v) (consumerOf attr v) := by
  unfold consumerOf; grind

@[grind ←] theorem agrees_iteratorOf (v : Value) : Agrees (iteratorOf v) (iteratorOf v) := by unfold iteratorOf; grind

/-- What is no discipline and names none is shown. -/
theorem agreesAt_disciplineOf {s s' : Store} {v : Value} (hs : s.bare = s'.bare) (hv : s.Settles fun s => s.written v) :
    AgreesAt Eq s s' (disciplineOf v) (disciplineOf v) := by
  have hshown : AgreesAt Eq s s' (do raise (.unknownDiscipline (← written v)) : Run Discipline)
      (do raise (.unknownDiscipline (← written v))) :=
    agreesAt_bind (agreesAt_told hs (hv s' hs)) fun _ => agrees_raise _
  unfold disciplineOf
  dsimp only
  split
  · exact (agrees_pure _).at hs
  · exact hshown

@[grind ←] theorem agrees_unknown {α : Type} (name : Value) : Agrees (unknown name : Run α) (unknown name) := by
  unfold unknown; grind

@[grind ←] theorem agrees_functionOf (hp : ∀ name, p'.function? name = p.function? name) (v : Value) :
    Agrees (functionOf p v) (functionOf p' v) := by
  unfold functionOf; grind

@[grind ←] theorem agrees_readInteger (v : Value) : Agrees (readInteger v) (readInteger v) := by unfold readInteger; grind

@[grind ←] theorem agrees_takeBoundOf (v : Value) : Agrees (takeBoundOf v) (takeBoundOf v) := by unfold takeBoundOf; grind

@[grind ←] theorem agrees_takeList (hr : run.Agrees run') (n xs : Value) :
    Agrees (takeList run n xs) (takeList run' n xs) := by
  unfold takeList; grind

@[grind ←] theorem agrees_dropValue (hr : run.Agrees run') (n xs : Value) :
    Agrees (dropValue run n xs) (dropValue run' n xs) := by
  unfold dropValue
  split
  · exact Sequence.agrees_drop hr _ xs
  · grind

/-! ## Plain values -/

@[grind ←] theorem agrees_pairOf (hr : run.Agrees run') (index : Nat) (entry : Value) :
    Agrees (pairOf run index entry) (pairOf run' index entry) := by
  refine agrees_bind (agrees_attempt (Iterator.agrees_items hr entry)) fun items => ?_
  split
  · exact agrees_pure _
  · exact agrees_raise _
  · refine agrees_get fun s s' hs => ?_
    rw [Store.raised_of_bare hs]
    grind

@[grind ←] theorem agrees_putEntries (hr : run.Agrees run') :
    ∀ (entries : List Value) (dict : Entries Value Value) (index : Nat),
      Agrees (putEntries run dict index entries) (putEntries run' dict index entries)
  | [], dict, index => agrees_pure dict
  | entry :: entries, dict, index => by
    refine agrees_bind (agrees_pairOf hr index entry) fun pair => agrees_bind (agrees_checkKey pair.1) fun _ =>
      agrees_get fun s s' hs => ?_
    rw [Store.equal_of_bare hs]
    exact agrees_putEntries hr entries _ _

@[grind ←] theorem agrees_sum (values : List Value) : Agrees (sum values) (sum values) := by
  refine agrees_bind (agrees_mapM (fun v => ?_) values) fun numbers => agrees_pure _
  split
  · exact agrees_pure _
  · exact agrees_raise _

@[grind ←] theorem agrees_repetitions (count : Value) : Agrees (repetitions count) (repetitions count) := by
  unfold repetitions; grind

@[grind ←] theorem agrees_checkSize (items count : Nat) : Agrees (checkSize items count) (checkSize items count) := by
  unfold checkSize; grind

@[grind ←] theorem agrees_repeatText (text : String) (count : Nat) :
    Agrees (repeatText text count) (repeatText text count) := by
  unfold repeatText; grind

@[grind ←] theorem agrees_repeatItems (items : List Value) (count : Nat) :
    Agrees (repeatItems items count) (repeatItems items count) := by
  unfold repeatItems; grind

theorem agrees_repetition {sequence count : Value} {x : Run Value} (h : repetition? sequence count = some x) :
    Agrees x x := by
  unfold repetition? at h
  split at h
  all_goals cases h
  all_goals grind

@[grind ←] theorem agrees_product (a b : Value) : Agrees (product a b) (product a b) := by
  unfold product
  split
  · exact agrees_pure _
  · split
    · rename_i x hx
      rcases Option.or_eq_some_iff.1 hx with h | ⟨-, h⟩
      · exact agrees_repetition h
      · exact agrees_repetition h
    · grind

@[grind ←] theorem agrees_length (v : Value) : Agrees (length v) (length v) := by unfold length; grind

/-! ## Errors -/

@[grind ←] theorem agrees_contextOf (hr : run.Agrees run') (v : Value) : Agrees (contextOf run v) (contextOf run' v) := by
  unfold contextOf; grind

@[grind ←] theorem agrees_buildFault (hr : run.Agrees run') (kind : ErrorKind) (args : List Value) :
    Agrees (buildFault run kind args) (buildFault run' kind args) := by
  unfold buildFault
  split
  · split <;> grind
  · grind

@[grind ←] theorem agrees_kindOf (v : Value) : Agrees (kindOf v) (kindOf v) := by unfold kindOf; grind

@[grind ←] theorem agrees_variablesOf (v : Value) : Agrees (variablesOf v) (variablesOf v) := by unfold variablesOf; grind

@[grind ←] theorem agrees_spread (hr : run.Agrees run') (v : Value) : Agrees (spread run v) (spread run' v) := by
  unfold spread; grind

@[grind ←] theorem agrees_checkNames (names : List Value) : Agrees (checkNames names) (checkNames names) := by
  unfold checkNames; grind

end Run

/-! ## What operations read -/

/-- Whether a heap is given by values that are truth values. -/
def Heap.Flagged (x : Heap) : Prop := x.traces.IsFlag ∧ x.samplesForces.IsFlag

/-- The heap that a consumer is made on: the active one if none is given. -/
def Run.consumerHeap : Value → Run HeapId
  | .null => Run.activeHeap
  | v => Run.heapOf "root" v

/-- On this store and with these arguments, an operation reads nothing that is observed, puts nothing but cells under
roots, and sets flags to nothing but truth values. -/
def Operation.Blind (run : Runner) (s : Store) : Operation → List Value → Prop
  | .value .written, [v] => s.Settles fun s => s.written v
  | .value .text, [v] => s.Settles fun s => s.text v
  | .heap .new, flags => (HeapOp.apply.withFlags flags).Flagged
  | .heap .openNew, flags => (HeapOp.apply.withFlags flags).Flagged
  | .heap .root, name :: v :: rest => ∀ a m, HeapOp.apply run .root (name :: v :: rest) s = .ok a m → v.IsCell
  | .heap .stats, args => ∀ a m, HeapOp.apply run .stats args s ≠ .ok a m
  | .heap .samples, args => ∀ a m, HeapOp.apply run .samples args s ≠ .ok a m
  | .list .element, [.interval tag lo hi, i] =>
    ∀ k, i.int? = some k → k < 0 → s.Settles fun s => s.written (.interval tag lo hi)
  | .cycle .cycle, [d, _, _] => s.Settles fun s => s.written d
  | .cycle .discipline, [d] => s.Settles fun s => s.written d
  | .demand .driver, xs :: options => Value.IsFlag (options[0]?.getD (.bool true)) ∧
    ∀ h m, Run.consumerHeap (options[1]?.getD .null) s = .ok h m → xs.IsCell
  | .demand .runScenario, d :: lo :: hi :: n :: options =>
    (s.Settles fun s => s.written d) ∧ Value.IsFlag (options[0]?.getD (.bool false)) ∧
      Value.IsFlag (options[1]?.getD (.bool true)) ∧
      ∀ a m, DemandOp.apply run .runScenario (d :: lo :: hi :: n :: options) s ≠ .ok a m
  | .demand .report, d :: _ :: _ :: _ :: _ :: _ :: _ => s.Settles fun s => s.written d
  | .error .buildError, [_, _, args, .dict _ vars] => ∀ items m, Run.spread run args s = .ok items m →
    ∀ v, Entries.get? Value.same vars (.str "address") = some v → m.Settles fun s => s.text v
  | _, _ => True

variable {s s' : Store}

/-! ## The families of operations -/

theorem ValueOp.agreesAt_apply (hr : run.Agrees run') (o : ValueOp) (args : List Value) (hs : s.bare = s'.bare)
    (hb : Operation.Blind run s (.value o) args) : AgreesAt Eq s s' (o.apply run args) (o.apply run' args) := by
  unfold ValueOp.apply
  split
  case h_12 v => exact agreesAt_bind (agreesAt_told hs (hb s' hs)) fun _ => agrees_pure _
  case h_13 v => exact agreesAt_bind (agreesAt_told hs (hb s' hs)) fun _ => agrees_pure _
  case h_9 a b =>
    refine (agrees_get fun s s' hs => ?_).at hs
    rw [Store.equal_of_bare hs]
    exact agrees_pure _
  all_goals exact (by grind : Agrees _ _).at hs

namespace HeapOp

@[grind ←] theorem agrees_close (v : Value) : Agrees (apply.close v) (apply.close v) := by
  unfold apply.close
  split
  · grind
  · refine agrees_get fun s s' hs => ?_
    rw [Store.iterators_of_bare hs]
    grind
  · grind

/-- A consumer has its flag where a heap takes a sample; no flag can be called. -/
@[grind ←] theorem agrees_sample (hr : run.Agrees run') (v : Value) : Agrees (apply.sample run v) (apply.sample run' v) := by
  unfold apply.sample
  split
  · grind
  · rename_i d
    refine agreesIn_bind (Consumer.agreesIn_find d) (fun x => Cycle.follows_callValue hr.follows _) fun x x' hx => ?_
    obtain ⟨b, hb⟩ := hx.flag
    obtain ⟨b', hb'⟩ := hx.flag'
    rw [hb, hb']
    exact agrees_raise (.notCallable "bool")
  · grind

/-- New heaps whose flags may differ. -/
theorem agrees_new (run run' : Runner) {flags flags' : List Value} (hf : (apply.withFlags flags).Flagged)
    (hf' : (apply.withFlags flags').Flagged) : Agrees (apply run .new flags) (apply run' .new flags') :=
  agrees_bind (agrees_newHeap false hf.1 hf.2 hf'.1 hf'.2) fun _ => agrees_pure _

theorem agrees_openNew (run run' : Runner) {flags flags' : List Value} (hf : (apply.withFlags flags).Flagged)
    (hf' : (apply.withFlags flags').Flagged) : Agrees (apply run .openNew flags) (apply run' .openNew flags') :=
  agrees_bind (agrees_newHeap false hf.1 hf.2 hf'.1 hf'.2) fun h => agrees_bind (agrees_enter h) fun _ => agrees_pure _

theorem agreesAt_apply (hr : run.Agrees run') (o : HeapOp) (args : List Value) (hs : s.bare = s'.bare)
    (hb : Operation.Blind run s (.heap o) args) : AgreesAt Eq s s' (o.apply run args) (o.apply run' args) := by
  unfold apply
  split
  case h_1 => exact (agrees_new run run' hb hb).at hs
  case h_2 => exact (agrees_openNew run run' hb hb).at hs
  case h_7 name v rest =>
    by_cases hv : v.IsCell
    · exact (agrees_bind (agrees_heapAmong "root" rest) fun h => agrees_bind (agrees_setRoot h name hv) fun _ =>
        agrees_pure _).at hs
    · -- no cell: the root is not set, as that would be a success
      refine agreesAt_bindAt ((agrees_heapAmong "root" rest).at hs) fun h m m' hh hm => ?_
      refine agreesAt_bind (agreesAt_setRoot_of_ne hm fun u e hset => hv (hb .null e ?_)) fun _ => agrees_pure _
      exact (bind_ok hh).trans (bind_ok hset)
  case h_9 =>
    refine (agrees_bind (agrees_heapAmong "roots" args) fun h => agrees_get fun s s' hs => ?_).at hs
    rw [Store.roots_of_bare hs]
    exact agrees_bind (agrees_mapM (fun _ => agrees_tuple _) _) fun _ => agrees_list _
  case h_12 =>
    refine (agrees_bind (agrees_heapAmong "tracked_cell_count" args) fun h => agrees_get fun s s' hs => ?_).at hs
    have htable : (s'.heap h).table = (s.heap h).table := Store.field_of_bare hs (fun _ => rfl) h
    rw [htable]
    exact agrees_pure _
  case h_15 =>
    -- once there is a heap, nothing keeps its counters and samples from being told
    exact agreesAt_bind_of_ne ((agrees_heapAmong "stats" args).at hs) (fun h => follows_of_composed fun _ => by grind) (fun _ _ => ⟨_, _, rfl⟩) hb
  case h_16 =>
    exact agreesAt_bind_of_ne ((agrees_heapAmong "stats" args).at hs) (fun h => follows_of_composed fun _ => by grind) (fun _ _ => ⟨_, _, rfl⟩) hb
  all_goals exact (by grind : Agrees _ _).at hs

end HeapOp

@[grind ←] theorem Run.agrees_cellsOf (v : Value) : Agrees (cellsOf v) (cellsOf v) := by
  unfold cellsOf
  split
  · refine agrees_get fun s s' hs => ?_
    rw [Store.refs_of_bare hs]
    exact agrees_pure _
  all_goals grind

theorem CellOp.agrees_apply (hp : ∀ name, p'.function? name = p.function? name) (hr : run.Agrees run') (o : CellOp)
    (args : List Value) : Agrees (o.apply p run args) (o.apply p' run' args) := by
  unfold CellOp.apply
  split
  case h_8 v =>
    refine agrees_bind (agrees_cellOf "evaluated" v) fun c => agrees_get fun s s' hs => ?_
    rw [Store.state_of_bare hs]
    exact agrees_pure _
  case h_9 v =>
    refine agrees_bind (agrees_cellOf "address" v) fun c => agrees_get fun s s' hs => ?_
    rw [Store.address_of_bare hs]
    exact agrees_pure _
  case h_10 v =>
    refine agrees_bind (agrees_cellOf "state" v) fun c => agrees_get fun s s' hs => ?_
    rw [Store.state_of_bare hs]
    exact agrees_pure _
  all_goals grind

@[grind ←] theorem Run.agrees_headField (v : Value) : Agrees (headField v) (headField v) := by
  unfold headField
  split
  · exact agrees_pure _
  · refine agrees_get fun s s' hs => ?_
    rw [Store.reportAt_of_bare hs]
    exact agrees_pure _
  · exact agrees_lacks _ _

theorem ListOp.agreesAt_apply (hp : ∀ name, p'.function? name = p.function? name) (hr : run.Agrees run') (o : ListOp)
    (args : List Value) (hs : s.bare = s'.bare) (hb : Operation.Blind run s (.list o) args) :
    AgreesAt Eq s s' (o.apply p run args) (o.apply p' run' args) := by
  unfold ListOp.apply
  split
  case h_7 tag lo hi i => exact Sequence.agreesAt_element hs hb
  all_goals exact (by grind : Agrees _ _).at hs

theorem CycleOp.agreesAt_apply (hp : ∀ name, p'.function? name = p.function? name) (hr : run.Agrees run') (o : CycleOp)
    (args : List Value) (hs : s.bare = s'.bare) (hb : Operation.Blind run s (.cycle o) args) :
    AgreesAt Eq s s' (o.apply p run args) (o.apply p' run' args) := by
  unfold CycleOp.apply
  split
  case h_4 d lo hi =>
    exact agreesAt_bind (agreesAt_disciplineOf hs hb) fun d => agrees_bind (d.agrees_cycle lo hi) fun _ => agrees_pure _
  case h_5 d => exact agreesAt_bind (agreesAt_disciplineOf hs hb) fun d => agrees_pure _
  all_goals exact (by grind : Agrees _ _).at hs

@[grind ←] theorem Run.agrees_newReport (r : Report) : Agrees (newReport r) (newReport r) :=
  agrees_modifyGet (follows_newReport r) (fun _ _ hs => by rw [Store.reports_of_bare hs]) fun _ _ h =>
    h.frame (f := fun s => { s with reports := s.reports.push r }) (fun _ => rfl) (fun _ => rfl) fun _ => rfl

@[grind ←] theorem Run.agrees_askHead (hr : run.Agrees run') (v : Value) : Agrees (askHead run v) (askHead run' v) := by
  unfold askHead; grind

@[grind ←] theorem Run.agrees_consumerHeap (v : Value) : Agrees (consumerHeap v) (consumerHeap v) := by
  unfold consumerHeap; grind

namespace DemandOp

theorem apply_driver (run : Runner) (xs : Value) (options : List Value) :
    DemandOp.apply run .driver (xs :: options) = do
      let h ← consumerHeap (options[1]?.getD .null)
      return .consumer (← Consumer.new h (options[0]?.getD (.bool true)) xs) := by
  unfold apply consumerHeap
  dsimp only
  generalize options[1]?.getD .null = v
  cases v <;> rfl

/-- New consumers whose flags may differ. -/
theorem agreesAt_driver (run' : Runner) {xs : Value} {options options' : List Value} (hs : s.bare = s'.bare)
    (hb : Operation.Blind run s (.demand .driver) (xs :: options)) (hheap : options'[1]?.getD .null = options[1]?.getD .null)
    (hflag : Value.IsFlag (options'[0]?.getD (.bool true))) :
    AgreesAt Eq s s' (DemandOp.apply run .driver (xs :: options)) (DemandOp.apply run' .driver (xs :: options')) := by
  obtain ⟨hflag', hcell⟩ := hb
  rw [apply_driver, apply_driver, hheap]
  refine agreesAt_bindAt ((agrees_consumerHeap _).at hs) fun h m m' hh hm => ?_
  exact (agrees_bind (Consumer.agrees_new h (hcell h m hh) hflag' hflag) fun _ => agrees_pure _).at hm

theorem agreesAt_runScenario (hr : run.Agrees run') {d lo hi n : Value} {options options' : List Value}
    (hs : s.bare = s'.bare) (hb : Operation.Blind run s (.demand .runScenario) (d :: lo :: hi :: n :: options))
    (ht : Value.IsFlag (options'[0]?.getD (.bool false))) (hf : Value.IsFlag (options'[1]?.getD (.bool true))) :
    AgreesAt Eq s s' (DemandOp.apply run .runScenario (d :: lo :: hi :: n :: options))
      (DemandOp.apply run' .runScenario (d :: lo :: hi :: n :: options')) := by
  obtain ⟨hd, ht', hf', hne⟩ := hb
  refine agreesAt_bindAt (agreesAt_disciplineOf hs hd) fun d' m m' hd hm => ?_
  let x : Scenario := ⟨lo, hi, n, options[0]?.getD (.bool false), options[1]?.getD (.bool true)⟩
  -- a scenario that comes to its end tells the peak, so a blind one raises an error on the way
  exact agreesAt_bind_of_ne (Scenario.agreesIn_report hr x d' ht' hf' ht hf m m' hm) (fun _ => follows_newReport _)
    (fun _ _ => ⟨_, _, rfl⟩) fun a e he => hne a e ((bind_ok hd).trans he)

theorem agreesAt_apply (hr : run.Agrees run') (o : DemandOp) (args : List Value) (hs : s.bare = s'.bare)
    (hb : Operation.Blind run s (.demand o) args) : AgreesAt Eq s s' (o.apply run args) (o.apply run' args) := by
  unfold apply
  split
  case h_3 xs options => exact agreesAt_driver run' hs hb rfl hb.1
  case h_8 d =>
    refine (agrees_bind (agrees_consumerOf "steps" d) fun d => ?_).at hs
    refine agreesIn_bind (Consumer.agreesIn_find d) (fun x => follows_pure _) fun x x' hx => ?_
    rw [hx.steps]
    exact agrees_pure _
  case h_9 d lo hi n options => exact agreesAt_runScenario hr hs hb hb.2.1 hb.2.2.1
  case h_10 d x live peak created forced options =>
    exact agreesAt_bind (agreesAt_disciplineOf hs hb) fun d => agrees_bind (Iterator.agrees_items hr _) fun samples =>
      agrees_newReport _
  all_goals exact (by grind : Agrees _ _).at hs

end DemandOp

theorem Builtin.agrees_apply (hr : run.Agrees run') (b : Builtin) (args : List Value) :
    Agrees (b.apply run args) (b.apply run' args) := by
  unfold Builtin.apply
  split <;> grind

/-! ### Errors -/

namespace Run

theorem agreesAt_addressText {vars : Entries Value Value} (hs : s.bare = s'.bare)
    (hv : ∀ v, Entries.get? Value.same vars (.str "address") = some v → s.Settles fun s => s.text v) :
    AgreesAt Eq s s' (addressText vars) (addressText vars) := by
  unfold addressText
  cases hget : Entries.get? Value.same vars (.str "address") with
  | none => exact (agrees_raise _).at hs
  | some v => exact agreesAt_told hs (hv v hget s' hs)

theorem agreesAt_of_wordingOf {kind : ErrorKind} {builder : Value} {m e : Store} {w : Entries Value Value → Run String}
    (h : wordingOf kind builder m = .ok w e) {vars : Entries Value Value} (hs : s.bare = s'.bare)
    (hv : ∀ v, Entries.get? Value.same vars (.str "address") = some v → s.Settles fun s => s.text v) :
    AgreesAt Eq s s' (w vars) (w vars) := by
  unfold wordingOf at h
  split at h
  all_goals cases h
  case h_4 => exact (agrees_pure _).at hs
  all_goals exact agreesAt_bind (agreesAt_addressText hs hv) fun _ => agrees_pure _

theorem agrees_wordingOf (kind : ErrorKind) (builder : Value) : Agrees (wordingOf kind builder) (wordingOf kind builder) := by
  unfold wordingOf; grind

theorem unknown_ne_ok {α : Type} (v : Value) (a : α) (e : Store) : unknown v s ≠ .ok a e := fun h => by
  unfold unknown at h
  rw [bind_apply] at h
  cases hk : checkKey v s with
  | ok u m => rw [hk] at h; cases h
  | error x m => rw [hk] at h; cases h

theorem kindOf_ok {v : Value} {kind : ErrorKind} {e : Store} (h : kindOf v s = .ok kind e) : e = s := by
  cases v with
  | str name =>
    cases hw : ErrorKind.ofWord? name with
    | none =>
      simp only [kindOf, hw] at h
      exact absurd h (unknown_ne_ok _ _ _)
    | some k =>
      simp only [kindOf, hw] at h
      cases h
      rfl
  | _ => exact absurd h (unknown_ne_ok _ _ _)

theorem wordingOf_ok {kind : ErrorKind} {builder : Value} {e : Store} {w : Entries Value Value → Run String}
    (h : wordingOf kind builder s = .ok w e) : e = s := by
  unfold wordingOf at h
  split at h
  all_goals cases h
  all_goals rfl

theorem variablesOf_ok {v : Value} {vars : Entries Value Value} {e : Store} (h : variablesOf v s = .ok vars e) :
    ∃ tag, v = .dict tag vars ∧ e = s := by
  unfold variablesOf at h
  split at h
  · cases h
    exact ⟨_, rfl, rfl⟩
  · cases h

theorem checkNames_ok {names : List Value} {u : Unit} {e : Store} (h : checkNames names s = .ok u e) : e = s := by
  unfold checkNames at h
  split at h
  · cases h
  · split at h
    · cases h
    · cases h
      rfl

end Run

theorem ErrorOp.agreesAt_apply (hr : run.Agrees run') (o : ErrorOp) (args : List Value) (hs : s.bare = s'.bare)
    (hb : Operation.Blind run s (.error o) args) : AgreesAt Eq s s' (o.apply run args) (o.apply run' args) := by
  unfold ErrorOp.apply
  split
  case h_3 kind builder args vars =>
    -- what comes before the arguments are spread leaves the store as it is, so it is blind there as it is here
    refine agreesAt_bindAt ((agrees_kindOf kind).at hs) fun kind m m' hkind hm => ?_
    obtain rfl := kindOf_ok hkind
    refine agreesAt_bindAt ((agrees_wordingOf kind builder).at hm) fun wording e e' hwording he => ?_
    obtain rfl := wordingOf_ok hwording
    refine agreesAt_bindAt ((agrees_variablesOf vars).at he) fun entries n n' hvars hn => ?_
    obtain ⟨tag, rfl, rfl⟩ := variablesOf_ok hvars
    refine agreesAt_bindAt ((agrees_spread hr args).at hn) fun items t t' hspread ht => ?_
    refine agreesAt_bindAt ((agrees_checkNames _).at ht) fun _ u u' hnames hu => ?_
    obtain rfl := checkNames_ok hnames
    exact agreesAt_bind (agreesAt_of_wordingOf hwording hu (hb items _ hspread)) fun _ => agrees_buildFault hr _ _
  all_goals exact (by grind : Agrees _ _).at hs

/-! ## All operations -/

/-- Arguments that are the same but for the flags among them, which are truth values on the right. -/
inductive Operation.Args : Operation → List Value → List Value → Prop
  | same (o : Operation) (vs : List Value) : Args o vs vs
  | newHeap (flags : List Value) {flags' : List Value} (flagged : (HeapOp.apply.withFlags flags').Flagged) :
    Args (.heap .new) flags flags'
  | openHeap (flags : List Value) {flags' : List Value} (flagged : (HeapOp.apply.withFlags flags').Flagged) :
    Args (.heap .openNew) flags flags'
  | driver (xs : Value) {options options' : List Value} (heap : options'[1]?.getD .null = options[1]?.getD .null)
    (flag : Value.IsFlag (options'[0]?.getD (.bool true))) : Args (.demand .driver) (xs :: options) (xs :: options')
  | scenario (d lo hi n : Value) (options : List Value) {options' : List Value}
    (traces : Value.IsFlag (options'[0]?.getD (.bool false))) (samples : Value.IsFlag (options'[1]?.getD (.bool true))) :
    Args (.demand .runScenario) (d :: lo :: hi :: n :: options) (d :: lo :: hi :: n :: options')

/-- **A blind operation agrees with itself**, whatever flags it is given. -/
theorem Operation.agreesAt_apply (hp : ∀ name, p'.function? name = p.function? name) (hr : run.Agrees run')
    {o : Operation} {args args' : List Value} (hargs : o.Args args args') (hs : s.bare = s'.bare)
    (hb : o.Blind run s args) : AgreesAt Eq s s' (o.apply p run args) (o.apply p' run' args') := by
  cases hargs with
  | same =>
    cases o with
    | value o => exact o.agreesAt_apply hr args hs hb
    | heap o => exact o.agreesAt_apply hr args hs hb
    | cell o => exact (o.agrees_apply hp hr args).at hs
    | list o => exact o.agreesAt_apply hp hr args hs hb
    | cycle o => exact o.agreesAt_apply hp hr args hs hb
    | demand o => exact o.agreesAt_apply hr args hs hb
    | error o => exact o.agreesAt_apply hr args hs hb
  | newHeap _ hflagged => exact (HeapOp.agrees_new run run' hb hflagged).at hs
  | openHeap _ hflagged => exact (HeapOp.agrees_openNew run run' hb hflagged).at hs
  | driver xs hheap hflag => exact DemandOp.agreesAt_driver run' hs hb hheap hflag
  | scenario d lo hi n options ht hf => exact DemandOp.agreesAt_runScenario hr hs hb ht hf

end Retention
