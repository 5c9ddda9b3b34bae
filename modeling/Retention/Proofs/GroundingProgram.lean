import Retention.Proofs.GroundingLists
/-!
# GroundingProgram — every session keeps the store grounded

A program is plain if no heap is named in it (`Program.Plain`); what is read from forms is (`Expr.plain_ofForm`), since
no form stands for a heap.  One lemma for each family of operations leads to `Expr.keeps_eval`: whatever a plain
program's expression does keeps the store grounded.  So every store that a session of a plain program comes to is
grounded, and reached with no heap active before it is there (`Session.grounded_of_mem`).
-/
namespace Retention

open Run

variable {p : Program} {run : Runner} {n : Nat}

/-! ## Arguments -/

namespace Run

@[grind ←] theorem keeps_wrongCount {α : Type} [Naming α] (o : Operation) : Keeps n (wrongCount o : Run α) :=
  keeps_raise _

@[grind ←] theorem keepsHeap_heapOf (attr : String) {v : Value} (hv : Below n v) : KeepsHeap n (heapOf attr v) := by
  unfold heapOf; grind

@[grind ←] theorem keeps_heapOr {args : List Value} (h : Below n args) : Keeps n (heapOr args) := by
  unfold heapOr; grind

@[grind ←] theorem keepsHeap_heapAmong (attr : String) {args : List Value} (h : Below n args) :
    KeepsHeap n (heapAmong attr args) := by
  unfold heapAmong; grind

@[grind ←] theorem keeps_consumerOf (attr : String) (v : Value) : Keeps n (consumerOf attr v) := by
  unfold consumerOf; grind

@[grind ←] theorem keeps_iteratorOf (v : Value) : Keeps n (iteratorOf v) := by unfold iteratorOf; grind

@[grind ←] theorem keeps_disciplineOf (v : Value) : Keeps n (disciplineOf v) := by unfold disciplineOf; grind

@[grind ←] theorem keeps_unknown {α : Type} [Naming α] (name : Value) : Keeps n (unknown name : Run α) := by
  unfold unknown; grind

@[grind ←] theorem keeps_functionOf (v : Value) : Keeps n (functionOf p v) := by unfold functionOf; grind

@[grind ←] theorem keeps_readInteger (v : Value) : Keeps n (readInteger v) := by unfold readInteger; grind

@[grind ←] theorem keeps_takeBoundOf (v : Value) : Keeps n (takeBoundOf v) := by unfold takeBoundOf; grind

@[grind ←] theorem keeps_takeList (hr : run.Keeps) (k : Value) {xs : Value} (hxs : Below n xs) :
    Keeps n (takeList run k xs) := by
  unfold takeList; grind

@[grind ←] theorem keeps_dropValue (hr : run.Keeps) (k : Value) {xs : Value} (hxs : Below n xs) :
    Keeps n (dropValue run k xs) := by
  unfold dropValue; grind

/-! ## Plain values -/

@[grind ←] theorem keeps_pairOf (hr : run.Keeps) (index : Nat) {entry : Value} (h : Below n entry) :
    Keeps n (pairOf run index entry) := by
  unfold pairOf; grind

@[grind ←] theorem keeps_putEntries (hr : run.Keeps) {entries : List Value} (hentries : Below n entries)
    {dict : Entries Value Value} (hdict : Below n dict) (index : Nat) :
    Keeps n (putEntries run dict index entries) := by
  induction entries generalizing n dict index with
  | nil => exact keeps_pure hdict
  | cons entry entries ih => unfold putEntries; grind

@[grind ←] theorem keeps_sum {values : List Value} (h : Below n values) : Keeps n (sum values) := by
  refine keeps_bind (keeps_mapM h fun v m _ _ => ?_) fun numbers _ _ _ => keeps_pure (below_of_isLeaf trivial)
  split
  · exact keeps_pure trivial
  · exact keeps_raise _

@[grind ←] theorem keeps_repetitions (count : Value) : Keeps n (repetitions count) := by unfold repetitions; grind

@[grind ←] theorem keeps_checkSize (items count : Nat) : Keeps n (checkSize items count) := by
  unfold checkSize; grind

@[grind ←] theorem keeps_repeatText (text : String) (count : Nat) : Keeps n (repeatText text count) := by
  unfold repeatText; grind

theorem below_flatten {items : List Value} (h : Below n items) (count : Nat) :
    Below n (List.replicate count items).flatten := fun v hv => by
  obtain ⟨l, hl, hv⟩ := List.mem_flatten.1 hv
  rw [List.eq_of_mem_replicate hl] at hv
  exact h v hv

@[grind ←] theorem keeps_repeatItems {items : List Value} (h : Below n items) (count : Nat) :
    Keeps n (repeatItems items count) := by
  refine keeps_bind (keeps_checkSize _ _) fun _ m hm _ => keeps_pure ?_
  split
  · exact below_listNil.2 trivial
  · exact below_flatten (h.mono hm) count

theorem keeps_repetition {sequence count : Value} (hs : Below n sequence) {x : Run Value}
    (h : repetition? sequence count = some x) : Keeps n x := by
  unfold repetition? at h
  split at h
  all_goals cases h
  all_goals grind

@[grind ←] theorem keeps_product {a b : Value} (ha : Below n a) (hb : Below n b) : Keeps n (product a b) := by
  unfold product
  split
  · exact keeps_pure (below_of_isLeaf trivial)
  · split
    · rename_i x hx
      rcases Option.or_eq_some_iff.1 hx with h | ⟨-, h⟩
      · exact keeps_repetition ha h
      · exact keeps_repetition hb h
    · grind

@[grind ←] theorem keeps_length (v : Value) : Keeps n (length v) := by unfold length; grind

/-! ## Errors -/

@[grind ←] theorem keeps_contextOf (hr : run.Keeps) {v : Value} (hv : Below n v) : Keeps n (contextOf run v) := by
  unfold contextOf; grind

@[grind ←] theorem keeps_buildFault (hr : run.Keeps) (kind : ErrorKind) {args : List Value} (h : Below n args) :
    Keeps n (buildFault run kind args) := by
  unfold buildFault; grind

@[grind ←] theorem keeps_kindOf (v : Value) : Keeps n (kindOf v) := by unfold kindOf; grind

@[grind ←] theorem keeps_variablesOf {v : Value} (hv : Below n v) : Keeps n (variablesOf v) := by
  unfold variablesOf; grind

@[grind ←] theorem keeps_spread (hr : run.Keeps) {v : Value} (hv : Below n v) : Keeps n (spread run v) := by
  unfold spread; grind

@[grind ←] theorem keeps_checkNames (names : List Value) : Keeps n (checkNames names) := by unfold checkNames; grind

@[grind ←] theorem keeps_addressText (vars : Entries Value Value) : Keeps n (addressText vars) := by
  unfold addressText; grind

theorem keepsIn_wordingOf (kind : ErrorKind) (builder : Value) :
    KeepsIn (fun _ w => ∀ vars m, Keeps m (w vars)) n (wordingOf kind builder) := by
  unfold wordingOf
  split
  · exact keepsIn_pure fun _ _ vars m => by grind
  · exact keepsIn_pure fun _ _ vars m => by grind
  · exact keepsIn_pure fun _ _ vars m => by grind
  · exact keepsIn_pure fun _ _ vars m => by grind
  · exact keepsIn_raise _
  · exact keepsIn_bind (keeps_typeName _) fun _ _ _ _ => keepsIn_raise _

end Run

theorem ErrorOp.keeps_apply (hr : run.Keeps) (o : ErrorOp) {args : List Value} (h : Below n args) :
    Keeps n (o.apply run args) := by
  unfold ErrorOp.apply
  split
  · grind
  · grind
  · refine keeps_bind (keeps_kindOf _) fun kind m _ _ => keepsIn_bind (keepsIn_wordingOf kind _) fun w m' _ hw => ?_
    show Keeps m' _
    grind
  · grind

/-! ## The families of operations -/

theorem ValueOp.keeps_apply (hr : run.Keeps) (o : ValueOp) {args : List Value} (h : Below n args) :
    Keeps n (o.apply run args) := by
  unfold ValueOp.apply
  split
  all_goals grind

@[grind ←] theorem HeapOp.keeps_close (v : Value) : Keeps n (HeapOp.apply.close v) := by
  unfold HeapOp.apply.close; grind

theorem below_samples {x : Consumer} (h : Below n x) : Below n x.samples := h

@[grind ←] theorem HeapOp.keeps_sample (hr : run.Keeps) (v : Value) : Keeps n (HeapOp.apply.sample run v) := by
  unfold HeapOp.apply.sample
  split
  · grind
  · exact keeps_bind (Consumer.keeps_find _) fun x _ _ hx => Cycle.keeps_callValue hr (below_samples hx)
  · grind

@[grind ←] theorem HeapOp.keeps_newHeap (flags : List Value) : KeepsHeap n (newHeap (HeapOp.apply.withFlags flags)) :=
  Run.keepsHeap_newHeap _ _ false

@[grind ←] theorem keeps_listOfNaturals (ks : List Nat) : Keeps n (list (ks.map fun k => .int (Int.ofNat k))) :=
  keeps_list fun v hv => by
    obtain ⟨k, -, rfl⟩ := List.mem_map.1 hv
    exact below_of_isLeaf trivial

@[grind ←] theorem keeps_pairs {roots : Entries Value Value} (h : Below n roots) :
    Keeps n (roots.mapM fun (name, v) => tuple [name, v]) :=
  keeps_mapM h fun (name, v) m _ hx => by
    have hx := below_pair.1 hx
    grind

theorem HeapOp.keeps_apply (hr : run.Keeps) (o : HeapOp) {args : List Value} (h : Below n args) :
    Keeps n (o.apply run args) := by
  unfold HeapOp.apply
  split
  case h_9 =>
    exact keeps_bindHeap (keepsHeap_heapAmong _ h) fun g _ _ _ => keeps_bind keeps_get fun s _ _ hs =>
      keeps_bind (keeps_pairs (below_roots hs g)) fun _ _ _ hpairs => keeps_list hpairs
  case h_10 =>
    exact keeps_bindHeap (keepsHeap_heapAmong _ h) fun g _ _ _ => keeps_bind (keeps_reachable g) fun _ _ _ _ =>
      keeps_listOfNaturals _
  case h_16 =>
    exact keeps_bindHeap (keepsHeap_heapAmong _ h) fun g _ _ _ => keeps_bind keeps_get fun s _ _ _ =>
      keeps_listOfNaturals _
  all_goals grind

@[grind ←] theorem Run.keeps_cellsOf {v : Value} (hv : Below n v) : Keeps n (cellsOf v) := by
  have hrefs := below_refs hv
  unfold cellsOf
  split
  · exact keeps_bind keeps_get fun s _ _ hs => keeps_pure (below_stateRefs (hs.states _))
  all_goals grind

theorem CellOp.keeps_apply (hr : run.Keeps) (o : CellOp) {args : List Value} (h : Below n args) :
    Keeps n (o.apply p run args) := by
  have hrefs := fun v => below_refs (n := n) (v := v)
  unfold CellOp.apply
  split
  all_goals grind

@[grind ←] theorem Run.keeps_headField {v : Value} (hv : Below n v) : Keeps n (headField v) := by
  unfold headField
  split
  · grind
  · exact keeps_bind keeps_get fun s _ _ hs => keeps_pure (hs.reports _)
  · grind

theorem ListOp.keeps_apply (hr : run.Keeps) (o : ListOp) {args : List Value} (h : Below n args) :
    Keeps n (o.apply p run args) := by
  unfold ListOp.apply Value.listEnd
  split
  all_goals grind

theorem CycleOp.keeps_apply (hr : run.Keeps) (o : CycleOp) {args : List Value} (h : Below n args) :
    Keeps n (o.apply p run args) := by
  unfold CycleOp.apply; grind

@[grind ←] theorem Run.keeps_newReport {r : Report} (hr : Below n r) : Keeps n (newReport r) :=
  keeps_modifyGet (fun s => .newReport s r) fun _ hn hs =>
    ⟨Nat.le_refl _, Store.BelowIn.pushReport hs (hr.mono hn), below_of_isLeaf trivial⟩

@[grind ←] theorem Run.keeps_askHead (hr : run.Keeps) {v : Value} (hv : Below n v) : Keeps n (askHead run v) := by
  unfold askHead; grind

theorem DemandOp.keeps_apply (hr : run.Keeps) (o : DemandOp) {args : List Value} (h : Below n args) :
    Keeps n (o.apply run args) := by
  unfold DemandOp.apply
  split
  case h_9 d lo hi k options =>
    refine keeps_bind (keeps_disciplineOf _) fun d m hm _ => ?_
    have hsamples : Below m (options[1]?.getD (.bool true)) := by grind
    exact keeps_bind (Scenario.keeps_report hr (by grind) (by grind) hsamples d) fun _ _ _ hr => keeps_newReport hr
  case h_10 d x live peak created forced options =>
    refine keeps_bind (keeps_disciplineOf _) fun d m hm _ => ?_
    have hsamples : Below m (options[0]?.getD .unit) := by unfold Value.unit; grind
    have hx : Below m x := by grind
    exact keeps_bind (Iterator.keeps_items hr hsamples) fun _ _ hm' _ => keeps_newReport (hx.mono hm' : Below _ x)
  all_goals grind

theorem Builtin.keeps_apply (hr : run.Keeps) (b : Builtin) {args : List Value} (h : Below n args) :
    Keeps n (b.apply run args) := by
  unfold Builtin.apply; grind

/-! ## Expressions -/

theorem Operation.keeps_apply (hr : run.Keeps) (o : Operation) {args : List Value} (h : Below n args) :
    Keeps n (o.apply p run args) := by
  cases o with
  | value o => exact o.keeps_apply hr h
  | heap o => exact o.keeps_apply hr h
  | cell o => exact o.keeps_apply hr h
  | list o => exact o.keeps_apply hr h
  | cycle o => exact o.keeps_apply hr h
  | demand o => exact o.keeps_apply hr h
  | error o => exact o.keeps_apply hr h

namespace Run

@[grind ←] theorem keeps_valueOf (name : String) : Keeps n (valueOf name) := by
  refine keeps_bind keeps_get fun s m _ hs => ?_
  have hbindings : Below m s.bindings := hs.bindings
  grind

theorem keeps_assign (name : String) {v : Value} (hv : Below n v) : Keeps n (assign name v) :=
  keeps_modify (fun s => .assigned s _) fun _ hn hs => ⟨Nat.le_refl _, Store.BelowIn.assign hs (hv.mono hn)⟩

@[grind ←] theorem keeps_argumentAt {args : List Value} (h : Below n args) (i : Int) : Keeps n (argumentAt args i) := by
  have hmem := fun (k : Nat) v (hk : args[k]? = some v) => h v (List.mem_of_getElem? hk)
  unfold argumentAt; grind

theorem keeps_timesOnto {body : Run Value} (hb : Keeps n body) (count i : Nat) {values : List Value}
    (h : Below n values) : Keeps n (timesOnto body count i values) := by
  induction count generalizing n i values with
  | zero => exact keeps_pure (below_reverse.2 h)
  | succ count ih =>
    refine keeps_bind (keeps_assign "i" (below_of_isLeaf trivial)) fun _ m hm _ => ?_
    refine keeps_bind (hb.mono hm) fun v m' hm' hv => ?_
    have hover : n ≤ m' := Nat.le_trans hm hm'
    exact ih (hb.mono hover) (i + 1) (below_listCons.2 ⟨hv, h.mono hover⟩)

end Run

mutual
/-- No heap is named in the expression. -/
def Expr.Plain : Expr → Prop
  | .constant v => Below 0 v
  | .lookup _ | .argument _ | .argumentAt _ | .unreadable _ => True
  | .assign _ e | .caught e => e.Plain
  | .choose condition yes no => condition.Plain ∧ yes.Plain ∧ no.Plain
  | .recover e handler => e.Plain ∧ handler.Plain
  | .times count e => count.Plain ∧ e.Plain
  | .apply _ es => Expr.AllPlain es
/-- No heap is named in any of the expressions. -/
def Expr.AllPlain : List Expr → Prop
  | [] => True
  | e :: es => e.Plain ∧ Expr.AllPlain es
end

/-- No heap is named in the program. -/
def Program.Plain (p : Program) : Prop := ∀ name d, p.definition? name = some d → d.body.Plain

mutual
/-- **Evaluating a plain expression keeps the store grounded.** -/
theorem Expr.keeps_eval (hr : run.Keeps) {args : List Value} (hargs : Below n args) :
    ∀ {e : Expr}, e.Plain → Keeps n (e.eval p run args)
  | .constant v, he => by unfold Expr.eval; exact keeps_pure (Below.mono (a := v) he (Nat.zero_le n))
  | .lookup name, _ => by unfold Expr.eval; exact keeps_valueOf name
  | .assign name e, he => by
    unfold Expr.eval
    exact keeps_bind (Expr.keeps_eval hr hargs (e := e) he) fun v _ _ hv => keeps_bind (keeps_assign name hv)
      fun _ _ hm _ => keeps_pure (hv.mono hm)
  | .argument i, _ => by unfold Expr.eval; exact keeps_argumentAt hargs i
  | .argumentAt type, _ => by unfold Expr.eval; exact keeps_raise _
  | .choose condition yes no, he => by
    have hc := Expr.keeps_eval hr hargs he.1
    have hy := fun m => (Expr.keeps_eval hr hargs he.2.1).mono (m := m)
    have hn := fun m => (Expr.keeps_eval hr hargs he.2.2).mono (m := m)
    unfold Expr.eval; grind
  | .recover e handler, he => by
    have hx := Expr.keeps_eval hr hargs he.1
    have hh := fun m => (Expr.keeps_eval hr hargs he.2).mono (m := m)
    unfold Expr.eval; grind
  | .caught e, he => by
    have he := Expr.keeps_eval hr hargs (e := e) he
    unfold Expr.eval; grind
  | .times count e, he => by
    have hc := Expr.keeps_eval hr hargs he.1
    have hb := fun m (hm : n ≤ m) => (Expr.keeps_eval hr hargs he.2).mono hm
    unfold Expr.eval
    exact keeps_bind hc fun _ _ hm _ => keeps_bind (keeps_integerOf _) fun k _ hm' _ =>
      keeps_bind (keeps_timesOnto (hb _ (Nat.le_trans hm hm')) _ 0 (below_listNil.2 trivial)) fun _ _ _ h => keeps_list h
  | .apply o es, he => by
    unfold Expr.eval
    have hes : Keeps n (evalAll p run args es) := Expr.keeps_evalAll hr hargs he
    exact keeps_bind hes fun _ _ _ h => o.keeps_apply hr h
  | .unreadable word, _ => by unfold Expr.eval; exact keeps_raise _

theorem Expr.keeps_evalAll (hr : run.Keeps) {args : List Value} (hargs : Below n args) :
    ∀ {es : List Expr}, Expr.AllPlain es → Keeps n (evalAll p run args es)
  | [], _ => by unfold Expr.evalAll; exact keeps_pure (below_listNil.2 trivial)
  | e :: es, h => by
    have he := Expr.keeps_eval hr hargs h.1
    have hes := fun m => (Expr.keeps_evalAll hr hargs h.2).mono (m := m)
    unfold Expr.evalAll; grind
end

theorem Function.keeps_call (hp : p.Plain) (hr : run.Keeps) (f : Function) {args : List Value} (h : Below n args) :
    Keeps n (f.call p run args) := by
  unfold Function.call
  split
  · exact Builtin.keeps_apply hr _ h
  · split
    · next d hd => exact Expr.keeps_eval hr h (hp _ d hd)
    · exact keeps_raise _

theorem Thunk.keeps_produce (hp : p.Plain) (hr : run.Keeps) {t : Thunk} (h : Below n t) : Keeps n (t.produce p run) := by
  cases t with
  | call f args => exact f.keeps_call hp hr h
  | _ => unfold Thunk.produce; grind

/-- **A plain program's thunks keep the store grounded**, however deep they may nest. -/
theorem Program.keeps_runAt (hp : p.Plain) : ∀ depth : Nat, (p.runAt depth).Keeps
  | 0, _, _, _, _ => ⟨throw .tooDeep, keeps_tooDeep, rfl⟩
  | depth + 1, _, _, t, h => ⟨t.produce p (p.runAt depth), Thunk.keeps_produce hp (keeps_runAt hp depth) h, rfl⟩

/-! ## What is read from forms -/

theorem Expr.plain_ofText (s : String) : (ofText s).Plain := by
  unfold ofText
  split
  · exact trivial
  · exact below_of_isLeaf trivial

theorem Expr.plain_argumentOf (f : Form) : (argumentOf f).Plain := by cases f <;> exact trivial

mutual
/-- **What is read from a form is plain**: no form stands for a heap. -/
theorem Expr.plain_ofForm (f : Form) : (ofForm f).Plain := by
  unfold ofForm
  split
  · exact below_of_isLeaf (v := .null) trivial
  · exact below_of_isLeaf (v := .bool _) trivial
  · exact below_of_isLeaf (v := .int _) trivial
  · exact Expr.plain_ofText _
  · next name e => exact Expr.plain_ofForm e
  · exact Expr.plain_argumentOf _
  · exact below_of_isLeaf (v := .str _) trivial
  · next c a b => exact ⟨Expr.plain_ofForm c, Expr.plain_ofForm a, Expr.plain_ofForm b⟩
  · next e handler => exact ⟨Expr.plain_ofForm e, Expr.plain_ofForm handler⟩
  · next e => exact Expr.plain_ofForm e
  · next count e => exact ⟨Expr.plain_ofForm count, Expr.plain_ofForm e⟩
  · next w items _ _ _ _ _ _ _ =>
    split
    · exact Expr.plain_ofForms items
    · exact trivial
  · exact trivial
theorem Expr.plain_ofForms : ∀ fs : List Form, Expr.AllPlain (ofForms fs)
  | [] => trivial
  | f :: fs => ⟨Expr.plain_ofForm f, Expr.plain_ofForms fs⟩
end

theorem Program.plain_of_bodies (h : ∀ x ∈ p, x.2.body.Plain) : p.Plain := by
  intro name d hd
  obtain ⟨x, hx, rfl⟩ := Option.map_eq_some_iff.1 hd
  exact h x (List.mem_of_find?_eq_some hx)

/-! ## Sessions -/

namespace Store
variable {s e : Store}

/-- Some runs, with no heap active before it is there, pass through this store. -/
def Attained (s : Store) : Prop := ∃ k, Moment.Proceeds ⟨{}, []⟩ ⟨s, k⟩

theorem Attained.after (hs : s.Attained) (h : GoesInto s e) : e.Attained := by
  obtain ⟨k, hk⟩ := hs
  obtain ⟨more, hm⟩ := h.path k
  exact ⟨more ++ k, hk.trans hm⟩

/-- A computation that keeps stores grounded leads from a store that is attained to another. -/
theorem Attained.of_keeps {α : Type} {q : Nat → α → Prop} {x : Run α} (hs : s.Attained) (hgrounded : s.Grounded)
    (hx : Run.KeepsIn q s.heaps.size x) : (Run.finalStore (x s)).Attained ∧ (Run.finalStore (x s)).Grounded := by
  have hinto := (hx s (Nat.le_refl _) hgrounded).into
  exact ⟨hs.after hinto, hinto.grounded⟩

theorem grounded_empty : Grounded {} where
  active _ h := by cases h
  heaps _ := ⟨fun _ h => (List.not_mem_nil h).elim, below_listNil.2 trivial⟩
  states _ := below_of_isLeaf (v := .null) trivial
  cursors _ := trivial
  consumers _ := below_none.2 trivial
  reports _ := below_of_isLeaf (v := .null) trivial
  bindings := below_listNil.2 trivial

end Store

namespace Session

theorem goesInto_step (hp : p.Plain) {s : Store} (hs : s.Grounded) {e : Expr} (he : e.Plain) :
    Store.GoesInto s (step p s e).store := by
  have hlogged : Store.Goes s { s with events := [] } := .of_step (.logged s []) (Nat.le_refl _) { hs with }
  have hr := Expr.keeps_eval (p := p) (Program.keeps_runAt hp depthLimit) (below_listNil.2 trivial) he
    { s with events := [] } (Nat.zero_le _) hlogged.grounded
  unfold step Program.run
  match e.eval p (p.runAt depthLimit) [] { s with events := [] }, hr with
  | .ok v m, hr => exact (hlogged.trans hr.1).into
  | .error (.raised x) m, hr => exact (hlogged.trans hr).into
  | .error .tooDeep m, hr => exact Store.GoesInto.after hlogged hr

theorem attained_of_mem_stepsFrom (hp : p.Plain) {es : List Expr} (hes : ∀ e ∈ es, e.Plain) {s : Store}
    (hs : s.Attained) (hgrounded : s.Grounded) {o : Outcome} (ho : o ∈ stepsFrom p s es) : o.store.Attained := by
  induction es generalizing s with
  | nil => cases ho
  | cons e es ih =>
    obtain ⟨he, hes⟩ := List.forall_mem_cons.1 hes
    have hstep := goesInto_step hp hgrounded he
    rcases List.mem_cons.1 ho with rfl | ho
    · exact hs.after hstep
    · exact ih hes (hs.after hstep) hstep.grounded ho

/-- **Every store that a session of a plain program comes to is attained with no heap active before it is there.** -/
theorem attained_of_mem (hp : p.Plain) {es : List Expr} (hes : ∀ e ∈ es, e.Plain) {o : Outcome}
    (ho : o ∈ Session.run p es) : o.store.Attained :=
  attained_of_mem_stepsFrom hp hes ⟨[], .refl⟩ Store.grounded_empty ho

end Session
end Retention
