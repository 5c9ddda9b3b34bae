import Retention.Program.Session
import Retention.Proofs.ComposingLists
/-!
# ComposingProgram — what evaluations are put together with

One lemma for each family of operations of the program language, and from them, by induction on the expression,
`Expr.composed_eval`: whatever expression is evaluated, it is put together of silent changes, samples, forces and calls.
So is what a thunk does (`Thunk.composed_produce`).
-/
namespace Retention

open Run

variable {p : Program} {run : Runner}

/-! ## Arguments -/

namespace Run

@[grind ←] theorem composed_wrongCount {α : Type} (o : Operation) : Composed run (wrongCount o : Run α) := composed_raise _

@[grind ←] theorem composed_heapOf (attr : String) (v : Value) : Composed run (heapOf attr v) := by unfold heapOf; grind

@[grind ←] theorem composed_heapOr (args : List Value) : Composed run (heapOr args) := by unfold heapOr; grind

@[grind ←] theorem composed_heapAmong (attr : String) (args : List Value) : Composed run (heapAmong attr args) := by
  unfold heapAmong; grind

@[grind ←] theorem composed_consumerOf (attr : String) (v : Value) : Composed run (consumerOf attr v) := by
  unfold consumerOf; grind

@[grind ←] theorem composed_iteratorOf (v : Value) : Composed run (iteratorOf v) := by unfold iteratorOf; grind

@[grind ←] theorem composed_disciplineOf (v : Value) : Composed run (disciplineOf v) := by unfold disciplineOf; grind

@[grind ←] theorem composed_unknown {α : Type} (name : Value) : Composed run (unknown name : Run α) := by
  unfold unknown; grind

@[grind ←] theorem composed_functionOf (v : Value) : Composed run (functionOf p v) := by unfold functionOf; grind

@[grind ←] theorem composed_readInteger (v : Value) : Composed run (readInteger v) := by unfold readInteger; grind

@[grind ←] theorem composed_takeBoundOf (v : Value) : Composed run (takeBoundOf v) := by unfold takeBoundOf; grind

@[grind ←] theorem composed_takeList (n xs : Value) : Composed run (takeList run n xs) := by
  unfold takeList; grind

@[grind ←] theorem composed_dropValue (n xs : Value) : Composed run (dropValue run n xs) := by
  unfold dropValue; grind

/-! ## Plain values -/

@[grind ←] theorem composed_pairOf (index : Nat) (entry : Value) :
    Composed run (pairOf run index entry) := by
  unfold pairOf; grind

@[grind ←] theorem composed_putEntries :
    ∀ (entries : List Value) (dict : Entries Value Value) (index : Nat), Composed run (putEntries run dict index entries)
  | [], dict, index => composed_pure dict
  | entry :: entries, dict, index => by
    have ih := composed_putEntries entries
    unfold putEntries; grind

@[grind ←] theorem composed_sum (values : List Value) : Composed run (sum values) := by
  refine composed_bind (composed_mapM (fun v => ?_) values) fun numbers => composed_pure _
  split
  · exact composed_pure _
  · exact composed_raise _

@[grind ←] theorem composed_repetitions (count : Value) : Composed run (repetitions count) := by unfold repetitions; grind

@[grind ←] theorem composed_checkSize (items count : Nat) : Composed run (checkSize items count) := by
  unfold checkSize; grind

@[grind ←] theorem composed_repeatText (text : String) (count : Nat) : Composed run (repeatText text count) := by
  unfold repeatText; grind

@[grind ←] theorem composed_repeatItems (items : List Value) (count : Nat) : Composed run (repeatItems items count) := by
  unfold repeatItems; grind

theorem composed_repetition {sequence count : Value} {x : Run Value} (h : repetition? sequence count = some x) :
    Composed run x := by
  unfold repetition? at h
  split at h
  all_goals cases h
  all_goals grind

@[grind ←] theorem composed_product (a b : Value) : Composed run (product a b) := by
  unfold product
  split
  · exact composed_pure _
  · split
    · rename_i x hx
      rcases Option.or_eq_some_iff.1 hx with h | ⟨-, h⟩
      · exact composed_repetition h
      · exact composed_repetition h
    · grind

@[grind ←] theorem composed_length (v : Value) : Composed run (length v) := by unfold length; grind

/-! ## Errors -/

@[grind ←] theorem composed_contextOf (v : Value) : Composed run (contextOf run v) := by
  unfold contextOf; grind

@[grind ←] theorem composed_buildFault (kind : ErrorKind) (args : List Value) :
    Composed run (buildFault run kind args) := by
  unfold buildFault; grind

@[grind ←] theorem composed_kindOf (v : Value) : Composed run (kindOf v) := by unfold kindOf; grind

@[grind ←] theorem composed_variablesOf (v : Value) : Composed run (variablesOf v) := by unfold variablesOf; grind

@[grind ←] theorem composed_spread (v : Value) : Composed run (spread run v) := by unfold spread; grind

@[grind ←] theorem composed_checkNames (names : List Value) : Composed run (checkNames names) := by unfold checkNames; grind

@[grind ←] theorem composed_addressText (vars : Entries Value Value) : Composed run (addressText vars) := by
  unfold addressText; grind

@[grind ←] theorem composed_wordingOf (kind : ErrorKind) (builder : Value) : Composed run (wordingOf kind builder) := by
  unfold wordingOf; grind

theorem composed_of_wordingOf {kind : ErrorKind} {builder : Value} {s m : Store} {w : Entries Value Value → Run String}
    (h : wordingOf kind builder s = .ok w m) (vars : Entries Value Value) : Composed run (w vars) := by
  unfold wordingOf at h
  split at h
  all_goals cases h
  all_goals grind

end Run

theorem ErrorOp.composed_apply (o : ErrorOp) (args : List Value) : Composed run (o.apply run args) := by
  unfold ErrorOp.apply
  split
  · grind
  · grind
  · rename_i kind builder args vars
    refine composed_bind (composed_kindOf kind) fun kind => .bind (composed_wordingOf kind builder) fun w s m hw => ?_
    have hwording : ∀ vars, Composed run (w vars) := composed_of_wordingOf hw
    grind
  · grind

/-! ## The families of operations -/

theorem ValueOp.composed_apply (o : ValueOp) (args : List Value) : Composed run (o.apply run args) := by
  unfold ValueOp.apply; grind

@[grind ←] theorem HeapOp.composed_close (v : Value) : Composed run (HeapOp.apply.close v) := by
  unfold HeapOp.apply.close; grind

@[grind ←] theorem HeapOp.composed_sample (v : Value) : Composed run (HeapOp.apply.sample run v) := by
  unfold HeapOp.apply.sample; grind

@[grind ←] theorem HeapOp.composed_newHeap (flags : List Value) : Composed run (newHeap (HeapOp.apply.withFlags flags)) :=
  Run.composed_newHeap _ _ false

theorem HeapOp.composed_apply (o : HeapOp) (args : List Value) : Composed run (o.apply run args) := by
  unfold HeapOp.apply; grind

@[grind ←] theorem Run.composed_cellsOf (v : Value) : Composed run (cellsOf v) := by unfold cellsOf; grind

theorem CellOp.composed_apply (o : CellOp) (args : List Value) : Composed run (o.apply p run args) := by
  unfold CellOp.apply; grind

@[grind ←] theorem Run.composed_headField (v : Value) : Composed run (headField v) := by unfold headField; grind

theorem ListOp.composed_apply (o : ListOp) (args : List Value) : Composed run (o.apply p run args) := by
  unfold ListOp.apply; grind

theorem CycleOp.composed_apply (o : CycleOp) (args : List Value) : Composed run (o.apply p run args) := by
  unfold CycleOp.apply; grind

@[grind ←] theorem Run.composed_newReport (r : Report) : Composed run (newReport r) :=
  composed_modifyGet fun s => .of_step (.newReport s r) rfl (Nat.le_refl _)

@[grind ←] theorem Run.composed_askHead (v : Value) : Composed run (askHead run v) := by
  unfold askHead; grind

theorem DemandOp.composed_apply (o : DemandOp) (args : List Value) : Composed run (o.apply run args) := by
  unfold DemandOp.apply; grind

theorem Builtin.composed_apply (b : Builtin) (args : List Value) : Composed run (b.apply run args) := by
  unfold Builtin.apply; grind

/-! ## Expressions -/

theorem Operation.composed_apply (o : Operation) (args : List Value) :
    Composed run (o.apply p run args) := by
  cases o with
  | value o => exact o.composed_apply args
  | heap o => exact o.composed_apply args
  | cell o => exact o.composed_apply args
  | list o => exact o.composed_apply args
  | cycle o => exact o.composed_apply args
  | demand o => exact o.composed_apply args
  | error o => exact o.composed_apply args

namespace Run

@[grind ←] theorem composed_valueOf (name : String) : Composed run (valueOf name) := by unfold valueOf; grind

theorem composed_assign (name : String) (v : Value) : Composed run (assign name v) :=
  composed_modify fun s => .of_step (.assigned s _) rfl (Nat.le_refl _)

@[grind ←] theorem composed_argumentAt (args : List Value) (i : Int) : Composed run (argumentAt args i) := by
  unfold argumentAt; grind

theorem composed_timesOnto {body : Run Value} (hb : Composed run body) :
    ∀ (count i : Nat) (values : List Value), Composed run (timesOnto body count i values)
  | 0, _, values => composed_pure values.reverse
  | count + 1, i, values =>
    composed_bind (composed_assign "i" _) fun _ => composed_bind hb fun v => composed_timesOnto hb count (i + 1) (v :: values)

end Run

mutual
/-- **Evaluating an expression is put together of silent changes, samples, forces and calls**, whatever the expression. -/
theorem Expr.composed_eval (args : List Value) : ∀ e : Expr, Composed run (e.eval p run args)
  | .constant v => by unfold Expr.eval; exact composed_pure v
  | .lookup name => by unfold Expr.eval; exact composed_valueOf name
  | .assign name e => by
    unfold Expr.eval
    exact composed_bind (e.composed_eval args) fun v => composed_bind (composed_assign name v) fun _ => composed_pure v
  | .argument i => by unfold Expr.eval; exact composed_argumentAt args i
  | .argumentAt type => by unfold Expr.eval; exact composed_raise _
  | .choose condition yes no => by
    have hc := condition.composed_eval args
    have hy := yes.composed_eval args
    have hn := no.composed_eval args
    unfold Expr.eval; grind
  | .recover e handler => by
    have he := e.composed_eval args
    have hh := handler.composed_eval args
    unfold Expr.eval; grind
  | .caught e => by
    have he := e.composed_eval args
    unfold Expr.eval; grind
  | .times count e => by
    have hc := count.composed_eval args
    have he := composed_timesOnto (e.composed_eval args)
    unfold Expr.eval; grind
  | .apply o es => by
    unfold Expr.eval
    exact composed_bind (Expr.composed_evalAll args es) fun args => o.composed_apply args
  | .unreadable word => by unfold Expr.eval; exact composed_raise _

theorem Expr.composed_evalAll (args : List Value) : ∀ es : List Expr, Composed run (evalAll p run args es)
  | [] => by unfold Expr.evalAll; exact composed_pure []
  | e :: es => by
    have he := e.composed_eval args
    have hes := Expr.composed_evalAll args es
    unfold Expr.evalAll; grind
end

theorem Function.composed_call (f : Function) (args : List Value) : Composed run (f.call p run args) := by
  unfold Function.call
  split
  · exact Builtin.composed_apply _ args
  · split
    · exact Expr.composed_eval args _
    · exact composed_raise _

theorem Thunk.composed_produce (t : Thunk) : Composed run (t.produce p run) := by
  cases t with
  | call f args => exact f.composed_call args
  | _ => unfold Thunk.produce; grind

end Retention
