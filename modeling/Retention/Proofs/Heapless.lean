import Retention.Proofs.Taking
/-!
# Heapless — what is done while no heap is active

What forces cells or makes them needs an active heap only when it comes to a cell that waits, or when it has all that
the new cell is to hold.  Up to there it looks at the cells and changes nothing.  So without a heap it either never gets
so far, and then comes to the same whichever heap is active; or it raises an error at this very point, and all that has
changed is that some numbers are spent: on this error, on a tag, on an iterator (`Store.Spends`).

That is told by the way in which a computation begins (`Run.Looks`): it gives a value or raises an error and needs no
heap, or it is a force of a certain cell that waits, and then whatever follows.  What follows may do what it likes.
-/
namespace Retention

open Run (finalStore attempt)

namespace Store

/-- The store with this heap active, or with none. -/
def under (s : Store) (active : Option HeapId) : Store := { s with active }

/-- The store after so many tags were given, and these iterators made. -/
def spend (s : Store) (tags : Nat) (made : Array Iterator) : Store :=
  { s with nextTag := s.nextTag + tags, iterators := s.iterators ++ made }

/-- All that happened is that tags were given, and errors and iterators were added. -/
def Spends (s e : Store) : Prop := ∃ tags made raised, e = { s.spend tags made with faults := s.faults ++ raised }

theorem spend_zero (s : Store) : s.spend 0 #[] = s := by
  rw [spend, Array.append_empty, Nat.add_zero]

theorem Spends.of_faults (s : Store) (raised : Array Raised) : s.Spends { s with faults := s.faults ++ raised } :=
  ⟨0, #[], raised, by rw [spend_zero]⟩

theorem Spends.refl (s : Store) : s.Spends s := by
  have h := Spends.of_faults s #[]
  rwa [Array.append_empty] at h

theorem typeName_under (s : Store) (active : Option HeapId) (v : Value) : (s.under active).typeName v = s.typeName v := by
  cases v <;> rfl

end Store

namespace Run
variable {α β : Type} {s : Store}

/-- The same result with this heap active, or with none. -/
def under (active : Option HeapId) : EStateM.Result Halt Store α → EStateM.Result Halt Store α
  | .ok a e => .ok a (e.under active)
  | .error halt e => .error halt (e.under active)

/-! ## How computations begin -/

/-- A computation raises an error before it needs a heap. -/
def Raises (x : Runner → Run α) (s : Store) : Prop := ∃ z raised, ∀ run active,
  x run (s.under active) = .error (.raised z) { s.under active with faults := s.faults ++ raised }

/-- How a computation begins, by the cells and reports of a store: it gives a value without changing anything, or raises an
error; or it is a force of a cell that waits, and what follows raises the error of this force again, unless the
error is the end of an iterator. -/
inductive Looks (x : Runner → Run α) (s : Store) : Prop
  | gives (a : α) (h : ∀ run (m : Store), m.cells = s.cells → m.reports = s.reports → x run m = .ok a m)
  | raises (h : Raises x s)
  | forces (c : CellId) (t : Thunk) (rest : Runner → Except FaultId Value → Run α) (waits : s.state c = .suspended t)
    (h : ∀ run (m : Store), m.cells = s.cells → m.reports = s.reports →
      x run m = (attempt (force run c) >>= rest run) m)
    (passes : ∀ run z (m : Store), (m.faults[z]?.map (·.cause.kind)) ≠ some .stopIteration →
      rest run (.error z) m = .error (.raised z) m)

theorem raises_of_eq {x : Runner → Run α} (context : List Value) (cause : Fault)
    (h : ∀ run active, x run (s.under active) = raiseIn context cause (s.under active)) : Raises x s :=
  ⟨s.faults.size, #[⟨cause, context⟩], fun run active => by
    rw [h, Array.append_singleton]
    rfl⟩

theorem raises_raise (cause : Fault) : Raises (fun _ => (raise cause : Run α)) s := raises_of_eq [] cause fun _ _ => rfl

theorem raises_lacks (v : Value) (attr : String) : Raises (fun _ => (lacks v attr : Run α)) s := by
  refine raises_of_eq [] (.noAttribute (s.typeName v) attr) fun _ active => ?_
  rw [← s.typeName_under active v]
  rfl

/-- What comes after an error does not matter. -/
theorem Raises.bind {x : Runner → Run α} (h : Raises x s) (f : Runner → α → Run β) :
    Raises (fun run => x run >>= f run) s := by
  obtain ⟨z, raised, h⟩ := h
  exact ⟨z, raised, fun run active => bind_error (h run active)⟩

theorem Raises.of_gives {x : Runner → Run α} {f : Runner → α → Run β} {a : α}
    (hx : ∀ run active, x run (s.under active) = .ok a (s.under active)) (hf : Raises (fun run => f run a) s) :
    Raises (fun run => x run >>= f run) s := by
  obtain ⟨z, raised, h⟩ := hf
  exact ⟨z, raised, fun run active => (bind_ok (hx run active)).trans (h run active)⟩

theorem looks_pure (a : α) : Looks (fun _ => pure a) s := .gives a fun _ _ _ _ => rfl

theorem looks_raise (cause : Fault) : Looks (fun _ => (raise cause : Run α)) s := .raises (raises_raise cause)

theorem looks_lacks (v : Value) (attr : String) : Looks (fun _ => (lacks v attr : Run α)) s := .raises (raises_lacks v attr)

theorem Looks.congr {x y : Runner → Run α} (hy : Looks y s)
    (h : ∀ run (m : Store), m.cells = s.cells → m.reports = s.reports → x run m = y run m) : Looks x s := by
  cases hy with
  | gives a hy => exact .gives a fun run m hcells hreports => (h run m hcells hreports).trans (hy run m hcells hreports)
  | raises hy =>
    obtain ⟨z, raised, hy⟩ := hy
    exact .raises ⟨z, raised, fun run active => (h run (s.under active) rfl rfl).trans (hy run active)⟩
  | forces c t rest waits hy passes =>
    exact .forces c t rest waits (fun run m hcells hreports =>
      (h run m hcells hreports).trans (hy run m hcells hreports)) passes

/-- **Two computations that begin like this begin like this when one follows the other.** -/
theorem Looks.bind {x : Runner → Run α} {f : Runner → α → Run β} (hx : Looks x s)
    (hf : ∀ a, Looks (fun run => f run a) s) : Looks (fun run => x run >>= f run) s := by
  cases hx with
  | gives a hx => exact (hf a).congr fun run m hcells hreports => bind_ok (hx run m hcells hreports)
  | raises hx => exact .raises (hx.bind f)
  | forces c t rest waits hx passes =>
    refine .forces c t (fun run r => rest run r >>= f run) waits (fun run m hcells hreports => ?_) fun run z m hkind => ?_
    · rw [← bind_assoc, bind_apply, hx run m hcells hreports, ← bind_apply]
    · exact bind_error (passes run z m hkind)

theorem looks_force (c : CellId) : Looks (fun run => force run c) s := by
  have hstate : ∀ {m : Store} {st : CellState}, m.cells = s.cells → s.state c = st → m.state c = st := fun hcells h =>
    (congrFun (Store.state_of_cells hcells) c).trans h
  cases hc : s.state c with
  | evaluated v => exact .gives v fun run m hcells _ => force_evaluated (hstate hcells hc) run
  | failed error =>
    refine .raises ?_
    have hforce : ∀ run active, force run c (s.under active) = raiseValue error (s.under active) := fun run active => by
      rw [force_apply, show (s.under active).state c = _ from hc]
    cases error with
    | fault z =>
      refine ⟨z, #[], fun run active => (hforce run active).trans ?_⟩
      rw [Array.append_empty]
      rfl
    | _ => exact raises_of_eq [] .notAnError hforce
  | inProgress t =>
    refine .raises (raises_of_eq [.cell c] (.reentrantForce (s.address c)) fun run active => ?_)
    rw [force_apply, show (s.under active).state c = _ from hc]
    rfl
  | suspended t =>
    refine .forces c t (fun _ r => MonadExcept.ofExcept (r.mapError .raised)) hc (fun run m _ _ => ?_)
      fun _ _ _ _ => rfl
    rw [bind_apply, attempt_apply]
    rcases force run c m with ⟨v, e⟩ | ⟨⟨z⟩ | -, e⟩ <;> rfl

theorem looks_cellOf (attr : String) (v : Value) : Looks (fun _ => cellOf attr v) s := by
  cases v with
  | cell c => exact looks_pure c
  | _ => exact looks_lacks _ attr

theorem looks_forceValue (v : Value) : Looks (fun run => forceValue run v) s :=
  (looks_cellOf "state" v).bind fun c => looks_force c

theorem looks_lengthBetween (lo hi : Value) : Looks (fun _ => lengthBetween lo hi) s := by
  unfold lengthBetween
  split
  · split
    · exact looks_pure _
    · exact looks_raise _
  · refine .raises (raises_of_eq [] (.operands "-" (s.typeName hi) (s.typeName lo)) fun _ active => ?_)
    rw [← s.typeName_under active hi, ← s.typeName_under active lo]
    rfl

theorem looks_truth (v : Value) : Looks (fun _ => truth v) s := by
  unfold truth
  split
  · exact looks_pure _
  · split
    · exact (looks_lengthBetween _ _).bind fun n => looks_pure _
    · exact looks_pure true

theorem looks_told (x : Except Fault α) : Looks (fun _ => told fun _ => x) s := by
  cases x with
  | ok a => exact .gives a fun _ _ _ _ => rfl
  | error cause => exact .raises (raises_of_eq [] cause fun _ _ => rfl)

theorem looks_takeBoundOf (n : Value) : Looks (fun _ => takeBoundOf n) s := by
  unfold takeBoundOf
  split
  · exact looks_pure _
  · split
    · split
      · exact looks_raise _
      · split
        · exact looks_pure _
        · exact looks_raise _
    · exact looks_raise _

/-- An item that is computed begins as its computation does, and errors that are passed on are passed on. -/
theorem Looks.guarded {x : Runner → Run α} (hx : Looks x s) : Looks (fun run => Iterator.guarded (x run)) s := by
  cases hx with
  | gives a hx =>
    refine .gives a fun run m hcells hreports => ?_
    rw [Iterator.guarded_apply, hx run m hcells hreports]
  | raises hx =>
    obtain ⟨z, raised, hx⟩ := hx
    by_cases hkind : ((s.faults ++ raised)[z]?.map (·.cause.kind)) = some .stopIteration
    · refine .raises ⟨(s.faults ++ raised).size, raised.push ⟨.exhaustedInside, []⟩, fun run active => ?_⟩
      show Iterator.guarded (x run) (s.under active) = _
      rw [Iterator.guarded_apply, hx run active]
      unfold Iterator.passed
      dsimp only
      rw [if_pos hkind, Array.append_push]
    · refine .raises ⟨z, raised, fun run active => ?_⟩
      show Iterator.guarded (x run) (s.under active) = _
      rw [Iterator.guarded_apply, hx run active]
      unfold Iterator.passed
      dsimp only
      rw [if_neg hkind]
  | forces c t rest waits hx passes =>
    refine .forces c t (fun run r => Iterator.guarded (rest run r)) waits (fun run m hcells hreports => ?_)
      fun run z m hkind => ?_
    · rw [Iterator.guarded_apply, hx run m hcells hreports, bind_apply, bind_apply, attempt_apply]
      rcases force run c m with ⟨v, e⟩ | ⟨⟨z⟩ | -, e⟩
      · exact (Iterator.guarded_apply _ _).symm
      · exact (Iterator.guarded_apply _ _).symm
      · rfl
    · rw [Iterator.guarded_apply, passes run z m hkind]
      unfold Iterator.passed
      dsimp only
      rw [if_neg hkind]

end Run

open Run (Looks)

/-! ## Lists -/

section Lists
variable {s : Store}

theorem Iterator.looks_listAt (place : Place) : Looks (fun _ => listAt place) s := by
  unfold listAt
  split
  · exact Run.looks_pure _
  · exact Run.looks_pure _
  · exact Run.looks_lacks _ _

theorem Iterator.looks_forceHead (node : Value) : Looks (fun run => forceHead run node) s := by
  unfold forceHead
  split
  · exact Run.looks_forceValue _
  · rename_i r
    refine (Run.looks_forceValue (s.reportAt r).head).congr fun run m _ hreports => ?_
    rw [Run.bind_ok (Run.get_apply m), Store.reportAt, Store.reportAt, hreports]
  · exact Run.looks_raise _
  · exact Run.looks_lacks _ _

theorem Iterator.looks_step (place : Place) : Looks (fun run => step run place) s := by
  refine (looks_listAt place).bind fun xs => (Run.looks_forceValue xs).bind fun node =>
    (Run.looks_truth node).bind fun b => ?_
  cases b with
  | false => exact Run.looks_pure _
  | true => exact (looks_forceHead node).bind fun v => Run.looks_pure _

namespace Sequence

theorem looks_takeOnto (n : Nat) (taken : List Value) (place : Place) : Looks (fun run => takeOnto run n taken place) s := by
  induction n generalizing taken place with
  | zero => exact Run.looks_pure _
  | succ n ih =>
    refine (Iterator.looks_step place).guarded.bind fun item => ?_
    cases item with
    | none => exact Run.looks_pure _
    | some item => exact ih (item.1 :: taken) item.2

theorem looks_dropSteps (n : Nat) (xs : Value) : Looks (fun run => dropSteps run n xs) s := by
  induction n generalizing xs with
  | zero => exact Run.looks_pure xs
  | succ n ih =>
    refine (Run.looks_forceValue xs).bind fun v => ?_
    cases v with
    | cons tag head tail => exact ih tail
    | _ => exact Run.looks_pure xs

theorem looks_drop (n : Int) (xs : Value) : Looks (fun run => drop run n xs) s := by
  unfold drop
  split
  · exact (Run.looks_told (integerText n)).bind fun text => Run.looks_raise _
  · exact looks_dropSteps n.toNat xs

theorem looks_head (xs : Value) : Looks (fun run => Sequence.head run xs) s := by
  refine (Run.looks_cellOf "state" xs).bind fun c => (Run.looks_force c).bind fun v => ?_
  cases v with
  | nil tag => exact .raises (Run.raises_of_eq [xs] (.noHead (s.address c)) fun _ _ => rfl)
  | cons tag head tail => exact Run.looks_pure head
  | _ => exact Run.looks_pure Value.null

end Sequence

theorem Run.looks_dropValue (n xs : Value) : Looks (fun run => dropValue run n xs) s := by
  unfold dropValue
  split
  · exact Sequence.looks_drop _ xs
  · refine .raises (raises_of_eq [] (.notOrdered "<" (s.typeName n) "int") fun _ active => ?_)
    rw [← s.typeName_under active n]
    rfl

end Lists

/-! ## Calls -/

namespace Run
variable {s : Store}

/-- How a call goes by what it needs a heap for: for nothing, and then it comes to the same whichever heap is active; for
a cell that waits; or for a new cell, which is registered in the active heap if there is one. -/
inductive Needs (x : Runner → Run Value) (s : Store) : Prop
  | quiet (result : EStateM.Result Halt Store Value) (spends : s.Spends (finalStore result))
    (h : ∀ run active, x run (s.under active) = under active result)
  | forces (c : CellId) (t : Thunk) (rest : Runner → Except FaultId Value → Run Value) (waits : s.state c = .suspended t)
    (h : ∀ run (m : Store), m.cells = s.cells → m.reports = s.reports →
      x run m = (attempt (force run c) >>= rest run) m)
    (passes : ∀ run z (m : Store), (m.faults[z]?.map (·.cause.kind)) ≠ some .stopIteration →
      rest run (.error z) m = .error (.raised z) m)
  | makes (new : CellId → Tag → IteratorId → CellState) (tags : Nat) (made : Array Iterator)
    (h : ∀ run (m : Store), x run m =
      (Value.cell <$> newCell (new m.cells.size m.nextTag m.iterators.size)) (m.spend tags made))

theorem Raises.needs {x : Runner → Run Value} (h : Raises x s) : Needs x s := by
  obtain ⟨z, raised, h⟩ := h
  exact .quiet (.error (.raised z) { s with faults := s.faults ++ raised }) (.of_faults s raised) h

theorem Looks.needs {x : Runner → Run Value} (h : Looks x s) : Needs x s := by
  cases h with
  | gives v h => exact .quiet (.ok v s) (.refl s) fun run active => h run (s.under active) rfl rfl
  | raises h => exact h.needs
  | forces c t rest waits h passes => exact .forces c t rest waits h passes

/-- The values that were taken are put into a new list at the end. -/
theorem needs_takeList (n xs : Value) : Needs (fun run => takeList run n xs) s := by
  have htake : Looks (fun run => do Sequence.take run (← takeBoundOf n) xs) s :=
    (looks_takeBoundOf n).bind fun n => Sequence.looks_takeOnto n [] (.before xs)
  have hlist : ∀ run m, takeList run n xs m = ((do Sequence.take run (← takeBoundOf n) xs) >>= list) m := fun run m => by
    rw [bind_assoc]
    rfl
  cases htake with
  | gives vs h =>
    refine .quiet (.ok (.list s.nextTag vs) (s.spend 1 #[])) ⟨1, #[], #[], by rw [Array.append_empty]; rfl⟩
      fun run active => ?_
    rw [hlist, bind_ok (h run (s.under active) rfl rfl)]
    unfold under Store.spend
    rw [Array.append_empty]
    rfl
  | raises h =>
    obtain ⟨z, raised, h⟩ := h.bind fun _ => list
    exact .quiet (.error (.raised z) { s with faults := s.faults ++ raised }) (.of_faults s raised) fun run active =>
      (hlist run _).trans (h run active)
  | forces c t rest waits h passes =>
    refine .forces c t (fun run r => rest run r >>= list) waits (fun run m hcells hreports => ?_) fun run z m hkind => ?_
    · rw [hlist, bind_apply, h run m hcells hreports, ← bind_apply, bind_assoc]
    · exact bind_error (passes run z m hkind)

theorem needs_wrongCount (o : Operation) : Needs (fun _ => wrongCount o) s := (raises_raise _).needs

/-- A new cell in a state that does not depend on the store. -/
theorem needs_newCell (st : CellState) : Needs (fun _ => do return .cell (← newCell st)) s :=
  .makes (fun _ _ _ => st) 0 #[] fun run m => by
    rw [m.spend_zero]
    rfl

theorem checkKey_apply (v : Value) (s : Store) : checkKey v s =
    match s.unhashable? v with
    | some type => raise (.unhashable type) s
    | none => .ok () s := by
  unfold checkKey
  rw [bind_ok (get_apply s)]
  cases s.unhashable? v <;> rfl

theorem raises_unknown {α : Type} (name : Value) : Raises (fun _ => (unknown name : Run α)) s := by
  have hkey : ∀ active, (s.under active).unhashable? name = s.unhashable? name := fun active =>
    Store.unhashable?_congr (show (s.under active).cells = s.cells from rfl) rfl name
  cases h : s.unhashable? name with
  | some type =>
    refine raises_of_eq [] (.unhashable type) fun _ active => bind_error ?_
    rw [checkKey_apply, hkey, h]
    rfl
  | none =>
    refine .of_gives (a := ()) (fun _ active => ?_) (raises_raise _)
    rw [checkKey_apply, hkey, h]

/-- Calls of a function that is named: there is such a function, or an error is raised. -/
theorem functionOf_cases (p : Program) (v : Value) :
    (∃ f, functionOf p v = pure f) ∨ functionOf p v = unknown v := by
  unfold functionOf
  split
  · split
    · exact .inl ⟨_, rfl⟩
    · exact .inr rfl
  · exact .inr rfl

theorem needs_functionOf (p : Program) (v : Value) {f : Runner → Function → Run Value}
    (hf : ∀ g, Needs (fun run => f run g) s) : Needs (fun run => functionOf p v >>= f run) s := by
  rcases functionOf_cases p v with ⟨g, hg⟩ | hg
  · rw [hg]
    exact hf g
  · rw [hg]
    exact ((raises_unknown v).bind f).needs

end Run

/-- The operations that force cells or make them. -/
def Operation.working : List Operation := [.cell .force, .cell .forceMethod, .demand .dropN, .demand .headOf, .list .take,
  .cell .suspend, .cell .fix, .cell .ready, .list .makeGenerator, .list .append, .list .fromIterable, .cycle .shared,
  .cycle .unshared, .cycle .unsharedRange]

section Operations
variable {s : Store}

open Run (Needs)

theorem CellOp.needs_force (p : Program) (args : List Value) : Needs (fun run => CellOp.apply p run .force args) s := by
  match args with
  | [v] => exact (Run.looks_forceValue v).needs
  | [] | _ :: _ :: _ => exact Run.needs_wrongCount _

theorem CellOp.needs_forceMethod (p : Program) (args : List Value) :
    Needs (fun run => CellOp.apply p run .forceMethod args) s := by
  match args with
  | [v] => exact ((Run.looks_cellOf "force" v).bind fun c => Run.looks_force c).needs
  | [] | _ :: _ :: _ => exact Run.needs_wrongCount _

theorem DemandOp.needs_dropN (args : List Value) : Needs (fun run => DemandOp.apply run .dropN args) s := by
  match args with
  | [n, xs] => exact (Run.looks_dropValue n xs).needs
  | [] | [_] | _ :: _ :: _ :: _ => exact Run.needs_wrongCount _

theorem DemandOp.needs_headOf (args : List Value) : Needs (fun run => DemandOp.apply run .headOf args) s := by
  match args with
  | [xs] => exact (Sequence.looks_head xs).needs
  | [] | _ :: _ :: _ => exact Run.needs_wrongCount _

theorem ListOp.needs_take (p : Program) (args : List Value) : Needs (fun run => ListOp.apply p run .take args) s := by
  match args with
  | [n, xs] => exact Run.needs_takeList n xs
  | [] | [_] | _ :: _ :: _ :: _ => exact Run.needs_wrongCount _

theorem CellOp.needs_suspend (p : Program) (args : List Value) :
    Needs (fun run => CellOp.apply p run .suspend args) s := by
  match args with
  | f :: args =>
    have hcall : Needs (fun _ => do
        let f ← Run.functionOf p f
        return .cell (← Run.newCell (.suspended (.call f args)))) s :=
      Run.needs_functionOf p f fun g => Run.needs_newCell _
    exact hcall
  | [] => exact Run.needs_wrongCount _

theorem CellOp.needs_ready (p : Program) (args : List Value) : Needs (fun run => CellOp.apply p run .ready args) s := by
  match args with
  | [v] => exact Run.needs_newCell (.evaluated v)
  | [] | _ :: _ :: _ => exact Run.needs_wrongCount _

/-- A new cell whose thunk refers to the cell. -/
theorem Run.needs_suspendSelf (thunk : CellId → Thunk) : Needs (fun _ => do return .cell (← suspendSelf thunk)) s :=
  .makes (fun c _ _ => .suspended (thunk c)) 0 #[] fun run m => by
    have hself : suspendSelf thunk m = newCell (.suspended (thunk m.cells.size)) m := by
      unfold suspendSelf newCell
      rw [bind_apply, bind_apply, activeHeap_apply]
      cases m.active <;> rfl
    rw [m.spend_zero, map_eq_pure_bind, bind_apply, hself, ← bind_apply]

/-- A new cell whose thunk has a new tag. -/
theorem Run.needs_tagged (thunk : Tag → Thunk) :
    Needs (fun _ => do return .cell (← suspend (thunk (← freshTag)))) s :=
  .makes (fun _ tag _ => .suspended (thunk tag)) 1 #[] fun run m => by
    unfold Store.spend
    rw [Array.append_empty]
    rfl

theorem CellOp.needs_fix (p : Program) (args : List Value) : Needs (fun run => CellOp.apply p run .fix args) s := by
  match args with
  | f :: args =>
    have hcall : Needs (fun _ => do
        let f ← Run.functionOf p f
        return .cell (← Run.suspendSelf fun c => .call f (.cell c :: args))) s :=
      Run.needs_functionOf p f fun g => Run.needs_suspendSelf _
    exact hcall
  | [] => exact Run.needs_wrongCount _

theorem ListOp.needs_makeGenerator (p : Program) (args : List Value) :
    Needs (fun run => ListOp.apply p run .makeGenerator args) s := by
  match args with
  | [lo, hi] => exact Run.needs_tagged fun tag => .intervalNode tag lo hi
  | [] | [_] | _ :: _ :: _ :: _ => exact Run.needs_wrongCount _

theorem ListOp.needs_append (p : Program) (args : List Value) : Needs (fun run => ListOp.apply p run .append args) s := by
  match args with
  | [xs, ys] => exact Run.needs_newCell (.suspended (.appendNode xs ys))
  | [] | [_] | _ :: _ :: _ :: _ => exact Run.needs_wrongCount _

/-- An iterator is there, or is made, or there is none over such a value. -/
theorem Iterator.ofValue_cases (v : Value) :
    (∃ i, ofValue v = pure i) ∨ (∃ kind cursor, ofValue v = new kind cursor) ∨
    ofValue v = (do Run.raise (.notIterable (← Run.typeName v))) := by
  unfold ofValue
  split
  · exact .inl ⟨_, rfl⟩
  · exact .inr (.inl ⟨_, _, rfl⟩)
  · exact .inr (.inl ⟨_, _, rfl⟩)
  · exact .inr (.inl ⟨_, _, rfl⟩)
  · exact .inr (.inl ⟨_, _, rfl⟩)
  · exact .inr (.inr rfl)

theorem ListOp.needs_fromIterable (p : Program) (args : List Value) :
    Needs (fun run => ListOp.apply p run .fromIterable args) s := by
  match args with
  | [v] =>
    have hcall : Needs (fun _ => do
        let i ← Iterator.ofValue v
        return .cell (← Run.suspend (.iteratorNode i))) s := by
      rcases Iterator.ofValue_cases v with ⟨i, hi⟩ | ⟨kind, cursor, hnew⟩ | hraise
      · rw [hi]
        exact Run.needs_newCell (.suspended (.iteratorNode i))
      · rw [hnew]
        refine .makes (fun _ _ i => .suspended (.iteratorNode i)) 0 #[⟨kind, cursor⟩] fun run m => ?_
        unfold Store.spend
        rw [Array.append_singleton]
        rfl
      · rw [hraise]
        refine (Run.Raises.bind (Run.raises_of_eq [] (.notIterable (s.typeName v)) fun _ active => ?_) _).needs
        rw [← s.typeName_under active v]
        rfl
    exact hcall
  | [] | _ :: _ :: _ => exact Run.needs_wrongCount _

theorem CycleOp.needs_shared (p : Program) (args : List Value) : Needs (fun run => CycleOp.apply p run .shared args) s := by
  match args with
  | [source] => exact Run.needs_suspendSelf fun origin => .cycleStart origin source
  | [] | _ :: _ :: _ => exact Run.needs_wrongCount _

theorem CycleOp.needs_unshared (p : Program) (args : List Value) :
    Needs (fun run => CycleOp.apply p run .unshared args) s := by
  match args with
  | [f] =>
    have hcall : Needs (fun _ => do
        let f ← Run.functionOf p f
        return .cell (← Run.suspend (.freshLap (← Run.freshTag) (.function f)))) s :=
      Run.needs_functionOf p f fun g => Run.needs_tagged fun tag => .freshLap tag (.function g)
    exact hcall
  | [] | _ :: _ :: _ => exact Run.needs_wrongCount _

theorem CycleOp.needs_unsharedRange (p : Program) (args : List Value) :
    Needs (fun run => CycleOp.apply p run .unsharedRange args) s := by
  match args with
  | [lo, hi] => exact Run.needs_tagged fun tag => .freshLap tag (.interval lo hi)
  | [] | [_] | _ :: _ :: _ :: _ => exact Run.needs_wrongCount _

/-- **What such an operation needs a heap for is told by the cells and the reports.** -/
theorem Operation.needs_of_working (p : Program) {o : Operation} (ho : o ∈ working) (args : List Value) (s : Store) :
    Needs (fun run => o.apply p run args) s := by
  simp only [working, List.mem_cons, List.not_mem_nil, or_false] at ho
  obtain rfl | rfl | rfl | rfl | rfl | rfl | rfl | rfl | rfl | rfl | rfl | rfl | rfl | rfl := ho
  · exact CellOp.needs_force p args
  · exact CellOp.needs_forceMethod p args
  · exact DemandOp.needs_dropN args
  · exact DemandOp.needs_headOf args
  · exact ListOp.needs_take p args
  · exact CellOp.needs_suspend p args
  · exact CellOp.needs_fix p args
  · exact CellOp.needs_ready p args
  · exact ListOp.needs_makeGenerator p args
  · exact ListOp.needs_append p args
  · exact ListOp.needs_fromIterable p args
  · exact CycleOp.needs_shared p args
  · exact CycleOp.needs_unshared p args
  · exact CycleOp.needs_unsharedRange p args

end Operations

/-! ## Without a heap -/

theorem Run.newCell_of_none {m : Store} (hm : m.active = none) (st : CellState) :
    newCell st m = .error (.raised m.faults.size) { m with faults := m.faults.push ⟨.noActiveHeap, []⟩ } := by
  have hheap := activeHeap_apply m
  rw [hm] at hheap
  exact bind_error hheap

theorem force_of_none {s : Store} {c : CellId} {t : Thunk} (hs : s.active = none) (hc : s.state c = .suspended t)
    (run : Runner) :
    force run c s = .error (.raised s.faults.size) { s with faults := s.faults.push ⟨.noActiveHeap, []⟩ } := by
  have hforce := force_apply run c s
  rw [hc] at hforce
  dsimp only at hforce
  rw [hs] at hforce
  exact hforce

/-- **Without an active heap nothing is done.**  Take any store in which no heap is active, and any call of an operation
that forces cells or makes them.  However thunks are run, it comes to the same, so none is run; and all that changes is
that tags are given and errors and iterators added.  No cell is made or changes its state, no heap changes, and nothing is
noted in the history.

The call may need no heap.  Then it gives the same value or raises the same error whichever heap is active, and in the same
store.  Otherwise it raises a new error which says that there is no active heap, because it has come to one of two points:

- a certain cell waits.  Then nothing but this error is new, and in every store with these cells and reports, be it the
  one before the call or the one after it, and whatever heap is active there, the call is the force of this cell and a
  certain rest;
- all that a new cell is to hold is there.  Then the same call, in whatever store a heap is active, registers the next
  cell in this heap, in a state that depends on nothing but the numbers of the cell, of a tag and of an iterator. -/
theorem nothing_is_done_without_heap (p : Program) {s : Store} (hs : s.active = none) {o : Operation}
    (ho : o ∈ Operation.working) (args : List Value) :
    let call := fun run : Runner => o.apply p run args
    (∀ run run', call run s = call run' s) ∧ (∀ run, s.Spends (finalStore (call run s))) ∧
    ((∀ run active, call run (s.under active) = Run.under active (call run s)) ∨
      (∃ c t, ∃ rest : Runner → Except FaultId Value → Run Value, s.state c = .suspended t ∧
        (∀ run, call run s = .error (.raised s.faults.size) { s with faults := s.faults.push ⟨.noActiveHeap, []⟩ }) ∧
        ∀ run (m : Store), m.cells = s.cells → m.reports = s.reports →
          call run m = (attempt (force run c) >>= rest run) m) ∨
      ∃ (new : CellId → Tag → IteratorId → CellState) (tags : Nat) (made : Array Iterator),
        (∀ run, call run s = .error (.raised s.faults.size)
          { s.spend tags made with faults := s.faults.push ⟨.noActiveHeap, []⟩ }) ∧
        ∀ run (m : Store) h, m.active = some h → call run m = .ok (.cell m.cells.size)
          ((m.spend tags made).register h (new m.cells.size m.nextTag m.iterators.size))) := by
  intro call
  cases Operation.needs_of_working p ho args s with
  | quiet result spends h =>
    have hunder : s.under none = s := by rw [Store.under, ← hs]
    have hcall : ∀ run, call run s = Run.under none result := fun run => by
      have hnone := h run none
      rwa [hunder] at hnone
    have hfinal : finalStore (Run.under none result) = (finalStore result).under none := by cases result <;> rfl
    refine ⟨fun run run' => (hcall run).trans (hcall run').symm, fun run => ?_, .inl fun run active => ?_⟩
    · obtain ⟨tags, made, raised, hspends⟩ := spends
      refine ⟨tags, made, raised, ?_⟩
      rw [hcall run, hfinal, hspends]
      unfold Store.under Store.spend
      rw [← hs]
    · rw [hcall run]
      refine (h run active).trans ?_
      cases result <;> rfl
  | forces c t rest waits h passes =>
    have hcall : ∀ run, call run s =
        .error (.raised s.faults.size) { s with faults := s.faults.push ⟨.noActiveHeap, []⟩ } := fun run => by
      refine (h run s rfl rfl).trans ?_
      rw [Run.bind_apply, Run.attempt_apply, force_of_none hs waits run]
      refine passes run _ _ ?_
      show ((s.faults.push ⟨.noActiveHeap, []⟩)[s.faults.size]?.map (·.cause.kind)) ≠ _
      rw [Array.getElem?_push_size]
      decide
    refine ⟨fun run run' => (hcall run).trans (hcall run').symm, fun run => ?_,
      .inr (.inl ⟨c, t, rest, waits, hcall, h⟩)⟩
    rw [hcall run, ← Array.append_singleton]
    exact .of_faults s _
  | makes new tags made h =>
    have hcall : ∀ run, call run s = .error (.raised s.faults.size)
        { s.spend tags made with faults := s.faults.push ⟨.noActiveHeap, []⟩ } := fun run => by
      refine (h run s).trans ?_
      rw [Run.map_apply, Run.newCell_of_none (m := s.spend tags made) hs]
      rfl
    refine ⟨fun run run' => (hcall run).trans (hcall run').symm, fun run => ?_,
      .inr (.inr ⟨new, tags, made, hcall, fun run m i hm => ?_⟩)⟩
    · rw [hcall run, ← Array.append_singleton]
      exact ⟨tags, made, _, rfl⟩
    · refine (h run m).trans ?_
      have hheap : Run.activeHeap (m.spend tags made) = .ok i (m.spend tags made) := Run.activeHeap_eq hm
      unfold Run.newCell
      rw [Run.map_apply, Run.bind_ok hheap]
      rfl

namespace Heapless
open Run Spanning

/-- A list over an interval was made, and then its heap was left. -/
def left : Store := (listed 7 8).under none

/-- Two elements of it are asked for. -/
def asked (run : Runner) : Run Value := Operation.apply [] run (.list .take) [.int 2, .cell 0]

/-- The integers of the list that a call gives. -/
def ints? : EStateM.Result Halt Store Value → Option (List (Option Int))
  | .ok (.list _ vs) _ => some (vs.map fun | .int n => some n | _ => none)
  | _ => none

end Heapless

open Heapless in
/-- Elements of a list that was not read are asked for without a heap, and then again inside the heap of the list. -/
theorem nothing_is_done_without_heap_twice : left.active = none ∧ Operation.list .take ∈ Operation.working ∧
    (∀ run run', asked run left = asked run' left) ∧
    asked (Program.runAt [] 0) left = .error (.raised 0) { left with faults := #[⟨.noActiveHeap, []⟩] } ∧
    ints? (asked (Program.runAt [] 1) ((finalStore (asked (Program.runAt [] 0) left)).under (some 0))) =
      some [some 7, some 8] := by
  have hmem : Operation.list .take ∈ Operation.working := by decide
  exact ⟨rfl, hmem, (nothing_is_done_without_heap [] rfl hmem _).1, rfl, by decide +kernel⟩

end Retention
