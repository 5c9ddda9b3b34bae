import Retention.Proofs.Observing
import Retention.Proofs.Spanning
/-!
# Taking — the first elements of a list, at once or one by one

To take elements of a list is to force a node and its head, and then the next node and its head (`Taken`), up to the end
of the list, to an error, or to the number that was asked for (`Over`).  Asked for one by one, by their positions, the
elements come out of the same forces in the same order: what was read of the list before is passed over, as it is there
for good.  So it makes no difference which of the two is done first, or what is done between.

Producers may do whatever they like.  Of a list it is only asked that its cells come to nodes whose heads are cells of
the store, or to the end of a list, or raise an error (`Sequence.WellFormed`).
-/
namespace Retention

open Run (takeList)

variable {p : Program} {depth n : Nat} {run : Runner} {s m e : Store} {c d : CellId} {k : List Frame} {v : Value}
  {vs : List Value} {read : List (CellId × CellId)}

/-- A node whose fields are cells, its head a cell of the store; or the end of a list. -/
def Store.Node (s : Store) (v : Value) : Prop := v.ListNode ∧ ∀ tag head tail, v = .cons tag (.cell head) tail → head < s.cells.size

namespace Sequence

/-- As far as a list is read to take `n` elements, its cells come to list nodes or to its end, unless they raise an
error. -/
def WellFormed (run : Runner) : Nat → CellId → Store → Prop
  | 0, _, _ => True
  | n + 1, c, s => ∀ v m, force run c s = .ok v m → m.Node v ∧ ∀ tag head next, v = .cons tag (.cell head) (.cell next) →
      ∀ w e, force run head m = .ok w e → WellFormed run n next e

/-- As far as a list is read to take `n` elements, the force of a cell is the only one that begins, be it a cell of the
list or a head. -/
def Fresh (run : Runner) : Nat → CellId → Store → Prop
  | 0, _, _ => True
  | n + 1, c, s => ∀ v m, force run c s = .ok v m → s.Forced [c] m ∧ ∀ tag head next,
      v = .cons tag (.cell head) (.cell next) → ∀ w e, force run head m = .ok w e → m.Forced [head] e ∧ Fresh run n next e

end Sequence

/-- Elements of a list are read one after the other, each by a force of a cell of the list and a force of the head of its
node: these cells, the values, and where it leads. -/
inductive Taken (run : Runner) : CellId → Store → List (CellId × CellId) → List Value → CellId → Store → Prop
  | here (c : CellId) (s : Store) : Taken run c s [] [] c s
  | next {c head next d : CellId} {s m e f : Store} {tag : Tag} {v : Value} {read : List (CellId × CellId)}
    {vs : List Value} (hnode : force run c s = .ok (.cons tag (.cell head) (.cell next)) m) (hlt : head < m.cells.size)
    (hhead : force run head m = .ok v e) (hrest : Taken run next e read vs d f) :
    Taken run c s ((c, head) :: read) (v :: vs) d f

/-- Elements of a list that were read: nodes that are evaluated, one after the other, with the values of their heads. -/
inductive Store.Shows (s : Store) : CellId → List (CellId × CellId) → List Value → CellId → Prop
  | here (c : CellId) : Shows s c [] [] c
  | next {c head next d : CellId} {tag : Tag} {v : Value} {read : List (CellId × CellId)} {vs : List Value}
    (hc : s.state c = .evaluated (.cons tag (.cell head) (.cell next))) (hlt : head < s.cells.size)
    (hv : s.state head = .evaluated v) (hrest : Shows s next read vs d) : Shows s c ((c, head) :: read) (v :: vs) d

/-- A force ends without a value when one more element is asked for: that of the next cell, or that of the head of its
node. -/
inductive Fails (run : Runner) (d : CellId) (m : Store) (halt : Halt) (e : Store) : Prop
  | list (hforce : force run d m = .error halt e)
  | element {f : Store} {head next : CellId} {tag : Tag}
    (hnode : force run d m = .ok (.cons tag (.cell head) (.cell next)) f) (hhead : force run head f = .error halt e)

/-- How it ends if so many more elements are asked for, and none is given. -/
inductive Over (run : Runner) (d : CellId) (m : Store) : Nat → EStateM.Result Halt Store Unit → Prop
  | done : Over run d m 0 (.ok () m)
  | ended {e : Store} {tag : Tag} {n : Nat} (hforce : force run d m = .ok (.nil tag) e) : Over run d m (n + 1) (.ok () e)
  | fails {e : Store} {halt : Halt} {n : Nat} (h : Fails run d m halt e) : Over run d m (n + 1) (.error halt e)

/-! ## At once -/

namespace Iterator

/-- What is raised in place of an error inside a walk, and in which store: the end of an iterator must not pass for the
end of the walk, so it gives way to a new error. -/
def passed (z : FaultId) (e : Store) : FaultId × Store :=
  if (e.faults[z]?.map (·.cause.kind)) = some .stopIteration then
    (e.faults.size, { e with faults := e.faults.push ⟨.exhaustedInside, []⟩ })
  else (z, e)

theorem guarded_apply {α : Type} (x : Run α) (s : Store) : guarded x s =
    match x s with
    | .ok a e => .ok a e
    | .error (.raised z) e => .error (.raised (passed z e).1) (passed z e).2
    | .error .tooDeep e => .error .tooDeep e := by
  unfold guarded
  rw [Run.bind_apply, Run.attempt_apply]
  rcases x s with ⟨a, e⟩ | ⟨⟨z⟩ | -, e⟩
  · rfl
  · dsimp only
    rw [Run.bind_ok (Run.get_apply e)]
    unfold passed
    cases e.faults[z]? with
    | none => rfl
    | some raised =>
      by_cases hkind : raised.cause.kind = .stopIteration
      · simp only [hkind, Option.map_some, if_true]
        rfl
      · simp only [hkind, Option.map_some, Option.some.injEq, if_false]
        rfl
  · rfl

end Iterator

/-- What a take comes to, by how it ends and the values so far; an error is passed on as out of any walk. -/
def Sequence.closing (vs : List Value) : EStateM.Result Halt Store Unit → EStateM.Result Halt Store (List Value)
  | .ok _ e => .ok vs e
  | .error (.raised z) e => .error (.raised (Iterator.passed z e).1) (Iterator.passed z e).2
  | .error .tooDeep e => .error .tooDeep e

/-- What it returns: a new list of the values, unless it ends otherwise. -/
def Sequence.handedOut (vs : List Value) (result : EStateM.Result Halt Store Unit) : EStateM.Result Halt Store Value :=
  match closing vs result with
  | .ok vs e => .ok (.list e.nextTag vs) e.tagged
  | .error halt e => .error halt e

namespace Sequence
variable {place : Place} {taken : List Value} {tag : Tag} {head next : CellId}

theorem step_of_node (hplace : Iterator.listAt place s = .ok (.cell c) s)
    (hnode : force run c s = .ok (.cons tag (.cell head) (.cell next)) m) : Iterator.step run place s =
      ((fun v => some (v, Place.past (.cons tag (.cell head) (.cell next)))) <$> force run head) m := by
  unfold Iterator.step
  rw [Run.bind_ok hplace, Run.bind_ok (show forceValue run (.cell c) s = _ from hnode),
    Run.bind_ok (show Run.truth (.cons tag (.cell head) (.cell next)) m = .ok true m from rfl)]
  rfl

theorem step_of_nil (hplace : Iterator.listAt place s = .ok (.cell c) s) (hend : force run c s = .ok (.nil tag) m) :
    Iterator.step run place s = .ok none m := by
  unfold Iterator.step
  rw [Run.bind_ok hplace, Run.bind_ok (show forceValue run (.cell c) s = _ from hend),
    Run.bind_ok (show Run.truth (.nil tag) m = .ok false m from rfl)]
  rfl

theorem step_of_error {halt : Halt} (hplace : Iterator.listAt place s = .ok (.cell c) s)
    (hforce : force run c s = .error halt m) : Iterator.step run place s = .error halt m := by
  unfold Iterator.step
  rw [Run.bind_ok hplace, Run.bind_error (show forceValue run (.cell c) s = _ from hforce)]

theorem step_of_fails {halt : Halt} (hplace : Iterator.listAt place s = .ok (.cell c) s) (h : Fails run c s halt e) :
    Iterator.step run place s = .error halt e := by
  cases h with
  | list hforce => exact step_of_error hplace hforce
  | element hnode hhead => rw [step_of_node hplace hnode, Run.map_apply, hhead]

/-- One element more. -/
theorem takeOnto_succ (hplace : Iterator.listAt place s = .ok (.cell c) s)
    (hnode : force run c s = .ok (.cons tag (.cell head) (.cell next)) m) (hhead : force run head m = .ok v e) :
    takeOnto run (n + 1) taken place s = takeOnto run n (v :: taken) (.past (.cons tag (.cell head) (.cell next))) e := by
  have hstep := step_of_node hplace hnode
  rw [Run.map_apply, hhead] at hstep
  conv => lhs; unfold takeOnto
  rw [Run.bind_apply, Iterator.guarded_apply, hstep]

/-- The place matters only by the list that is there. -/
theorem takeOnto_congr {place' : Place} (hplace : ∀ m, Iterator.listAt place m = .ok (.cell c) m)
    (hplace' : ∀ m, Iterator.listAt place' m = .ok (.cell c) m) (n : Nat) (taken : List Value) :
    takeOnto run n taken place = takeOnto run n taken place' := by
  cases n with
  | zero => rfl
  | succ n =>
    have hstep : Iterator.step run place = Iterator.step run place' := by
      funext s
      unfold Iterator.step
      rw [Run.bind_ok (hplace s), Run.bind_ok (hplace' s)]
    unfold takeOnto
    rw [hstep]

/-- The elements that are read go to the front of what is taken. -/
theorem takeOnto_of_taken (h : Taken run c s read vs d m) (hplace : ∀ m, Iterator.listAt place m = .ok (.cell c) m)
    (n : Nat) (taken : List Value) :
    takeOnto run (vs.length + n) taken place s = takeOnto run n (vs.reverse ++ taken) (.before (.cell d)) m := by
  induction h generalizing taken place with
  | here c s =>
    rw [List.length_nil, Nat.zero_add, takeOnto_congr hplace (fun _ => rfl : ∀ m, Iterator.listAt (.before (.cell c)) m = _)]
    rfl
  | @next c head next d s m e f tag v read vs hnode hlt hhead _ ih =>
    rw [List.length_cons, Nat.add_right_comm, takeOnto_succ (hplace s) hnode hhead, ih fun _ => rfl, List.reverse_cons,
      List.append_assoc]
    rfl

theorem takeOnto_of_over {result : EStateM.Result Halt Store Unit} (h : Over run d m n result) (taken : List Value) :
    takeOnto run n taken (.before (.cell d)) m = closing taken.reverse result := by
  cases h with
  | done => rfl
  | ended hforce =>
    unfold takeOnto
    rw [Run.bind_apply, Iterator.guarded_apply, step_of_nil rfl hforce]
    rfl
  | @fails e halt n hfails =>
    unfold takeOnto
    rw [Run.bind_apply, Iterator.guarded_apply, step_of_fails rfl hfails]
    cases halt <;> rfl

/-- **A list is read until enough elements are taken, or no more is given.** -/
theorem taken_of_wellFormed (h : WellFormed run n c s) :
    ∃ read vs d m rest result, Taken run c s read vs d m ∧ vs.length + rest = n ∧ Over run d m rest result := by
  induction n generalizing c s with
  | zero => exact ⟨[], [], c, s, 0, _, .here c s, rfl, .done⟩
  | succ n ih =>
    cases hnode : force run c s with
    | error halt m => exact ⟨[], [], c, s, n + 1, _, .here c s, Nat.zero_add _, .fails (.list hnode)⟩
    | ok v m =>
      obtain ⟨⟨hv, hlt⟩, hrest⟩ := h v m hnode
      cases hv with
      | done tag => exact ⟨[], [], c, s, n + 1, _, .here c s, Nat.zero_add _, .ended hnode⟩
      | node tag head next =>
        cases hhead : force run head m with
        | error halt e => exact ⟨[], [], c, s, n + 1, _, .here c s, Nat.zero_add _, .fails (.element hnode hhead)⟩
        | ok w e =>
          obtain ⟨read, vs, d, f, rest, result, htaken, hn, hover⟩ := ih (hrest tag head next rfl w e hhead)
          exact ⟨_, _, d, f, rest, result, .next hnode (hlt _ _ _ rfl) hhead htaken, by rw [List.length_cons]; omega, hover⟩

end Sequence

theorem Run.takeBoundOf_natCast (hn : n ≤ sizeLimit) (s : Store) : takeBoundOf (.int n) s = .ok n s := by
  unfold takeBoundOf
  simp only [show (Value.int n).int? = some (n : Int) from rfl]
  rw [if_neg (by simp), if_pos (by simp [hn]), Int.toNat_natCast]
  rfl

theorem Run.takeList_apply (hn : n ≤ sizeLimit) (xs : Value) (s : Store) : takeList run (.int n) xs s =
    match Sequence.take run n xs s with
    | .ok vs e => .ok (.list e.nextTag vs) e.tagged
    | .error halt e => .error halt e := by
  unfold takeList
  rw [bind_ok (takeBoundOf_natCast hn s), bind_apply]
  cases Sequence.take run n xs s <;> rfl

/-- **A take returns the elements that were read**, or ends as the last force does. -/
theorem Sequence.takeList_of_over {rest : Nat} {result : EStateM.Result Halt Store Unit} (h : Taken run c s read vs d m)
    (hover : Over run d m rest result) (hn : vs.length + rest ≤ sizeLimit) :
    takeList run (.int (vs.length + rest : Nat)) (.cell c) s = handedOut vs result := by
  have htake : Sequence.take run (vs.length + rest) (.cell c) s = closing vs result := by
    unfold Sequence.take
    rw [takeOnto_of_taken h (fun _ => rfl), takeOnto_of_over hover]
    simp
  rw [Run.takeList_apply hn, htake]
  rfl

/-! ## One by one -/

theorem Sequence.first_of_node {tag : Tag} {head : CellId} {tail : Value}
    (hnode : force run d s = .ok (.cons tag (.cell head) tail) m) : first run (.cell d) s = force run head m :=
  Run.bind_ok (head_of_force hnode)

theorem Sequence.first_of_error {halt : Halt} (hforce : force run d s = .error halt m) :
    first run (.cell d) s = .error halt m := Run.bind_error (head_of_error hforce)

theorem Sequence.first_of_fails {halt : Halt} (h : Fails run d s halt m) : first run (.cell d) s = .error halt m := by
  cases h with
  | list hforce => exact first_of_error hforce
  | element hnode hhead => exact (first_of_node hnode).trans hhead

/-- What stands before a position that was read is passed over. -/
theorem Sequence.nth_of_spineAt {i : Nat} (h : s.SpineAt c i d) (run : Runner) : nth run i (.cell c) s = first run (.cell d) s :=
  Run.bind_ok ((congrFun (drop_natCast run i (.cell c)) s).trans (dropSteps_of_spineAt h run))

namespace Taken

theorem length_eq (h : Taken run c s read vs d m) : read.length = vs.length := by
  induction h with
  | here => rfl
  | next _ _ _ _ ih => rw [List.length_cons, List.length_cons, ih]

/-- What is read first, and what after that. -/
theorem split (h : Taken run c s read vs d m) (j : Nat) : ∃ b f, Taken run c s (read.take j) (vs.take j) b f ∧
    Taken run b f (read.drop j) (vs.drop j) d m := by
  induction h generalizing j with
  | here c s =>
    rw [List.take_nil, List.take_nil, List.drop_nil, List.drop_nil]
    exact ⟨c, s, .here c s, .here c s⟩
  | next hnode hlt hhead hrest ih =>
    cases j with
    | zero => exact ⟨_, _, .here _ _, .next hnode hlt hhead hrest⟩
    | succ j =>
      obtain ⟨b, f, hfirst, hsecond⟩ := ih j
      exact ⟨b, f, .next hnode hlt hhead hfirst, hsecond⟩

section Runs
variable (hs : Moment.Sound ⟨s, k⟩) (h : Taken (p.runAt depth) c s read vs d m)

include h in
theorem runs : s.Runs m := by
  induction h with
  | here c s => exact .refl s
  | next hnode _ hhead _ ih => exact ((runs_of_force_ok hnode).trans (runs_of_force_ok hhead)).trans ih

include hs h in
/-- **What was read is there for good**: each node, and the value of its head. -/
theorem shows {m' : Moment} (hlater : Moment.Leads ⟨m, k⟩ m') : m'.store.Shows c read vs d := by
  induction h with
  | here c s => exact .here c
  | @next c head next d s m e f tag v read vs hnode hlt hhead hrest ih =>
    have hm := hs.leads (runs_of_force_ok hnode k)
    have he := hm.leads (runs_of_force_ok hhead k)
    have hfirst : Moment.Leads ⟨m, k⟩ ⟨e, k⟩ := runs_of_force_ok hhead k
    have hlast : Moment.Leads ⟨e, k⟩ m' := Relation.ReflTransGen.trans (hrest.runs k) hlater
    have hlte := (runs_of_force_ok hhead).lt_size hlt
    obtain ⟨st, hst⟩ := Store.initial?_eq_some_of_lt hlte
    have hc := Moment.Leads.evaluated hm (hfirst.trans hlast) (force_ok_state hnode) (by simp)
    exact .next hc (Store.lt_of_initial? (Moment.Leads.initial? hlast hst)) (hlast.value he (force_ok_state hhead) hlte)
      (ih he hlater)

include hs h in
/-- **The elements by their positions, one after the other, are those that are read.** -/
theorem mapM_nth {i : Nat} {x : CellId} (hx : s.SpineAt x i c) :
    (List.range' i vs.length).mapM (fun j => Sequence.nth (p.runAt depth) j (.cell x)) s = .ok vs m := by
  induction h generalizing i with
  | here => rfl
  | @next c head next d s m e f tag v read vs hnode hlt hhead hrest ih =>
    have hm := hs.leads (runs_of_force_ok hnode k)
    have hfirst : Moment.Leads ⟨m, k⟩ ⟨e, k⟩ := runs_of_force_ok hhead k
    have hnth : Sequence.nth (p.runAt depth) i (.cell x) s = .ok v e :=
      (Sequence.nth_of_spineAt hx _).trans ((Sequence.first_of_node hnode).trans hhead)
    have hc : e.state c = _ := hfirst.evaluated hm (force_ok_state hnode) (by simp)
    have hnext : e.SpineAt x (i + 1) next :=
      (Moment.Leads.spineAt hs (Relation.ReflTransGen.trans (runs_of_force_ok hnode k) hfirst) hx).next hc
    rw [List.length_cons, List.range'_succ, List.mapM_cons, Run.bind_ok hnth,
      Run.bind_ok (ih (hm.leads hfirst) hnext)]
    rfl

end Runs
end Taken

namespace Store.Shows

/-- To read them again changes nothing. -/
theorem taken (h : s.Shows c read vs d) (run : Runner) : Taken run c s read vs d s := by
  induction h with
  | here c => exact .here c s
  | next hc hlt hv _ ih => exact .next (force_evaluated hc run) hlt (force_evaluated hv run) ih

theorem begins (h : s.Shows c read vs d) : s.Begins c (read.map Prod.snd) d := by
  induction h with
  | here c => exact .here c
  | next hc _ _ _ ih => exact .node hc ih

/-- An element that was read: the node at its position, and the value of its head. -/
theorem element (h : s.Shows c read vs d) {i : Nat} (hv : vs[i]? = some v) : ∃ x head tag next,
    read[i]? = some (x, head) ∧ s.SpineAt c i x ∧ s.state x = .evaluated (.cons tag (.cell head) (.cell next)) ∧
    s.state head = .evaluated v := by
  induction h generalizing i with
  | here => cases hv
  | @next c head next d tag w read vs hc hlt hw _ ih =>
    cases i with
    | zero =>
      cases hv
      exact ⟨c, head, tag, next, rfl, .first, hc, hw⟩
    | succ i =>
      obtain ⟨x, head', tag', next', hread, hx, hnode, hv'⟩ := ih hv
      exact ⟨x, head', tag', next', hread, hx.cons hc, hnode, hv'⟩

theorem nth (h : s.Shows c read vs d) {i : Nat} (hv : vs[i]? = some v) (run : Runner) :
    Sequence.nth run i (.cell c) s = .ok v s := by
  obtain ⟨x, head, tag, next, -, hx, hnode, hhead⟩ := h.element hv
  exact (Sequence.nth_of_spineAt hx _).trans
    ((Sequence.first_of_node (force_evaluated hnode run)).trans (force_evaluated hhead run))

end Store.Shows

/-- An element that was asked for by its position was found in the node there. -/
theorem Sequence.nth_ok {xs : Value} {i : Nat} {b : CellId} {w : Value} {s₁ s₂ s₃ : Store} (hs : Moment.Sound ⟨s, k⟩)
    (hdrop : drop (p.runAt depth) i (.cell c) s = .ok xs s₁) (hhead : Sequence.head (p.runAt depth) xs s₁ = .ok (.cell b) s₂)
    (hforce : force (p.runAt depth) b s₂ = .ok w s₃) : ∃ x tag tail, s₃.SpineAt c i x ∧
      s₃.state x = .evaluated (.cons tag (.cell b) tail) ∧ s₃.state b = .evaluated w ∧ s.Runs s₃ ∧ s₂.Runs s₃ := by
  obtain ⟨x, tag, tail, rfl, hx⟩ := head_ok hhead
  rw [drop_natCast] at hdrop
  have hruns := (follows_dropSteps (p.follows_runAt depth) i (.cell c)).runs_of_ok hdrop
  have hs₁ := hs.leads (hruns k)
  have hs₂ := hs₁.leads (runs_of_force_ok hx k)
  have hlast : Moment.Leads ⟨s₂, k⟩ ⟨s₃, k⟩ := runs_of_force_ok hforce k
  have hall : Moment.Leads ⟨s₁, k⟩ ⟨s₃, k⟩ := Relation.ReflTransGen.trans (runs_of_force_ok hx k) hlast
  refine ⟨x, tag, tail, ?_, hlast.evaluated hs₂ (force_ok_state hx) (by simp), force_ok_state hforce,
    (hruns.trans (runs_of_force_ok hx)).trans (runs_of_force_ok hforce), runs_of_force_ok hforce⟩
  rcases dropSteps_ok hs hdrop with hspine | ⟨v, hv, hnone⟩
  · exact hall.spineAt hs₁ hspine
  · rw [force_evaluated hv] at hx
    cases hx
    exact absurd rfl (hnone _ _ _)

/-! ## Both -/

/-- The forces of a fresh list are those of its cells and heads in turn. -/
theorem Taken.forced (h : Taken run c s read vs d m) {n : Nat} (hfresh : Sequence.Fresh run (vs.length + n) c s) :
    s.Forced (read.flatMap fun x => [x.1, x.2]) m ∧ Sequence.Fresh run n d m := by
  induction h with
  | here c s =>
    rw [List.length_nil, Nat.zero_add] at hfresh
    exact ⟨.refl s, hfresh⟩
  | @next c head next d s m e f tag v read vs hnode _ hhead _ ih =>
    rw [List.length_cons, Nat.add_right_comm] at hfresh
    obtain ⟨hc, hrest⟩ := hfresh _ m hnode
    obtain ⟨hforced, hnext⟩ := hrest tag head next rfl v e hhead
    obtain ⟨hall, hlast⟩ := ih hnext
    exact ⟨(hc.trans hforced).trans hall, hlast⟩

/-- A take after some of the elements were asked for by their positions does what is left to do. -/
theorem Taken.take_again (hs : Moment.Sound ⟨s, k⟩) (h : Taken (p.runAt depth) c s read vs d m) (hle : vs.length ≤ n) :
    Sequence.take (p.runAt depth) n (.cell c) m = Sequence.take (p.runAt depth) n (.cell c) s := by
  obtain ⟨rest, rfl⟩ : ∃ rest, n = vs.length + rest := ⟨n - vs.length, by omega⟩
  have hagain := (h.shows hs .refl).taken (p.runAt depth)
  unfold Sequence.take
  rw [Sequence.takeOnto_of_taken h (fun _ => rfl), Sequence.takeOnto_of_taken hagain fun _ => rfl]

/-- How a take of `n` elements ends, where these elements are read: it gives them all; it gives those there are, after a
force that has found the end of the list; it raises the error that the next cell or its head raises, which is raised by
the element at this position as well, in the store that this force has left; or it runs out of depth, where the force of
the next cell or of its head does, and so does the element at this position. -/
inductive TakeEnds (run : Runner) (c : CellId) (n : Nat) (vs : List Value) (d : CellId) (m : Store) :
    EStateM.Result Halt Store Value → Prop
  | all (hn : vs.length = n) : TakeEnds run c n vs d m (.ok (.list m.nextTag vs) m.tagged)
  | ended {tag : Tag} {e : Store} (hn : vs.length < n) (hend : force run d m = .ok (.nil tag) e) :
    TakeEnds run c n vs d m (.ok (.list e.nextTag vs) e.tagged)
  | raised {z : FaultId} {e : Store} (hn : vs.length < n) (hforce : Fails run d m (.raised z) e)
    (hnth : Sequence.nth run vs.length (.cell c) m = .error (.raised z) e) :
    TakeEnds run c n vs d m (.error (.raised (Iterator.passed z e).1) (Iterator.passed z e).2)
  | tooDeep {e : Store} (hn : vs.length < n) (hforce : Fails run d m .tooDeep e)
    (hnth : Sequence.nth run vs.length (.cell c) m = .error .tooDeep e) : TakeEnds run c n vs d m (.error .tooDeep e)

theorem Taken.takeEnds {rest : Nat} {result : EStateM.Result Halt Store Unit} (hs : Moment.Sound ⟨s, k⟩)
    (h : Taken (p.runAt depth) c s read vs d m) (hover : Over (p.runAt depth) d m rest result) (hn : vs.length + rest ≤ sizeLimit) :
    TakeEnds (p.runAt depth) c (vs.length + rest) vs d m (takeList (p.runAt depth) (.int (vs.length + rest : Nat)) (.cell c) s) := by
  have hspine : m.SpineAt c vs.length d := by
    have hbegins := (h.shows hs .refl).begins.spineAt
    rwa [List.length_map, h.length_eq] at hbegins
  have hnth := Sequence.nth_of_spineAt hspine (p.runAt depth)
  rw [Sequence.takeList_of_over h hover hn]
  cases hover with
  | done => exact .all (Nat.add_zero _)
  | ended hforce => exact .ended (by omega) hforce
  | @fails e halt n hfails =>
    have hfirst := hnth.trans (Sequence.first_of_fails hfails)
    cases halt with
    | raised z => exact .raised (by omega) hfails hfirst
    | tooDeep => exact .tooDeep (by omega) hfails hfirst

/-- A take that gives its elements has forced no more than it needs. -/
theorem TakeEnds.forced (hs : Moment.Sound ⟨s, k⟩) (h : Taken (p.runAt depth) c s read vs d m)
    (hends : TakeEnds (p.runAt depth) c n vs d m (.ok v e)) :
    (Sequence.Fresh (p.runAt depth) n c s →
      s.Forced (read.flatMap (fun x => [x.1, x.2]) ++ if vs.length < n then [d] else []) e) ∧
    ∀ m' heads, Moment.Leads ⟨e, k⟩ m' → m'.store.Lists c heads → vs.length = min n heads.length := by
  have hm := hs.leads (h.runs k)
  cases hends with
  | all hn =>
    refine ⟨fun hfresh => ?_, fun m' heads hlater hheads => ?_⟩
    · rw [if_neg (by omega), List.append_nil]
      exact (h.forced (n := 0) (by rwa [hn])).1
    · have hlast : Moment.Leads ⟨m, k⟩ m' := .head (.change k (.freshTag m)) hlater
      have hle := (hheads.isPrefix (h.shows hs hlast).begins).length_le
      rw [List.length_map, h.length_eq] at hle
      omega
  | @ended tag e hn hend =>
    have hnil : Moment.Leads ⟨m, k⟩ ⟨e, k⟩ := runs_of_force_ok hend k
    refine ⟨fun hfresh => ?_, fun m' heads hlater hheads => ?_⟩
    · obtain ⟨rest, rfl⟩ : ∃ rest, n = vs.length + (rest + 1) := ⟨n - vs.length - 1, by omega⟩
      obtain ⟨hforced, hrest⟩ := h.forced hfresh
      rw [if_pos hn]
      exact hforced.trans (hrest _ e hend).1
    · have hlast : Moment.Leads ⟨e, k⟩ m' := .head (.change k (.freshTag e)) hlater
      have hd := hlast.evaluated (hm.leads hnil) (force_ok_state hend) (by simp)
      have hbegins := (h.shows hs (hnil.trans hlast)).begins
      obtain rfl := hheads.unique ⟨d, tag, hbegins, hd⟩
      rw [List.length_map, h.length_eq]
      omega

/-- **Taking the first elements of a list agrees with asking for them one by one, and forces no more than that.**  Take a
cell, and any `n` that can be taken as a count, where the cells that are forced on the way come to list nodes or to the
end of the list, or raise an error.  Then elements are read one after the other, each by a force of a cell of the list
and a force of its head, until there are `n` of them or no more is given (`TakeEnds`); say that their values are `vs`.

Asked for by their positions, one after the other, the elements are the same, in the same stores; and a take after that
does what it would have done before.  After the take, each is given at its position again, whenever it is asked for, and
nothing changes.  An element that was asked for by its position at any time before is the one that the take gives.

If nothing else is forced for any of these cells, the take begins the forces of the cells and the heads of the elements,
in turn, and of one more cell, if there are fewer than `n`; and it gives the lesser of `n` and the length of the list. -/
theorem take_agrees_with_positions (p : Program) {depth n : Nat} {c : CellId} {s : Store} {k : List Frame}
    (hs : Moment.Sound ⟨s, k⟩) (hn : n ≤ sizeLimit) (hwell : Sequence.WellFormed (p.runAt depth) n c s) :
    let run := p.runAt depth
    let take := takeList run (.int n) (.cell c)
    let nth := fun i : Nat => Sequence.nth run i (.cell c)
    ∃ read vs d m, Taken run c s read vs d m ∧ TakeEnds run c n vs d m (take s) ∧
      (List.range vs.length).mapM nth s = .ok vs m ∧
      (∀ j ≤ vs.length, ∃ f, (List.range j).mapM nth s = .ok (vs.take j) f ∧ take f = take s) ∧
      (∀ m', Moment.Leads ⟨m, k⟩ m' → ∀ i v, vs[i]? = some v → ∀ run',
        Sequence.nth run' i (.cell c) m'.store = .ok v m'.store) ∧
      (∀ depth' i xs b w s₁ s₂ s₃ s₄ k', Moment.Sound ⟨s₁, k'⟩ →
        Sequence.drop (p.runAt depth') (i : Nat) (.cell c) s₁ = .ok xs s₂ →
        Sequence.head (p.runAt depth') xs s₂ = .ok (.cell b) s₃ → b < s₃.cells.size →
        force (p.runAt depth') b s₃ = .ok w s₄ → Moment.Leads ⟨s₄, k'⟩ ⟨s, k⟩ → ∀ v, vs[i]? = some v → v = w) ∧
      ∀ v e, take s = .ok v e →
        (Sequence.Fresh run n c s →
          s.Forced (read.flatMap (fun x => [x.1, x.2]) ++ if vs.length < n then [d] else []) e) ∧
        ∀ m' heads, Moment.Leads ⟨e, k⟩ m' → m'.store.Lists c heads → vs.length = min n heads.length := by
  intro run take nth
  obtain ⟨read, vs, d, m, rest, result, htaken, rfl, hover⟩ := Sequence.taken_of_wellFormed hwell
  have hends := htaken.takeEnds hs hover hn
  refine ⟨read, vs, d, m, htaken, hends, ?_, fun j hj => ?_, fun m' hlater i v hv run' => ?_, ?_, fun v e he => ?_⟩
  · rw [List.range_eq_range']
    exact htaken.mapM_nth hs .first
  · obtain ⟨b, f, hread, -⟩ := htaken.split j
    have hlength : (vs.take j).length = j := List.length_take_of_le hj
    refine ⟨f, ?_, ?_⟩
    · have hmap := hread.mapM_nth hs (Store.SpineAt.first)
      rwa [hlength, ← List.range_eq_range'] at hmap
    · have htake := hread.take_again hs (n := vs.length + rest) (by omega)
      show takeList _ _ _ f = takeList _ _ _ s
      unfold Run.takeList
      rw [Run.bind_ok (Run.takeBoundOf_natCast hn f), Run.bind_ok (Run.takeBoundOf_natCast hn s), Run.bind_apply,
        Run.bind_apply, htake]
  · exact (htaken.shows hs hlater).nth hv run'
  · intro depth' i xs b w s₁ s₂ s₃ s₄ k' hs₁ hdrop hhead hb hforce hlater v hv
    obtain ⟨x, tag, tail, hx, hnode, hw, hruns, hlast⟩ := Sequence.nth_ok hs₁ hdrop hhead hforce
    obtain ⟨x', head, tag', next, -, hx', hnode', hv'⟩ := (htaken.shows hs .refl).element hv
    have hs₄ := hs₁.leads (hruns k')
    have hall : Moment.Leads ⟨s₄, k'⟩ ⟨m, k⟩ := Relation.ReflTransGen.trans hlater (htaken.runs k)
    obtain rfl := (hall.spineAt hs₄ hx).unique hx'
    cases (hall.evaluated hs₄ hnode (by simp)).symm.trans hnode'
    cases (hall.value hs₄ hw (hlast.lt_size hb)).symm.trans hv'
    rfl
  · rw [show takeList _ _ _ s = .ok v e from he] at hends
    exact hends.forced hs htaken

/-- The list over an interval whose length can be taken is well-formed, and fresh as long as it waits. -/
theorem Sequence.wellFormed_of_spans (p : Program) (depth : Nat) {g : HeapId} {r : Interval} (hs : s.Serves g) (hc : s.Spans r c)
    (hr : r.length ≤ sizeLimit) (n : Nat) :
    WellFormed (p.runAt (depth + 1)) n c s ∧ Fresh (p.runAt (depth + 1)) n c s := by
  induction n generalizing s c r with
  | zero => exact ⟨trivial, trivial⟩
  | succ n ih =>
    rcases lt_or_ge r.hi r.lo with hempty | hne
    · obtain ⟨e, hforce, -, -, hforced, -⟩ := force_spans_empty p depth hs hc hempty
      refine ⟨fun v m hv => ?_, fun v m hv => ?_⟩ <;> cases hforce.symm.trans hv
      · exact ⟨⟨.done 0, fun _ _ _ h => by cases h⟩, fun _ _ _ h => by cases h⟩
      · exact ⟨hforced, fun _ _ _ h => by cases h⟩
    · obtain ⟨tag, head, next, m, hforce, hserves, -, hforced, -, hhn, -, hhead, hnext, -⟩ :=
        force_spans p depth hs hc hne hr
      obtain ⟨e, helement, hserves', hforced', hothers⟩ := force_headOf p depth hserves hhead hne hr
      have hrest := ih hserves' (hnext.imp fun _ h => (hothers next hhn.symm).trans h) (by rw [r.length_rest]; omega)
      obtain ⟨_, hwaits⟩ := hhead
      refine ⟨fun v f hv => ?_, fun v f hv => ?_⟩ <;> cases hforce.symm.trans hv
      · refine ⟨⟨.node _ _ _, fun _ _ _ h => ?_⟩, fun _ _ _ h w f hw => ?_⟩ <;> cases h
        · exact Store.lt_of_suspended hwaits
        · cases helement.symm.trans hw
          exact hrest.1
      · refine ⟨hforced, fun _ _ _ h w f hw => ?_⟩
        cases h
        cases helement.symm.trans hw
        exact ⟨hforced', hrest.2⟩

namespace Taking
open Run

/-- The integers of a list, if a result is one. -/
def numbers? : EStateM.Result Halt Store Value → Option (List (Option Int))
  | .ok (.list _ items) _ => some (items.map Value.int?)
  | _ => none

end Taking

open Spanning Taking in
/-- A list of two elements, of which three are taken: the forces are of a cell, a head, a cell, a head, and the end. -/
theorem take_agrees_with_positions_two :
    Moment.Sound ⟨listed 7 8, []⟩ ∧ 3 ≤ sizeLimit ∧ Sequence.WellFormed (Program.runAt [] 1) 3 0 (listed 7 8) ∧
    ∃ tag vs e cs, takeList (Program.runAt [] 1) (.int 3) (.cell 0) (listed 7 8) = .ok (.list tag vs) e ∧
      vs.map Value.int? = [some 7, some 8] ∧ (listed 7 8).Forced cs e ∧ cs.length = 5 := by
  have hopened : Run.Follows (do let h ← Run.newHeap {}; Run.enter h; Sequence.between (.int 7) (.int 8)) :=
    Run.follows_bind (Run.follows_newHeap _ _ _) fun h => Run.follows_bind (Run.follows_enter h) fun _ =>
      Sequence.follows_between _ _
  have hsound : Moment.Sound ⟨listed 7 8, []⟩ := Moment.sound_start.leads (hopened {} [])
  have hlimit : 3 ≤ sizeLimit := by decide
  obtain ⟨hwell, hfresh⟩ := Sequence.wellFormed_of_spans [] 0 (c := 0) (r := ⟨7, 8⟩) (serves_listed 7 8)
    ⟨1, rfl⟩ (by decide) 3
  refine ⟨hsound, hlimit, hwell, ?_⟩
  obtain ⟨read, vs, d, m, htaken, hends, -, -, -, -, hok⟩ := take_agrees_with_positions [] hsound hlimit hwell
  have hnumbers : numbers? (takeList (Program.runAt [] 1) (.int 3) (.cell 0) (listed 7 8)) = some [some 7, some 8] := by
    decide +kernel
  generalize hresult : takeList (Program.runAt [] 1) (.int 3) (.cell 0) (listed 7 8) = result at hnumbers
  rw [show takeList (Program.runAt [] 1) (.int (3 : Nat)) (.cell 0) (listed 7 8) = result from hresult] at hends
  have hread := htaken.length_eq
  cases hends with
  | all hn =>
    have hlength := congrArg List.length (Option.some.inj hnumbers)
    rw [List.length_map, hn] at hlength
    cases hlength
  | @ended tag e hn hend =>
    have hvs := Option.some.inj hnumbers
    have hlength := congrArg List.length hvs
    rw [List.length_map] at hlength
    refine ⟨_, vs, _, _, rfl, hvs, (hok _ _ hresult).1 hfresh, ?_⟩
    rw [if_pos hn]
    simp [hread, hlength]
  | raised => cases hnumbers
  | tooDeep => cases hnumbers

end Retention
