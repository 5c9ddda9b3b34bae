import Retention.Proofs.Repeating
/-!
# Relaying — a list that is read through an iterator

A list can be walked by an iterator, and a list made over the iterator.  Each cell of the new list that is forced has
the iterator look for one more element of the old one: it forces the next cell and the head of its node, as a take does,
while the cell of the new list is in progress (`Store.visited`).  What it finds is put into the head of the new node
(`Store.Poised.step`); the end of the list and errors go the same way (`Store.Poised.ends`).

So a take from the new list forces the cells of the old one that a take from the old list forces (`Through`), and then
both come to the same, whichever is done first.
-/
namespace Retention

open Run (takeList finalStore Delivers SameTake IsList)

variable {p : Program} {depth n : Nat} {run : Runner} {g : HeapId} {i : IteratorId} {s m e f : Store} {c d x y : CellId}
  {K : List Frame} {v : Value} {vs : List Value} {read made : List (CellId × CellId)} {place place' : Place}

/-! ## A pull that looks for an element of a list -/

namespace Iterator

theorem pull_of_spine (hk : s.cursor i = .spine place) :
    pull run i s = compute i (do return (← step run place).map fun item => (item.1, .spine item.2)) s := by
  unfold pull
  rw [Run.bind_ok (Run.get_apply s), hk]

theorem pull_of_item (hk : s.cursor i = .spine place)
    (hstep : step run place (s.setCursor i .busy) = .ok (some (v, place')) e) :
    pull run i s = .ok (some v) (e.setCursor i (.spine place')) := by
  rw [pull_of_spine hk, compute_apply, guarded_apply, Run.bind_ok hstep]
  rfl

theorem pull_of_end (hk : s.cursor i = .spine place) (hstep : step run place (s.setCursor i .busy) = .ok none e) :
    pull run i s = .ok none (e.setCursor i .finished) := by
  rw [pull_of_spine hk, compute_apply, guarded_apply, Run.bind_ok hstep]
  rfl

theorem pull_of_raised {z : FaultId} (hk : s.cursor i = .spine place)
    (hstep : step run place (s.setCursor i .busy) = .error (.raised z) e) :
    pull run i s = .error (.raised (passed z e).1) ((passed z e).2.setCursor i .finished) := by
  rw [pull_of_spine hk, compute_apply, guarded_apply, Run.bind_error hstep]

theorem pull_of_tooDeep (hk : s.cursor i = .spine place)
    (hstep : step run place (s.setCursor i .busy) = .error .tooDeep e) : pull run i s = .error .tooDeep e := by
  rw [pull_of_spine hk, compute_apply, guarded_apply, Run.bind_error hstep]

end Iterator

/-! ## A cell that a pull was made for -/

namespace Store

/-- The store that a cell of a list over an iterator, having got an item, leaves: a node whose head has the item. -/
def relayed (e : Store) (g : HeapId) (i : IteratorId) (x : CellId) (v : Value) (heaps : Array Heap) : Store :=
  (e.branched g i v).valued x (.cons e.nextTag (.cell e.cells.size) (.cell (e.cells.size + 1))) heaps

variable {heaps : Array Heap}

theorem size_relayed (e : Store) (g : HeapId) (i : IteratorId) (x : CellId) (v : Value) (heaps : Array Heap) :
    (e.relayed g i x v heaps).cells.size = e.cells.size + 2 := (size_valued _ x _ heaps).trans (size_branched e g i v)

theorem state_relayed_of_lt (hd : d < e.cells.size) (hne : d ≠ x) : (e.relayed g i x v heaps).state d = e.state d := by
  have hlt : d < (e.register g (.evaluated v)).cells.size := (size_register e g _).symm ▸ Nat.lt_succ_of_lt hd
  exact (state_valued_of_ne (s := e.branched g i v) hne _ heaps).trans
    ((state_register_of_lt hlt g _).trans (state_register_of_lt hd g _))

theorem state_relayed_head (hx : x < e.cells.size) :
    (e.relayed g i x v heaps).state e.cells.size = .evaluated v := by
  have hlt : e.cells.size < (e.register g (.evaluated v)).cells.size := (size_register e g _).symm ▸ Nat.lt_succ_self _
  exact (state_valued_of_ne (s := e.branched g i v) (Nat.ne_of_gt hx) _ heaps).trans
    ((state_register_of_lt hlt g _).trans (state_register_new e g _))

theorem state_relayed_tail (hx : x < e.cells.size) :
    (e.relayed g i x v heaps).state (e.cells.size + 1) = .suspended (.iteratorNode i) := by
  have hnew := state_register_new (e.register g (.evaluated v)) g (.suspended (.iteratorNode i))
  rw [size_register] at hnew
  exact (state_valued_of_ne (s := e.branched g i v) (Nat.ne_of_gt (Nat.lt_succ_of_lt hx)) _ heaps).trans hnew

end Store

/-- **A cell of a list over an iterator that gives an item**, on a heap that serves then: its node has the item, and a
cell that waits for the next one. -/
theorem force_of_item (ha : s.active = some g) (hx : s.state x = .suspended (.iteratorNode i))
    (hpull : Iterator.pull (p.runAt depth) i (s.began x g (.iteratorNode i)) = .ok (some v) e) (he : e.Serves g)
    (hv : (e.heap g).samplesForces.truth? = some true → Store.OnlyCells v.refs) : ∃ heaps,
    force (p.runAt (depth + 1)) x s = .ok (.cons e.nextTag (.cell e.cells.size) (.cell (e.cells.size + 1)))
      (e.relayed g i x v heaps) ∧ (e.relayed g i x v heaps).Serves g := by
  have hproduce : Thunk.produce p (p.runAt depth) (.iteratorNode i) (s.began x g (.iteratorNode i)) = _ :=
    Sequence.iteratorNode_of_item hpull he.active
  exact force_valued p depth ha hx hproduce (he.branched i hv) (Store.onlyCells_pair _ _)

/-- A cell of a list over an iterator that has no more items. -/
theorem force_of_end (ha : s.active = some g) (hx : s.state x = .suspended (.iteratorNode i))
    (hpull : Iterator.pull (p.runAt depth) i (s.began x g (.iteratorNode i)) = .ok none e) (he : e.Serves g) : ∃ heaps,
    force (p.runAt (depth + 1)) x s = .ok .listEnd (e.valued x .listEnd heaps) ∧
      (e.valued x .listEnd heaps).Serves g := by
  have hproduce : Thunk.produce p (p.runAt depth) (.iteratorNode i) (s.began x g (.iteratorNode i)) = _ :=
    Sequence.iteratorNode_of_exhausted hpull
  exact force_valued p depth ha hx hproduce he onlyCells_listEnd

namespace Store

/-- The store in which a pull that a cell of a list over an iterator was forced for looks for an element: the cell is in
progress, and the iterator is busy. -/
def visited (s : Store) (g : HeapId) (i : IteratorId) (x : CellId) : Store :=
  (s.began x g (.iteratorNode i)).setCursor i .busy

/-- A cell waits for the next item of an iterator, which will look for it at a cell of another list. -/
structure Poised (s : Store) (g : HeapId) (i : IteratorId) (x c : CellId) : Prop where
  serves : s.Serves g
  waits : s.state x = .suspended (.iteratorNode i)
  place : ∃ place, s.cursor i = .spine place ∧ ∀ m, Iterator.listAt place m = .ok (.cell c) m

theorem serves_visited (h : s.Serves g) : (s.visited g i x).Serves g :=
  (h.began_of_opaque (t := .iteratorNode i) rfl x).congr rfl rfl rfl

theorem state_visited_of_ne (hd : d ≠ x) : (s.visited g i x).state d = s.state d := state_began_of_ne s hd g _

/-- Where a heap that can count its forces samples them, the values of evaluated cells refer to nothing but cells. -/
theorem Serves.onlyCells (h : s.Serves g) (hc : s.state c = .evaluated v)
    (hsamples : (s.heap g).samplesForces.truth? = some true) : OnlyCells v.refs := by
  have hrefs := (h.sampled hsamples).refs c
  rwa [show s.refs c = v.refs from refs_of_state hc] at hrefs

/-- The second store differs from the first in the state of one cell only, and no error is lost. -/
structure DiffersAt (s e : Store) (x : CellId) : Prop where
  state : ∀ c ≠ x, e.state c = s.state c
  address : ∀ c, e.address c = s.address c
  fault : ∀ (z : FaultId) y, s.faults[z]? = some y → e.faults[z]? = some y

theorem Denies.of_differsAt {r : Refusal} (h : s.Denies c r) (hd : s.DiffersAt e x) (hc : c ≠ x) : e.Denies c r :=
  h.congr (hd.state c hc) (hd.address c) hd.fault

/-- One more element was read through an iterator, in a store that is left as the pull is over: a node was made whose
head has the value of the element, and the next cell waits for what follows the element in the other list. -/
structure Gains (e f : Store) (g : HeapId) (i : IteratorId) (x next : CellId) (v : Value) : Prop where
  poised : f.Poised g i (e.cells.size + 1) next
  lt_size : e.cells.size < f.cells.size
  head : f.state e.cells.size = .evaluated v
  kept : ∀ b < e.cells.size, b ≠ x → f.state b = e.state b

namespace Poised
variable (h : s.Poised g i x c)
include h

theorem began (K : List Frame) : Moment.Leads ⟨s, K⟩ ⟨s.visited g i x, .force x g :: K⟩ :=
  .head (.force s K x g _ h.waits h.serves.active) (.single (.change _ (.iterated _ _)))

/-- Until the pull is over, the cell is in progress. -/
theorem running (hs : Moment.Sound ⟨s, K⟩) (hruns : (s.visited g i x).Runs m) :
    m.state x = .inProgress (.iteratorNode i) :=
  running_of_runs hs h.waits (.trans (.of_step (.iterated _ _)) hruns)

/-- The iterator is still there when its list has been looked at. -/
theorem lt_iterators {head : CellId} {w : Value} (hnode : force (p.runAt depth) c (s.visited g i x) = .ok w m)
    (hhead : force (p.runAt depth) head m = .ok v e) : i < e.iterators.size := by
  obtain ⟨place, hplace, -⟩ := h.place
  have hthere : i < s.iterators.size := lt_of_cursor (by rw [hplace]; exact Cursor.noConfusion)
  have hfirst := (Run.composed_force c).iterators_le (p.obeys_runAt Moment.law_lasts depth) (s.visited g i x)
  have hsecond := (Run.composed_force head).iterators_le (p.obeys_runAt Moment.law_lasts depth) m
  rw [hnode] at hfirst
  rw [hhead] at hsecond
  have hsize : (s.visited g i x).iterators.size = s.iterators.size := size_setCursor ..
  exact Nat.lt_of_lt_of_le (hsize ▸ hthere) (Nat.le_trans hfirst hsecond)

/-- **One more element is read through the iterator.** -/
theorem step {head next : CellId} {tag : Tag} (hs : Moment.Sound ⟨s, K⟩)
    (hnode : force (p.runAt depth) c (s.visited g i x) = .ok (.cons tag (.cell head) (.cell next)) m)
    (hhead : force (p.runAt depth) head m = .ok v e) (he : e.Serves g) : ∃ f,
    force (p.runAt (depth + 1)) x s = .ok (.cons e.nextTag (.cell e.cells.size) (.cell (e.cells.size + 1))) f ∧
      e.Gains f g i x next v := by
  obtain ⟨place, hplace, hlist⟩ := h.place
  have hstep : Iterator.step (p.runAt depth) place (s.visited g i x) =
      .ok (some (v, .past (.cons tag (.cell head) (.cell next)))) e := by
    rw [Sequence.step_of_node (hlist _) hnode, Run.map_apply, hhead]
  have hpull := Iterator.pull_of_item (s := s.began x g (.iteratorNode i)) hplace hstep
  let E := e.setCursor i (.spine (.past (.cons tag (.cell head) (.cell next))))
  have hE : E.Serves g := he.congr rfl rfl rfl
  have hx : x < e.cells.size :=
    lt_of_state (h.running hs ((runs_of_force_ok hnode).trans (runs_of_force_ok hhead))) (by simp)
  obtain ⟨heaps, hforce, hserves⟩ :=
    force_of_item h.serves.active h.waits hpull hE (he.onlyCells (force_ok_state hhead))
  have hcursor : E.cursor i = .spine (.past (.cons tag (.cell head) (.cell next))) :=
    cursor_setCursor_of_lt (h.lt_iterators hnode hhead) _
  exact ⟨_, hforce, ⟨hserves, state_relayed_tail hx, _, hcursor, fun _ => rfl⟩,
    (size_relayed E g i x v heaps).symm ▸ Nat.lt_add_of_pos_right (Nat.succ_pos 1), state_relayed_head hx,
    fun b hb hbx => state_relayed_of_lt (e := E) hb hbx⟩

/-- What was forced has its value from then on. -/
theorem stays_evaluated {b : CellId} {w : Value} (hs : Moment.Sound ⟨s, K⟩) (hruns : (s.visited g i x).Runs m)
    (hforce : force (p.runAt depth) b m = .ok w e) (hlt : b < e.cells.size) (hlater : e.Runs f) :
    f.state b = .evaluated w :=
  have hm := (hs.leads (h.began K)).leads (hruns _)
  (hlater _).value (hm.leads (runs_of_force_ok hforce _)) (force_ok_state hforce) hlt

/-- What was forced for an element keeps its value when the element has been read through the iterator. -/
theorem kept_evaluated {b next : CellId} {w : Value} (hs : Moment.Sound ⟨s, K⟩) (hruns : (s.visited g i x).Runs e)
    (hgains : e.Gains f g i x next v) (hb : e.state b = .evaluated w) (hlt : b < e.cells.size) :
    b < f.cells.size ∧ f.state b = .evaluated w := by
  have hne : b ≠ x := by
    rintro rfl
    cases (h.running hs hruns).symm.trans hb
  exact ⟨hlt.trans hgains.lt_size, (hgains.kept b hlt hne).trans hb⟩

/-- An error that is raised while the pull looks for an element fails the cell that the pull was made for. -/
theorem fails {z : FaultId} {r : Refusal} (hs : Moment.Sound ⟨s, K⟩) (hruns : (s.visited g i x).Runs m)
    (hz : r.Names z m) (hstep : ∀ place, (∀ m, Iterator.listAt place m = .ok (.cell c) m) →
      Iterator.step (p.runAt depth) place (s.visited g i x) = .error (.raised z) m) : ∃ z' f,
    force (p.runAt (depth + 1)) x s = .error (.raised z') f ∧ r.passed.Names z' f ∧
      f.Denies x (.known z' r.passed.raised) ∧ m.DiffersAt f x := by
  obtain ⟨place, hplace, hlist⟩ := h.place
  have hpull := Iterator.pull_of_raised (s := s.began x g (.iteratorNode i)) hplace (hstep place hlist)
  have hnames := hz.passed
  obtain ⟨tags, made, raised, hpassed⟩ := Iterator.spends_passed z m
  generalize (Iterator.passed z m).1 = z' at *
  generalize (Iterator.passed z m).2 = E at *
  have hforce : force (p.runAt (depth + 1)) x s = .error (.raised z') ((E.setCursor i .finished).aborted x z') := by
    have hproduce : Thunk.produce p (p.runAt depth) (.iteratorNode i) (s.began x g (.iteratorNode i)) = _ :=
      Sequence.iteratorNode_of_error hpull
    rw [force_of_suspended p depth h.serves.active h.waits, hproduce]
  have hlt : x < E.cells.size := by
    have hx : x < m.cells.size := lt_of_state (h.running hs hruns) (by simp)
    rw [hpassed]
    exact hx
  refine ⟨z', _, hforce, ⟨hnames.told, hnames.same⟩, .failed (state_setState_self _ x _ hlt) hnames.told,
    fun b hb => ?_, fun b => ?_, fun w y hw => ?_⟩
  · rw [show m.state b = E.state b by rw [hpassed]; rfl]
    exact state_setState_of_ne _ _ hb
  · rw [show m.address b = E.address b by rw [hpassed]; rfl]
    exact address_setState ..
  · have hE : E.faults[w]? = some y := by
      rw [hpassed]
      exact (Array.getElem?_append_left (Array.getElem?_eq_some_iff.1 hw).1).trans hw
    exact hE

theorem tooDeep (hstep : ∀ place, (∀ m, Iterator.listAt place m = .ok (.cell c) m) →
    Iterator.step (p.runAt depth) place (s.visited g i x) = .error .tooDeep m) :
    force (p.runAt (depth + 1)) x s = .error .tooDeep m := by
  obtain ⟨place, hplace, hlist⟩ := h.place
  have hpull := Iterator.pull_of_tooDeep (s := s.began x g (.iteratorNode i)) hplace (hstep place hlist)
  have hproduce : Thunk.produce p (p.runAt depth) (.iteratorNode i) (s.began x g (.iteratorNode i)) = _ :=
    Sequence.iteratorNode_of_error hpull
  rw [force_of_suspended p depth h.serves.active h.waits, hproduce]

end Poised

/-- A list over an iterator stops where the list stops that the iterator looks at.  Both stop there from then on: the
one in one way, and the other in the way that this is passed on. -/
structure Passes (s : Store) (d y : CellId) (rest : Nat) (result result' : EStateM.Result Halt Store Unit)
    (r r' : Option Refusal) : Prop where
  passed : r'.map Refusal.passed = r'
  found : Delivers (fun _ => True) r result
  comes : Delivers (fun _ => True) (r.map .passed) result'
  stays : Delivers (fun _ => True) r' result'
  list : (finalStore result').Closes d rest r
  relayed : (finalStore result').Closes y rest r'
  runs : s.Runs (finalStore result')

end Store

namespace Sequence

/-- One more element can be read through an iterator, for a cell of the list over it: it can be read while this cell is
in progress, and this cell is none of those that are forced for it. -/
structure Offers (run : Runner) (g : HeapId) (i : IteratorId) (x c : CellId) (s : Store) : Prop where
  readable : Readable run g c (s.visited g i x)
  cell : c ≠ x
  head : ∀ tag head next m, force run c (s.visited g i x) = .ok (.cons tag (.cell head) (.cell next)) m → head ≠ x

end Sequence

open Sequence (Readable Offers)

namespace Store.Poised
variable (h : s.Poised g i y d)
include h

/-- An error of the list is passed on. -/
theorem passes {z : FaultId} {r : Refusal} (hs : Moment.Sound ⟨s, K⟩) (hruns : (s.visited g i y).Runs m)
    (hz : r.Names z m) (hstep : ∀ place, (∀ m, Iterator.listAt place m = .ok (.cell d) m) →
      Iterator.step (p.runAt depth) place (s.visited g i y) = .error (.raised z) m)
    (hcloses : ∀ f, m.DiffersAt f y → f.Closes d (n + 1) (some r)) : ∃ result' r',
    Over (p.runAt (depth + 1)) y s (n + 1) result' ∧
      s.Passes d y (n + 1) (.error (.raised z) m) result' (some r) r' := by
  obtain ⟨z', f, hfails, hnames, hy, hdiffers⟩ := h.fails hs hruns hz hstep
  exact ⟨_, some (.known z' r.passed.raised), .fails (.list hfails), congrArg some (r.passed_known z'), .raises hz,
    .raises hnames, .raises ⟨hnames.told, fun _ _ hw => by cases hw; rfl⟩, hcloses f hdiffers, .list hy,
    runs_of_force_raised hfails⟩

/-- **Where the list stops that the iterator looks at, the list over the iterator stops**, in the same way. -/
theorem ends (hs : Moment.Sound ⟨s, K⟩) {rest : Nat} {result : EStateM.Result Halt Store Unit}
    (hover : Over (p.runAt depth) d (s.visited g i y) rest result)
    (hoffers : rest ≠ 0 → Offers (p.runAt depth) g i y d s) : ∃ result', Over (p.runAt (depth + 1)) y s rest result' ∧
      ((∃ e, result = .error .tooDeep e ∧ result' = .error .tooDeep e) ∨
        ∃ r r', s.Passes d y rest result result' r r') := by
  cases hover with
  | done =>
    exact ⟨_, .done, .inr ⟨none, none, rfl, .gives trivial, .gives trivial, .gives trivial, .done, .done, .refl s⟩⟩
  | @ended m tag n hforce =>
    obtain ⟨hreadable, hcell, -⟩ := hoffers n.succ_ne_zero
    obtain ⟨place, hplace, hlist⟩ := h.place
    have hstep := Sequence.step_of_nil (hlist _) hforce
    have hpull := Iterator.pull_of_end (s := s.began y g (.iteratorNode i)) hplace hstep
    obtain ⟨heaps, hend, -⟩ :=
      force_of_end h.serves.active h.waits hpull ((hreadable.list.value _ m hforce).congr rfl rfl rfl)
    have hd : m.state d = .evaluated (.nil tag) := force_ok_state hforce
    have hclosed := (Store.state_valued_of_ne (s := m.setCursor i .finished) hcell .listEnd heaps).trans hd
    exact ⟨_, .ended hend, .inr ⟨none, none, rfl, .gives trivial, .gives trivial, .gives trivial, .ended hclosed,
      .ended (force_ok_state hend), runs_of_force_ok hend⟩⟩
  | @fails e halt n hfails =>
    obtain ⟨hreadable, hcell, hne⟩ := hoffers n.succ_ne_zero
    have hstep : ∀ place, (∀ m, Iterator.listAt place m = .ok (.cell d) m) →
        Iterator.step (p.runAt depth) place (s.visited g i y) = .error halt e := fun place hlist =>
      Sequence.step_of_fails (hlist _) hfails
    cases halt with
    | tooDeep => exact ⟨_, .fails (.list (h.tooDeep hstep)), .inl ⟨e, rfl, rfl⟩⟩
    | raised z =>
      obtain ⟨r, hnames, hruns, hdenies⟩ :=
        hreadable.denies_of_fails (hs.leads (h.began K)) (serves_visited h.serves).active hfails
      obtain ⟨result', r', hover, hpasses⟩ := h.passes (n := n) hs hruns hnames hstep fun f hf => by
        obtain hd | ⟨tag, head, next, m, hnode, hd, hhead⟩ := hdenies
        · exact .list (hd.of_differsAt hf hcell)
        · exact .element ((hf.state d hcell).trans hd) (hhead.of_differsAt hf (hne tag head next m hnode))
      exact ⟨result', hover, .inr ⟨some r, r', hpasses⟩⟩

end Store.Poised

/-- As far as `n` elements are read through an iterator, each of them can be read, and none of the cells that are
forced for it is the one that the pull is made for.  It is taken as it is at the time: the list over the iterator grows
with the elements. -/
def Sequence.Relays (p : Program) (depth : Nat) (g : HeapId) (i : IteratorId) : Nat → CellId → CellId → Store → Prop
  | 0, _, _, _ => True
  | n + 1, x, c, s => Offers (p.runAt depth) g i x c s ∧ ∀ tag head next m w e,
      force (p.runAt depth) c (s.visited g i x) = .ok (.cons tag (.cell head) (.cell next)) m →
        force (p.runAt depth) head m = .ok w e →
        Relays p depth g i n (e.cells.size + 1) next (finalStore (force (p.runAt (depth + 1)) x s))

/-- Elements of a list are read through an iterator, one after the other: for each of them a cell of the list over the
iterator is forced, and while this cell is in progress the next cell of the list and the head of its node are.  The
element is the value of the head of the new node. -/
inductive Through (p : Program) (depth : Nat) (g : HeapId) (i : IteratorId) : CellId → CellId → Store →
    List (CellId × CellId) → List (CellId × CellId) → List Value → CellId → CellId → Store → Prop
  | here (x c : CellId) (s : Store) : Through p depth g i x c s [] [] [] x c s
  | next {x c head next y d : CellId} {s e f f' : Store} {tag : Tag} {v : Value} {read made : List (CellId × CellId)}
    {vs : List Value} (hpoised : s.Poised g i x c)
    (hread : Taken (p.runAt depth) c (s.visited g i x) [(c, head)] [v] next e)
    (hnode : force (p.runAt (depth + 1)) x s = .ok (.cons tag (.cell e.cells.size) (.cell (e.cells.size + 1))) f)
    (hlt : e.cells.size < f.cells.size) (hhead : f.state e.cells.size = .evaluated v)
    (hrest : Through p depth g i (e.cells.size + 1) next f read made vs y d f') :
    Through p depth g i x c s ((c, head) :: read) ((x, e.cells.size) :: made) (v :: vs) y d f'

/-- What cells of a list are forced through an iterator over it, to take `n` elements of the list over the iterator:
those of the elements, each with its head, and one more, with its head if there is one, if these were not enough.  The
take comes to what it would if it had done the forces itself, or runs out of depth where the last of them does. -/
def Sequence.AsksThrough (p : Program) (depth : Nat) (g : HeapId) (i : IteratorId) (n : Nat) (x c : CellId) (s : Store)
    (read : List (CellId × CellId)) (vs : List Value) (d : CellId) (take : EStateM.Result Halt Store Value) : Prop :=
  ∃ made y f rest result, Through p depth g i x c s read made vs y d f ∧ vs.length + rest = n ∧ f.Poised g i y d ∧
    Over (p.runAt depth) d (f.visited g i y) rest result ∧
    (SameTake (handedOut vs result) take ∨ ∃ e, result = .error .tooDeep e ∧ take = .error .tooDeep e)

namespace Through

/-- A take from the list over the iterator reads what is found. -/
theorem taken (h : Through p depth g i x c s read made vs y d f) : Taken (p.runAt (depth + 1)) x s made vs y f := by
  induction h with
  | here => exact .here _ _
  | next _ _ hnode hlt hhead _ ih => exact .next hnode hlt (force_evaluated hhead _) ih

end Through

/-- **The list is read through the iterator up to where it stops**, and what was read of it is there for good. -/
theorem Store.Poised.through (h : s.Poised g i x c) (hs : Moment.Sound ⟨s, K⟩)
    (hr : Sequence.Relays p depth g i n x c s) : ∃ read made vs y d f rest result,
    Through p depth g i x c s read made vs y d f ∧ vs.length + rest = n ∧ f.Poised g i y d ∧ s.Runs f ∧
      (∀ m, Moment.Leads ⟨f, K⟩ m → m.store.Shows c read vs d) ∧ Over (p.runAt depth) d (f.visited g i y) rest result ∧
      (rest ≠ 0 → Offers (p.runAt depth) g i y d f) := by
  induction n generalizing x c s with
  | zero =>
    exact ⟨[], [], [], x, c, s, 0, _, .here x c s, rfl, h, .refl s, fun m _ => .here c, .done,
      fun hne => absurd rfl hne⟩
  | succ n ih =>
    obtain ⟨hoffers, hfollows⟩ := hr
    rcases hoffers.readable.cases with ⟨tag, head, next, m, v, e, hnode, hlt, hhead, he⟩ | ⟨result, hover⟩
    · obtain ⟨f, hforce, hgains⟩ := h.step hs hnode hhead he
      have hread := (runs_of_force_ok hnode).trans (runs_of_force_ok hhead)
      have hclt : c < m.cells.size := lt_of_state (force_ok_state hnode) (by simp)
      have hec := h.stays_evaluated hs (.refl _) hnode hclt (runs_of_force_ok hhead)
      obtain ⟨-, hfc⟩ := h.kept_evaluated hs hread hgains hec (lt_of_state hec (by simp))
      obtain ⟨hheadlt, hfv⟩ :=
        h.kept_evaluated hs hread hgains (force_ok_state hhead) ((runs_of_force_ok hhead).lt_size hlt)
      have hruns := runs_of_force_ok hforce
      have hrelays := hfollows tag head next m v e hnode hhead
      rw [hforce] at hrelays
      have hf := hs.leads (hruns K)
      obtain ⟨read, made, vs, y, d, f', rest, result, hthrough, hn, hy, hrest, hshows, hlast⟩ :=
        ih hgains.poised hf hrelays
      refine ⟨_, _, _, y, d, f', rest, result, .next h (.next hnode hlt hhead (.here next e)) hforce
        hgains.lt_size hgains.head hthrough, by rw [List.length_cons]; omega, hy, hruns.trans hrest,
        fun a ha => ?_, hlast⟩
      have hlater : Moment.Leads ⟨f, K⟩ a := (hrest K).trans ha
      obtain ⟨st, hst⟩ := initial?_eq_some_of_lt hheadlt
      exact .next (hlater.evaluated hf hfc (by simp)) (lt_of_initial? (Moment.Leads.initial? hlater hst))
        (hlater.value hf hfv hheadlt) (hshows a ha)
    · exact ⟨[], [], [], x, c, s, n + 1, result, .here x c s, Nat.zero_add _, h, .refl s, fun m _ => .here c, hover n,
        fun _ => hoffers⟩

/-- **A take from the list over the iterator comes to what the iterator has found**, and unless the depth is exceeded, it
decides what a take from this list comes to from then on. -/
theorem Through.take {rest : Nat} {result : EStateM.Result Halt Store Unit}
    (h : Through p depth g i x c s read made vs y d f) (hs : Moment.Sound ⟨s, K⟩)
    (hn : vs.length + rest ≤ sizeLimit) (hf : f.Poised g i y d)
    (hover : Over (p.runAt depth) d (f.visited g i y) rest result)
    (hoffers : rest ≠ 0 → Offers (p.runAt depth) g i y d f) :
    let first := takeList (p.runAt (depth + 1)) (.int (vs.length + rest : Nat)) (.cell x) s
    Sequence.AsksThrough p depth g i (vs.length + rest) x c s read vs d first ∧
    ((∃ e, result = .error .tooDeep e ∧ first = .error .tooDeep e) ∨ ∃ r r', r'.map Refusal.passed = r' ∧
      Delivers (fun _ => True) r result ∧ Delivers (IsList vs) (r.map .passed) first ∧ Delivers (IsList vs) r' first ∧
      (finalStore first).Closes d rest r ∧ (finalStore first).Decided x (vs.length + rest) made vs y r' ∧
      f.Runs (finalStore first)) := by
  intro first
  have htaken := h.taken
  have hfs := hs.leads (htaken.runs K)
  obtain ⟨result', hover', hends⟩ := hf.ends hfs hover hoffers
  have hfirst : first = Sequence.handedOut vs result' := Sequence.takeList_of_over htaken hover' hn
  rw [hfirst]
  rcases hends with ⟨e, he, rfl⟩ | ⟨r, r', hpasses⟩
  · exact ⟨⟨made, y, f, rest, result, h, rfl, hf, hover, .inr ⟨e, he, rfl⟩⟩, .inl ⟨e, he, rfl⟩⟩
  · have hlist' := Sequence.delivers_handedOut hpasses.stays vs
    have hlist := Sequence.delivers_handedOut hpasses.comes vs
    rw [hpasses.passed] at hlist'
    have hagain : (r.map Refusal.passed).map Refusal.passed = r.map .passed := by
      cases r with
      | none => rfl
      | some r => exact congrArg some r.passed_passed
    rw [hagain] at hlist
    have hspends := Sequence.spends_handedOut vs result'
    have hsound := hfs.leads (hpasses.runs K)
    have hfinal : Moment.Leads ⟨finalStore result', K⟩ ⟨finalStore (Sequence.handedOut vs result'), K⟩ := hspends.runs K
    have hshows := htaken.shows hs ((hpasses.runs K).trans hfinal)
    have hsame := (Sequence.delivers_handedOut hpasses.found vs).same hlist
    have hrelayed := hpasses.relayed.leads hsound hfinal hspends.engages
    exact ⟨⟨made, y, f, rest, result, h, rfl, hf, hover, .inl hsame⟩, .inr ⟨r, r', hpasses.passed, hpasses.found, hlist,
      hlist', hpasses.list.leads hsound hfinal hspends.engages, ⟨hshows, rest, rfl, hrelayed⟩,
      hpasses.runs.trans hspends.runs⟩⟩

namespace Sequence

/-! ## What was read before is read through the iterator -/

theorem keeps_of_denies {r : Refusal} (hs : s.Serves g) (hc : s.Denies c r) : Keeps run g c s := by
  obtain ⟨z, raised, hforce, hnames⟩ := hc.force
  refine ⟨fun w m hw => ?_, fun z' m hz => ?_⟩
  · cases (hforce run).symm.trans hw
  · cases (hforce run).symm.trans hz
    exact ⟨hs.congr rfl rfl rfl, (Array.getElem?_eq_some_iff.1 hnames.told).1⟩

end Sequence

namespace Store
variable {r : Option Refusal} {t : Thunk}

/-- Where a list stops, one more element can be read. -/
theorem Closes.readable (h : s.Closes d (n + 1) r) (hs : s.Serves g) (run : Runner) : Readable run g d s := by
  cases h with
  | ended hd => exact .of_nil (force_evaluated hd run) hs
  | list hd =>
    obtain ⟨z, raised, hforce, -⟩ := hd.force
    refine ⟨Sequence.keeps_of_denies hs hd, fun w m hw => ?_, fun _ _ _ m hw => ?_⟩ <;> cases (hforce run).symm.trans hw
  | element hd hhead => exact .of_node (force_evaluated hd run) hs hhead.lt_size (Sequence.keeps_of_denies hs hhead)

theorem ne_of_waits (hx : s.state x = .suspended t) (hc : s.state c ≠ .suspended t) : c ≠ x := fun h => hc (h ▸ hx)

/-- A cell that raises an error is none that waits. -/
theorem Denies.ne {r : Refusal} (h : s.Denies c r) (hx : s.state x = .suspended t) : c ≠ x := by
  refine ne_of_waits hx ?_
  cases h with
  | failed hc | notAnError hc | running hc => simp [hc]

namespace Poised
variable (h : s.Poised g i x c)
include h

theorem evaluated_visited (hd : s.state d = .evaluated v) : (s.visited g i x).state d = .evaluated v :=
  (state_visited_of_ne (ne_of_waits h.waits (by simp [hd]))).trans hd

theorem denies_visited {r : Refusal} (hd : s.Denies d r) : (s.visited g i x).Denies d r :=
  hd.congr (state_visited_of_ne (hd.ne h.waits)) (address_setState ..) fun _ _ hz => hz

/-- Where a list stops, it stops when the iterator looks for an element. -/
theorem closes_visited {rest : Nat} (hd : s.Closes d rest r) : (s.visited g i x).Closes d rest r := by
  cases hd with
  | done => exact .done
  | ended hd => exact .ended (h.evaluated_visited hd)
  | list hd => exact .list (h.denies_visited hd)
  | element hd hhead => exact .element (h.evaluated_visited hd) (h.denies_visited hhead)

theorem offers_of_closes (hd : s.Closes d (n + 1) r) (run : Runner) : Offers run g i x d s := by
  have hreadable := (h.closes_visited hd).readable (serves_visited h.serves) run
  cases hd with
  | ended hd =>
    refine ⟨hreadable, ne_of_waits h.waits (by simp [hd]), fun _ _ _ m hforce => ?_⟩
    cases (force_evaluated (h.evaluated_visited hd) run).symm.trans hforce
  | list hd =>
    obtain ⟨z, raised, hdenied, -⟩ := (h.denies_visited hd).force
    refine ⟨hreadable, hd.ne h.waits, fun _ _ _ m hforce => ?_⟩
    cases (hdenied run).symm.trans hforce
  | element hd hhead =>
    refine ⟨hreadable, ne_of_waits h.waits (by simp [hd]), fun _ _ _ m hforce => ?_⟩
    cases (force_evaluated (h.evaluated_visited hd) run).symm.trans hforce
    exact hhead.ne h.waits

end Poised
end Store

/-- **What was read of a list is read through an iterator again.** -/
theorem Store.Shows.through (p : Program) (depth : Nat) (h : s.Shows c read vs d) (hs : Moment.Sound ⟨s, K⟩)
    (hlater : Moment.Leads ⟨s, K⟩ ⟨m, K⟩) (hengages : s.Engages m) (hpoised : m.Poised g i x c) :
    ∃ made y f, Through p depth g i x c m read made vs y d f ∧ f.Poised g i y d ∧ m.Runs f ∧ s.Engages f := by
  induction h generalizing m x with
  | here c => exact ⟨[], x, m, .here x c m, hpoised, .refl m, hengages⟩
  | @next c head next d tag v read vs hc hlt hv _ ih =>
    obtain ⟨st, hst⟩ := initial?_eq_some_of_lt hlt
    have hb := hpoised.evaluated_visited (hlater.evaluated hs hc (by simp))
    have hbv := hpoised.evaluated_visited (hlater.value hs hv hlt)
    have hbs : (m.visited g i x).Serves g := serves_visited hpoised.serves
    have hsize : (m.visited g i x).cells.size = m.cells.size := size_setState m x _
    have hblt : head < (m.visited g i x).cells.size := hsize ▸ lt_of_initial? (Moment.Leads.initial? hlater hst)
    obtain ⟨e, hforce, hgains⟩ :=
      hpoised.step (hs.leads hlater) (force_evaluated hb (p.runAt depth)) (force_evaluated hbv _) hbs
    have hruns := runs_of_force_ok hforce
    have hkept : s.Engages e := fun b t hbt => by
      have hmb := hengages b t hbt
      have hne : b ≠ x := ne_of_waits hpoised.waits (by simp [hmb])
      exact (hgains.kept b (hsize ▸ lt_of_state hmb (by simp)) hne).trans ((state_visited_of_ne hne).trans hmb)
    obtain ⟨made, y, f, hthrough, hf, hrest, hlast⟩ := ih (hlater.trans (hruns K)) hkept hgains.poised
    have hread : Taken (p.runAt depth) c (m.visited g i x) [(c, head)] [v] next (m.visited g i x) :=
      .next (force_evaluated hb _) hblt (force_evaluated hbv _) (.here _ _)
    exact ⟨_, y, f, .next hpoised hread hforce hgains.lt_size hgains.head hthrough, hf, hruns.trans hrest, hlast⟩

/-- **A take from the list over an iterator comes to what was decided of the list before**, and decides what a take
from it comes to from then on. -/
theorem Store.Decided.through (p : Program) (depth : Nat) {r : Option Refusal} (h : s.Decided c n read vs d r)
    (hs : Moment.Sound ⟨s, K⟩) (hn : n ≤ sizeLimit) (hpoised : s.Poised g i x c) :
    let again := takeList (p.runAt (depth + 1)) (.int n) (.cell x) s
    Sequence.AsksThrough p depth g i n x c s read vs d again ∧
      (∀ first, Delivers (IsList vs) (r.map .passed) first → SameTake first again) ∧
      ∃ made y r', r'.map Refusal.passed = r' ∧ Delivers (IsList vs) r' again ∧
        (finalStore again).Decided x n made vs y r' ∧ s.Runs (finalStore again) := by
  intro again
  obtain ⟨hshows, rest, rfl, hcloses⟩ := h
  obtain ⟨made, y, f, hthrough, hf, hruns, hengages⟩ := hshows.through p depth hs .refl (fun _ _ h => h) hpoised
  have hfcloses := hcloses.leads hs (hruns K) hengages
  have hoffers : rest ≠ 0 → Offers (p.runAt depth) g i y d f := fun hne => by
    obtain ⟨n, rfl⟩ := Nat.exists_eq_succ_of_ne_zero hne
    exact hf.offers_of_closes hfcloses (p.runAt depth)
  obtain ⟨result, hover, hdelivers, -⟩ := (hf.closes_visited hfcloses).over (p.runAt depth)
  obtain ⟨hasks, htake⟩ := hthrough.take hs hn hf hover hoffers
  refine ⟨hasks, ?_⟩
  rcases htake with ⟨e, he, -⟩ | ⟨r₁, r', hpassed, hdelivers₁, hlist, hlist', -, hy, hlast⟩
  · rw [he] at hdelivers
    cases hdelivers
  · exact ⟨fun first hfirst => hdelivers.same_of_result hdelivers₁ hfirst hlist, made, y, r', hpassed, hlist', hy,
      hruns.trans hlast⟩

end Retention
