import Retention.Proofs.Relaying
import Retention.Proofs.Splitting
/-!
# RoundTrip — lists and iterators are read from each other

Items that are put into a lazy list through an iterator come out of it again, and a list that is put into another one
through an iterator is read from it as it is itself.
-/
namespace Retention

open Run (takeList finalStore Delivers SameTake IsList)
open Sequence (Readable Behaves Relays Asks AsksThrough Again)

variable {p : Program} {depth n : Nat} {run : Runner} {g : HeapId} {i : IteratorId} {s m e f : Store} {c d x y : CellId}
  {K : List Frame} {v : Value} {vs : List Value} {read made : List (CellId × CellId)} {place : Place}

/-! ## The items of a list or a tuple -/

namespace Iterator
variable {j : IteratorId}

theorem pull_of_items {rest : List Value} (hk : s.cursor i = .items (v :: rest)) :
    pull run i s = .ok (some v) (s.setCursor i (.items rest)) := by
  unfold pull
  rw [Run.bind_ok (Run.get_apply s), hk]
  rfl

theorem pull_of_empty (hk : s.cursor i = .items []) : pull run i s = .ok none (s.setCursor i .finished) := by
  unfold pull
  rw [Run.bind_ok (Run.get_apply s), hk]
  rfl

end Iterator

namespace Store

theorem cursor_setCursor_of_ne {j : IteratorId} (hij : i ≠ j) (s : Store) (k : Cursor) :
    (s.setCursor j k).cursor i = s.cursor i := by
  unfold cursor setCursor
  dsimp only
  rw [Array.getElem?_modify, if_neg (Ne.symm hij)]

/-- An iterator stands before the first cell of a list over another one, which has these items, and the heap can count
the forces that it takes to give them. -/
structure Walks (s : Store) (g : HeapId) (i j : IteratorId) (x : CellId) (items : List Value) : Prop where
  apart : i ≠ j
  serves : s.Serves g
  waits : s.state x = .suspended (.iteratorNode i)
  given : s.cursor i = .items items
  place : ∃ place, s.cursor j = .spine place ∧ ∀ m, Iterator.listAt place m = .ok (.cell x) m
  traced : (s.heap g).samplesForces.truth? = some true → ∀ w ∈ items, OnlyCells w.refs

namespace Walks
variable {j : IteratorId} {rest : List Value}

theorem ends (p : Program) (depth : Nat) (h : s.Walks g i j x []) : ∃ e,
    Iterator.pull (p.runAt (depth + 1)) j s = .ok none e := by
  obtain ⟨place, hj, hplace⟩ := h.place
  let b := s.setCursor j .busy
  have hb : b.Serves g := h.serves.congr rfl rfl rfl
  have hi : b.cursor i = .items [] := (cursor_setCursor_of_ne h.apart s _).trans h.given
  have hpull : Iterator.pull (p.runAt depth) i (b.began x g (.iteratorNode i)) = _ := Iterator.pull_of_empty hi
  obtain ⟨heaps, hforce, -⟩ := force_of_end hb.active h.waits hpull ((hb.began_of_opaque rfl x).congr rfl rfl rfl)
  exact ⟨_, Iterator.pull_of_end hj (Sequence.step_of_nil (hplace _) hforce)⟩

/-- **One item goes through the list over the iterator.** -/
theorem step (p : Program) (depth : Nat) (h : s.Walks g i j x (v :: rest)) : ∃ y e,
    Iterator.pull (p.runAt (depth + 1)) j s = .ok (some v) e ∧ e.Walks g i j y rest := by
  obtain ⟨place, hj, hplace⟩ := h.place
  let b := s.setCursor j .busy
  have hb : b.Serves g := h.serves.congr rfl rfl rfl
  have hi : b.cursor i = .items (v :: rest) := (cursor_setCursor_of_ne h.apart s _).trans h.given
  have hpull : Iterator.pull (p.runAt depth) i (b.began x g (.iteratorNode i)) = _ := Iterator.pull_of_items hi
  let E := (b.began x g (.iteratorNode i)).setCursor i (.items rest)
  have hE : E.Serves g := (hb.began_of_opaque (t := .iteratorNode i) rfl x).congr rfl rfl rfl
  obtain ⟨heaps, hforce, hserves⟩ := force_of_item hb.active h.waits hpull hE fun hs => h.traced hs v List.mem_cons_self
  let f := E.relayed g i x v heaps
  have hx : x < E.cells.size := (size_setState b x _).symm ▸ lt_of_suspended h.waits
  have hhead : force (p.runAt (depth + 1)) E.cells.size f = .ok v f := force_evaluated (state_relayed_head hx) _
  have hstep : Iterator.step (p.runAt (depth + 1)) place b =
      .ok (some (v, .past (.cons E.nextTag (.cell E.cells.size) (.cell (E.cells.size + 1))))) f := by
    rw [Sequence.step_of_node (hplace _) hforce, Run.map_apply, hhead]
  have hlti : i < b.iterators.size := lt_of_cursor (by rw [hi]; exact Cursor.noConfusion)
  have hltj : j < E.iterators.size := by
    have hlt : j < s.iterators.size := lt_of_cursor (by rw [hj]; exact Cursor.noConfusion)
    rwa [show E.iterators.size = s.iterators.size from (size_setCursor ..).trans (size_setCursor ..)]
  have hwaits : f.state (E.cells.size + 1) = .suspended (.iteratorNode i) := state_relayed_tail hx
  refine ⟨E.cells.size + 1, _, Iterator.pull_of_item hj hstep, h.apart, hserves.congr rfl rfl rfl, hwaits, ?_,
    ⟨_, cursor_setCursor_of_lt (s := f) hltj _, fun _ => rfl⟩, fun hs w hw => h.traced ?_ w (List.mem_cons_of_mem v hw)⟩
  · exact (cursor_setCursor_of_ne h.apart f _).trans (cursor_setCursor_of_lt hlti _)
  · have hruns : Moment.Leads ⟨b, []⟩ ⟨f, []⟩ := runs_of_force_ok hforce []
    have hsame : (f.heap g).samplesForces = (s.heap g).samplesForces :=
      congrArg Prod.snd (hruns.flags hb.valid).2
    exact hsame ▸ hs

end Walks
end Store

/-- **A walk along the list over an iterator gives the items of the iterator.** -/
theorem Iterator.drainOnto_of_walks (p : Program) (depth : Nat) {j : IteratorId} {items : List Value}
    (h : s.Walks g i j x items) (hn : items.length ≤ n) (taken : List Value) : ∃ e,
    drainOnto (p.runAt (depth + 1)) j n taken s = .ok (taken.reverse ++ items) e := by
  induction items generalizing n s x taken with
  | nil =>
    cases n with
    | zero => exact ⟨s, by rw [List.append_nil]; rfl⟩
    | succ n =>
      obtain ⟨e, hpull⟩ := h.ends p depth
      refine ⟨e, ?_⟩
      unfold drainOnto
      rw [Run.bind_ok hpull, List.append_nil]
      rfl
  | cons v rest ih =>
    obtain ⟨n, rfl⟩ : ∃ m, n = m + 1 := Nat.exists_eq_add_one.2 (Nat.zero_lt_of_lt hn)
    obtain ⟨y, e, hpull, hrest⟩ := h.step p depth
    obtain ⟨f, hf⟩ := ih hrest (Nat.le_of_succ_le_succ hn) (v :: taken)
    refine ⟨f, ?_⟩
    unfold drainOnto
    rw [Run.bind_ok hpull]
    dsimp only
    rw [hf, List.reverse_cons, List.append_assoc]
    rfl

theorem Iterator.items_iterator (run : Runner) (j : IteratorId) :
    items run (.iterator j) = drainOnto run j sizeLimit [] := by
  unfold items ofValue
  exact pure_bind j fun j => drainOnto run j sizeLimit []

/-! ## The lists that are made -/

namespace Store
variable {v : Value}

/-- A list is made over an iterator that looks at the cells of another list. -/
theorem poised_of_values (hs : s.Serves g) (run : Runner) (c : CellId) : ∃ x i e,
    (do let it ← ListOp.apply p run .values [.cell c]; ListOp.apply p run .fromIterable [it]) s = .ok (.cell x) e ∧
      e.Poised g i x c ∧ s.Runs e ∧ s.Engages e := by
  let m : Store := { s with iterators := s.iterators.push ⟨.elements, .spine (.before (.cell c))⟩ }
  have hm : m.Serves g := hs.congr rfl rfl rfl
  have hmade : Sequence.ofIterator s.iterators.size m =
      .ok m.cells.size (m.register g (.suspended (.iteratorNode s.iterators.size))) := Run.suspend_apply hm.active _
  have hcursor : m.cursor s.iterators.size = .spine (.before (.cell c)) := by
    unfold cursor
    rw [Array.getElem?_push_size]
    rfl
  refine ⟨m.cells.size, s.iterators.size, _, Run.bind_ok hmade,
    ⟨hm.register (onlyCells_map []), state_register_new m g _, _, hcursor, fun _ => rfl⟩, ?_, fun b t hb => ?_⟩
  · exact .trans (.of_step (.iterated s _)) (.of_step (.newCell m g _ hm.active))
  · exact (state_register_of_lt (s := m) (lt_of_state hb (by simp)) g _).trans hb

/-- A list is made of the items of a list or a tuple, and an iterator that stands before it. -/
theorem walks_of_items {items : List Value} {tag : Tag} (hs : s.Serves g)
    (hv : v = .list tag items ∨ v = .tuple tag items)
    (hitems : (s.heap g).samplesForces.truth? = some true → ∀ w ∈ items, OnlyCells w.refs) (run : Runner) : ∃ x i j e,
    (do let xs ← ListOp.apply p run .fromIterable [v]; ListOp.apply p run .values [xs]) s = .ok (.iterator j) e ∧
      e.Walks g i j x items := by
  obtain ⟨kind, hnew⟩ : ∃ kind, Iterator.ofValue v = Iterator.new kind (.items items) := by
    rcases hv with rfl | rfl
    · exact ⟨.list, rfl⟩
    · exact ⟨.tuple, rfl⟩
  let i := s.iterators.size
  let m : Store := { s with iterators := s.iterators.push ⟨kind, .items items⟩ }
  let b := m.register g (.suspended (.iteratorNode i))
  let e : Store := { b with iterators := b.iterators.push ⟨.elements, .spine (.before (.cell m.cells.size))⟩ }
  have hm : m.Serves g := hs.congr rfl rfl rfl
  have hb : b.Serves g := hm.register (onlyCells_map [])
  have hfrom : ListOp.apply p run .fromIterable [v] s = .ok (.cell m.cells.size) b := by
    have hlist : Sequence.ofIterator i m = .ok m.cells.size b := Run.suspend_apply hm.active _
    show (do return Value.cell (← Sequence.ofIterator (← Iterator.ofValue v))) s = _
    rw [hnew, Run.bind_ok (show Iterator.new kind (.items items) s = .ok i m from rfl), Run.bind_ok hlist]
    rfl
  have hsize : b.iterators.size = i + 1 := Array.size_push _
  refine ⟨m.cells.size, i, b.iterators.size, e, Run.bind_ok hfrom, ?_, hb.congr rfl rfl rfl,
    state_register_new m g _, ?_, ⟨.before (.cell m.cells.size), ?_, fun _ => rfl⟩, fun hsamples => hitems ?_⟩
  · rw [hsize]
    exact Nat.ne_of_lt (Nat.lt_succ_self i)
  · have hi : i < b.iterators.size := hsize ▸ Nat.lt_succ_self i
    have hcursor : m.cursor i = .items items := by
      unfold cursor
      rw [Array.getElem?_push_size]
      rfl
    refine Eq.trans ?_ hcursor
    unfold cursor
    rw [Array.getElem?_push_lt hi, ← Array.getElem?_eq_getElem hi]
    rfl
  · unfold cursor
    rw [Array.getElem?_push_size]
    rfl
  · rwa [show (e.heap g).samplesForces = (b.heap g).samplesForces from rfl, heap_register hm.valid] at hsamples

end Store

/-! ## Round trips -/

/-- **Lists and iterators are read from each other.**  The items of a list or a tuple go through a lazy list made over
an iterator, and come out of it again in order, the identical items; all that is asked is that the heap can count the
forces.

For any lazy list at all, let a list be made over an iterator that walks it.  As far as `n` elements are read, its
cells come to list nodes or to its end, or raise an error, the heap is left active, and the cells of the new list are
not forced by it (`Behaves`, `Relays`).

If `n` elements are first taken from the list itself, it forces cells of the list, each with its head, and returns their
elements, or ends as the last of these forces does (`Asks`).  If the depth is not exceeded there, then a take from the
new list at any later time forces the same cells of the list in the same order, each with its head, while the cells of
the new list are in progress, and it returns the identical elements or raises the same error (`AsksThrough`).

If they are first taken from the new list, cells of the list are forced like that, and it comes to what the forces come
to.  If the depth is not exceeded there, then a take from the list itself, at any later time, forces the same cells and
comes to the same.

In both cases a further take from the new list comes to the same, at any later time, and only forces cells of the new
list that are over; so it runs no thunk and forces no cell of the list (`Again`). -/
theorem lists_round_trip (p : Program) (depth : Nat) :
    let run := p.runAt (depth + 1)
    (∀ {s : Store} {g : HeapId} {v : Value} {tag : Tag} {items : List Value}, s.Serves g →
      (v = .list tag items ∨ v = .tuple tag items) → items.length ≤ sizeLimit →
      ((s.heap g).samplesForces.truth? = some true → ∀ w ∈ items, Store.OnlyCells w.refs) →
      ∃ e, (do
        let xs ← ListOp.apply p run .fromIterable [v]
        Iterator.items run (← ListOp.apply p run .values [xs])) s = .ok items e) ∧
    (∀ {s : Store} {g : HeapId} (c : CellId), s.Serves g → ∃ x i e, (do
        let it ← ListOp.apply p run .values [.cell c]
        ListOp.apply p run .fromIterable [it]) s = .ok (.cell x) e ∧ e.Poised g i x c ∧ s.Runs e ∧ s.Engages e) ∧
    (∀ {s : Store} {K : List Frame} {g : HeapId} {c : CellId} {n : Nat} (depth' : Nat), Moment.Sound ⟨s, K⟩ →
      n ≤ sizeLimit → s.active = some g → Behaves (p.runAt depth') g n c s →
      let first := takeList (p.runAt depth') (.int n) (.cell c) s
      ∃ read vs d, Asks (p.runAt depth') n c s read vs d first ∧ ((∀ e, first ≠ .error .tooDeep e) →
        s.Runs (finalStore first) ∧
        ∀ m, Moment.Leads ⟨finalStore first, K⟩ m → (finalStore first).Engages m.store →
          ∀ g' i x, m.store.Poised g' i x c →
            let second := takeList run (.int n) (.cell x) m.store
            AsksThrough p depth g' i n x c m.store read vs d second ∧ SameTake first second ∧
              ∃ made y, Again n x made vs y second m.pending)) ∧
    ∀ {s : Store} {K : List Frame} {g : HeapId} {i : IteratorId} {x c : CellId} {n : Nat}, Moment.Sound ⟨s, K⟩ →
      n ≤ sizeLimit → s.Poised g i x c → Relays p depth g i n x c s →
      let first := takeList run (.int n) (.cell x) s
      ∃ read vs d, AsksThrough p depth g i n x c s read vs d first ∧ ((∀ e, first ≠ .error .tooDeep e) →
        s.Runs (finalStore first) ∧ Again n c read vs d first K ∧ ∃ made y, Again n x made vs y first K) := by
  intro run
  refine ⟨fun hs hv hlength hitems => ?_, fun c hs => Store.poised_of_values hs run c,
    fun depth' hs hn ha hbehaves => ?_, fun {s K g i x c n} hs hn hpoised hrelays => ?_⟩
  · obtain ⟨x, i, j, e, hmade, hwalks⟩ := Store.walks_of_items hs hv hitems run
    obtain ⟨f, hdrain⟩ := Iterator.drainOnto_of_walks p depth hwalks hlength []
    rw [List.reverse_nil, List.nil_append] at hdrain
    refine ⟨f, ?_⟩
    rw [← bind_assoc, Run.bind_ok hmade, Iterator.items_iterator]
    exact hdrain
  · obtain ⟨read, vs, d, hasks, hends⟩ := Sequence.decided_of_behaves hs ha hn hbehaves
    refine ⟨read, vs, d, hasks, fun hdepth => ?_⟩
    obtain ⟨e, hdeep⟩ | ⟨r, hdecided, hdelivers, hruns⟩ := hends
    · exact absurd hdeep (hdepth e)
    · refine ⟨hruns, fun m hlater hengages g' i x hpoised => ?_⟩
      have hfinal := hs.leads (hruns _)
      have hm := hfinal.leads hlater
      obtain ⟨hthrough, hsame, made, y, r', hpassed, hlist, hmade, hlast⟩ :=
        (hdecided.leads hfinal hlater hengages).through p depth hm hn hpoised
      refine ⟨hthrough, hsame _ hdelivers, made, y, ?_⟩
      exact Sequence.again_of_decided hn (hm.leads (hlast _)) hmade (hpassed.symm ▸ hlist)
  · obtain ⟨read, made, vs, y, d, f, rest, result, hthrough, rfl, hf, hruns, hshows, hover, hoffers⟩ :=
      hpoised.through hs hrelays
    obtain ⟨hasks, hends⟩ := hthrough.take hs hn hf hover hoffers
    refine ⟨read, vs, d, hasks, fun hdepth => ?_⟩
    obtain ⟨e, -, hdeep⟩ | ⟨r, r', hpassed, -, hlist, hlist', hd, hy, hlast⟩ := hends
    · exact absurd hdeep (hdepth e)
    · have hall := hruns.trans hlast
      have hfinal := hs.leads (hall K)
      have hlists := Sequence.again_of_decided hn hfinal ⟨hshows _ (hlast K), rest, rfl, hd⟩ hlist
      exact ⟨hall, hlists, made, y, Sequence.again_of_decided hn hfinal hy (hpassed.symm ▸ hlist')⟩

/-! ## Lists over intervals -/

namespace Sequence
variable {r : Interval}

/-- An element of the list over an interval whose length can be taken can be read. -/
theorem readable_of_spans (p : Program) (depth : Nat) (hs : s.Serves g) (hc : s.Spans r c) (hr : r.length ≤ sizeLimit) :
    Readable (p.runAt (depth + 1)) g c s ∧ ∀ tag head next m,
      force (p.runAt (depth + 1)) c s = .ok (.cons tag (.cell head) (.cell next)) m →
        m.HeadOf r head ∧ ∀ w e, force (p.runAt (depth + 1)) head m = .ok w e → e.Serves g ∧ e.Spans r.rest next := by
  rcases lt_or_ge r.hi r.lo with hempty | hne
  · obtain ⟨e, hforce, he, -⟩ := force_spans_empty p depth hs hc hempty
    exact ⟨.of_nil hforce he, fun _ _ _ m hm => by cases hforce.symm.trans hm⟩
  · obtain ⟨tag, head, next, m, hforce, hm, -, -, -, hhn, -, hhead, hnext, -⟩ := force_spans p depth hs hc hne hr
    obtain ⟨e, helement, he, -, hothers⟩ := force_headOf p depth hm hhead hne hr
    have hlt : head < m.cells.size := by
      obtain ⟨_, hwaits⟩ := hhead
      exact Store.lt_of_suspended hwaits
    refine ⟨.of_node hforce hm hlt (.of_ok helement he), fun _ _ _ m hv => ?_⟩
    cases hforce.symm.trans hv
    refine ⟨hhead, fun w f hw => ?_⟩
    cases helement.symm.trans hw
    exact ⟨he, hnext.imp fun _ h => (hothers next hhn.symm).trans h⟩

/-- So the list is read as far as one likes, -/
theorem behaves_of_spans (p : Program) (depth : Nat) (hs : s.Serves g) (hc : s.Spans r c) (hr : r.length ≤ sizeLimit)
    (n : Nat) : Behaves (p.runAt (depth + 1)) g n c s := by
  induction n generalizing s c r with
  | zero => trivial
  | succ n ih =>
    obtain ⟨hreadable, hnode⟩ := readable_of_spans p depth hs hc hr
    refine ⟨hreadable, fun tag head next m w e hm he => ?_⟩
    obtain ⟨-, hrest⟩ := hnode tag head next m hm
    obtain ⟨hserves, hspans⟩ := hrest w e he
    exact ih hserves hspans (by rw [r.length_rest]; omega)

/-- also through an iterator. -/
theorem relays_of_spans (p : Program) (depth : Nat) (hs : Moment.Sound ⟨s, K⟩) (h : s.Poised g i x c) (hc : s.Spans r c)
    (hr : r.length ≤ sizeLimit) (n : Nat) : Relays p (depth + 1) g i n x c s := by
  induction n generalizing s x c r with
  | zero => trivial
  | succ n ih =>
    have hne : c ≠ x := by
      obtain ⟨tag, hwaits⟩ := hc
      exact Store.ne_of_waits h.waits (by simp [hwaits])
    have hspans : (s.visited g i x).Spans r c := hc.imp fun _ h => (Store.state_visited_of_ne hne).trans h
    obtain ⟨hreadable, hnode⟩ := readable_of_spans p depth (Store.serves_visited h.serves) hspans hr
    refine ⟨⟨hreadable, hne, fun tag head next m hm => ?_⟩, fun tag head next m w e hm he => ?_⟩
    · obtain ⟨⟨tag, hwaits⟩, -⟩ := hnode tag head next m hm
      rintro rfl
      cases (h.running hs (runs_of_force_ok hm)).symm.trans hwaits
    · obtain ⟨-, hrest⟩ := hnode tag head next m hm
      obtain ⟨hserves, hnext⟩ := hrest w e he
      obtain ⟨f, hforce, hgains⟩ := h.step hs hm he hserves
      rw [hforce]
      refine ih (hs.leads (runs_of_force_ok hforce K)) hgains.poised ?_ (by rw [r.length_rest]; omega)
      obtain ⟨tag', hwaits⟩ := hnext
      refine ⟨tag', (hgains.kept next (Store.lt_of_suspended hwaits) ?_).trans hwaits⟩
      rintro rfl
      cases (h.running hs ((runs_of_force_ok hm).trans (runs_of_force_ok he))).symm.trans hwaits

end Sequence

namespace RoundTrip
open Spanning Taking

/-- Three elements are taken from a list of two. -/
def taken : EStateM.Result Halt Store Value := takeList (Program.runAt [] 1) (.int 3) (.cell 0) (listed 7 8)

/-- From a list a list is made over an iterator that walks it. -/
def doubled : Store := finalStore ((do
  let it ← ListOp.apply [] (Program.runAt [] 2) .values [.cell 0]
  ListOp.apply [] (Program.runAt [] 2) .fromIterable [it]) (listed 7 8))

theorem serves_taken : (finalStore taken).Serves 0 where
  active := by decide +kernel
  valid := by decide +kernel
  forces := ⟨false, by decide +kernel⟩
  sampled h := by
    have hfalse : ((finalStore taken).heap 0).samplesForces.truth? = some false := by decide +kernel
    cases hfalse.symm.trans h

/-- Where numbers are taken, the depth is not exceeded. -/
theorem ne_tooDeep {result : EStateM.Result Halt Store Value} {numbers : List (Option Int)}
    (h : numbers? result = some numbers) : ∀ e, result ≠ .error .tooDeep e := by
  rintro e rfl
  cases h

end RoundTrip

open RoundTrip Spanning Taking in
/-- Two items go through a list; and of a list of two elements, three are taken, first from the list itself and then
through an iterator, or through an iterator first. -/
theorem lists_round_trip_seven_eight :
    Moment.Sound ⟨listed 7 8, []⟩ ∧ (listed 7 8).Serves 0 ∧ Behaves (Program.runAt [] 1) 0 3 0 (listed 7 8) ∧
    (∃ e, (do
      let xs ← ListOp.apply [] (Program.runAt [] 2) .fromIterable [.list 0 [.int 1, .int 2]]
      Iterator.items (Program.runAt [] 2) (← ListOp.apply [] (Program.runAt [] 2) .values [xs])) (listed 7 8) =
        .ok [.int 1, .int 2] e) ∧
    (∃ read vs d x i m, Asks (Program.runAt [] 1) 3 0 (listed 7 8) read vs d taken ∧ m.Poised 0 i x 0 ∧
      let second := takeList (Program.runAt [] 2) (.int 3) (.cell x) m
      AsksThrough [] 1 0 i 3 x 0 m read vs d second ∧ SameTake taken second) ∧
    ∃ i, Moment.Sound ⟨doubled, []⟩ ∧ doubled.Poised 0 i 1 0 ∧ Relays [] 1 0 i 3 1 0 doubled ∧ ∃ read vs d,
      let first := takeList (Program.runAt [] 2) (.int 3) (.cell 1) doubled
      AsksThrough [] 1 0 i 3 1 0 doubled read vs d first ∧ Again 3 0 read vs d first [] := by
  have hsound := sound_listed 7 8
  have hserves := serves_listed 7 8
  have hspans : (listed 7 8).Spans ⟨7, 8⟩ 0 := ⟨1, rfl⟩
  have hlimit : 3 ≤ sizeLimit := by decide
  have hbehaves := Sequence.behaves_of_spans [] 0 hserves hspans (by decide) 3
  obtain ⟨hitems, hmakes, hdirect, hthrough⟩ := lists_round_trip [] 1
  obtain ⟨e, hout⟩ := hitems hserves (.inl rfl) (v := .list 0 [.int 1, .int 2]) (by decide) fun hs => by cases hs
  refine ⟨hsound, hserves, hbehaves, ⟨e, hout⟩, ?_, ?_⟩
  · have hnumbers : numbers? taken = some [some 7, some 8] := by decide +kernel
    obtain ⟨read, vs, d, hasks, hends⟩ := hdirect 1 hsound hlimit hserves.active hbehaves
    obtain ⟨-, hlater⟩ := hends (ne_tooDeep hnumbers)
    obtain ⟨x, i, m, -, hpoised, hruns, hengages⟩ := hmakes 0 serves_taken
    obtain ⟨hthere, hsame, -⟩ := hlater ⟨m, []⟩ (hruns []) hengages 0 i x hpoised
    exact ⟨read, vs, d, x, i, m, hasks, hpoised, hthere, hsame⟩
  · obtain ⟨x, i, e, hmade, hpoised, hruns, -⟩ := hmakes 0 hserves
    have hdoubled : (do
        let it ← ListOp.apply [] (Program.runAt [] 2) .values [.cell 0]
        ListOp.apply [] (Program.runAt [] 2) .fromIterable [it]) (listed 7 8) = .ok (.cell 1) doubled := rfl
    cases hdoubled.symm.trans hmade
    have hlisted := hsound.leads (hruns [])
    have hrelays := Sequence.relays_of_spans [] 0 hlisted hpoised (r := ⟨7, 8⟩) ⟨1, rfl⟩ (by decide) 3
    obtain ⟨read, vs, d, hasks, hends⟩ := hthrough hlisted hlimit hpoised hrelays
    refine ⟨i, hlisted, hpoised, hrelays, read, vs, d, hasks, ?_⟩
    have hnumbers : numbers? (takeList (Program.runAt [] 2) (.int 3) (.cell 1) doubled) = some [some 7, some 8] := by
      decide +kernel
    obtain ⟨-, hagain, -⟩ := hends (ne_tooDeep hnumbers)
    exact hagain

end Retention
