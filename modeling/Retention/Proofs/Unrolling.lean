import Retention.Proofs.Growth
/-!
# Unrolling — one node of a list

What a force of a list makes, for each kind of suspended list: the node of an interval, of a concatenation, and of a
lap.  Each equation comes with its frame (`Store.Grown`) and with the states of the cells it changed and made; the
cells it made are numbered from the size of the store on.
-/
namespace Retention

open Store (Hosts Grown)

variable {p : Program} {depth : Nat} {s : Store} {h : HeapId}

namespace Run

theorem activeHeap_eq (ha : s.active = some h) : activeHeap s = .ok h s := by rw [activeHeap_apply, ha]

theorem suspend_apply (ha : s.active = some h) (t : Thunk) :
    suspend t s = .ok s.cells.size (s.register h (.suspended t)) := bind_ok (activeHeap_eq ha)

theorem suspendSelf_apply (ha : s.active = some h) (thunk : CellId → Thunk) :
    suspendSelf thunk s = .ok s.cells.size (s.register h (.suspended (thunk s.cells.size))) := bind_ok (activeHeap_eq ha)

@[simp] theorem freshTag_apply (s : Store) : freshTag s = .ok s.nextTag s.tagged := rfl

@[simp] theorem cons_apply (head tail : Value) (s : Store) :
    cons head tail s = .ok (.cons s.nextTag head tail) s.tagged := rfl

theorem lengthBetween_apply {r : Interval} (hr : r.length ≤ sizeLimit) (s : Store) :
    lengthBetween (.int r.lo) (.int r.hi) s = .ok r.length s := by
  have hlength : r.length? = some r.length := (r.length?_eq_some_iff _).2 ⟨rfl, hr⟩
  unfold lengthBetween
  rw [show Value.between? (.int r.lo) (.int r.hi) = some r from rfl]
  simp only [hlength]
  rfl

end Run

/-! ## Intervals -/

namespace Sequence

theorem between_apply (ha : s.active = some h) (lo hi : Value) : between lo hi s =
    .ok s.cells.size (s.tagged.register h (.suspended (.intervalNode s.nextTag lo hi))) :=
  (Run.bind_ok (Run.freshTag_apply s)).trans (Run.suspend_apply (s := s.tagged) ha _)

theorem intervalNode_apply {r : Interval} (ha : s.active = some h) (hne : r.lo ≤ r.hi) (hr : r.length ≤ sizeLimit)
    (tag : Tag) : intervalNode tag (.int r.lo) (.int r.hi) s =
      .ok (.cons (s.nextTag + 1) (.cell s.cells.size) (.cell (s.cells.size + 1)))
        ((s.register h (.suspended (.intervalHead tag (.int r.lo) (.int r.hi)))).tagged.register h
          (.suspended (.intervalNode s.nextTag (.int r.rest.lo) (.int r.rest.hi)))).tagged := by
  have hlength : r.length ≠ 0 := fun h0 => absurd ((r.length_eq_zero_iff).1 h0) (Int.not_lt.2 hne)
  let head := Thunk.intervalHead tag (.int r.lo) (.int r.hi)
  let m := s.register h (.suspended head)
  have hsize : m.cells.size = s.cells.size + 1 := Store.size_register ..
  unfold intervalNode
  rw [Run.bind_ok (Run.lengthBetween_apply hr s), if_neg hlength, Run.bind_ok (Run.suspend_apply ha head),
    Run.bind_ok (show successor (.int r.lo) m = .ok (.int r.rest.lo) m from rfl),
    Run.bind_ok (between_apply (s := m) ha (.int r.rest.lo) (.int r.hi)), Run.cons_apply]
  rw [← hsize]
  rfl

theorem intervalNode_of_nonempty {r : Interval} (ha : s.active = some h) (hvalid : h < s.heaps.size) (hne : r.lo ≤ r.hi)
    (hr : r.length ≤ sizeLimit) (tag : Tag) : ∃ next rest e,
      intervalNode tag (.int r.lo) (.int r.hi) s = .ok (.cons next (.cell s.cells.size) (.cell (s.cells.size + 1))) e ∧
      Grown h s e 2 0 [] ∧ e.state s.cells.size = .suspended (.intervalHead tag (.int r.lo) (.int r.hi)) ∧
      e.state (s.cells.size + 1) = .suspended (.intervalNode rest (.int r.rest.lo) (.int r.rest.hi)) := by
  let m := s.register h (.suspended (.intervalHead tag (.int r.lo) (.int r.hi)))
  have hm : Grown h s m 1 0 [] := .register hvalid _
  let tail := Thunk.intervalNode m.nextTag (.int r.rest.lo) (.int r.rest.hi)
  let e := m.tagged.register h (.suspended tail)
  have he : Grown h m.tagged e 1 0 [] := .register (s := m.tagged) (hm.heaps ▸ hvalid) _
  have hsize : m.cells.size = s.cells.size + 1 := hm.size
  refine ⟨_, m.nextTag, e.tagged, intervalNode_apply ha hne hr tag,
    (hm.trans ((Grown.tagged h m).trans he)).trans (.tagged h e), ?_, ?_⟩
  · refine (he.state s.cells.size ?_ List.not_mem_nil).trans (Store.state_register_new s h _)
    show s.cells.size < m.cells.size
    omega
  · rw [← hsize]
    exact Store.state_register_new m.tagged h (.suspended tail)

theorem intervalNode_of_empty {r : Interval} (hempty : r.hi < r.lo) (tag : Tag) (s : Store) :
    intervalNode tag (.int r.lo) (.int r.hi) s = .ok .listEnd s := by
  have hlength : r.length = 0 := (r.length_eq_zero_iff).2 hempty
  have hr : r.length ≤ sizeLimit := hlength ▸ Nat.zero_le _
  unfold intervalNode
  rw [Run.bind_ok (Run.lengthBetween_apply hr s), if_pos hlength]
  rfl

theorem element_zero {r : Interval} (hne : r.lo ≤ r.hi) (hr : r.length ≤ sizeLimit) (tag : Tag) (s : Store) :
    element tag (.int r.lo) (.int r.hi) (.int 0) s = .ok (.int r.lo) s := by
  have hlength : (0 : Int) < r.length := by
    have := mt (r.length_eq_zero_iff).1 (Int.not_lt.2 hne)
    omega
  unfold element
  simp only [show (Value.int 0).int? = some 0 from rfl, show ¬ (0 : Int) < 0 from Int.lt_irrefl 0, if_false]
  rw [Run.bind_ok (Run.lengthBetween_apply hr s), if_pos hlength]
  simp only [show (Value.int r.lo).int? = some r.lo from rfl, Int.add_zero]
  rfl

end Sequence

/-- The list over an interval that is not empty: its node refers to two new cells, of the first element and of the list
over the rest. -/
theorem force_interval (p : Program) (depth : Nat) {r : Interval} {tag : Tag} {c : CellId} (hs : s.Hosts h)
    (hc : s.state c = .suspended (.intervalNode tag (.int r.lo) (.int r.hi))) (hne : r.lo ≤ r.hi)
    (hr : r.length ≤ sizeLimit) : ∃ next rest e,
      force (p.runAt (depth + 1)) c s = .ok (.cons next (.cell s.cells.size) (.cell (s.cells.size + 1))) e ∧
      Grown h s e 2 1 [c] ∧ e.state c = .evaluated (.cons next (.cell s.cells.size) (.cell (s.cells.size + 1))) ∧
      e.state s.cells.size = .suspended (.intervalHead tag (.int r.lo) (.int r.hi)) ∧
      e.state (s.cells.size + 1) = .suspended (.intervalNode rest (.int r.rest.lo) (.int r.rest.hi)) := by
  have hlt := Store.lt_of_suspended hc
  have hb := Grown.began h s c (.intervalNode tag (.int r.lo) (.int r.hi))
  have hbs := hb.hosts hs
  obtain ⟨next, rest, e, hrun, hg, hhead, htail⟩ := Sequence.intervalNode_of_nonempty hbs.active hbs.valid hne hr tag
  rw [hb.size, Nat.add_zero] at hrun hhead htail
  obtain ⟨hforce, hall⟩ := force_suspended p depth hs hc hrun hg
  refine ⟨next, rest, _, hforce, hall, Store.state_finished_self ?_ h _, ?_, ?_⟩
  · exact Nat.lt_of_lt_of_le hlt (hb.trans hg).size_le
  · rw [Store.state_finished_of_ne _ (Nat.ne_of_gt hlt), hhead]
  · rw [Store.state_finished_of_ne _ (Nat.ne_of_gt (Nat.lt_succ_of_lt hlt)), htail]

/-- The list over an empty interval is at its end. -/
theorem force_interval_empty (p : Program) (depth : Nat) {r : Interval} {tag : Tag} {c : CellId} (hs : s.Hosts h)
    (hc : s.state c = .suspended (.intervalNode tag (.int r.lo) (.int r.hi))) (hempty : r.hi < r.lo) : ∃ e,
      force (p.runAt (depth + 1)) c s = .ok .listEnd e ∧ Grown h s e 0 1 [c] ∧ e.state c = .evaluated .listEnd := by
  have hb := Grown.began h s c (.intervalNode tag (.int r.lo) (.int r.hi))
  obtain ⟨hforce, hall⟩ := force_suspended p depth hs hc
    (Sequence.intervalNode_of_empty hempty tag _) (.refl h _)
  exact ⟨_, hforce, hall, Store.state_finished_self (hb.size ▸ Store.lt_of_suspended hc) h _⟩

/-- The first element of an interval. -/
theorem force_intervalHead (p : Program) (depth : Nat) {r : Interval} {tag : Tag} {c : CellId} (hs : s.Hosts h)
    (hc : s.state c = .suspended (.intervalHead tag (.int r.lo) (.int r.hi))) (hne : r.lo ≤ r.hi)
    (hr : r.length ≤ sizeLimit) : ∃ e,
      force (p.runAt (depth + 1)) c s = .ok (.int r.lo) e ∧ Grown h s e 0 1 [c] ∧ e.state c = .evaluated (.int r.lo) := by
  have hb := Grown.began h s c (.intervalHead tag (.int r.lo) (.int r.hi))
  obtain ⟨hforce, hall⟩ := force_suspended p depth hs hc (Sequence.element_zero hne hr tag _) (.refl h _)
  exact ⟨_, hforce, hall, Store.state_finished_self (hb.size ▸ Store.lt_of_suspended hc) h _⟩

/-! ## Concatenations -/

namespace Sequence
variable {run : Runner} {x y : CellId} {m : Store}

theorem appendNode_of_cons {tag : Tag} {head tail ys : Value} (ha : m.active = some h)
    (hx : force run x s = .ok (.cons tag head tail) m) : appendNode run (.cell x) ys s =
      .ok (.cons m.nextTag head (.cell m.cells.size)) (m.register h (.suspended (.appendNode tail ys))).tagged := by
  unfold appendNode
  rw [Run.bind_ok (show forceValue run (.cell x) s = _ from hx)]
  dsimp only
  rw [Run.bind_ok (show append tail ys m = _ from Run.suspend_apply ha _)]
  rfl

theorem appendNode_of_nil {tag : Tag} (hx : force run x s = .ok (.nil tag) m) :
    appendNode run (.cell x) (.cell y) s = force run y m := by
  unfold appendNode
  rw [Run.bind_ok (show forceValue run (.cell x) s = _ from hx)]
  rfl

theorem appendNode_of_error {ys : Value} {e : Halt} (hx : force run x s = .error e m) :
    appendNode run (.cell x) ys s = .error e m := by
  unfold appendNode
  rw [Run.bind_error (show forceValue run (.cell x) s = _ from hx)]

end Sequence

/-- The concatenation of a list that is not at its end: its node has the head of that list, and a new cell for the
concatenation of the tail. -/
theorem force_append {c x : CellId} {ys head tail : Value} {tag : Tag} {e : Store} {made forced : Nat}
    {changed : List CellId} (hs : s.Hosts h) (hc : s.state c = .suspended (.appendNode (.cell x) ys))
    (hx : force (p.runAt depth) x (s.began c h (.appendNode (.cell x) ys)) = .ok (.cons tag head tail) e)
    (hg : Grown h (s.began c h (.appendNode (.cell x) ys)) e made forced changed) : ∃ next e',
      force (p.runAt (depth + 1)) c s = .ok (.cons next head (.cell e.cells.size)) e' ∧
      Grown h s e' (made + 1) (forced + 1) (c :: changed) ∧
      e'.state c = .evaluated (.cons next head (.cell e.cells.size)) ∧
      e'.state e.cells.size = .suspended (.appendNode tail ys) ∧
      ∀ b < e.cells.size, b ≠ c → e'.state b = e.state b := by
  have hb := Grown.began h s c (.appendNode (.cell x) ys)
  have hlt := Store.lt_of_suspended hc
  have hbe := hb.trans hg
  have he := hbe.hosts hs
  have hgrown : Grown h e (e.register h (.suspended (.appendNode tail ys))) 1 0 [] := .register he.valid _
  obtain ⟨hforce, hall⟩ := force_suspended _ _ hs hc (Sequence.appendNode_of_cons he.active hx)
    ((hg.trans hgrown).trans (.tagged h _))
  refine ⟨_, _, hforce, hall.mono fun b _ hmem => by simpa using hmem, ?_, ?_, fun b hlt' hne => ?_⟩
  · exact Store.state_finished_self (Nat.lt_of_lt_of_le hlt (hbe.trans hgrown).size_le) h _
  · rw [Store.state_finished_of_ne _ (Nat.ne_of_gt (Nat.lt_of_lt_of_le hlt hbe.size_le))]
    exact Store.state_register_new e h _
  · rw [Store.state_finished_of_ne _ hne]
    exact Store.state_register_of_lt hlt' h _

/-- The concatenation of a list at its end is the second list. -/
theorem force_append_end {c x y : CellId} {tag : Tag} {v : Value} {m e : Store} {made forced : Nat}
    {changed : List CellId} (hs : s.Hosts h) (hc : s.state c = .suspended (.appendNode (.cell x) (.cell y)))
    (hx : force (p.runAt depth) x (s.began c h (.appendNode (.cell x) (.cell y))) = .ok (.nil tag) m)
    (hy : force (p.runAt depth) y m = .ok v e)
    (hg : Grown h (s.began c h (.appendNode (.cell x) (.cell y))) e made forced changed) :
    force (p.runAt (depth + 1)) c s = .ok v (e.finished c h v) ∧
      Grown h s (e.finished c h v) made (forced + 1) (c :: changed) := by
  exact force_suspended _ _ hs hc ((Sequence.appendNode_of_nil hx).trans hy) hg

/-! ## Laps -/

theorem Cycle.lap_of_cons {run : Runner} {x : CellId} {head tail : Value} {tag : Tag} {m : Store} (ha : m.active = some h)
    (hx : force run x s = .ok (.cons tag head tail) m) (next : Thunk) : lap run (.cell x) next s =
      force run (m.cells.size + 1) ((m.register h (.suspended next)).register h
        (.suspended (.appendNode (.cell x) (.cell m.cells.size)))) := by
  let e := m.register h (.suspended next)
  have hsize : e.cells.size = m.cells.size + 1 := Store.size_register ..
  unfold lap
  rw [Run.bind_ok (show Run.cellOf "state" (.cell x) s = .ok x s from rfl), Run.bind_ok hx,
    Run.bind_ok (show Run.truth (.cons tag head tail) m = .ok true m from rfl)]
  simp only [Bool.not_true, Bool.false_eq_true, if_false]
  rw [Run.bind_ok (Run.suspend_apply ha next),
    Run.bind_ok (show Sequence.append _ _ e = _ from Run.suspend_apply (s := e) ha _), hsize]

theorem Cycle.lap_of_nil {run : Runner} {x : CellId} {tag : Tag} {m : Store} (hx : force run x s = .ok (.nil tag) m)
    (next : Thunk) : lap run (.cell x) next s = .error (.raised m.faults.size)
      { m with faults := m.faults.push ⟨.emptyCycle (m.address x), [.cell x]⟩ } := by
  unfold lap
  rw [Run.bind_ok (show Run.cellOf "state" (.cell x) s = .ok x s from rfl), Run.bind_ok hx,
    Run.bind_ok (show Run.truth (.nil tag) m = .ok false m from rfl)]
  rfl

theorem Cycle.lap_of_error {run : Runner} {x : CellId} {m : Store} {e : Halt} (hx : force run x s = .error e m)
    (next : Thunk) : lap run (.cell x) next s = .error e m := by
  unfold lap
  rw [Run.bind_ok (show Run.cellOf "state" (.cell x) s = .ok x s from rfl), Run.bind_error hx]

theorem Cycle.lap_of_nonempty {x : CellId} (next : Thunk) {head tail : Value} {tag : Tag} {e : Store}
    {made forced : Nat} {changed : List CellId} (hs : s.Hosts h)
    (hx : force (p.runAt (depth + 1)) x s = .ok (.cons tag head tail) e) (hg : Grown h s e made forced changed)
    (hv : e.state x = .evaluated (.cons tag head tail)) : ∃ node e',
      Cycle.lap (p.runAt (depth + 1)) (.cell x) next s = .ok (.cons node head (.cell (e.cells.size + 2))) e' ∧
      Grown h s e' (made + 3) (forced + 1) changed ∧ e'.state e.cells.size = .suspended next ∧
      e'.state (e.cells.size + 2) = .suspended (.appendNode tail (.cell e.cells.size)) ∧
      ∀ b < e.cells.size, e'.state b = e.state b := by
  have hxlt := Store.lt_of_state hv (by simp)
  have he := hg.hosts hs
  let lapCell := e.register h (.suspended next)
  have hlap : Grown h e lapCell 1 0 [] := .register he.valid _
  let thunk := Thunk.appendNode (.cell x) (.cell e.cells.size)
  let m := lapCell.register h (.suspended thunk)
  have hm : Grown h lapCell m 1 0 [] := .register (hlap.hosts he).valid _
  have hsize : lapCell.cells.size = e.cells.size + 1 := hlap.size
  have hold : ∀ b < e.cells.size, m.state b = e.state b := fun b hb => (hlap.trans hm).state b hb List.not_mem_nil
  have hc : m.state (e.cells.size + 1) = .suspended thunk := hsize ▸ Store.state_register_new lapCell h _
  -- the list is evaluated by now, so the first node of the lap is made from it at once
  have hxb : (m.began (e.cells.size + 1) h thunk).state x = .evaluated (.cons tag head tail) := by
    rw [Store.state_began_of_ne _ (Nat.ne_of_lt (Nat.lt_succ_of_lt hxlt)), hold x hxlt, hv]
  have hmsize : (m.began (e.cells.size + 1) h thunk).cells.size = e.cells.size + 2 :=
    ((hlap.trans hm).trans (.began h m _ _)).size
  obtain ⟨node, e', hforce, hall, -, hrest, hother⟩ :=
    force_append (p := p) ((hlap.trans hm).hosts he) hc (force_evaluated hxb (p.runAt depth)) (.refl h _)
  rw [hmsize] at hforce hrest hother
  refine ⟨node, e', ?_, (((hg.trans hlap).trans hm).trans hall).mono fun b hb hmem => ?_, ?_, hrest, fun b hb => ?_⟩
  · exact (Cycle.lap_of_cons he.active hx next).trans hforce
  · have hne : b ≠ e.cells.size + 1 := Nat.ne_of_lt (Nat.lt_of_lt_of_le hb (Nat.le_succ_of_le hg.size_le))
    simpa [hne] using hmem
  · have hne : e.cells.size ≠ e.cells.size + 1 := Nat.ne_of_lt (Nat.lt_succ_self _)
    rw [hother _ (Nat.lt_add_of_pos_right (by decide)) hne, Store.state_began_of_ne _ hne]
    exact (hm.state _ (hsize ▸ Nat.lt_succ_self _) List.not_mem_nil).trans (Store.state_register_new e h _)
  · have hne : b ≠ e.cells.size + 1 := Nat.ne_of_lt (Nat.lt_succ_of_lt hb)
    rw [hother b (Nat.lt_add_right 2 hb) hne, Store.state_began_of_ne _ hne, hold b hb]

/-- **A cell whose thunk is a lap of a list that is not empty**: its node has the first head of the list, and a new cell
for the concatenation of the tail with the next lap, a new cell as well. -/
theorem force_lap {c x : CellId} {t next : Thunk} {head tail : Value} {tag : Tag} {m e : Store}
    {made made' forced forced' : Nat} {changed changed' : List CellId} (hs : s.Hosts h) (hc : s.state c = .suspended t)
    (ht : t.produce p (p.runAt (depth + 1)) (s.began c h t) = Cycle.lap (p.runAt (depth + 1)) (.cell x) next m)
    (hm : Grown h (s.began c h t) m made forced changed)
    (hx : force (p.runAt (depth + 1)) x m = .ok (.cons tag head tail) e) (hg : Grown h m e made' forced' changed')
    (hv : e.state x = .evaluated (.cons tag head tail)) : ∃ node e',
      force (p.runAt (depth + 2)) c s = .ok (.cons node head (.cell (e.cells.size + 2))) e' ∧
      Grown h s e' (made + (made' + 3)) (forced + (forced' + 1) + 1) (c :: (changed ++ changed')) ∧
      e'.state c = .evaluated (.cons node head (.cell (e.cells.size + 2))) ∧
      e'.state e.cells.size = .suspended next ∧
      e'.state (e.cells.size + 2) = .suspended (.appendNode tail (.cell e.cells.size)) ∧
      ∀ b < e.cells.size, b ≠ c → e'.state b = e.state b := by
  have hbegan := Grown.began h s c t
  have hms := hm.hosts (hbegan.hosts hs)
  obtain ⟨node, e', hlap, hall, hnext, hrest, hold⟩ := Cycle.lap_of_nonempty next hms hx hg hv
  obtain ⟨hforce, hframe⟩ := force_suspended _ _ hs hc (ht.trans hlap) (hm.trans hall)
  have hclt : c < e.cells.size :=
    Nat.lt_of_lt_of_le (Store.lt_of_suspended hc) ((hbegan.trans hm).trans hg).size_le
  refine ⟨node, _, hforce, hframe, ?_, ?_, ?_, fun b hb hbc => ?_⟩
  · have hsize := ((hbegan.trans hm).trans hall).size_le
    exact Store.state_finished_self (Nat.lt_of_lt_of_le (Store.lt_of_suspended hc) hsize) h _
  · rw [Store.state_finished_of_ne _ (Nat.ne_of_gt hclt), hnext]
  · rw [Store.state_finished_of_ne _ (Nat.ne_of_gt (Nat.lt_add_right 2 hclt)), hrest]
  · rw [Store.state_finished_of_ne _ hbc, hold b hb]

/-- A lap of a list that is at its end raises the error that it cannot be repeated. -/
theorem force_lap_of_nil {c x : CellId} {t next : Thunk} {tag : Tag} {m e : Store} (ha : s.active = some h)
    (hc : s.state c = .suspended t)
    (ht : t.produce p (p.runAt depth) (s.began c h t) = Cycle.lap (p.runAt depth) (.cell x) next m)
    (hx : force (p.runAt depth) x m = .ok (.nil tag) e) : force (p.runAt (depth + 1)) c s =
      .error (.raised e.faults.size)
        (Store.aborted { e with faults := e.faults.push ⟨.emptyCycle (e.address x), [.cell x]⟩ } c e.faults.size) := by
  rw [force_of_suspended p depth ha hc, ht, Cycle.lap_of_nil hx]

theorem force_lap_of_error {c x : CellId} {t next : Thunk} {y : FaultId} {m e : Store} (ha : s.active = some h)
    (hc : s.state c = .suspended t)
    (ht : t.produce p (p.runAt depth) (s.began c h t) = Cycle.lap (p.runAt depth) (.cell x) next m)
    (hx : force (p.runAt depth) x m = .error (.raised y) e) :
    force (p.runAt (depth + 1)) c s = .error (.raised y) (e.aborted c y) := by
  rw [force_of_suspended p depth ha hc, ht, Cycle.lap_of_error hx]

end Retention
