import Retention.Proofs.Census
/-!
# NestedSamples — a repetition that is built anew is small while it is being built

What a consumer of a fresh repetition holds is a single cell, and after the first step a concatenation of what is left
of the present lap with the next one (`NestedSamples.Rest`).  A force of it runs other thunks, and a sample is taken when
each of them is done, while those around it still hold their arguments.

Within a lap there are two samples, of five cells each: the node of the list is done, and then the node of the
concatenation (`Rest.force_list`, `Rest.force_within`).  Where a lap ends there are five: the end of the list, and the
two inside the next lap, count the three cells that were live before, since nothing refers yet to what is being made
(`Cycle.freshLap_watched`); when the lap is done, its node hangs on a concatenation that is not, and seven cells are live
(`force_next`); when that is done too, there are five.  The very first lap hangs on nothing, and one cell is live until
it is done (`force_start`).
-/
namespace Retention

open Store (Grown Calm Watches Holds)

variable {p : Program} {depth bound base : Nat} {s : Store} {h : HeapId} {root : CellId} {cells : List CellId} {r : Interval}

/-! ## While a lap is made -/

/-- The first node of the list over an interval, where the list is not live. -/
theorem force_interval_aside (p : Program) (depth : Nat) {x : CellId} {tag : Tag} (hs : s.Watches h base root)
    (hx : s.state x = .suspended (.intervalNode tag (.int r.lo) (.int r.hi))) (hne : r.lo ≤ r.hi)
    (hr : r.length ≤ sizeLimit) (hl : s.Holds base root cells) (hd : cells.Nodup) (hle : cells.length ≤ bound)
    (haside : x ∉ cells) : ∃ next rest e,
      force (p.runAt (depth + 1)) x s = .ok (.cons next (.cell s.cells.size) (.cell (s.cells.size + 1))) e ∧
      Calm h bound s e 2 [x] ∧ e.state x = .evaluated (.cons next (.cell s.cells.size) (.cell (s.cells.size + 1))) ∧
      e.state s.cells.size = .suspended (.intervalHead tag (.int r.lo) (.int r.hi)) ∧
      e.state (s.cells.size + 1) = .suspended (.intervalNode rest (.int r.rest.lo) (.int r.rest.hi)) := by
  have hxlt := Store.lt_of_suspended hx
  have hbegan : Calm h bound s (s.began x h (.intervalNode tag (.int r.lo) (.int r.hi))) 0 [x] := .of_grown (.began ..)
  have hbw := hbegan.watches hs
  obtain ⟨next, rest, m, hrun, hg, hhead, htail⟩ :=
    Sequence.intervalNode_of_nonempty hbw.active hbw.valid hne hr tag
  rw [hbegan.size, Nat.add_zero] at hrun hhead htail
  obtain ⟨e, hforce, hall, hv, hkeep⟩ := force_aside p depth hs hx hrun (.of_grown hg) hl hd hle fun b hb =>
    ⟨fun heq => haside (heq ▸ hb), List.not_mem_nil⟩
  exact ⟨next, rest, e, hforce, hall, hv, (hkeep _ (Nat.ne_of_gt hxlt)).trans hhead,
    (hkeep _ (Nat.ne_of_gt (Nat.lt_succ_of_lt hxlt))).trans htail⟩

/-- The first node of a concatenation with a list that is evaluated, where the concatenation is not live. -/
theorem force_append_aside (p : Program) (depth : Nat) {c x : CellId} {ys head tail : Value} {tag : Tag}
    (hs : s.Watches h base root) (hc : s.state c = .suspended (.appendNode (.cell x) ys))
    (hx : s.state x = .evaluated (.cons tag head tail)) (hl : s.Holds base root cells) (hd : cells.Nodup)
    (hle : cells.length ≤ bound) (haside : c ∉ cells) : ∃ next e,
      force (p.runAt (depth + 1)) c s = .ok (.cons next head (.cell s.cells.size)) e ∧ Calm h bound s e 1 [c] ∧
      e.state s.cells.size = .suspended (.appendNode tail ys) := by
  have hclt := Store.lt_of_suspended hc
  have hxc : x ≠ c := fun heq => by rw [heq, hc] at hx; cases hx
  let m := s.began c h (.appendNode (.cell x) ys)
  have hbegan : Calm h bound s m 0 [c] := .of_grown (.began ..)
  have hbw := hbegan.watches hs
  have hxm : m.state x = .evaluated (.cons tag head tail) := (Store.state_began_of_ne s hxc h _).trans hx
  have hrun : Sequence.appendNode (p.runAt depth) (.cell x) ys m = _ :=
    Sequence.appendNode_of_cons hbw.active (force_evaluated hxm (p.runAt depth))
  rw [hbegan.size, Nat.add_zero] at hrun
  have hg : Grown h m (m.register h (.suspended (.appendNode tail ys))).tagged 1 0 [] :=
    (Grown.register hbw.valid _).trans (.tagged h _)
  obtain ⟨e, hforce, hall, -, hkeep⟩ := force_aside p depth hs hc hrun (.of_grown hg) hl hd hle fun b hb =>
    ⟨fun heq => haside (heq ▸ hb), List.not_mem_nil⟩
  refine ⟨_, e, hforce, hall, (hkeep _ (Nat.ne_of_gt hclt)).trans ?_⟩
  have hnew := Store.state_register_new m h (.suspended (.appendNode tail ys))
  rw [hbegan.size, Nat.add_zero] at hnew
  exact hnew

/-- What a fresh lap made: the cells are numbered from that of its list on. -/
structure MadeLap (r : Interval) (tag : Tag) (n : Nat) (e : Store) : Prop where
  head : ∃ source, e.state (n + 1) = .suspended (.intervalHead source (.int r.lo) (.int r.hi))
  list : ∃ source, e.state (n + 2) = .suspended (.intervalNode source (.int r.rest.lo) (.int r.rest.hi))
  next : e.state (n + 3) = .suspended (.freshLap tag (.interval (.int r.lo) (.int r.hi)))
  tail : e.state (n + 5) = .suspended (.appendNode (.cell (n + 2)) (.cell (n + 3)))

theorem MadeLap.finished {tag : Tag} {n : Nat} {e : Store} {c : CellId} (hl : MadeLap r tag n e) (hc : c < n) (h : HeapId)
    (v : Value) : MadeLap r tag n (e.finished c h v) := by
  have hkeep : ∀ i, (e.finished c h v).state (n + i) = e.state (n + i) := fun i =>
    Store.state_finished_of_ne e (Nat.ne_of_gt (Nat.lt_add_right i hc)) h v
  exact ⟨hkeep 1 ▸ hl.head, hkeep 2 ▸ hl.list, hkeep 3 ▸ hl.next, hkeep 5 ▸ hl.tail⟩

/-- A fresh lap begins with the list over its interval, and with the first node of that list. -/
theorem Cycle.make_watched (p : Program) (depth : Nat) (hs : s.Watches h base root) (hl : s.Holds base root cells)
    (hd : cells.Nodup) (hle : cells.length ≤ bound) (hne : r.lo ≤ r.hi) (hr : r.length ≤ sizeLimit) :
    ∃ m next source rest e, Cycle.make (p.runAt (depth + 1)) (.interval (.int r.lo) (.int r.hi)) s =
        .ok (.cell s.cells.size) m ∧
      force (p.runAt (depth + 1)) s.cells.size m =
        .ok (.cons next (.cell (s.cells.size + 1)) (.cell (s.cells.size + 2))) e ∧
      Calm h bound s e 3 [] ∧
      e.state s.cells.size = .evaluated (.cons next (.cell (s.cells.size + 1)) (.cell (s.cells.size + 2))) ∧
      e.state (s.cells.size + 1) = .suspended (.intervalHead source (.int r.lo) (.int r.hi)) ∧
      e.state (s.cells.size + 2) = .suspended (.intervalNode rest (.int r.rest.lo) (.int r.rest.hi)) := by
  have hnew : s.cells.size ∉ cells := fun hmem => Nat.lt_irrefl _ (hl.valid _ hmem).2
  let m := s.tagged.register h (.suspended (.intervalNode s.nextTag (.int r.lo) (.int r.hi)))
  have hm : Calm h bound s m 1 [] := .of_grown ((Grown.tagged h s).trans (.register (s := s.tagged) hs.valid _))
  obtain ⟨next, rest, e, hforce, hg, hv, hhead, htail⟩ := force_interval_aside p depth (hm.watches hs)
    (Store.state_register_new s.tagged h _) hne hr (hl.calm hm fun _ _ => List.not_mem_nil) hd hle hnew
  rw [hm.size] at hforce hv hhead htail
  refine ⟨m, next, s.nextTag, rest, e, Run.bind_ok (Sequence.between_apply hs.active (.int r.lo) (.int r.hi)), hforce,
    (hm.trans hg).mono fun b hb hmem => ?_, hv, hhead, htail⟩
  have hlist : b ≠ s.tagged.cells.size := Nat.ne_of_lt hb
  simp [hlist] at hmem

/-- **A fresh lap on a heap that samples every force**: what is live when it begins is all that is live while it is made,
since nothing refers yet to the new cells. -/
theorem Cycle.freshLap_watched (p : Program) (depth : Nat) (hs : s.Watches h base root) (hl : s.Holds base root cells)
    (hd : cells.Nodup) (hle : cells.length ≤ bound) (hne : r.lo ≤ r.hi) (hr : r.length ≤ sizeLimit) (tag : Tag) :
    ∃ node e, Cycle.freshLap (p.runAt (depth + 1)) tag (.interval (.int r.lo) (.int r.hi)) s =
        .ok (.cons node (.cell (s.cells.size + 1)) (.cell (s.cells.size + 5))) e ∧
      Calm h bound s e 6 [] ∧ MadeLap r tag s.cells.size e := by
  obtain ⟨m, next, first, rest, e, hmake, hforce, hg, hv, hhead, htail⟩ :=
    Cycle.make_watched p depth hs hl hd hle hne hr
  have hew := hg.watches hs
  have hesize : e.cells.size = s.cells.size + 3 := hg.size
  -- the next lap, and the concatenation with it
  let later := Thunk.freshLap tag (.interval (.int r.lo) (.int r.hi))
  let joined := Thunk.appendNode (.cell s.cells.size) (.cell (s.cells.size + 3))
  let lap := e.register h (.suspended later)
  have hlap : Calm h bound e lap 1 [] := .of_grown (.register hew.valid _)
  have hlapw := hlap.watches hew
  let q := lap.register h (.suspended joined)
  have hq : Calm h bound lap q 1 [] := .of_grown (.register hlapw.valid _)
  have hall := (hg.trans hlap).trans hq
  have hlapsize : lap.cells.size = s.cells.size + 4 := by rw [hlap.size, hesize]
  have hjoined : q.state (s.cells.size + 4) = .suspended joined := hlapsize ▸ Store.state_register_new lap h _
  have hqsize : q.cells.size = s.cells.size + 5 := by rw [hq.size, hlapsize]
  -- the cells of the list are as its first node left them
  have hkeep : ∀ b < s.cells.size + 3, q.state b = e.state b := fun b hb => by
    rw [hq.state b (by omega) List.not_mem_nil, hlap.state b (by omega) List.not_mem_nil]
  have haside : s.cells.size + 4 ∉ cells := fun hmem => Nat.not_lt_of_le (Nat.le_add_right _ 4) (hl.valid _ hmem).2
  obtain ⟨node, e', hforce', hg', hrest⟩ := force_append_aside p depth (hq.watches hlapw) hjoined
    ((hkeep _ (by omega)).trans hv) (hl.calm hall fun _ _ => List.not_mem_nil) hd hle haside
  rw [hqsize] at hforce' hrest
  have hlast : ∀ b < s.cells.size + 4, e'.state b = q.state b := fun b hb =>
    hg'.state b (by omega) (by simpa using Nat.ne_of_lt hb)
  refine ⟨node, e', ?_, (hall.trans hg').mono fun b hb hmem => ?_, ⟨first, ?_⟩, ⟨rest, ?_⟩, ?_, hrest⟩
  · have hlap := Cycle.lap_of_cons hew.active hforce later
    rw [hesize] at hlap
    unfold Cycle.freshLap
    rw [Run.bind_ok hmake]
    exact hlap.trans hforce'
  · have hne : b ≠ s.cells.size + 4 := by omega
    simp [hne] at hmem
  · rw [hlast _ (by omega), hkeep _ (by omega), hhead]
  · rw [hlast _ (by omega), hkeep _ (by omega), htail]
  · rw [hlast _ (by omega), hq.state _ (by omega) List.not_mem_nil]
    exact hesize ▸ Store.state_register_new e h _

/-! ## Where the consumer stands -/

namespace NestedSamples

/-- What is left of the repetition after a step: a concatenation of `x`, the rest of a lap, with `y`, the laps after it.
They were all made after the repetition. -/
structure Rest (r : Interval) (base : Nat) (s : Store) (c x y : CellId) : Prop where
  base_lt : base < c ∧ base < x ∧ base < y
  state : s.state c = .suspended (.appendNode (.cell x) (.cell y))
  rest : ∃ tag, ∃ j ≤ r.length, s.state x = .suspended (.intervalNode tag (.int (r.lo + (j : Nat))) (.int r.hi))
  next : ∃ tag, s.state y = .suspended (.freshLap tag (.interval (.int r.lo) (.int r.hi)))

/-- An evaluated node of the repetition, before what is left after it.  Its head is read or can be. -/
structure Node (r : Interval) (base : Nat) (s : Store) (c : CellId) (tag : Tag) (head tail x y : CellId) : Prop where
  base_le : base ≤ c ∧ base < head
  evaluated : s.state c = .evaluated (.cons tag (.cell head) (.cell tail))
  head : (∃ source, ∃ i : Interval, i.lo ≤ i.hi ∧ i.length ≤ sizeLimit ∧
    s.state head = .suspended (.intervalHead source (.int i.lo) (.int i.hi))) ∨ ∃ v, s.state head = .evaluated (.int v)
  rest : Rest r base s tail x y

variable {c x y head tail : CellId} {tag : Tag} {e : Store}

theorem Rest.congr (hl : Rest r base s c x y) (he : e.state = s.state) : Rest r base e c x y :=
  ⟨hl.base_lt, he ▸ hl.state, he ▸ hl.rest, he ▸ hl.next⟩

theorem Node.congr (hn : Node r base s c tag head tail x y) (he : e.state = s.state) :
    Node r base e c tag head tail x y :=
  ⟨hn.base_le, he ▸ hn.evaluated, he ▸ hn.head, hn.rest.congr he⟩

theorem Rest.holds (hl : Rest r base s c x y) : s.Holds base c [c, x, y] ∧ [c, x, y].Nodup := by
  obtain ⟨_, j, -, hx⟩ := hl.rest
  obtain ⟨_, hy⟩ := hl.next
  have hb := hl.base_lt
  refine ⟨.pair (Store.refs_of_state hl.state) (by omega) (Store.lt_of_suspended hl.state)
    (.leaf (Store.refs_of_state hx) (by omega) (Store.lt_of_suspended hx))
    (.leaf (Store.refs_of_state hy) (by omega) (Store.lt_of_suspended hy)), List.Nodup.of_map s.state ?_⟩
  simp [hl.state, hx, hy]

/-- The concatenation begins: the cells of its parts stay as they were. -/
theorem Rest.began (hl : Rest r base s c x y) (h : HeapId) :
    (s.began c h (.appendNode (.cell x) (.cell y))).state c = .inProgress (.appendNode (.cell x) (.cell y)) ∧
      (s.began c h (.appendNode (.cell x) (.cell y))).state x = s.state x ∧
      (s.began c h (.appendNode (.cell x) (.cell y))).state y = s.state y ∧ y ≠ x ∧ c ≠ x := by
  obtain ⟨hx, hy, hxy⟩ : c ≠ x ∧ c ≠ y ∧ x ≠ y := by simpa [and_assoc] using hl.holds.2
  exact ⟨Store.state_setState_self s c _ (Store.lt_of_suspended hl.state), Store.state_began_of_ne s hx.symm h _,
    Store.state_began_of_ne s hy.symm h _, hxy.symm, hx⟩

theorem Node.head_leaf (hn : Node r base s c tag head tail x y) : s.Holds base head [head] := by
  have hb := hn.base_le
  rcases hn.head with ⟨source, i, -, -, hhead⟩ | ⟨v, hhead⟩
  · exact .leaf (Store.refs_of_state hhead) (by omega) (Store.lt_of_suspended hhead)
  · exact .leaf (Store.refs_of_state hhead) (by omega) (Store.lt_of_state hhead (by simp))

/-- A node keeps five cells alive: itself, its head, and what is left after it. -/
theorem Node.holds (hn : Node r base s c tag head tail x y) :
    s.Holds base c [c, head, tail, x, y] ∧ [c, head, tail, x, y].Nodup := by
  obtain ⟨_, j, -, hx⟩ := hn.rest.rest
  obtain ⟨_, hy⟩ := hn.rest.next
  have htail := hn.rest.state
  refine ⟨.pair (Store.refs_of_state hn.evaluated) hn.base_le.1 (Store.lt_of_state hn.evaluated (by simp))
    hn.head_leaf hn.rest.holds.1, List.Nodup.of_map s.state ?_⟩
  rcases hn.head with ⟨source, i, -, -, hhead⟩ | ⟨v, hhead⟩ <;> simp [hn.evaluated, hhead, htail, hx, hy]

/-! ## A step -/

/-- The node of a lap that was just made. -/
theorem Node.of_lap {n : Nat} {node : Tag} (hl : MadeLap r tag n e) (hb : base ≤ c) (hc : c < n)
    (hsize : e.cells.size = n + 6) (hne : r.lo ≤ r.hi) (hr : r.length ≤ sizeLimit) :
    Node r base (e.finished c h (.cons node (.cell (n + 1)) (.cell (n + 5)))) c node (n + 1) (n + 5) (n + 2) (n + 3) := by
  have hf := hl.finished hc h (.cons node (.cell (n + 1)) (.cell (n + 5)))
  obtain ⟨first, hhead⟩ := hf.head
  obtain ⟨rest, hlist⟩ := hf.list
  have hn : base < n := Nat.lt_of_le_of_lt hb hc
  exact ⟨⟨hb, by omega⟩, Store.state_finished_self (hsize ▸ Nat.lt_add_right 6 hc) h _, .inl ⟨first, r, hne, hr, hhead⟩,
    by omega, hf.tail, ⟨rest, 1, Interval.length_pos hne, hlist⟩, tag, hf.next⟩

/-- The first force: nothing but the repetition is live until its first lap is made. -/
theorem force_start (p : Program) (depth : Nat) (hs : s.Watches h base base)
    (hc : s.state base = .suspended (.freshLap tag (.interval (.int r.lo) (.int r.hi)))) (hne : r.lo ≤ r.hi)
    (hr : r.length ≤ sizeLimit) : ∃ node head tail x y e made changed,
      force (p.runAt (depth + 2)) base s = .ok (.cons node (.cell head) (.cell tail)) e ∧
      Calm h 7 s e made changed ∧ Node r base e base node head tail x y := by
  have hlt : base < s.cells.size := Store.lt_of_suspended hc
  let m := s.began base h (.freshLap tag (.interval (.int r.lo) (.int r.hi)))
  have hbegan : Calm h 7 s m 0 [base] := .of_grown (.began ..)
  have hmsize : m.cells.size = s.cells.size := hbegan.size
  have hlive : m.Holds base base [base] :=
    .leaf (Store.refs_of_state (Store.state_setState_self s base _ hlt)) (Nat.le_refl _) (hmsize ▸ hlt)
  obtain ⟨node, e, hrun, hg, hlap⟩ := Cycle.freshLap_watched p depth (hbegan.watches hs) hlive (List.nodup_singleton _)
    (show [base].length ≤ 7 by simp) hne hr tag
  rw [hmsize] at hrun hlap
  have hnode : Node r base _ base node _ _ _ _ :=
    .of_lap (h := h) hlap (Nat.le_refl base) hlt (by rw [hg.size, hmsize]) hne hr
  obtain ⟨hcells, hnodup⟩ := hnode.holds
  obtain ⟨e', hforce, hall, hstate⟩ := force_watched p (depth + 1) hs hc hrun hg hcells hnodup (by simp)
  exact ⟨node, _, _, _, _, e', _, _, hforce, hall, hnode.congr hstate⟩

/-- Within a lap: what is left of it is forced while the concatenation still refers to it, and so to the node, its head
and its tail. -/
theorem Rest.force_list (p : Program) (depth : Nat) (hl : Rest r base s c x y) (hs : s.Watches h base c) {i : Interval}
    {source : Tag} (hx : s.state x = .suspended (.intervalNode source (.int i.lo) (.int i.hi))) (hne : i.lo ≤ i.hi)
    (hi : i.length ≤ sizeLimit) : ∃ next rest e,
      force (p.runAt (depth + 1)) x (s.began c h (.appendNode (.cell x) (.cell y))) =
        .ok (.cons next (.cell s.cells.size) (.cell (s.cells.size + 1))) e ∧
      Calm h 7 (s.began c h (.appendNode (.cell x) (.cell y))) e 2 [x] ∧
      e.state s.cells.size = .suspended (.intervalHead source (.int i.lo) (.int i.hi)) ∧
      e.state (s.cells.size + 1) = .suspended (.intervalNode rest (.int i.rest.lo) (.int i.rest.hi)) ∧
      e.state y = s.state y := by
  obtain ⟨tag, hy⟩ := hl.next
  have hclt := Store.lt_of_suspended hl.state
  have hxlt := Store.lt_of_suspended hx
  have hylt := Store.lt_of_suspended hy
  have hb := hl.base_lt
  have hsize := hs.numbered.size
  let t := Thunk.appendNode (.cell x) (.cell y)
  let m := s.began c h t
  obtain ⟨hmc, hmx, hmy, hyx, hcx⟩ := hl.began h
  have hbegan : Calm h 7 s m 0 [c] := .of_grown (.began ..)
  have hmw := hbegan.watches hs
  let m' := m.began x h (.intervalNode source (.int i.lo) (.int i.hi))
  have hbegan' : Calm h 7 m m' 0 [x] := .of_grown (.began ..)
  have hmsize : m'.cells.size = s.cells.size := hbegan'.size.trans hbegan.size
  have hmw' := hbegan'.watches hmw
  obtain ⟨next, rest, e, hrun, hg, hhead, htail⟩ :=
    Sequence.intervalNode_of_nonempty hmw'.active hmw'.valid hne hi source
  rw [hmsize] at hrun hhead htail
  have hg : Calm h 7 m' e 2 [] := .of_grown hg
  have hesize : e.cells.size = s.cells.size + 2 := by rw [hg.size, hmsize]
  let u := Value.cons next (.cell s.cells.size) (.cell (s.cells.size + 1))
  have hold : ∀ b < s.cells.size, b ≠ x → (e.finished x h u).state b = m.state b := fun b hb hne => by
    rw [Store.state_finished_of_ne e hne, hg.state b (hmsize ▸ hb) List.not_mem_nil, Store.state_began_of_ne m hne]
  have hfc : (e.finished x h u).state c = .inProgress t := (hold c hclt hcx).trans hmc
  have hfx : (e.finished x h u).state x = .evaluated u :=
    Store.state_finished_self (hesize ▸ Nat.lt_add_right 2 hxlt) h u
  have hfy : (e.finished x h u).state y = s.state y := (hold y hylt hyx).trans hmy
  have hfhead := (Store.state_finished_of_ne e (Nat.ne_of_gt hxlt) h u).trans hhead
  have hftail := (Store.state_finished_of_ne e (Nat.ne_of_gt (Nat.lt_succ_of_lt hxlt)) h u).trans htail
  have hcells : (e.finished x h u).Holds base c [c, x, s.cells.size, s.cells.size + 1, y] :=
    .pair (Store.refs_of_state hfc) (Nat.le_of_lt hb.1) (Store.lt_of_state hfc (by simp))
      (.pair (Store.refs_of_state hfx) (Nat.le_of_lt hb.2.1) (Store.lt_of_state hfx (by simp [u]))
        (.leaf (Store.refs_of_state hfhead) (by omega) (Store.lt_of_suspended hfhead))
        (.leaf (Store.refs_of_state hftail) (by omega) (Store.lt_of_suspended hftail)))
      (.leaf (Store.refs_of_state (hfy.trans hy)) (Nat.le_of_lt hb.2.2) (Store.lt_of_suspended (hfy.trans hy)))
  have hnodup : [c, x, s.cells.size, s.cells.size + 1, y].Nodup := by
    refine List.Nodup.of_map (e.finished x h u).state ?_
    simp [hfc, hfx, hfhead, hftail, hfy.trans hy]
  obtain ⟨e', hforce, hall, hstate⟩ := force_watched p depth hmw (hmx.trans hx) hrun hg hcells hnodup (by simp)
  exact ⟨next, rest, e', hforce, hall, hstate ▸ hfhead, hstate ▸ hftail, hstate ▸ hfy⟩

/-- Within a lap: the node of the concatenation takes the place of what was left of the lap. -/
theorem Rest.force_within (p : Program) (depth : Nat) (hl : Rest r base s c x y) (hs : s.Watches h base c) {j : Nat}
    {source : Tag} (hx : s.state x = .suspended (.intervalNode source (.int (r.lo + (j : Nat))) (.int r.hi)))
    (hj : j < r.length) (hr : r.length ≤ sizeLimit) : ∃ node head tail x' y' e made changed,
      force (p.runAt (depth + 2)) c s = .ok (.cons node (.cell head) (.cell tail)) e ∧
      Calm h 7 s e made changed ∧ Node r base e c node head tail x' y' := by
  obtain ⟨tag, hy⟩ := hl.next
  obtain ⟨-, hnodup⟩ := hl.holds
  have hclt := Store.lt_of_suspended hl.state
  have hylt := Store.lt_of_suspended hy
  have hb := hl.base_lt
  have hcy : y ≠ c := fun heq => by simp [heq] at hnodup
  obtain ⟨hpne, hpart⟩ := Interval.from_element hj
  have hbegan : Calm h 7 s (s.began c h (.appendNode (.cell x) (.cell y))) 0 [c] := .of_grown (.began ..)
  obtain ⟨next, rest, e, hforce, hg, hhead, htail, hkeep⟩ :=
    hl.force_list p depth hs (i := ⟨r.lo + j, r.hi⟩) hx hpne (Nat.le_trans hpart hr)
  have hesize : e.cells.size = s.cells.size + 2 := by rw [hg.size, hbegan.size]
  have hew := hg.watches (hbegan.watches hs)
  have happend : Sequence.appendNode (p.runAt (depth + 1)) (.cell x) (.cell y) _ = _ :=
    Sequence.appendNode_of_cons hew.active hforce
  rw [hesize] at happend
  let m := (e.register h (.suspended (.appendNode (.cell (s.cells.size + 1)) (.cell y)))).tagged
  have hm : Calm h 7 e m 1 [] := .of_grown ((Grown.register hew.valid _).trans (.tagged h _))
  let v := Value.cons e.nextTag (.cell s.cells.size) (.cell (s.cells.size + 2))
  have hlast : ∀ b < s.cells.size + 2, b ≠ c → (m.finished c h v).state b = e.state b := fun b hb hne => by
    rw [Store.state_finished_of_ne m hne, hm.state b (hesize ▸ hb) List.not_mem_nil]
  have hnode : Node r base (m.finished c h v) c e.nextTag s.cells.size (s.cells.size + 2) (s.cells.size + 1) y := by
    refine ⟨⟨Nat.le_of_lt hb.1, Nat.lt_trans hb.1 hclt⟩, Store.state_finished_self ?_ h v,
      .inl ⟨source, _, hpne, Nat.le_trans hpart hr, ?_⟩, ⟨?_, ?_, hb.2.2⟩, ?_, ⟨rest, j + 1, hj, ?_⟩, tag, ?_⟩
    · rw [hm.size, hesize]
      exact Nat.lt_add_right 1 (Nat.lt_add_right 2 hclt)
    · rw [hlast _ (by omega) (Nat.ne_of_gt hclt), hhead]
    · exact Nat.lt_add_right 2 (Nat.lt_trans hb.1 hclt)
    · exact Nat.lt_add_right 1 (Nat.lt_trans hb.1 hclt)
    · rw [Store.state_finished_of_ne m (Nat.ne_of_gt (Nat.lt_add_right 2 hclt))]
      exact hesize ▸ Store.state_register_new e h _
    · rw [hlast _ (by omega) (Nat.ne_of_gt (Nat.lt_succ_of_lt hclt)), htail]
      simp [Interval.rest, Int.add_assoc]
    · rw [hlast y (Nat.lt_add_right 2 hylt) hcy, hkeep, hy]
  obtain ⟨hcells, hnodup⟩ := hnode.holds
  obtain ⟨e', hforce', hall, hstate⟩ :=
    force_watched p (depth + 1) hs hl.state happend (hg.trans hm) hcells hnodup (by simp)
  exact ⟨_, _, _, _, _, e', _, _, hforce', hall, hnode.congr hstate⟩

/-- What is left of a lap that is at its end is forced while the concatenation still refers to it. -/
theorem Rest.force_end (p : Program) (depth : Nat) (hl : Rest r base s c x y) (hs : s.Watches h base c) {i : Interval}
    {source : Tag} (hx : s.state x = .suspended (.intervalNode source (.int i.lo) (.int i.hi))) (hempty : i.hi < i.lo) :
    ∃ e, force (p.runAt (depth + 1)) x (s.began c h (.appendNode (.cell x) (.cell y))) = .ok .listEnd e ∧
      Calm h 7 (s.began c h (.appendNode (.cell x) (.cell y))) e 0 [x] ∧
      e.state c = .inProgress (.appendNode (.cell x) (.cell y)) ∧ e.state x = .evaluated .listEnd ∧
      e.state y = s.state y := by
  obtain ⟨tag, hy⟩ := hl.next
  have hxlt := Store.lt_of_suspended hx
  have hb := hl.base_lt
  let t := Thunk.appendNode (.cell x) (.cell y)
  let m := s.began c h t
  obtain ⟨hmc, hmx, hmy, hyx, hcx⟩ := hl.began h
  have hbegan : Calm h 7 s m 0 [c] := .of_grown (.began ..)
  have hmsize : m.cells.size = s.cells.size := hbegan.size
  let m' := m.began x h (.intervalNode source (.int i.lo) (.int i.hi))
  have hbegan' : Calm h 7 m m' 0 [x] := .of_grown (.began ..)
  let f := m'.finished x h .listEnd
  have hold : ∀ b ≠ x, f.state b = m.state b := fun b hne =>
    (Store.state_finished_of_ne m' hne h _).trans (Store.state_began_of_ne m hne h _)
  have hfc : f.state c = .inProgress t := (hold c hcx).trans hmc
  have hfx : f.state x = .evaluated .listEnd := Store.state_finished_self (hbegan'.size ▸ hmsize ▸ hxlt) h _
  have hfy : f.state y = s.state y := (hold y hyx).trans hmy
  have hcells : f.Holds base c [c, x, y] :=
    .pair (Store.refs_of_state hfc) (Nat.le_of_lt hb.1) (Store.lt_of_state hfc (by simp))
      (.leaf (Store.refs_of_state hfx) (Nat.le_of_lt hb.2.1) (Store.lt_of_state hfx (by simp [Value.listEnd])))
      (.leaf (Store.refs_of_state (hfy.trans hy)) (Nat.le_of_lt hb.2.2) (Store.lt_of_suspended (hfy.trans hy)))
  obtain ⟨e, hforce, hg, hstate⟩ := force_watched p depth (hbegan.watches hs) (hmx.trans hx)
    (Sequence.intervalNode_of_empty hempty source m') (.of_grown (.refl h m')) hcells hl.holds.2
    (show [c, x, y].length ≤ 7 by simp)
  have hsame : e.state = f.state := hstate
  exact ⟨e, hforce, hg, by rw [hsame, hfc], by rw [hsame, hfx], by rw [hsame, hfy]⟩

/-- The next lap is made where the lap before it is at its end, while the concatenation of both still runs.  Once it is
made, the concatenation leads to its node, and so to seven cells. -/
theorem force_next (p : Program) (depth : Nat) (hs : s.Watches h base c) (hb : base < c ∧ base < x ∧ base < y)
    (hc : s.state c = .inProgress (.appendNode (.cell x) (.cell y))) (hx : s.state x = .evaluated .listEnd)
    (hy : s.state y = .suspended (.freshLap tag (.interval (.int r.lo) (.int r.hi)))) (hne : r.lo ≤ r.hi)
    (hr : r.length ≤ sizeLimit) : ∃ node e,
      force (p.runAt (depth + 2)) y s = .ok (.cons node (.cell (s.cells.size + 1)) (.cell (s.cells.size + 5))) e ∧
      Calm h 7 s e 6 [y] ∧ MadeLap r tag s.cells.size e := by
  have hclt := Store.lt_of_state hc (by simp)
  have hxlt := Store.lt_of_state hx (by simp [Value.listEnd])
  have hylt := Store.lt_of_suspended hy
  have hsize := hs.numbered.size
  have hcy : c ≠ y := fun heq => by rw [heq, hy] at hc; cases hc
  have hxy : x ≠ y := fun heq => by rw [heq, hy] at hx; cases hx
  let t := Thunk.freshLap tag (.interval (.int r.lo) (.int r.hi))
  let m := s.began y h t
  have hbegan : Calm h 7 s m 0 [y] := .of_grown (.began ..)
  have hmsize : m.cells.size = s.cells.size := hbegan.size
  have hmc : m.state c = _ := (Store.state_began_of_ne s hcy h t).trans hc
  have hmx : m.state x = _ := (Store.state_began_of_ne s hxy h t).trans hx
  have hmy : m.state y = .inProgress t := Store.state_setState_self s y _ hylt
  have hlive : m.Holds base c [c, x, y] :=
    .pair (Store.refs_of_state hmc) (Nat.le_of_lt hb.1) (hmsize ▸ hclt)
      (.leaf (Store.refs_of_state hmx) (Nat.le_of_lt hb.2.1) (hmsize ▸ hxlt))
      (.leaf (Store.refs_of_state hmy) (Nat.le_of_lt hb.2.2) (hmsize ▸ hylt))
  have hthree : [c, x, y].Nodup := List.Nodup.of_map m.state (by simp [hmc, hmx, hmy, t])
  obtain ⟨node, e, hrun, hg, hlap⟩ := Cycle.freshLap_watched p depth (hbegan.watches hs) hlive hthree
    (show [c, x, y].length ≤ 7 by simp) hne hr tag
  rw [hmsize] at hrun hlap
  let n := s.cells.size
  let v := Value.cons node (.cell (n + 1)) (.cell (n + 5))
  let f := e.finished y h v
  have hesize : e.cells.size = n + 6 := by rw [hg.size, hmsize]
  have hold : ∀ b < n, b ≠ y → f.state b = m.state b := fun b hb hne =>
    (Store.state_finished_of_ne e hne h v).trans (hg.state b (hmsize ▸ hb) List.not_mem_nil)
  have hfc : f.state c = _ := (hold c hclt hcy).trans hmc
  have hfx : f.state x = _ := (hold x hxlt hxy).trans hmx
  have hfy : f.state y = .evaluated v := Store.state_finished_self (hesize ▸ Nat.lt_add_right 6 hylt) h v
  have hflap : MadeLap r tag n f := hlap.finished hylt h v
  obtain ⟨_, hfhead⟩ := hflap.head
  obtain ⟨_, hflist⟩ := hflap.list
  have hcells : f.Holds base c [c, x, y, n + 1, n + 5, n + 2, n + 3] :=
    .pair (Store.refs_of_state hfc) (Nat.le_of_lt hb.1) (Store.lt_of_state hfc (by simp))
      (.leaf (Store.refs_of_state hfx) (Nat.le_of_lt hb.2.1) (Store.lt_of_state hfx (by simp [Value.listEnd])))
      (.pair (Store.refs_of_state hfy) (Nat.le_of_lt hb.2.2) (Store.lt_of_state hfy (by simp [v]))
        (.leaf (Store.refs_of_state hfhead) (by omega) (Store.lt_of_suspended hfhead))
        (.pair (Store.refs_of_state hflap.tail) (by omega) (Store.lt_of_suspended hflap.tail)
          (.leaf (Store.refs_of_state hflist) (by omega) (Store.lt_of_suspended hflist))
          (.leaf (Store.refs_of_state hflap.next) (by omega) (Store.lt_of_suspended hflap.next))))
  have hseven : [c, x, y, n + 1, n + 5, n + 2, n + 3].Nodup := by
    refine List.Nodup.of_map f.state ?_
    simp [hfc, hfx, hfy, hfhead, hflist, hflap.next, hflap.tail, v, Value.listEnd]
  obtain ⟨e', hforce, hall, hstate⟩ := force_watched p (depth + 1) hs hy hrun hg hcells hseven (by simp)
  exact ⟨node, e', hforce, hall, hstate ▸ hflap.head, hstate ▸ hflap.list, hstate ▸ hflap.next, hstate ▸ hflap.tail⟩

/-- Where a lap ends, the node of the concatenation is that of the next lap. -/
theorem Rest.force_boundary (p : Program) (depth : Nat) (hl : Rest r base s c x y) (hs : s.Watches h base c)
    {source : Tag} (hx : s.state x = .suspended (.intervalNode source (.int (r.lo + (r.length : Nat))) (.int r.hi)))
    (hne : r.lo ≤ r.hi) (hr : r.length ≤ sizeLimit) : ∃ node head tail x' y' e made changed,
      force (p.runAt (depth + 3)) c s = .ok (.cons node (.cell head) (.cell tail)) e ∧
      Calm h 7 s e made changed ∧ Node r base e c node head tail x' y' := by
  obtain ⟨tag, hy⟩ := hl.next
  have hb := hl.base_lt
  have hbegan : Calm h 7 s (s.began c h (.appendNode (.cell x) (.cell y))) 0 [c] := .of_grown (.began ..)
  obtain ⟨m, hend, hm, hmc, hmx, hmy⟩ := hl.force_end p (depth + 1) hs (i := ⟨r.lo + r.length, r.hi⟩) hx r.hi_lt_end
  have hmsize : m.cells.size = s.cells.size := hm.size.trans hbegan.size
  obtain ⟨node, e, hnext, hg, hlap⟩ :=
    force_next p depth (hm.watches (hbegan.watches hs)) hb hmc hmx (hmy.trans hy) hne hr
  rw [hmsize] at hnext hlap
  have hnode : Node r base _ c node _ _ _ _ := .of_lap (h := h) hlap (Nat.le_of_lt hb.1) (Store.lt_of_suspended hl.state)
    (by rw [hg.size, hmsize]) hne hr
  obtain ⟨hcells, hnodup⟩ := hnode.holds
  obtain ⟨e', hforce, hall, hstate⟩ := force_watched p (depth + 2) hs hl.state
    ((Sequence.appendNode_of_nil hend).trans hnext) (hm.trans hg) hcells hnodup (by simp)
  exact ⟨node, _, _, _, _, e', _, _, hforce, hall, hnode.congr hstate⟩

/-- Where a consumer of the repetition can stand: before its first step, in the middle of its laps, or at a node that was
forced already. -/
inductive Standing (r : Interval) (base : Nat) (s : Store) : CellId → Prop
  | start {tag : Tag} (hc : s.state base = .suspended (.freshLap tag (.interval (.int r.lo) (.int r.hi)))) :
    Standing r base s base
  | rest {c x y : CellId} (hl : Rest r base s c x y) : Standing r base s c
  | node {c head tail x y : CellId} {tag : Tag} (hn : Node r base s c tag head tail x y) : Standing r base s c

/-- **Wherever the consumer stands, a force of what is left samples no more than seven live cells**, those sampled in the
middle of it included. -/
theorem Standing.force (p : Program) (depth : Nat) (hl : Standing r base s c) (hs : s.Watches h base c)
    (hne : r.lo ≤ r.hi) (hr : r.length ≤ sizeLimit) : ∃ node head tail x y e made changed,
      force (p.runAt (depth + 3)) c s = .ok (.cons node (.cell head) (.cell tail)) e ∧
      Calm h 7 s e made changed ∧ Node r base e c node head tail x y := by
  cases hl with
  | start hc => exact force_start p (depth + 1) hs hc hne hr
  | rest hl =>
    obtain ⟨source, j, hj, hx⟩ := hl.rest
    rcases Nat.lt_or_eq_of_le hj with hj | rfl
    · exact hl.force_within p (depth + 1) hs hx hj hr
    · exact hl.force_boundary p depth hs hx hne hr
  | node hn => exact ⟨_, _, _, _, _, s, 0, [], force_evaluated hn.evaluated _, .of_grown (.refl h s), hn⟩

/-- The head of a node is read, while the node is live. -/
theorem Node.read (p : Program) (depth : Nat) (hn : Node r base s c tag head tail x y) (hs : s.Watches h base c) :
    ∃ v e made changed, Retention.force (p.runAt (depth + 1)) head s = .ok (.int v) e ∧ Calm h 7 s e made changed ∧
      Node r base e c tag head tail x y := by
  rcases hn.head with ⟨source, i, hne, hi, hhead⟩ | ⟨v, hhead⟩
  · have hlt := Store.lt_of_suspended hhead
    let t := Thunk.intervalHead source (.int i.lo) (.int i.hi)
    let m := s.began head h t
    have hbegan : Calm h 7 s m 0 [head] := .of_grown (.began ..)
    have hkeep : ∀ b st, s.state b = st → st ≠ .suspended t → (m.finished head h (.int i.lo)).state b = st :=
      fun b st hst hne => by
        have hb : b ≠ head := fun heq => hne (by rw [← hst, heq, hhead])
        rw [Store.state_finished_of_ne m hb, Store.state_began_of_ne s hb, hst]
    obtain ⟨_, j, hj, hx⟩ := hn.rest.rest
    obtain ⟨_, hy⟩ := hn.rest.next
    have hnode : Node r base (m.finished head h (.int i.lo)) c tag head tail x y :=
      ⟨hn.base_le, hkeep _ _ hn.evaluated (by simp), .inr ⟨i.lo, Store.state_finished_self (hbegan.size ▸ hlt) h _⟩,
        hn.rest.base_lt, hkeep _ _ hn.rest.state (by simp [t]), ⟨_, j, hj, hkeep _ _ hx (by simp [t])⟩,
        _, hkeep _ _ hy (by simp [t])⟩
    obtain ⟨hcells, hnodup⟩ := hnode.holds
    obtain ⟨e, hforce, hg, hstate⟩ := force_watched p depth hs hhead (Sequence.element_zero hne hi source m)
      (.of_grown (.refl h m)) hcells hnodup (show [c, head, tail, x, y].length ≤ 7 by simp)
    exact ⟨i.lo, e, _, _, hforce, hg, hnode.congr hstate⟩
  · exact ⟨v, s, 0, [], force_evaluated hhead _, .of_grown (.refl h s), hn⟩

end NestedSamples
end Retention
