import Retention.Proofs.Course
import Retention.Proofs.Unrolling
/-!
# ByName — a repetition that is built anew stays small

What a consumer of a fresh repetition still holds is a concatenation of what is left of the present lap with the next
lap (`ByName.Left`), whatever was consumed before: three cells, and none of them leads back.  Only the very start is a
single cell.  So the live cells are counted exactly at every step, inside a lap and where one lap follows the other.
-/
namespace Retention

open Store (Hosts Grown Numbered)

variable {s : Store} {h : HeapId} {r : Interval}

/-- A fresh lap of an interval: it makes the list anew, with its first node, and the suspended lap after it. -/
theorem force_freshLap (p : Program) (depth : Nat) {tag : Tag} {c : CellId} (hs : s.Hosts h)
    (hc : s.state c = .suspended (.freshLap tag (.interval (.int r.lo) (.int r.hi)))) (hne : r.lo ≤ r.hi)
    (hr : r.length ≤ sizeLimit) : ∃ node first rest e,
      force (p.runAt (depth + 2)) c s = .ok (.cons node (.cell (s.cells.size + 1)) (.cell (s.cells.size + 5))) e ∧
      Grown h s e 6 3 [c] ∧
      e.state c = .evaluated (.cons node (.cell (s.cells.size + 1)) (.cell (s.cells.size + 5))) ∧
      e.state (s.cells.size + 1) = .suspended (.intervalHead first (.int r.lo) (.int r.hi)) ∧
      e.state (s.cells.size + 2) = .suspended (.intervalNode rest (.int r.rest.lo) (.int r.rest.hi)) ∧
      e.state (s.cells.size + 3) = .suspended (.freshLap tag (.interval (.int r.lo) (.int r.hi))) ∧
      e.state (s.cells.size + 5) =
        .suspended (.appendNode (.cell (s.cells.size + 2)) (.cell (s.cells.size + 3))) := by
  let lap := Thunk.freshLap tag (.interval (.int r.lo) (.int r.hi))
  have hb := Grown.began h s c lap
  let source := Thunk.intervalNode s.nextTag (.int r.lo) (.int r.hi)
  let m := (s.began c h lap).tagged.register h (.suspended source)
  have hm : Grown h (s.began c h lap) m 1 0 [] :=
    (Grown.tagged h _).trans (.register (s := (s.began c h lap).tagged) (hb.hosts hs).valid _)
  have hmsize : m.cells.size = s.cells.size + 1 := (hb.trans hm).size
  have hbsize : (s.began c h lap).cells.size = s.cells.size := hb.size
  have hx : m.state s.cells.size = .suspended source := hbsize ▸ Store.state_register_new (s.began c h lap).tagged h _
  obtain ⟨next, rest, e, hforce, hg, hv, hhead, htail⟩ :=
    force_interval p depth (r := r) (hm.hosts (hb.hosts hs)) hx hne hr
  have hesize : e.cells.size = s.cells.size + 3 := by rw [hg.size, hmsize]
  have hmake : lap.produce p (p.runAt (depth + 1)) (s.began c h lap) =
      Cycle.lap (p.runAt (depth + 1)) (.cell s.cells.size) lap m := by
    have hbetween := Sequence.between_apply (s := s.began c h lap) (hb.hosts hs).active (.int r.lo) (.int r.hi)
    rw [hbsize] at hbetween
    show Cycle.freshLap _ tag _ _ = _
    unfold Cycle.freshLap
    exact Run.bind_ok (Run.bind_ok hbetween)
  obtain ⟨node, e', hlap, hframe, hself, hnext, hrest, hold⟩ := force_lap hs hc hmake hm hforce hg hv
  have hclt := Store.lt_of_suspended hc
  rw [hesize] at hlap hself hnext hrest hold
  rw [hmsize] at hlap hself hhead htail hrest
  refine ⟨node, s.nextTag, rest, e', hlap, hframe.mono fun b hlt hmem => ?_, hself, ?_, ?_, hnext, hrest⟩
  · have hbn : b ≠ s.cells.size := Nat.ne_of_lt hlt
    simpa [hbn] using hmem
  · rw [hold _ (by omega) (Nat.ne_of_gt (Nat.lt_add_right 1 hclt)), hhead]
  · rw [hold _ (by omega) (Nat.ne_of_gt (Nat.lt_add_right 2 hclt)), htail]

namespace ByName

/-- The repetition of an interval before its first step. -/
structure Start (r : Interval) (base : Nat) (h : HeapId) (s : Store) (c : CellId) : Prop where
  base_le : base ≤ c
  numbered : s.Numbered base h
  created : (s.heap h).created = 1
  forced : (s.heap h).forced = 0
  state : ∃ tag, s.state c = .suspended (.freshLap tag (.interval (.int r.lo) (.int r.hi)))

/-- What is left of the repetition after `j` elements of the lap that follows `q` whole laps: `x`, the rest of this lap,
and `y`, the laps after it. -/
structure Lap (r : Interval) (base : Nat) (h : HeapId) (s : Store) (c : CellId) (q j : Nat) (x y : CellId) : Prop where
  base_le : base ≤ c ∧ base ≤ x ∧ base ≤ y
  numbered : s.Numbered base h
  pos : 0 < j
  le : j ≤ r.length
  created : (s.heap h).created = 4 + 3 * (q * r.length + j) + 3 * q
  forced : (s.heap h).forced = 1 + 2 * (q * r.length + j) + 3 * q
  state : s.state c = .suspended (.appendNode (.cell x) (.cell y))
  rest : ∃ tag, s.state x = .suspended (.intervalNode tag (.int (r.lo + j)) (.int r.hi))
  next : ∃ tag, s.state y = .suspended (.freshLap tag (.interval (.int r.lo) (.int r.hi)))

/-- What is left of the repetition of an interval after a number of steps. -/
inductive Left (r : Interval) (base : Nat) (h : HeapId) (s : Store) (c : CellId) : Nat → Prop
  | start : Start r base h s c → Left r base h s c 0
  | within {q j : Nat} {x y : CellId} : Lap r base h s c q j x y → Left r base h s c (q * r.length + j)

variable {base k q j : Nat} {c x y : CellId}

/-- The three cells are suspended over different things. -/
theorem Lap.distinct (hl : Lap r base h s c q j x y) : x ≠ c ∧ y ≠ c ∧ y ≠ x := by
  obtain ⟨_, hx⟩ := hl.rest
  obtain ⟨_, hy⟩ := hl.next
  refine ⟨fun heq => ?_, fun heq => ?_, fun heq => ?_⟩
  · rw [heq, hl.state] at hx; cases hx
  · rw [heq, hl.state] at hy; cases hy
  · rw [heq, hx] at hy; cases hy

/-- What a force of what is left leads to: a node whose head is still suspended over the next element. -/
structure Node (r : Interval) (base : Nat) (h : HeapId) (k : Nat) (c : CellId) (tag : Tag) (head tail : CellId)
    (s : Store) : Prop where
  evaluated : s.state c = .evaluated (.cons tag (.cell head) (.cell tail))
  first : ∃ source, s.state head = .suspended (.intervalHead source (.int (r.lo + (k % r.length : Nat))) (.int r.hi))
  base_le : base ≤ head
  rest : Left r base h s tail (k + 1)

theorem Start.force (p : Program) (depth : Nat) (hl : Start r base h s c) (hs : s.Hosts h) (hne : r.lo ≤ r.hi)
    (hr : r.length ≤ sizeLimit) : ∃ node head tail e made forced changed,
      force (p.runAt (depth + 3)) c s = .ok (.cons node (.cell head) (.cell tail)) e ∧
      Grown h s e made forced changed ∧ Node r base h 0 c node head tail e := by
  obtain ⟨tag, hc⟩ := hl.state
  obtain ⟨node, first, rest, e, hforce, hg, hself, hhead, hx, hy, htail⟩ :=
    force_freshLap p (depth + 1) hs hc hne hr
  have hsize := hl.numbered.size
  have hlap : Lap r base h e (s.cells.size + 5) 0 1 (s.cells.size + 2) (s.cells.size + 3) := by
    refine ⟨by omega, hl.numbered.grown hg, Nat.one_pos, Interval.length_pos hne, ?_, ?_, htail, ⟨rest, ?_⟩, tag, hy⟩
    · rw [hg.created, hl.created]; omega
    · rw [hg.forces, hl.forced]; omega
    · simpa [Interval.rest] using hx
  refine ⟨node, _, _, e, 6, 3, [c], hforce, hg, hself, ⟨first, by simpa using hhead⟩, by omega, ?_⟩
  simpa using Left.within hlap

theorem Lap.force_within (p : Program) (depth : Nat) (hl : Lap r base h s c q j x y) (hs : s.Hosts h) (hj : j < r.length)
    (hr : r.length ≤ sizeLimit) : ∃ node head tail e made forced changed,
      force (p.runAt (depth + 3)) c s = .ok (.cons node (.cell head) (.cell tail)) e ∧
      Grown h s e made forced changed ∧ Node r base h (q * r.length + j) c node head tail e := by
  obtain ⟨tag, hx⟩ := hl.rest
  obtain ⟨tag', hy⟩ := hl.next
  obtain ⟨hxc, hyc, hyx⟩ := hl.distinct
  have hsize := hl.numbered.size
  have hclt := Store.lt_of_suspended hl.state
  have hylt := Store.lt_of_suspended hy
  let part : Interval := ⟨r.lo + j, r.hi⟩
  obtain ⟨hpne, hpart⟩ := Interval.from_element hj
  have hbegan := Grown.began h s c (.appendNode (.cell x) (.cell y))
  have hbsize : (s.began c h (.appendNode (.cell x) (.cell y))).cells.size = s.cells.size := hbegan.size
  have hxb := (Store.state_began_of_ne s hxc h (.appendNode (.cell x) (.cell y))).trans hx
  obtain ⟨next, rest, m, hm, hgm, -, hhead, htail⟩ :=
    force_interval p (depth + 1) (r := part) (hbegan.hosts hs) hxb hpne (Nat.le_trans hpart hr)
  rw [hbsize] at hm hhead htail
  have hmsize : m.cells.size = s.cells.size + 2 := by rw [hgm.size, hbsize]
  obtain ⟨node, e, hforce, hg, hself, happend, hold⟩ := force_append hs hl.state hm hgm
  rw [hmsize] at hforce hself happend hold
  have hlap : Lap r base h e (s.cells.size + 2) q (j + 1) (s.cells.size + 1) y := by
    refine ⟨⟨by omega, by omega, hl.base_le.2.2⟩, hl.numbered.grown hg, Nat.succ_pos j, hj, ?_, ?_, happend,
      ⟨rest, ?_⟩, tag', ?_⟩
    · rw [hg.created, hl.created]; omega
    · rw [hg.forces, hl.forced]; omega
    · rw [hold _ (by omega) (Nat.ne_of_gt (Nat.lt_succ_of_lt hclt)), htail]
      simp [Interval.rest, part, Int.add_assoc]
    · rw [hold y (Nat.lt_add_right 2 hylt) hyc, hgm.state y (hbsize ▸ hylt) (by simpa using hyx),
        Store.state_began_of_ne _ hyc, hy]
  refine ⟨node, _, _, e, 3, 2, _, hforce, hg, hself, ⟨tag, ?_⟩, by omega, .within hlap⟩
  rw [hold _ (by omega) (Nat.ne_of_gt hclt), hhead, Nat.mul_add_mod_self_right, Nat.mod_eq_of_lt hj]

/-- Where a lap ends, what is left of it is at its end, and the next lap begins. -/
theorem Lap.force_boundary (p : Program) (depth : Nat) (hl : Lap r base h s c q r.length x y) (hs : s.Hosts h)
    (hne : r.lo ≤ r.hi) (hr : r.length ≤ sizeLimit) : ∃ node head tail e made forced changed,
      force (p.runAt (depth + 3)) c s = .ok (.cons node (.cell head) (.cell tail)) e ∧
      Grown h s e made forced changed ∧ Node r base h (q * r.length + r.length) c node head tail e := by
  obtain ⟨tag, hx⟩ := hl.rest
  obtain ⟨tag', hy⟩ := hl.next
  obtain ⟨hxc, hyc, hyx⟩ := hl.distinct
  have hsize := hl.numbered.size
  have hclt := Store.lt_of_suspended hl.state
  have hylt := Store.lt_of_suspended hy
  let part : Interval := ⟨r.lo + r.length, r.hi⟩
  have hbegan := Grown.began h s c (.appendNode (.cell x) (.cell y))
  have hbsize : (s.began c h (.appendNode (.cell x) (.cell y))).cells.size = s.cells.size := hbegan.size
  have hxb := (Store.state_began_of_ne s hxc h (.appendNode (.cell x) (.cell y))).trans hx
  obtain ⟨m, hm, hgm, -⟩ := force_interval_empty p (depth + 1) (r := part) (hbegan.hosts hs) hxb r.hi_lt_end
  have hmsize : m.cells.size = s.cells.size := by rw [hgm.size, hbsize, Nat.add_zero]
  have hym : m.state y = .suspended (.freshLap tag' (.interval (.int r.lo) (.int r.hi))) := by
    rw [hgm.state y (hbsize ▸ hylt) (by simpa using hyx), Store.state_began_of_ne _ hyc, hy]
  obtain ⟨node, first, rest, e, hlap, hg, -, hhead, hx', hy', htail⟩ :=
    force_freshLap p depth (hgm.hosts (hbegan.hosts hs)) hym hne hr
  rw [hmsize] at hlap hhead hx' hy' htail
  obtain ⟨hforce, hall⟩ := force_append_end hs hl.state hm hlap (hgm.trans hg)
  have hesize : e.cells.size = s.cells.size + 6 := by rw [hg.size, hmsize]
  have hq : (q + 1) * r.length = q * r.length + r.length := Nat.succ_mul q r.length
  -- the new cells are as the lap left them
  have hnew : ∀ i, (e.finished c h (.cons node (.cell (s.cells.size + 1)) (.cell (s.cells.size + 5)))).state
      (s.cells.size + i) = e.state (s.cells.size + i) := fun i =>
    Store.state_finished_of_ne _ (Nat.ne_of_gt (Nat.lt_add_right i hclt)) h _
  have hnext : Lap r base h (e.finished c h (.cons node (.cell (s.cells.size + 1)) (.cell (s.cells.size + 5))))
      (s.cells.size + 5) (q + 1) 1 (s.cells.size + 2) (s.cells.size + 3) := by
    refine ⟨by omega, hl.numbered.grown hall, Nat.one_pos, Nat.le_trans hl.pos hl.le, ?_, ?_, (hnew 5).trans htail,
      ⟨rest, (hnew 2).trans ?_⟩, tag', (hnew 3).trans hy'⟩
    · rw [hall.created, hl.created]; omega
    · rw [hall.forces, hl.forced]; omega
    · simpa [Interval.rest] using hx'
  refine ⟨node, _, _, _, _, _, _, hforce, hall, ⟨?_, ⟨first, (hnew 1).trans ?_⟩, by omega, ?_⟩⟩
  · exact Store.state_finished_self (hesize ▸ Nat.lt_add_right 6 hclt) h _
  · rw [hhead, Nat.mul_add_mod_self_right, Nat.mod_self]
    simp
  · have hleft := Left.within hnext
    rw [hq] at hleft
    exact hleft

/-- **A force of what is left gives the next element, and leaves what follows it.** -/
theorem Left.force (p : Program) (depth : Nat) (hl : Left r base h s c k) (hs : s.Hosts h) (hne : r.lo ≤ r.hi)
    (hr : r.length ≤ sizeLimit) : ∃ node head tail e made forced changed,
      force (p.runAt (depth + 3)) c s = .ok (.cons node (.cell head) (.cell tail)) e ∧
      Grown h s e made forced changed ∧ Node r base h k c node head tail e := by
  cases hl with
  | start hl => exact hl.force p depth hs hne hr
  | @within q j x y hl =>
    rcases Nat.lt_or_eq_of_le hl.le with hj | rfl
    · exact hl.force_within p depth hs hj hr
    · exact hl.force_boundary p depth hs hne hr

/-! ## What is live -/

theorem Left.base_le (hl : Left r base h s c k) : base ≤ c := by
  cases hl with
  | start hl => exact hl.base_le
  | within hl => exact hl.base_le.1

/-- After a step, what is left is in some lap. -/
theorem Left.lap (hl : Left r base h s c k) (hk : 0 < k) :
    ∃ q j x y, k = q * r.length + j ∧ Lap r base h s c q j x y := by
  cases hl with
  | start => exact absurd hk (Nat.lt_irrefl 0)
  | within hl => exact ⟨_, _, _, _, rfl, hl⟩

theorem Start.count (hl : Start r base h s c) (hr : (s.heap h).roots = [(Consumer.rootName, .cell c)]) :
    ∃ found, s.reachable h = .ok found ∧ found.size = 1 := by
  obtain ⟨tag, hc⟩ := hl.state
  have hrefs : s.refs c = [] := Store.refs_of_state hc
  refine Store.reachable_of_root hl.numbered hr [c] (List.nodup_singleton c) List.mem_cons_self ?_ ?_ ?_
  · simp [hrefs]
  · simpa using ⟨hl.base_le, Store.lt_of_suspended hc⟩
  · simpa using (show s.Kept [.cell c] c from .root List.mem_cons_self)

theorem Lap.count (hl : Lap r base h s c q j x y) (hr : (s.heap h).roots = [(Consumer.rootName, .cell c)]) :
    ∃ found, s.reachable h = .ok found ∧ found.size = 3 := by
  obtain ⟨tag, hx⟩ := hl.rest
  obtain ⟨tag', hy⟩ := hl.next
  obtain ⟨hxc, hyc, hyx⟩ := hl.distinct
  have hcrefs : s.refs c = [.cell x, .cell y] := Store.refs_of_state hl.state
  have hxrefs : s.refs x = [] := Store.refs_of_state hx
  have hyrefs : s.refs y = [] := Store.refs_of_state hy
  have hvalid : ∀ b ∈ [c, x, y], base ≤ b ∧ b < s.cells.size := by
    have hclt := Store.lt_of_suspended hl.state
    have hxlt := Store.lt_of_suspended hx
    have hylt := Store.lt_of_suspended hy
    have hb := hl.base_le
    simp [hb, hclt, hxlt, hylt]
  have hc : s.Kept [.cell c] c := .root List.mem_cons_self
  refine Store.reachable_of_root hl.numbered hr [c, x, y] ?_ List.mem_cons_self ?_ hvalid ?_
  · simp [hxc.symm, hyc.symm, hyx.symm]
  · simp [hcrefs, hxrefs, hyrefs]
  · simp [hc, hc.step (d := x) (by simp [hcrefs]), hc.step (d := y) (by simp [hcrefs])]

/-- Once the element is read, its node and its head are live beside what follows it. -/
theorem Node.count_read {node : Tag} {head tail : CellId} {v : Int} {e : Store} {made forced : Nat}
    (hn : Node r base h k c node head tail s) (hg : Grown h s e made forced [head]) (hb : base ≤ c)
    (hv : e.state head = .evaluated (.int v)) (hr : (e.heap h).roots = [(Consumer.rootName, .cell c)]) :
    ∃ found, e.reachable h = .ok found ∧ found.size = 5 := by
  obtain ⟨q, j, x, y, -, hl⟩ := hn.rest.lap (Nat.succ_pos k)
  obtain ⟨tag, hx⟩ := hl.rest
  obtain ⟨tag', hy⟩ := hl.next
  obtain ⟨tag'', hfirst⟩ := hn.first
  -- reading the head changes no other cell
  have hkeep : ∀ b st, s.state b = st → st ≠ .evaluated .null → st ≠ s.state head → e.state b = st :=
    fun b st hst hne hnh => by
      refine (hg.state b (Store.lt_of_state hst hne) fun hmem => hnh ?_).trans hst
      rw [← hst, List.mem_singleton.1 hmem]
  rw [hfirst] at hkeep
  have hce := hkeep c _ hn.evaluated (by simp) (by simp)
  have hte := hkeep tail _ hl.state (by simp) (by simp)
  have hxe := hkeep x _ hx (by simp) (by simp)
  have hye := hkeep y _ hy (by simp) (by simp)
  have hcrefs : e.refs c = [.cell head, .cell tail] := Store.refs_of_state hce
  have hhrefs : e.refs head = [] := Store.refs_of_state hv
  have htrefs : e.refs tail = [.cell x, .cell y] := Store.refs_of_state hte
  have hxrefs : e.refs x = [] := Store.refs_of_state hxe
  have hyrefs : e.refs y = [] := Store.refs_of_state hye
  have hvalid : ∀ b ∈ [c, head, tail, x, y], base ≤ b ∧ b < e.cells.size := by
    simp [hb, hn.base_le, hl.base_le, Store.lt_of_state hce, Store.lt_of_state hv, Store.lt_of_suspended hte,
      Store.lt_of_suspended hxe, Store.lt_of_suspended hye]
  have hkc : e.Kept [.cell c] c := .root List.mem_cons_self
  have hkt := hkc.step (d := tail) (by simp [hcrefs])
  refine Store.reachable_of_root (hl.numbered.grown hg) hr [c, head, tail, x, y] ?_ List.mem_cons_self ?_ hvalid ?_
  · -- the five cells are told apart by their states
    refine List.Nodup.of_map e.state ?_
    simp [hce, hv, hte, hxe, hye]
  · simp [hcrefs, hhrefs, htrefs, hxrefs, hyrefs]
  · simp [hkc, hkt, hkc.step (d := head) (by simp [hcrefs]), hkt.step (d := x) (by simp [htrefs]),
      hkt.step (d := y) (by simp [htrefs])]

theorem Left.congr {e : Store} (hl : Left r base h s c k) (hcells : e.cells = s.cells)
    (hmade : (e.heap h).created = (s.heap h).created) (hforced : (e.heap h).forced = (s.heap h).forced) :
    Left r base h e c k := by
  have hstate := congrFun (Store.state_of_cells hcells)
  cases hl with
  | start hl =>
    obtain ⟨tag, hc⟩ := hl.state
    exact .start ⟨hl.base_le, hl.numbered.congr hcells hmade, hmade.trans hl.created, hforced.trans hl.forced, tag,
      (hstate c).trans hc⟩
  | within hl =>
    obtain ⟨tag, hx⟩ := hl.rest
    obtain ⟨tag', hy⟩ := hl.next
    exact .within ⟨hl.base_le, hl.numbered.congr hcells hmade, hl.pos, hl.le, hmade.trans hl.created,
      hforced.trans hl.forced, (hstate c).trans hl.state, ⟨tag, (hstate _).trans hx⟩, tag', (hstate _).trans hy⟩

/-- After `k + 1` steps, `k / r.length` whole laps lie behind. -/
theorem Left.counters (hl : Left r base h s c (k + 1)) :
    (s.heap h).created = 7 + 3 * k + 3 * (k / r.length) ∧ (s.heap h).forced = 3 + 2 * k + 3 * (k / r.length) := by
  obtain ⟨q, j, x, y, hk, hl⟩ := hl.lap (Nat.succ_pos k)
  have hpos := hl.pos
  have hle := hl.le
  have hq : k / r.length = q := by
    refine Nat.div_eq_of_lt_le (by omega) ?_
    have hsucc : (q + 1) * r.length = q * r.length + r.length := Nat.succ_mul q r.length
    omega
  rw [hl.created, hl.forced, hq, ← hk]
  omega

/-- The live cells after `k` steps. -/
def liveAfter (k : Nat) : Nat := if k = 0 then 1 else 3

theorem liveAfter_mono {i k : Nat} (h : i ≤ k) : liveAfter i ≤ liveAfter k := by
  unfold liveAfter
  split <;> split <;> omega

theorem liveAfter_le (k : Nat) : liveAfter k ≤ 5 := by
  unfold liveAfter
  split <;> omega

theorem Left.count (hl : Left r base h s c k) (hroots : (s.heap h).roots = [(Consumer.rootName, .cell c)]) :
    ∃ found, s.reachable h = .ok found ∧ found.size = liveAfter k := by
  cases hl with
  | start hl => exact hl.count hroots
  | @within q j x y hl =>
    have hpos := hl.pos
    rw [liveAfter, if_neg (by omega)]
    exact hl.count hroots

theorem Left.step (p : Program) (depth : Nat) (hl : Left r base h s c k) (hs : s.Hosts h) (hne : r.lo ≤ r.hi)
    (hr : r.length ≤ sizeLimit) : ∃ tag head tail e made forced changed,
      Retention.force (p.runAt (depth + 3)) c s = .ok (.cons tag head (.cell tail)) e ∧ Grown h s e made forced changed ∧
      tail ≠ c ∧ Left r base h e tail (k + 1) := by
  obtain ⟨node, head, tail, e, made, forced, changed, hforce, hg, hn⟩ := hl.force p depth hs hne hr
  refine ⟨node, .cell head, tail, e, made, forced, changed, hforce, hg, fun heq => ?_, hn.rest⟩
  obtain ⟨q, j, x, y, -, hlap⟩ := hn.rest.lap (Nat.succ_pos k)
  have hstate := hlap.state
  rw [heq, hn.evaluated] at hstate
  cases hstate

/-- The next element is read. -/
theorem Left.read (p : Program) (depth : Nat) (hl : Left r base h s c k) (hs : s.Hosts h) (hne : r.lo ≤ r.hi)
    (hr : r.length ≤ sizeLimit) (hroots : (s.heap h).roots = [(Consumer.rootName, .cell c)]) :
    ∃ tag head tail m e made count changed found,
      Retention.force (p.runAt (depth + 3)) c s = .ok (.cons tag (.cell head) tail) m ∧
      Retention.force (p.runAt (depth + 3)) head m = .ok (.int (r.lo + (k % r.length : Nat))) e ∧
      Grown h s e made count changed ∧
      (e.heap h).created = 7 + 3 * k + 3 * (k / r.length) ∧ (e.heap h).forced = 4 + 2 * k + 3 * (k / r.length) ∧
      e.reachable h = .ok found ∧ found.size = 5 := by
  obtain ⟨node, head, tail, m, made, forced, changed, hforce, hg, hn⟩ := hl.force p depth hs hne hr
  obtain ⟨tag, hfirst⟩ := hn.first
  let part : Interval := ⟨r.lo + (k % r.length : Nat), r.hi⟩
  obtain ⟨hpne, hpart⟩ := Interval.from_element (Nat.mod_lt k (Interval.length_pos hne))
  obtain ⟨e, hhead, hg', hv⟩ :=
    force_intervalHead p (depth + 2) (r := part) (hg.hosts hs) hfirst hpne (Nat.le_trans hpart hr)
  have hall := hg.trans hg'
  have heroots : (e.heap h).roots = [(Consumer.rootName, .cell c)] := by
    obtain ⟨table, ht⟩ := hall.heap
    rw [ht]
    exact hroots
  obtain ⟨found, hfound, hsize⟩ := hn.count_read hg' hl.base_le hv heroots
  obtain ⟨hcreated, hforced⟩ := hn.rest.counters
  refine ⟨node, head, .cell tail, m, e, _, _, _, found, hforce, hhead, hall, ?_, ?_, hfound, hsize⟩
  · rw [hg'.created, hcreated, Nat.add_zero]
  · rw [hg'.forces, hforced]
    omega

/-- The course of the repetition of an interval by name. -/
def course (p : Program) (r : Interval) (base : Nat) (h : HeapId) (hne : r.lo ≤ r.hi) (hr : r.length ≤ sizeLimit) :
    Course p.run h where
  left k c s := Left r base h s c k
  live := liveAfter
  value k := .int (r.lo + (k % r.length : Nat))
  total _ := 5
  created k := 7 + 3 * k + 3 * (k / r.length)
  forced k := 4 + 2 * k + 3 * (k / r.length)
  congr := Left.congr
  count := Left.count
  step hl hs := hl.step p 4997 hs hne hr
  read hl hs hroots := hl.read p 4997 hs hne hr hroots
  live_le_succ k := liveAfter_mono (Nat.le_succ k)
  live_le_total := liveAfter_le

theorem cycle_eq_ok {traces : Bool} {m : Store} (hm : Scenario.Opened s traces m) : ∃ c e made forced changed,
    Discipline.cycle (.int r.lo) (.int r.hi) .name m = .ok c e ∧ Grown s.heaps.size m e made forced changed ∧
    Left r s.cells.size s.heaps.size e c 0 := by
  let lap := Thunk.freshLap m.nextTag (.interval (.int r.lo) (.int r.hi))
  have hg : Grown s.heaps.size m (m.tagged.register s.heaps.size (.suspended lap)) 1 0 [] :=
    (Grown.tagged _ m).trans (.register (s := m.tagged) hm.hosts.valid _)
  have hrun : Discipline.cycle (.int r.lo) (.int r.hi) .name m =
      .ok m.cells.size (m.tagged.register s.heaps.size (.suspended lap)) :=
    (Run.bind_ok (Run.freshTag_apply m)).trans (Run.suspend_apply (s := m.tagged) hm.hosts.active lap)
  refine ⟨m.cells.size, _, 1, 0, [], hrun, hg, .start ⟨?_, hm.numbered.grown hg, ?_, ?_, m.nextTag, ?_⟩⟩
  · exact Nat.le_of_eq (congrArg Array.size hm.cells).symm
  · rw [hg.created, hm.heap]
  · rw [hg.forces, hm.heap]
  · exact Store.state_register_new m.tagged s.heaps.size (.suspended lap)

theorem samples_course {p : Program} {base : Nat} (hne : r.lo ≤ r.hi) (hr : r.length ≤ sizeLimit) (traces samples : Bool)
    (n : Nat) : (course p r base h hne hr).samples traces samples n =
      if traces then (if samples then 1 :: List.replicate n 3 else []) ++ [5] else [] := by
  have hlive : (List.range (n + 1)).map (course p r base h hne hr).live = 1 :: List.replicate n 3 := by
    rw [List.range_succ_eq_map, List.map_cons, List.map_map]
    refine congrArg _ (List.eq_replicate_iff.2 ⟨by simp, fun b hb => ?_⟩)
    obtain ⟨i, -, rfl⟩ := List.mem_map.1 hb
    rfl
  unfold Course.samples
  rw [hlive]
  rfl

/-- **A scenario by name retains five cells, however long the list and however far it is read.**  For all bounds whose
interval has `m` elements, not none and a number that can be taken, for every number of steps, and whatever is traced
and sampled, the report tells the element of the endless repetition at that place, and five live cells, of which there
were never more when a sample was taken: one before the first step, three after each, five once the element is read. -/
theorem report_retains_five (p : Program) (s : Store) (lo hi : Int) (n m : Nat) (traces samples : Bool) (hle : lo ≤ hi)
    (hm : (m : Int) = hi - lo + 1) (hlimit : m ≤ sizeLimit) : ∃ r e,
    Scenario.report p.run ⟨.int lo, .int hi, .int n, .bool traces, .bool samples⟩ .name s = .ok r e ∧
    r.discipline = .name ∧ r.head = .int (lo + (n % m : Nat)) ∧ r.live = .int 5 ∧ r.peak = .int 5 ∧
    r.samples = (if traces then (if samples then 1 :: List.replicate n 3 else []) ++ [5] else []).map
      fun live : Nat => .int live := by
  let r : Interval := ⟨lo, hi⟩
  obtain rfl : r.length = m := by
    unfold Interval.length
    simp only [r]
    omega
  obtain ⟨e, hrun⟩ := Scenario.report_eq_ok (course p r s.cells.size s.heaps.size hle hlimit) n samples
    fun m (hm : Scenario.Opened s traces m) => cycle_eq_ok (r := r) hm
  refine ⟨_, e, hrun, rfl, rfl, rfl, rfl, ?_⟩
  rw [samples_course]

theorem report_retains_five_instance :
    (3 : Int) ≤ 5 ∧ ((3 : Nat) : Int) = 5 - 3 + 1 ∧ 3 ≤ sizeLimit ∧ ∃ r e,
      Scenario.report (Program.run []) ⟨.int 3, .int 5, .int (4 : Nat), .bool true, .bool true⟩ .name {} = .ok r e ∧
      r.head = .int 4 ∧ r.live = .int 5 ∧ r.samples = [1, 3, 3, 3, 3, 5].map fun live : Nat => .int live := by
  obtain ⟨r, e, hrun, -, hhead, hlive, -, hsamples⟩ :=
    report_retains_five [] {} 3 5 4 3 true true (by decide) (by decide) (by decide)
  exact ⟨by decide, by decide, by decide, r, e, hrun, hhead, hlive, hsamples⟩

end ByName
end Retention
