import Retention.Proofs.Reading
/-!
# Spanning — the list over an interval

Each node of the list over an interval is made when it is forced: a cell for the element, which waits, and a cell for the
list over the rest.  `Store.Unrolled` says what of such a list was forced, and follows the list node by node; the steps
along the list are by induction on their number (`unrolled`).

Whether an interval is empty is told by its length, and a length above `sizeLimit` cannot be taken.  Bounds may be any
integers, but if they are too far apart the list fails where it begins.
-/
namespace Retention

open Store (OnlyCells)

variable {p : Program} {depth : Nat} {g : HeapId} {s m e : Store} {c d : CellId} {r : Interval} {tag : Tag} {spine : List CellId}

namespace Store

/-- A cell that waits for the node of the list over an interval. -/
def Spans (s : Store) (r : Interval) (c : CellId) : Prop :=
  ∃ tag, s.state c = .suspended (.intervalNode tag (.int r.lo) (.int r.hi))

/-- A cell that waits for the first element of an interval. -/
def HeadOf (s : Store) (r : Interval) (c : CellId) : Prop :=
  ∃ tag, s.state c = .suspended (.intervalHead tag (.int r.lo) (.int r.hi))

/-- Of the list over an interval, just these cells were forced, one after the other, and no element.  The last cell is
where the list goes on, or its end. -/
inductive Unrolled (s : Store) : Interval → CellId → List CellId → CellId → Prop
  | waits {r : Interval} {c : CellId} (hc : s.Spans r c) : Unrolled s r c [] c
  | ended {r : Interval} {c : CellId} (hempty : r.hi < r.lo) (hc : s.state c = .evaluated .listEnd) : Unrolled s r c [c] c
  | node {r : Interval} {c head next d : CellId} {tag : Tag} {spine : List CellId} (hne : r.lo ≤ r.hi)
    (hc : s.state c = .evaluated (.cons tag (.cell head) (.cell next))) (hhead : s.HeadOf r head)
    (hrest : Unrolled s r.rest next spine d) : Unrolled s r c (c :: spine) d

end Store

/-! ## One node -/

theorem onlyCells_listEnd : OnlyCells Value.listEnd.refs := fun _ hv => absurd hv List.not_mem_nil

/-- While a cell that waits for a part of an interval is in progress, the heap serves. -/
theorem Store.Serves.began_of_opaque {t : Thunk} (hs : s.Serves g) (ht : t.refs = []) (c : CellId) :
    (s.began c g t).Serves g :=
  have hrefs : OnlyCells (CellState.inProgress t).refs := by
    rw [show (CellState.inProgress t).refs = t.refs from rfl, ht]
    exact fun _ hv => absurd hv List.not_mem_nil
  (hs.setState c hrefs).recorded _

/-- **The list over an interval that is not empty**: its node refers to two new cells, of the first element and of the
list over the rest, and no other cell changes. -/
theorem force_spans (p : Program) (depth : Nat) (hs : s.Serves g) (hc : s.Spans r c) (hne : r.lo ≤ r.hi) (hr : r.length ≤ sizeLimit) :
    ∃ tag head next e, force (p.runAt (depth + 1)) c s = .ok (.cons tag (.cell head) (.cell next)) e ∧ e.Serves g ∧
      e.cells.size = s.cells.size + 2 ∧ s.Forced [c] e ∧ s.cells.size ≤ next ∧ head ≠ next ∧
      e.state c = .evaluated (.cons tag (.cell head) (.cell next)) ∧ e.HeadOf r head ∧ e.Spans r.rest next ∧
      ∀ b < s.cells.size, b ≠ c → e.state b = s.state b := by
  obtain ⟨tag, hc⟩ := hc
  have hlt := Store.lt_of_suspended hc
  let b := s.began c g (.intervalNode tag (.int r.lo) (.int r.hi))
  have hb : b.Serves g := hs.began_of_opaque rfl c
  let head := CellState.suspended (.intervalHead tag (.int r.lo) (.int r.hi))
  let next := CellState.suspended (.intervalNode (b.register g head).nextTag (.int r.rest.lo) (.int r.rest.hi))
  let m := ((b.register g head).tagged.register g next).tagged
  have hm : m.Serves g := by
    have hrefs : OnlyCells head.refs ∧ OnlyCells next.refs :=
      ⟨fun _ hv => absurd hv List.not_mem_nil, fun _ hv => absurd hv List.not_mem_nil⟩
    have htagged : (b.register g head).tagged.Serves g := (hb.register hrefs.1).congr rfl rfl rfl
    exact (htagged.register hrefs.2).congr rfl rfl rfl
  have hproduce : Sequence.intervalNode tag (.int r.lo) (.int r.hi) b =
      .ok (.cons (b.nextTag + 1) (.cell b.cells.size) (.cell (b.cells.size + 1))) m :=
    Sequence.intervalNode_apply hb.active hne hr tag
  obtain ⟨heaps, hforce, hserves⟩ := force_valued p depth hs.active hc hproduce hm (Store.onlyCells_pair _ _)
  have hbsize : b.cells.size = s.cells.size := Store.size_setState s c _
  have hfirst : (b.register g head).cells.size = b.cells.size + 1 := Store.size_register ..
  have hsecond : m.cells.size = b.cells.size + 2 := (Store.size_register ..).trans (congrArg (· + 1) hfirst)
  have hcb : c < b.cells.size := hbsize ▸ hlt
  refine ⟨_, b.cells.size, b.cells.size + 1, _, hforce, hserves, ?_, rfl, by omega,
    Nat.ne_of_lt (Nat.lt_succ_self _), ?_, ⟨tag, ?_⟩, ⟨(b.register g head).nextTag, ?_⟩, fun a ha hac => ?_⟩
  · rw [Store.size_valued, hsecond, hbsize]
  · exact Store.state_valued_self (hsecond ▸ Nat.lt_add_right 2 hcb) _ _
  · rw [Store.state_valued_of_ne (Nat.ne_of_gt hcb)]
    have hold : b.cells.size < (b.register g head).tagged.cells.size := hfirst ▸ Nat.lt_succ_self _
    exact (Store.state_register_of_lt hold g next).trans (Store.state_register_new b g head)
  · rw [Store.state_valued_of_ne (Nat.ne_of_gt (Nat.lt_succ_of_lt hcb))]
    show m.state (b.cells.size + 1) = _
    rw [← hfirst]
    exact Store.state_register_new (b.register g head).tagged g next
  · rw [Store.state_valued_of_ne hac]
    have hold : a < (b.register g head).tagged.cells.size := hfirst ▸ Nat.lt_succ_of_lt (hbsize ▸ ha)
    exact ((Store.state_register_of_lt hold g next).trans (Store.state_register_of_lt (hbsize ▸ ha) g head)).trans
      (Store.state_began_of_ne s hac g _)

/-- The list over an empty interval is at its end. -/
theorem force_spans_empty (p : Program) (depth : Nat) (hs : s.Serves g) (hc : s.Spans r c) (hempty : r.hi < r.lo) :
    ∃ e, force (p.runAt (depth + 1)) c s = .ok .listEnd e ∧ e.Serves g ∧ e.cells.size = s.cells.size ∧ s.Forced [c] e ∧
      e.state c = .evaluated .listEnd ∧ ∀ b ≠ c, e.state b = s.state b := by
  obtain ⟨tag, hc⟩ := hc
  have hlt := Store.lt_of_suspended hc
  let b := s.began c g (.intervalNode tag (.int r.lo) (.int r.hi))
  have hbsize : b.cells.size = s.cells.size := Store.size_setState s c _
  obtain ⟨heaps, hforce, hserves⟩ := force_valued p depth hs.active hc
    (Sequence.intervalNode_of_empty hempty tag b) (hs.began_of_opaque rfl c) onlyCells_listEnd
  refine ⟨_, hforce, hserves, ?_, rfl, Store.state_valued_self (hbsize ▸ hlt) _ _, fun a hne => ?_⟩
  · rw [Store.size_valued, hbsize]
  · rw [Store.state_valued_of_ne hne]
    exact Store.state_began_of_ne s hne g _

/-- **The list over an interval whose length cannot be taken fails**, and makes no cell. -/
theorem force_spans_too_long (p : Program) (depth : Nat) (ha : s.active = some g) (hc : s.Spans r c) (hr : sizeLimit < r.length) :
    ∃ e, force (p.runAt (depth + 1)) c s = .error (.raised s.faults.size) e ∧ e.cells.size = s.cells.size ∧
      e.faults[s.faults.size]? = some ⟨.tooLong, []⟩ ∧ e.state c = .failed (.fault s.faults.size) ∧
      ∀ b ≠ c, e.state b = s.state b := by
  obtain ⟨tag, hc⟩ := hc
  let b := s.began c g (.intervalNode tag (.int r.lo) (.int r.hi))
  let m : Store := { b with faults := b.faults.push ⟨.tooLong, []⟩ }
  have hproduce : Sequence.intervalNode tag (.int r.lo) (.int r.hi) b = .error (.raised s.faults.size) m := by
    have hnone : r.length? = none := if_neg (Nat.not_le.2 hr)
    refine Run.bind_error ?_
    unfold Run.lengthBetween
    rw [show Value.between? (.int r.lo) (.int r.hi) = some r from rfl]
    simp only [hnone]
    rfl
  have hsize : m.cells.size = s.cells.size := Store.size_setState s c _
  refine ⟨m.aborted c s.faults.size, ?_, (Store.size_setState ..).trans hsize, Array.getElem?_push_size, ?_, fun a hne => ?_⟩
  · rw [force_of_suspended p depth ha hc,
      show (Thunk.intervalNode tag (.int r.lo) (.int r.hi)).produce p (p.runAt depth) b = _ from hproduce]
  · exact Store.state_setState_self (m.recorded _) c _ (hsize ▸ Store.lt_of_suspended hc)
  · exact (Store.state_setState_of_ne (m.recorded _) _ hne).trans (Store.state_began_of_ne s hne g _)

/-- The first element of an interval, whenever it is asked for. -/
theorem force_headOf (p : Program) (depth : Nat) (hs : s.Serves g) (hc : s.HeadOf r c) (hne : r.lo ≤ r.hi) (hr : r.length ≤ sizeLimit) :
    ∃ e, force (p.runAt (depth + 1)) c s = .ok (.int r.lo) e ∧ e.Serves g ∧ s.Forced [c] e ∧
      ∀ b ≠ c, e.state b = s.state b := by
  obtain ⟨tag, hc⟩ := hc
  obtain ⟨heaps, hforce, hserves⟩ := force_valued p depth hs.active hc
    (Sequence.element_zero hne hr tag (s.began c g (.intervalHead tag (.int r.lo) (.int r.hi)))) (hs.began_of_opaque rfl c)
    fun _ hv => absurd hv List.not_mem_nil
  refine ⟨_, hforce, hserves, rfl, fun b hb => ?_⟩
  rw [Store.state_valued_of_ne hb]
  exact Store.state_began_of_ne s hb g _

/-! ## Steps along the list -/

namespace Store.Unrolled
variable {i : Nat} {b : CellId}

/-- The cell to which the forced ones lead is that of the position after them, or of the end. -/
theorem last (h : s.Unrolled r c spine d) : s.SpineAt c (min spine.length r.length) d := by
  induction h with
  | waits => exact .first
  | @ended r c hempty =>
    rw [(r.length_eq_zero_iff).2 hempty, Nat.min_zero]
    exact .first
  | @node r c head next d tag spine hne hc _ _ ih =>
    have hpos := r.length_pos hne
    rw [r.length_rest] at ih
    rw [List.length_cons, show min (spine.length + 1) r.length = min spine.length (r.length - 1) + 1 by omega]
    exact ih.cons hc

theorem spineAt (h : s.Unrolled r c spine d) (hb : spine[i]? = some b) : s.SpineAt c i b := by
  induction h generalizing i with
  | waits => cases hb
  | ended =>
    cases i with
    | zero => cases hb; exact .first
    | succ i => cases hb
  | node _ hc _ _ ih =>
    cases i with
    | zero => cases hb; exact .first
    | succ i => exact (ih hb).cons hc

/-- A forced cell before the end is a node, and its element waits. -/
theorem element (h : s.Unrolled r c spine d) (hi : i < min spine.length r.length) : ∃ b tag head next, s.SpineAt c i b ∧
    s.state b = .evaluated (.cons tag (.cell head) (.cell next)) ∧ s.HeadOf ⟨r.lo + i, r.hi⟩ head := by
  induction h generalizing i with
  | waits => exact absurd hi (by simp)
  | @ended r c hempty => exact absurd hi (by simp [(r.length_eq_zero_iff).2 hempty])
  | @node r c head next d tag spine hne hc hhead _ ih =>
    cases i with
    | zero => exact ⟨c, tag, head, next, .first, hc, by simpa using hhead⟩
    | succ i =>
      rw [List.length_cons] at hi
      obtain ⟨b, tag', head', next', hb, hnode, hhead'⟩ := ih (i := i) (by rw [r.length_rest]; omega)
      refine ⟨b, tag', head', next', hb.cons hc, hnode, ?_⟩
      rwa [show r.rest.lo + (i : Int) = r.lo + (i + 1 : Nat) by simp only [Interval.rest]; omega] at hhead'

theorem atEnd (h : s.Unrolled r c spine d) (hi : r.length < spine.length) : s.state d = .evaluated .listEnd := by
  induction h with
  | waits => exact absurd hi (Nat.not_lt_zero _)
  | ended _ hc => exact hc
  | @node r c head next d tag spine hne hc hhead _ ih =>
    have hpos := r.length_pos hne
    rw [List.length_cons] at hi
    exact ih (by rw [r.length_rest]; omega)

end Store.Unrolled

/-- What up to `k` steps along the list over an interval do: they force its cells one after the other, down to the end of
the list, make two cells for each element, and change no cell that was there before. -/
structure SpanSteps (g : HeapId) (r : Interval) (c : CellId) (k : Nat) (s : Store) (spine : List CellId) (d : CellId)
    (e : Store) : Prop where
  serves : e.Serves g
  unrolled : e.Unrolled r c spine d
  length : spine.length = min k (r.length + 1)
  size : e.cells.size = s.cells.size + 2 * min k r.length
  forced : s.Forced spine e
  others : ∀ b < s.cells.size, b ≠ c → e.state b = s.state b

/-- One node more at the front. -/
theorem SpanSteps.cons {head next : CellId} {k : Nat} (h : SpanSteps g r.rest next k m spine d e) (hne : r.lo ≤ r.hi)
    (hforced : s.Forced [c] m) (hsize : m.cells.size = s.cells.size + 2) (hclt : c < s.cells.size)
    (hnext : s.cells.size ≤ next) (hhn : head ≠ next) (hc : m.state c = .evaluated (.cons tag (.cell head) (.cell next)))
    (hhead : m.HeadOf r head) (hothers : ∀ b < s.cells.size, b ≠ c → m.state b = s.state b) :
    SpanSteps g r c (k + 1) s (c :: spine) d e := by
  have hpos := r.length_pos hne
  have hlength := h.length
  have hesize := h.size
  rw [r.length_rest] at hlength hesize
  have hold : ∀ b < s.cells.size, e.state b = m.state b := fun b hb =>
    h.others b (hsize ▸ Nat.lt_add_right 2 hb) (Nat.ne_of_lt (Nat.lt_of_lt_of_le hb hnext))
  refine ⟨h.serves, .node hne ((hold c hclt).trans hc) ?_ h.unrolled, ?_, ?_, hforced.trans h.forced, fun b hb hbc => ?_⟩
  · obtain ⟨tag, hhead⟩ := hhead
    exact ⟨tag, (h.others head (Store.lt_of_suspended hhead) hhn).trans hhead⟩
  · rw [List.length_cons, hlength]
    omega
  · rw [hesize, hsize]
    omega
  · exact (hold b hb).trans (hothers b hb hbc)

/-- **Steps along the list over an interval whose length can be taken.** -/
theorem dropSteps_spans (p : Program) (depth : Nat) (hs : s.Serves g) (hc : s.Spans r c) (hr : r.length ≤ sizeLimit) (k : Nat) :
    ∃ spine d e, Sequence.dropSteps (p.runAt (depth + 1)) k (.cell c) s = .ok (.cell d) e ∧ SpanSteps g r c k s spine d e := by
  induction k generalizing s c r with
  | zero =>
    refine ⟨[], c, s, rfl, hs, .waits hc, ?_, ?_, .refl s, fun _ _ _ => rfl⟩
    · rw [Nat.zero_min, List.length_nil]
    · rw [Nat.zero_min, Nat.mul_zero, Nat.add_zero]
  | succ k ih =>
    obtain ⟨tag', hwaits⟩ := id hc
    have hclt := Store.lt_of_suspended hwaits
    rcases lt_or_ge r.hi r.lo with hempty | hne
    · obtain ⟨e, hforce, hserves, hsize, hforced, hc, hothers⟩ :=
        force_spans_empty p depth hs hc hempty
      have hzero := (r.length_eq_zero_iff).2 hempty
      refine ⟨[c], c, e, Sequence.dropSteps_nil hforce k, hserves, .ended hempty hc, ?_, ?_, hforced,
        fun b _ hbc => hothers b hbc⟩
      · rw [hzero, List.length_singleton]
        omega
      · rw [hzero, hsize, Nat.min_zero, Nat.mul_zero, Nat.add_zero]
    · obtain ⟨tag, head, next, m, hforce, hserves, hsize, hforced, hnext, hhn, hc, hhead, hspans, hothers⟩ :=
        force_spans p depth hs hc hne hr
      have hrest : r.rest.length ≤ sizeLimit := by
        rw [r.length_rest]
        omega
      obtain ⟨spine, d, e, hdrop, hsteps⟩ := ih hserves hspans hrest
      exact ⟨c :: spine, d, e, (Sequence.dropSteps_cons hforce k).trans hdrop,
        hsteps.cons hne hforced hsize hclt hnext hhn hc hhead hothers⟩

/-- **The list over an interval has its integers, in order, and makes two cells for each element that is stepped over, as
long as its length can be taken.**  Take the list between any two integers, wherever it was made, in any store in which
it still waits and a heap serves.  If the length of the interval can be taken, up to `k` steps along the list succeed,
for every `k`: they begin forces of the cells of the list, from the first on, `k` of them or as many as there are with
the end of the list, in this order, and of no other cell; they make two cells for each element, and lead to the cell
after these elements, which is the end of the list if more steps are asked for than there are elements.  At each position
before it there is a node, and its head waits; whenever it is forced, on whichever heap that serves, it gives the lower
bound plus the position.  If the length cannot be taken, the first force of the list makes no cell and raises the error
that says so, and it is raised ever after. -/
theorem interval_list_unrolls (p : Program) (depth : Nat) {lo hi : Int} {s₀ s₁ s : Store} {c : CellId} {g : HeapId}
    (hmade : Sequence.between (.int lo) (.int hi) s₀ = .ok c s₁) (hs : s.Serves g) (hc : s.state c = s₁.state c) :
    let run := p.runAt (depth + 1)
    let n := Interval.length ⟨lo, hi⟩
    (n ≤ sizeLimit → ∀ k : Nat, ∃ spine d e, Sequence.drop run k (.cell c) s = .ok (.cell d) e ∧
      s.Forced spine e ∧ spine.length = min k (n + 1) ∧ (∀ i b, spine[i]? = some b → e.SpineAt c i b) ∧
      e.cells.size = s.cells.size + 2 * min k n ∧
      e.SpineAt c (min k n) d ∧ (n < k → e.state d = .evaluated .listEnd) ∧
      ∀ i < min k n, ∃ b tag head next t, e.SpineAt c i b ∧ e.state b = .evaluated (.cons tag (.cell head) (.cell next)) ∧
        e.state head = .suspended t ∧
        ∀ m h, m.Serves h → m.state head = e.state head → ∃ e', force run head m = .ok (.int (lo + i)) e') ∧
    (sizeLimit < n → ∃ z e, force run c s = .error (.raised z) e ∧ e.cells.size = s.cells.size ∧
      e.faults[z]? = some ⟨.tooLong, []⟩ ∧
      ∀ run' active, force run' c { e with active } = .error (.raised z) { e with active }) := by
  intro run n
  have hspans : s.Spans ⟨lo, hi⟩ c := by
    obtain ⟨tag, m, htag, hsuspend⟩ := Run.bind_eq_ok hmade
    obtain ⟨h, -, rfl, rfl⟩ := Run.suspend_ok hsuspend
    exact ⟨tag, hc.trans (Store.state_register_new m h _)⟩
  refine ⟨fun hn k => ?_, fun hn => ?_⟩
  · obtain ⟨spine, d, e, hdrop, hsteps⟩ := dropSteps_spans p depth hs hspans hn k
    have hlength : min spine.length n = min k n := by
      rw [hsteps.length]
      omega
    refine ⟨spine, d, e, ?_, hsteps.forced, hsteps.length, fun i b hb => hsteps.unrolled.spineAt hb, hsteps.size,
      hlength ▸ hsteps.unrolled.last, fun hk => hsteps.unrolled.atEnd ?_, fun i hlt => ?_⟩
    · exact (congrFun (Sequence.drop_natCast _ k _) s).trans hdrop
    · rw [hsteps.length]
      omega
    · obtain ⟨b, tag, head, next, hb, hnode, t, hhead⟩ := hsteps.unrolled.element (hlength ▸ hlt)
      obtain ⟨hne, hle⟩ := Interval.from_element (r := ⟨lo, hi⟩) (Nat.lt_of_lt_of_le hlt (Nat.min_le_right k n))
      refine ⟨b, tag, head, next, _, hb, hnode, hhead, fun m h hm hsame => ?_⟩
      obtain ⟨e', hforce, -⟩ := force_headOf p depth hm ⟨t, hsame.trans hhead⟩ hne (Nat.le_trans hle hn)
      exact ⟨e', hforce⟩
  · obtain ⟨e, hforce, hsize, hfault, hfailed, -⟩ := force_spans_too_long p depth hs.active hspans hn
    exact ⟨_, e, hforce, hsize, hfault, fun run' active => force_failed (s := { e with active }) hfailed run'⟩

namespace Spanning
open Run

/-- A heap is open, -/
def opened : Store := finalStore ((do enter (← newHeap {})) {})

/-- and a list over an interval is made on it. -/
def listed (lo hi : Int) : Store := finalStore (Sequence.between (.int lo) (.int hi) opened)

theorem serves_listed (lo hi : Int) : (listed lo hi).Serves 0 where
  active := rfl
  valid := Nat.one_pos
  forces := ⟨false, rfl⟩
  sampled h := by cases h

end Spanning

open Spanning in
/-- Three steps along a list of two elements come to its end. -/
theorem interval_list_unrolls_to_end :
    Sequence.between (.int 7) (.int 8) opened = .ok 0 (listed 7 8) ∧ (listed 7 8).Serves 0 ∧
    ∃ spine d e, Sequence.drop (Program.runAt [] 1) 3 (.cell 0) (listed 7 8) = .ok (.cell d) e ∧ (listed 7 8).Forced spine e ∧
      spine.length = 3 ∧ e.cells.size = 5 ∧ e.state d = .evaluated .listEnd := by
  have hmade : Sequence.between (.int 7) (.int 8) opened = .ok 0 (listed 7 8) := rfl
  have hserves := serves_listed 7 8
  obtain ⟨spine, d, e, hdrop, hforced, hlength, -, hsize, -, hend, -⟩ :=
    (interval_list_unrolls [] 0 hmade hserves rfl).1 (by decide) 3
  exact ⟨hmade, hserves, spine, d, e, hdrop, hforced, hlength, hsize, hend (by decide)⟩

open Spanning in
/-- The list from 1 to the first integer above the greatest count has an element at every position from 0 to that count,
but it fails when it is forced. -/
theorem uncountable_interval_list_fails :
    Sequence.between (.int 1) (.int (2 ^ 63)) opened = .ok 0 (listed 1 (2 ^ 63)) ∧ 0 < Interval.length ⟨1, 2 ^ 63⟩ ∧
    ∃ e, force (Program.runAt [] 1) 0 (listed 1 (2 ^ 63)) = .error (.raised 0) e ∧ e.faults[0]? = some ⟨.tooLong, []⟩ := by
  obtain ⟨e, hforce, -, hfault, -⟩ := force_spans_too_long [] 0 (c := 0) (r := ⟨1, 2 ^ 63⟩)
    (serves_listed 1 (2 ^ 63)).active ⟨1, rfl⟩ (by decide)
  exact ⟨rfl, by decide, e, hforce, hfault⟩

end Retention
