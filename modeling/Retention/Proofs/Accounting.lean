import Retention.Proofs.Conservation
import Retention.Proofs.Stepping
/-!
# Accounting — what a consumer counts

A consumer that samples takes one sample for each element that it steps over, right after the step (`Counted.step`), and
whatever else is done with the heap, no sample is lost (`Heap.Extends`).  So the samples of a walk stand on record in
their order, and if no force on the way takes a sample of the heap, nothing stands between them (`Walk.tally`).
-/
namespace Retention

variable {p : Program} {depth n : Nat} {h g : HeapId} {x : Consumer} {d : ConsumerId} {c r : CellId} {s m e : Store}

/-! ## What is on record of a heap -/

/-- A heap traces as before, and nothing that was measured is lost. -/
structure Heap.Extends (x y : Heap) : Prop where
  traces : y.traces = x.traces
  samples : x.samples.toList <+: y.samples.toList
  peak : x.peak ≤ y.peak

namespace Heap.Extends
variable {x y z : Heap}

theorem same (ht : y.traces = x.traces) (hs : y.samples = x.samples) (hp : y.peak = x.peak) : x.Extends y :=
  ⟨ht, hs ▸ List.prefix_rfl, Nat.le_of_eq hp.symm⟩

theorem refl (x : Heap) : x.Extends x := .same rfl rfl rfl

theorem trans (h : x.Extends y) (h' : y.Extends z) : x.Extends z :=
  ⟨h'.traces.trans h.traces, h.samples.trans h'.samples, h.peak.trans h'.peak⟩

end Heap.Extends

namespace Store

theorem extends_updateHeap {f : Heap → Heap} (s : Store) (h g : HeapId) (hf : ∀ x : Heap, x.Extends (f x)) :
    (s.heap g).Extends ((s.updateHeap h f).heap g) := by
  unfold updateHeap heap
  rw [Array.getElem?_modify]
  split
  · cases s.heaps[g]? with
    | none => exact .refl _
    | some x => exact hf x
  · exact .refl _

theorem Step.extends (hs : Step s e) (hg : g < s.heaps.size) : (s.heap g).Extends (e.heap g) := by
  let r : Heap → Value × Array Nat × Nat := fun x => (x.traces, x.samples, x.peak)
  have hsame : ∀ {x y : Heap}, r y = r x → x.Extends y := fun hr => by
    obtain ⟨htraces, hrest⟩ := Prod.mk.inj hr
    obtain ⟨hsamples, hpeak⟩ := Prod.mk.inj hrest
    exact .same htraces hsamples hpeak
  have hcases := field_of_step (r := r) (fun _ _ => rfl) (fun _ _ _ _ => rfl) hs
  rcases hcases with hkept | ⟨i, st, -, rfl⟩ | ⟨i, live, rfl⟩
  · exact hsame (hkept.2 g (.inl hg))
  · exact hsame (field_register (fun _ _ _ => rfl) s i g st)
  · refine extends_updateHeap s i g fun x => ⟨rfl, ?_, Nat.le_max_left ..⟩
    split
    · simp
    · exact List.prefix_rfl

end Store

theorem Moment.Leads.extends {a b : Moment} (hl : Moment.Leads a b) (hg : g < a.store.heaps.size) :
    g < b.store.heaps.size ∧ (a.store.heap g).Extends (b.store.heap g) := by
  induction hl with
  | refl => exact ⟨hg, .refl _⟩
  | @tail b e _ hnext ih =>
    obtain ⟨hlt, hext⟩ := ih
    cases hnext with
    | change k hstep => exact ⟨Nat.lt_of_lt_of_le hlt (Store.size_le_of_step hstep), hext.trans (hstep.extends hlt)⟩
    | finished s k c h v =>
      exact ⟨(Store.size_updateHeap ..).symm ▸ hlt,
        hext.trans (Store.extends_updateHeap _ h g fun _ => .same rfl rfl rfl)⟩
    | _ => exact ⟨hlt, hext⟩

theorem Store.Runs.extends (hr : s.Runs e) (hg : g < s.heaps.size) : (s.heap g).Extends (e.heap g) := ((hr []).extends hg).2

/-- The heap was sampled: so many cells are found alive, and the count is on record if the heap traces. -/
structure Store.Tallied (h : HeapId) (live : Nat) (s e : Store) : Prop where
  found : ∃ found : Found, e.reachable h = .ok found ∧ found.size = live
  peak : live ≤ (e.heap h).peak
  kept : (e.heap h).samples.toList = (s.heap h).samples.toList ++ if (s.heap h).traces.holds then [live] else []

/-- So it is if a cell was put under a root and the heap sampled then, whatever else was changed than the cells and the
heaps. -/
theorem Store.tallied_rooted {found : Found} {name v : Value} (hh : h < s.heaps.size)
    (hfound : (s.rooted h name v).reachable h = .ok found) (hcells : e.cells = s.cells)
    (hheaps : e.heaps = ((s.rooted h name v).noteLive h found.size).heaps) : s.Tallied h found.size e := by
  have hrooted : h < (s.rooted h name v).heaps.size := (size_updateHeap ..).symm ▸ hh
  have hheap : e.heap h = ((s.rooted h name v).noteLive h found.size).heap h := by rw [heap, heap, hheaps]
  have htraces : ((s.rooted h name v).heap h).traces = (s.heap h).traces := by rw [rooted, heap_updateHeap hh]
  have hsamples : ((s.rooted h name v).heap h).samples = (s.heap h).samples := by rw [rooted, heap_updateHeap hh]
  refine ⟨⟨found, ?_, rfl⟩, ?_, ?_⟩
  · rw [← hfound]
    exact reachable_congr hcells (by rw [hheap, (Leaves.noteLive (s.rooted h name v) h _).roots])
  · rw [hheap, noteLive, heap_updateHeap hrooted]
    exact Nat.le_max_right ..
  · rw [hheap, noteLive, heap_updateHeap hrooted, ← htraces, ← hsamples]
    split <;> simp [*]

/-! ## Counting steps -/

namespace Consumer

theorem Stepped.tallied (hs : Stepped x d r m e) (hb : x.samples.truth? = some true) (hh : x.heap < m.heaps.size) :
    ∃ live, m.Tallied x.heap live e ∧ e.events = .step (x.steps + 1) live :: m.events := by
  cases hs with
  | silent hb' => simp [hb] at hb'
  | @sampled found _ hfound =>
    have hrooted : (m.rooted x.heap rootName (.cell r)).reachable x.heap = .ok found := by
      rw [← hfound]
      exact Store.reachable_congr rfl rfl
    exact ⟨found.size, Store.tallied_rooted hh hrooted rfl rfl, rfl⟩

theorem Made.tallied {samples : Value} (hs : Made h samples c s d e) (hb : samples.truth? = some true)
    (hh : h < s.heaps.size) : ∃ live, s.Tallied h live e := by
  cases hs with
  | silent hb' => simp [hb] at hb'
  | sampled _ hfound => exact ⟨_, Store.tallied_rooted hh hfound rfl rfl⟩

/-- A force of the cell takes no sample of the heap. -/
def Unsampled (p : Program) (depth : Nat) (h : HeapId) (c : CellId) (s : Store) : Prop :=
  ∀ v e, force (p.runAt depth) c s = .ok v e → (e.heap h).samples = (s.heap h).samples

/-- A force of the cell gives a value. -/
def Gives (p : Program) (depth : Nat) (c : CellId) (s : Store) : Prop := ∃ v e, force (p.runAt depth) c s = .ok v e

/-- The counts of the samples that were taken of up to `n` steps, one for each step. -/
structure Counted (p : Program) (depth : Nat) (x : Consumer) (d : ConsumerId) (n : Nat) (s : Store) (lives : List Nat)
    (e : Store) : Prop where
  /-- A count is that of the cells alive after the step, it is in the log beside the number of the step, and it is no
  more than the peak. -/
  each : ∀ i live, lives[i]? = some live → live ≤ (e.heap x.heap).peak ∧ ∃ a, advance (p.runAt depth) d (i + 1) s = .ok () a ∧
    (∃ found : Found, a.reachable x.heap = .ok found ∧ found.size = live) ∧
    a.events.head? = some (.step (x.steps + i + 1) live)
  /-- If the heap traces, all are on record, in their order. -/
  recorded : (s.heap x.heap).traces.holds = true → ∃ more, (e.heap x.heap).samples.toList =
    (s.heap x.heap).samples.toList ++ more ∧ lives.Sublist more
  /-- If the forces take no samples, nothing else is. -/
  alone : Along p depth d (Unsampled p depth x.heap) n s → (e.heap x.heap).samples.toList = (s.heap x.heap).samples.toList ++
    if (s.heap x.heap).traces.holds then lives else []

theorem Walk.counted {k : Nat} {c' : CellId} (hw : Walk p depth d x c s k c' e) (hs : Faces x d c s)
    (hb : x.samples.truth? = some true) : ∃ lives, lives.length = k ∧ Counted p depth x d k s lives e := by
  induction hw with
  | here => exact ⟨[], rfl, ⟨fun i live h => by simp at h, fun _ => ⟨[], by simp⟩, fun _ => by simp⟩⟩
  | @on x c r head c' s m a e k tag hforce hl hne hstep hstepped hrest ih =>
    have hm := hs.leavesBe hl
    have ha := hstepped.faces hm
    obtain ⟨lives, rfl, hcounted⟩ := ih ha hb
    obtain ⟨live, htallied, hevents⟩ := hstepped.tallied hb (Store.lt_of_left? hm.left)
    have hforced := (runs_of_force_ok hforce).extends
      (Store.lt_of_left? hs.left)
    have hlater := hrest.runs.extends (Store.lt_of_left? ha.left)
    have hstepTraces := (((Consumer.follows_step (p.follows_runAt depth) d).runs_of_ok hstep).extends
      (Store.lt_of_left? hs.left)).traces
    refine ⟨live :: lives, rfl, ⟨fun i live' hi => ?_, fun ht => ?_, fun hu => ?_⟩⟩
    · cases i with
      | zero =>
        cases hi
        exact ⟨htallied.peak.trans hlater.peak, a, (Run.bind_ok hstep).trans rfl, htallied.found, by rw [hevents]; rfl⟩
      | succ i =>
        obtain ⟨hpeak, b, hadvance, hfound, hevent⟩ := hcounted.each i live' hi
        refine ⟨hpeak, b, (Run.bind_ok hstep).trans hadvance, hfound, ?_⟩
        rw [hevent, show x.steps + 1 + i + 1 = x.steps + (i + 1) + 1 by omega]
    · obtain ⟨before, hbefore⟩ := hforced.samples
      obtain ⟨more, hmore, hsub⟩ := hcounted.recorded ((congrArg Value.holds hstepTraces).trans ht)
      have hkept := htallied.kept
      rw [hforced.traces, ht, if_pos rfl] at hkept
      refine ⟨before ++ live :: more, ?_, (hsub.cons_cons live).trans (List.sublist_append_right ..)⟩
      rw [hmore, hkept, ← hbefore]
      simp
    · have hsame := hu.first hs _ m hforce
      have hrest := hcounted.alone (hu.rest hstep)
      rw [hrest, htallied.kept, hforced.traces, hsame, hstepTraces]
      split <;> simp

theorem Counted.later {k : Nat} {lives : List Nat} (hc : Counted p depth x d k s lives m) (hk : k ≤ n)
    (hext : (m.heap x.heap).Extends (e.heap x.heap))
    (hsame : Along p depth d (Unsampled p depth x.heap) n s → (e.heap x.heap).samples = (m.heap x.heap).samples) :
    Counted p depth x d n s lives e where
  each i live hi := by
    obtain ⟨hpeak, ha⟩ := hc.each i live hi
    exact ⟨hpeak.trans hext.peak, ha⟩
  recorded ht := by
    obtain ⟨more, hmore, hsub⟩ := hc.recorded ht
    obtain ⟨after, hafter⟩ := hext.samples
    refine ⟨more ++ after, ?_, hsub.trans (List.sublist_append_left ..)⟩
    rw [← hafter, hmore, List.append_assoc]
  alone hu := by
    rw [hsame hu]
    exact hc.alone (hu.mono hk)

end Consumer

/-! ## Counting elements -/

theorem Store.Stops.runs (hc : s.Stops c) (hs : s.Reached) (hr : s.Runs e) : e.Stops c := by
  rcases hc with ⟨tag, hnil⟩ | ⟨tag, head, hself⟩
  · exact .inl ⟨tag, hr.evaluated hs hnil (by simp)⟩
  · exact .inr ⟨tag, head, hr.evaluated hs hself (by simp)⟩

namespace Store.Lists
variable {k : Nat} {origin : CellId} {l : List CellId}

/-- From a cell of a list that was read to its end, the rest of it was. -/
theorem after (hl : s.Lists origin l) (hc : s.SpineAt origin k c) : ∃ rest, s.Lists c rest ∧ l.length = k + rest.length := by
  induction hc with
  | first => exact ⟨l, hl, (Nat.zero_add _).symm⟩
  | next _ hnode ih =>
    obtain ⟨rest, ⟨r, tag, hbegins, hr⟩, hlength⟩ := ih
    cases hbegins with
    | here => cases hnode.symm.trans hr
    | node hx hrest =>
      cases hnode.symm.trans hx
      refine ⟨_, ⟨r, tag, hrest, hr⟩, ?_⟩
      rw [hlength, List.length_cons]
      omega

/-- Such a list stops at its end, and nowhere else. -/
theorem eq_nil_of_stops (hl : s.Lists c l) (hc : s.Stops c) : l = [] := by
  obtain ⟨r, tag, hbegins, hr⟩ := id hl
  cases hbegins with
  | here => rfl
  | node hx hrest =>
    rcases hc with ⟨tag, hnil⟩ | ⟨tag, head, hself⟩
    · cases hx.symm.trans hnil
    · cases hx.symm.trans hself
      have hlength := congrArg List.length (hl.unique ⟨r, _, hrest, hr⟩)
      rw [List.length_cons] at hlength
      omega

/-- All cells of such a list are evaluated. -/
theorem read (hl : s.Lists origin l) (hc : s.SpineAt origin k c) : ∃ v, v.ListNode ∧ s.state c = .evaluated v := by
  obtain ⟨rest, ⟨r, tag, hbegins, hr⟩, -⟩ := hl.after hc
  cases hbegins with
  | here => exact ⟨_, .done tag, hr⟩
  | node hx => exact ⟨_, .node _ _ _, hx⟩

end Store.Lists

namespace Consumer

/-- The consumer drops `n` elements: from a cell it takes `k` steps to another cell of the list, fewer than `n` only if
the list stops there, and takes a sample after each. -/
structure Accounted (p : Program) (depth : Nat) (x : Consumer) (d : ConsumerId) (c : CellId) (n : Nat) (s : Store) (k : Nat)
    (c' : CellId) (lives : List Nat) (e : Store) : Prop where
  drop : Consumer.drop (p.runAt depth) d n s = .ok (.cell c') e
  steps : e.consumers[d]? = some { x with steps := x.steps + k }
  spine : e.SpineAt c k c'
  within : k ≤ n
  stops : k < n → e.Stops c'
  goes : ∀ i < k, ∃ a r head tag, e.SpineAt c i a ∧ e.state a = .evaluated (.cons tag (.cell head) (.cell r)) ∧ r ≠ a
  /-- If the list is ever read to its end, be it later, so many of its elements were stepped over. -/
  elements : ∀ e' l, e.Runs e' → e'.Lists c l → k = min n l.length
  samples : lives.length = k
  counted : Counted p depth x d n s lives e

theorem Faces.accounted (hs : Faces x d c s) (hreached : s.Reached) (hb : x.samples.truth? = some true)
    (ht : Along p depth d (Treads p depth x) n s) (hgives : Along p depth d (Gives p depth) n s) :
    ∃ k c' lives e, Accounted p depth x d c n s k c' lives e := by
  obtain ⟨k, rest, c', m, hwalk, hn, hhalts⟩ := hs.walk hb ht
  have hm := hwalk.faces hs
  obtain ⟨hspine, hgoes⟩ := hwalk.spine hreached
  obtain ⟨lives, hlength, hcounted⟩ := hwalk.counted hs hb
  have hmReached := hreached.after hwalk.runs.reaches
  -- the last force, if there was one, found the end
  obtain ⟨e, hadvance, hruns, he, hstops, hsame⟩ : ∃ e, advance (p.runAt depth) d n s = .ok () e ∧ m.Runs e ∧
      Faces { x with steps := x.steps + k } d c' e ∧ (k < n → e.Stops c') ∧
      (Along p depth d (Unsampled p depth x.heap) n s → (e.heap x.heap).samples = (m.heap x.heap).samples) := by
    generalize advance (p.runAt depth) d n s = result at hhalts
    cases hhalts with
    | done => exact ⟨m, rfl, .refl m, hm, fun hlt => absurd hlt (by omega), fun _ => rfl⟩
    | @stopped m' v _ _ hforce hl hstops =>
      have hlog : m'.Runs { m' with events := .ranOff (x.steps + k) :: m'.events } := .of_step (.logged ..)
      have hforced := runs_of_force_ok hforce
      have he := hm.leavesBe hl
      exact ⟨_, rfl, hforced.trans hlog, he.congr rfl rfl, fun _ => hstops, fun hu =>
        hu k (by omega) m c' hwalk.advance hm.remaining v m' hforce⟩
    | raised _ hforce =>
      obtain ⟨v, m', hok⟩ := hgives k (by omega) m c' hwalk.advance hm.remaining
      cases hforce.symm.trans hok
    | tooDeep _ hforce =>
      obtain ⟨v, m', hok⟩ := hgives k (by omega) m c' hwalk.advance hm.remaining
      cases hforce.symm.trans hok
  have heReached := hmReached.after hruns.reaches
  have hspine' := hspine.runs hmReached hruns
  refine ⟨k, c', lives, e, ?_, he.record, hspine', by omega, hstops, fun i hi => ?_, fun e' l hr hl => ?_, hlength,
    hcounted.later (by omega) (hruns.extends (Store.lt_of_left? hm.left)) hsame⟩
  · unfold Consumer.drop
    rw [Int.toNat_natCast, Run.bind_ok hadvance]
    exact he.remaining
  · obtain ⟨a, r, head, tag, ha, hnode, hne⟩ := hgoes i hi
    exact ⟨a, r, head, tag, ha.runs hmReached hruns, hruns.evaluated hmReached hnode (by simp), hne⟩
  · obtain ⟨rest, hrest, hlen⟩ := hl.after (hspine'.runs heReached hr)
    by_cases hk : k < n
    · obtain rfl := hrest.eq_nil_of_stops ((hstops hk).runs heReached hr)
      rw [hlen, List.length_nil]
      omega
    · omega

/-- Nothing can go wrong with a list whose cells are evaluated, and no force takes a sample. -/
theorem Faces.read (hs : Faces x d c s) (hb : x.samples.truth? = some true) (hsampled : s.Sampled x.heap)
    (hread : ∀ i a, s.SpineAt c i a → ∃ v, v.ListNode ∧ s.state a = .evaluated v) (n : Nat) :
    Along p depth d (Treads p depth x) n s ∧ Along p depth d (Gives p depth) n s ∧
    Along p depth d (Unsampled p depth x.heap) n s := by
  refine ⟨fun i _ a b hadvance hb' => ?_, fun i _ a b hadvance hb' => ?_, fun i _ a b hadvance hb' v' m hforce => ?_⟩
  all_goals obtain ⟨ha, v, hv, hstate⟩ := hs.evaluated hb hsampled hread i hadvance hb'
  · exact .of_evaluated hstate hv fun _ => ha
  · exact ⟨v, a, force_evaluated hstate _⟩
  · cases (force_evaluated hstate _).symm.trans hforce
    rfl

end Consumer

/-- **A consumer counts the elements that it steps over, and samples after each.**  Take a new consumer of any list of
any program, one that samples, on a heap of any store that runs lead to.  It drops `n` elements, and of the forces on the
way none raises an error; they come to list nodes, leave the consumers of the heap alone, and leave it such that it can be
sampled.  Then it takes `k` steps, and it takes them all, unless it comes before the end of the list or before a node
whose tail is the very cell.  If the list is ever read to its end, `k` is `n` or the number of its elements, whichever is
less.  There is a sample for the new consumer and then one for each step, of what is alive after it, and they are all on
record if the heap traces. -/
theorem drop_counts_elements (p : Program) {depth n : Nat} {h : HeapId} {samples : Value} {origin : CellId}
    {d : ConsumerId} {s₀ s : Store} (hreached : s₀.Reached) (hh : h < s₀.heaps.size) (hb : samples.truth? = some true)
    (hnew : Consumer.new h samples (.cell origin) s₀ = .ok d s)
    (htreads : Consumer.Along p depth d (Consumer.Treads p depth ⟨h, samples, 0⟩) n s)
    (hgives : Consumer.Along p depth d (Consumer.Gives p depth) n s) :
    (∃ live, s₀.Tallied h live s) ∧
      ∃ k c lives e, Consumer.Accounted p depth ⟨h, samples, 0⟩ d origin n s k c lives e := by
  have hmade := Consumer.made_of_new hb hnew
  have hsReached := Consumer.reached_of_new hreached hnew
  exact ⟨hmade.tallied hb hh, (hmade.faces hh).accounted hsReached hb htreads hgives⟩

namespace Accounting
open Session (after)

/-- Makes a list of one element on a heap that traces. -/
def single : List Expr := [
  .apply (.heap .openNew) [.constant (.bool true)], .assign "x" (.apply (.cell .ready) [.constant (.int 7)]),
  .assign "end" (.apply (.cell .ready) [.apply (.list .nil) []]),
  .apply (.cell .ready) [.apply (.list .cons) [.lookup "x", .lookup "end"]]]

/-- Makes a list by a function of the list itself, and forces it. -/
def knot : List Expr := [
  .apply (.heap .openNew) [.constant (.bool true)], .assign "c" (.apply (.cell .fix) [.constant (.str "f")]),
  .apply (.cell .force) [.lookup "c"]]

/-- The function puts an element before the list. -/
def knots : Program := [("f", ⟨.apply (.list .cons) [.apply (.cell .ready) [.constant (.int 1)], .argument 0], false⟩)]

theorem sampled_single : (after [] single).Sampled 0 :=
  .of_bound (b := true) (n := 3) (by decide +kernel) (by decide +kernel) (by decide +kernel) (by decide +kernel)

theorem sampled_knot : (after knots knot).Sampled 0 :=
  .of_bound (b := true) (n := 2) (by decide +kernel) (by decide +kernel) (by decide +kernel) (by decide +kernel)

end Accounting

open Accounting Consumer Supplying Session in
/-- Of three elements that are to be dropped there is one. -/
theorem drop_counts_elements_single : ∃ d s,
    Consumer.new 0 (.bool true) (.cell 2) (after [] single) = .ok d s ∧ ∃ c live e,
      Consumer.drop (Program.runAt [] 1) d 3 s = .ok (.cell c) e ∧ e.consumers[d]? = some ⟨0, .bool true, 1⟩ ∧
      (e.heap 0).samples.toList = (s.heap 0).samples.toList ++ [live] := by
  have hvalid : 0 < (after [] single).heaps.size := by decide +kernel
  have hreached := reached_after [] single
  have hflag : (Value.bool true).truth? = some true := rfl
  obtain ⟨d, s, hnew⟩ := new_eq_ok hflag sampled_single hvalid 2
  have hmade := made_of_new hflag hnew
  have hstate : s.state = (after [] single).state := Store.state_of_cells hmade.cells
  obtain ⟨tag, hnode⟩ := eq_of_node? (show node? ((after [] single).state 2) = some (0, 1) by decide +kernel)
  obtain ⟨tag', hend⟩ := eq_of_ended (show ended ((after [] single).state 1) = true by decide +kernel)
  have hlists : s.Lists 2 [0] := ⟨1, tag', .node (hstate ▸ hnode) (.here 1), hstate ▸ hend⟩
  obtain ⟨htreads, hgives, hunsampled⟩ : Along [] 1 d (Treads [] 1 ⟨0, .bool true, 0⟩) 3 s ∧ _ :=
    (hmade.faces hvalid).read hflag (hmade.heapSampled sampled_single hvalid) (fun _ _ ha => hlists.read ha) 3
  obtain ⟨-, k, c, lives, e, hdropped⟩ := drop_counts_elements [] hreached hvalid hflag hnew htreads hgives
  have hmaking : (after [] single).Runs s := (Consumer.follows_new 0 _ _).runs_of_ok hnew
  have hdropping : s.Runs e := (Consumer.follows_drop (Program.follows_runAt [] 1) d 3).runs_of_ok hdropped.drop
  obtain ⟨frames, hframes⟩ := hreached.after hmaking.reaches
  have hread := (hdropping frames).lists (Moment.sound_start.leads hframes) hlists
  obtain rfl : k = 1 := hdropped.elements e [0] (.refl e) hread
  obtain ⟨live, rfl⟩ := List.length_eq_one_iff.1 hdropped.samples
  have htraces : (s.heap 0).traces = ((after [] single).heap 0).traces := (hmaking.extends hvalid).traces
  have hkept := hdropped.counted.alone hunsampled
  dsimp only at hkept
  rw [htraces, show ((after [] single).heap 0).traces.holds = true by decide +kernel, if_pos rfl] at hkept
  exact ⟨d, s, hnew, c, live, e, hdropped.drop, hdropped.steps, hkept⟩

open Accounting Consumer Supplying Session in
/-- **No element of a knot is counted**, though there is one at every position and no end: the consumer takes the list for
ended, where stepping over three elements is no matter otherwise. -/
theorem knot_is_not_counted : ∃ d s e, Consumer.new 0 (.bool true) (.cell 0) (after knots knot) = .ok d s ∧
    Consumer.drop (knots.runAt 1) d 3 s = .ok (.cell 0) e ∧ (∀ i, e.SpineAt 0 i 0) ∧ (∀ e' l, e.Runs e' → ¬ e'.Lists 0 l) ∧
    Sequence.drop (knots.runAt 1) 3 (.cell 0) e = .ok (.cell 0) e ∧ e.consumers[d]? = some ⟨0, .bool true, 0⟩ ∧
    (e.heap 0).samples = (s.heap 0).samples := by
  have hvalid : 0 < (after knots knot).heaps.size := by decide +kernel
  have hreached := reached_after knots knot
  have hflag : (Value.bool true).truth? = some true := rfl
  obtain ⟨d, s, hnew⟩ := new_eq_ok hflag sampled_knot hvalid 0
  have hmade := made_of_new hflag hnew
  have hfaces := hmade.faces hvalid
  have hsReached := reached_of_new hreached hnew
  obtain ⟨tag, hnode⟩ := eq_of_node? (show node? ((after knots knot).state 0) = some (1, 0) by decide +kernel)
  have hs : s.state 0 = .evaluated (.cons tag (.cell 1) (.cell 0)) :=
    (congrFun (Store.state_of_cells hmade.cells) 0).trans hnode
  have hspine : ∀ i, s.SpineAt 0 i 0 := fun i => by
    induction i with
    | zero => exact .first
    | succ i ih => exact .next ih hs
  have hread : ∀ i a, s.SpineAt 0 i a → ∃ v, v.ListNode ∧ s.state a = .evaluated v := fun i a ha =>
    ⟨_, .node tag 1 0, (hspine i).unique ha ▸ hs⟩
  obtain ⟨htreads, hgives, hunsampled⟩ := hfaces.read hflag (hmade.heapSampled sampled_knot hvalid) hread 3
  obtain ⟨k, c, lives, e, hdropped⟩ := hfaces.accounted hsReached hflag htreads hgives
  have hdropping : s.Runs e := (Consumer.follows_drop (Program.follows_runAt knots 1) d 3).runs_of_ok hdropped.drop
  have he := hdropping.evaluated hsReached hs (by simp)
  obtain rfl : k = 0 := by
    refine Nat.eq_zero_of_not_pos fun hk => ?_
    obtain ⟨a, r, head, tag', ha, hnode', hne⟩ := hdropped.goes 0 hk
    cases ha
    cases he.symm.trans hnode'
    exact hne rfl
  obtain rfl := Store.SpineAt.first.unique hdropped.spine
  obtain rfl := List.length_eq_zero_iff.1 hdropped.samples
  refine ⟨d, s, e, hnew, hdropped.drop, fun i => (hspine i).runs hsReached hdropping, fun e' l hr hl => ?_, ?_,
    hdropped.steps, ?_⟩
  · have hnode' := hr.evaluated (hsReached.after hdropping.reaches) he (by simp)
    obtain rfl := hl.eq_nil_of_stops (.inr ⟨tag, .cell 1, hnode'⟩)
    obtain ⟨r, tag', hbegins, hend⟩ := hl
    cases hbegins
    cases hnode'.symm.trans hend
  · have hforce : forceValue (knots.runAt 1) (.cell 0) e = .ok _ e := force_evaluated he _
    exact (Run.bind_ok hforce).trans ((Run.bind_ok hforce).trans (Run.bind_ok hforce))
  · have hkept := hdropped.counted.alone hunsampled
    simpa using congrArg List.toArray hkept

end Retention
