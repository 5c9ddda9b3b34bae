import Retention.Proofs.Course
import Retention.Proofs.Unrolling
/-!
# Census — counting what is live in the middle of a force

On a heap that samples every force (`Store.Watches`) cells are counted while thunks that are not done yet still hold
their arguments.  What is counted then is all that a single root leads to, and where that is a tree of pairs
(`Store.Holds`) it can be listed.  A list stays right as long as none of its cells changes what it refers to, whatever
else is made meanwhile.

`Store.Calm` is the frame of a run on such a heap: no count that was sampled in it is above a bound.  A force is calm
if its thunk is and if the list of what is live when it is done is short enough (`force_watched`).
-/
namespace Retention

open Store (Grown Numbered)

namespace Store

/-! ## Lists of what is live -/

/-- All that a cell leads to, where every cell refers to nothing or to two others. -/
inductive Holds (s : Store) (base : Nat) : CellId → List CellId → Prop
  | leaf {c : CellId} (hc : s.refs c = []) (hbase : base ≤ c) (hlt : c < s.cells.size) : Holds s base c [c]
  | pair {c a b : CellId} {as bs : List CellId} (hc : s.refs c = [.cell a, .cell b]) (hbase : base ≤ c)
    (hlt : c < s.cells.size) (ha : Holds s base a as) (hb : Holds s base b bs) : Holds s base c (c :: (as ++ bs))

namespace Holds
variable {s e : Store} {h : HeapId} {base : Nat} {root : CellId} {cells : List CellId}

theorem root_mem (hl : s.Holds base root cells) : root ∈ cells := by
  cases hl <;> exact List.mem_cons_self

theorem valid (hl : s.Holds base root cells) : ∀ c ∈ cells, base ≤ c ∧ c < s.cells.size := by
  induction hl with
  | leaf _ hbase hlt =>
    intro d hd
    rw [List.mem_singleton.1 hd]
    exact ⟨hbase, hlt⟩
  | pair _ hbase hlt _ _ iha ihb =>
    intro d hd
    rcases List.mem_cons.1 hd with rfl | hd
    · exact ⟨hbase, hlt⟩
    · exact (List.mem_append.1 hd).elim (iha d) (ihb d)

theorem closed (hl : s.Holds base root cells) : ∀ c ∈ cells, ∀ v ∈ s.refs c, ∃ d ∈ cells, v = .cell d := by
  induction hl with
  | leaf hc =>
    intro d hd v hv
    rw [List.mem_singleton.1 hd, hc] at hv
    cases hv
  | @pair c a b as bs hc _ _ ha hb iha ihb =>
    intro d hd v hv
    have hrefs : ∀ d ∈ as ++ bs, d ∈ c :: (as ++ bs) := fun d hd => List.mem_cons_of_mem _ hd
    rcases List.mem_cons.1 hd with rfl | hd
    · rw [hc] at hv
      rcases List.mem_cons.1 hv with rfl | hv
      · exact ⟨a, hrefs a (List.mem_append_left _ ha.root_mem), rfl⟩
      · exact ⟨b, hrefs b (List.mem_append_right _ hb.root_mem), List.mem_singleton.1 hv⟩
    · rcases List.mem_append.1 hd with hd | hd
      · obtain ⟨x, hx, rfl⟩ := iha d hd v hv
        exact ⟨x, hrefs x (List.mem_append_left _ hx), rfl⟩
      · obtain ⟨x, hx, rfl⟩ := ihb d hd v hv
        exact ⟨x, hrefs x (List.mem_append_right _ hx), rfl⟩

theorem kept (hl : s.Holds base root cells) {roots : List Value} (hroot : s.Kept roots root) :
    ∀ c ∈ cells, s.Kept roots c := by
  induction hl with
  | leaf =>
    intro d hd
    rw [List.mem_singleton.1 hd]
    exact hroot
  | pair hc _ _ _ _ iha ihb =>
    intro d hd
    rcases List.mem_cons.1 hd with rfl | hd
    · exact hroot
    · rcases List.mem_append.1 hd with hd | hd
      · exact iha (hroot.step (by simp [hc])) d hd
      · exact ihb (hroot.step (by simp [hc])) d hd

/-- The list is right wherever its cells refer to the same. -/
theorem congr (hl : s.Holds base root cells) (hrefs : ∀ c ∈ cells, e.refs c = s.refs c)
    (hsize : s.cells.size ≤ e.cells.size) : e.Holds base root cells := by
  induction hl with
  | leaf hc hbase hlt =>
    exact .leaf ((hrefs _ List.mem_cons_self).trans hc) hbase (Nat.lt_of_lt_of_le hlt hsize)
  | pair hc hbase hlt _ _ iha ihb =>
    have hrest := fun d hd => hrefs d (List.mem_cons_of_mem _ hd)
    exact .pair ((hrefs _ List.mem_cons_self).trans hc) hbase (Nat.lt_of_lt_of_le hlt hsize)
      (iha fun d hd => hrest d (List.mem_append_left _ hd)) (ihb fun d hd => hrest d (List.mem_append_right _ hd))

/-- **The live cells of a heap with a single root are those of the list**, as many as it is long. -/
theorem count (hl : s.Holds base root cells) (hd : cells.Nodup) (hn : s.Numbered base h) {name : Value}
    (hr : (s.heap h).roots = [(name, .cell root)]) :
    ∃ found, s.reachable h = .ok found ∧ found.size = cells.length ∧
      ∀ (a : Nat) c, found[a]? = some c → c ∈ cells ∧ s.address c = a := by
  obtain ⟨found, hfound, hsize⟩ := reachable_of_root hn hr cells hd hl.root_mem hl.closed hl.valid
    (hl.kept (.root List.mem_cons_self))
  have hvalues : (s.heap h).roots.map (·.2) = [.cell root] := by rw [hr]; rfl
  have hwalk : s.walk {} ((s.heap h).roots.map (·.2)).reverse = .ok found := hfound
  refine ⟨found, hfound, hsize, fun a c hc => ?_⟩
  obtain ⟨hlive, haddress⟩ := (walk_sound ((s.heap h).roots.map (·.2)) {} _ (fun a c hc => by simp at hc)
    (fun c hc => .root (List.mem_reverse.1 hc)) hwalk) a c hc
  refine ⟨hlive.1.induction (P := fun d => d ∈ cells) (fun d hd => ?_) (fun b d hb hd => ?_), haddress⟩
  · rw [hvalues] at hd
    cases List.mem_singleton.1 hd
    exact hl.root_mem
  · obtain ⟨x, hx, heq⟩ := hl.closed b hb _ hd
    cases heq
    exact hx

end Holds

/-! ## A heap that samples every force -/

/-- A heap that is active and takes a sample whenever it counts a force.  It made all cells from the first of them on,
and has a single root. -/
structure Watches (s : Store) (h : HeapId) (base : Nat) (root : CellId) : Prop where
  active : s.active = some h
  valid : h < s.heaps.size
  forces : (s.heap h).samplesForces = .bool true
  traces : ∃ b, (s.heap h).traces = .bool b
  numbered : s.Numbered base h
  roots : (s.heap h).roots = [(Consumer.rootName, .cell root)]

/-- No count that was sampled of a heap is above the bound. -/
structure Bounded (s : Store) (h : HeapId) (bound : Nat) : Prop where
  peak : (s.heap h).peak ≤ bound
  samples : ∀ n ∈ (s.heap h).samples, n ≤ bound

/-- So many cells were made on a heap, no count above the bound was sampled, and only the given ones of the old cells
changed their state. -/
structure Calm (h : HeapId) (bound : Nat) (s e : Store) (made : Nat) (changed : List CellId) : Prop where
  active : e.active = s.active
  heaps : e.heaps.size = s.heaps.size
  consumers : e.consumers = s.consumers
  forces : (e.heap h).samplesForces = (s.heap h).samplesForces
  traces : (e.heap h).traces = (s.heap h).traces
  roots : (e.heap h).roots = (s.heap h).roots
  size : e.cells.size = s.cells.size + made
  state : ∀ c < s.cells.size, c ∉ changed → e.state c = s.state c
  numbered : ∀ base, s.Numbered base h → e.Numbered base h
  bounded : s.Bounded h bound → e.Bounded h bound

namespace Calm
variable {h : HeapId} {bound : Nat} {s m e : Store} {made made' : Nat} {changed changed' : List CellId} {base : Nat}
  {root : CellId}

theorem of_grown {forced : Nat} (hg : Grown h s e made forced changed) : Calm h bound s e made changed := by
  obtain ⟨table, ht⟩ := hg.heap
  refine ⟨hg.active, hg.heaps, hg.consumers, ?_, ?_, ?_, hg.size, hg.state, fun base hn => hn.grown hg, fun hb => ?_⟩
  · rw [ht]
  · rw [ht]
  · rw [ht]
  · exact ⟨by rw [ht]; exact hb.peak, by rw [ht]; exact hb.samples⟩

theorem trans (hg : Calm h bound s m made changed) (hg' : Calm h bound m e made' changed') :
    Calm h bound s e (made + made') (changed ++ changed') where
  active := hg'.active.trans hg.active
  heaps := hg'.heaps.trans hg.heaps
  consumers := hg'.consumers.trans hg.consumers
  forces := hg'.forces.trans hg.forces
  traces := hg'.traces.trans hg.traces
  roots := hg'.roots.trans hg.roots
  size := by rw [hg'.size, hg.size, Nat.add_assoc]
  state c hc hn := by
    rw [List.mem_append, not_or] at hn
    rw [hg'.state c (by rw [hg.size]; exact Nat.lt_add_right made hc) hn.2, hg.state c hc hn.1]
  numbered base hn := hg'.numbered base (hg.numbered base hn)
  bounded hb := hg'.bounded (hg.bounded hb)

/-- More cells may be named as changed, and new ones need not be. -/
theorem mono (hg : Calm h bound s e made changed) (hc : ∀ c < s.cells.size, c ∈ changed → c ∈ changed') :
    Calm h bound s e made changed' :=
  { hg with state := fun c hlt hn => hg.state c hlt fun hmem => hn (hc c hlt hmem) }

theorem watches (hg : Calm h bound s e made changed) (hs : s.Watches h base root) : e.Watches h base root where
  active := hg.active.trans hs.active
  valid := hg.heaps ▸ hs.valid
  forces := hg.forces.trans hs.forces
  traces := hg.traces ▸ hs.traces
  numbered := hg.numbered base hs.numbered
  roots := hg.roots.trans hs.roots

/-- A sample that is small enough. -/
theorem noteLive (hs : s.Watches h base root) {live : Nat} (hle : live ≤ bound) :
    Calm h bound s (s.noteLive h live) 0 [] := by
  obtain ⟨b, htraces⟩ := hs.traces
  have ht := Consumer.heap_noteLive hs.valid htraces live
  refine ⟨rfl, Array.size_modify .., rfl, ?_, ?_, ?_, rfl, fun _ _ _ => rfl, fun base hn => ?_, fun hb => ⟨?_, ?_⟩⟩
  · rw [ht]
  · rw [ht]
  · rw [ht]
  · exact hn.congr rfl (by rw [ht])
  · rw [ht]
    exact Nat.max_le.2 ⟨hb.peak, hle⟩
  · rw [ht]
    intro n hn
    cases b with
    | false => exact hb.samples n hn
    | true =>
      rcases Array.mem_push.1 hn with hn | rfl
      · exact hb.samples n hn
      · exact hle

end Calm

/-- A list of what is live stays right if none of its cells is among those that change. -/
theorem Holds.calm {s e : Store} {h : HeapId} {base bound made : Nat} {root : CellId} {changed cells : List CellId}
    (hl : s.Holds base root cells) (hg : Calm h bound s e made changed) (hc : ∀ c ∈ cells, c ∉ changed) :
    e.Holds base root cells := by
  refine hl.congr (fun c hmem => ?_) (hg.size ▸ Nat.le_add_right _ _)
  exact congrArg CellState.refs (hg.state c (hl.valid c hmem).2 (hc c hmem))

end Store

open Store (Calm Watches Holds)

/-- On such a heap a force is counted and then a sample taken. -/
theorem Run.noteForced_of_sample {s e : Store} {h : HeapId} {live : Nat}
    (hf : ((s.counted h).heap h).samplesForces = .bool true) (hr : Run.sample h (s.counted h) = .ok live e) :
    Run.noteForced h s = .ok () e := by
  unfold Run.noteForced
  rw [Run.bind_ok (Run.modify_apply _ s), Run.bind_ok (Run.get_apply _),
    Run.bind_ok (Run.truth_apply (congrArg Value.truth? hf) _)]
  exact Run.bind_ok hr

/-- **A force on a heap that samples every force**: it does what its thunk does, and leaves the cell evaluated.  The
count that is then sampled is that of a list of what is live. -/
theorem force_watched (p : Program) (depth : Nat) {s e : Store} {h : HeapId} {base bound made : Nat} {root c : CellId}
    {t : Thunk} {v : Value} {changed cells : List CellId} (hs : s.Watches h base root) (hc : s.state c = .suspended t)
    (hr : t.produce p (p.runAt depth) (s.began c h t) = .ok v e)
    (hg : Calm h bound (s.began c h t) e made changed) (hl : (e.finished c h v).Holds base root cells)
    (hd : cells.Nodup) (hle : cells.length ≤ bound) : ∃ e',
      force (p.runAt (depth + 1)) c s = .ok v e' ∧ Calm h bound s e' made (c :: changed) ∧
      e'.state = (e.finished c h v).state := by
  have hbegan : Calm h bound s (s.began c h t) 0 [c] := .of_grown (.began h s c t)
  have he := hg.watches (hbegan.watches hs)
  have hfinished : Calm h bound e (e.finished c h v) 0 [c] := .of_grown (.finished he.valid c v)
  have hm := hfinished.watches he
  obtain ⟨found, hfound, hsize, -⟩ := hl.count hd hm.numbered hm.roots
  obtain ⟨b, htraces⟩ := hm.traces
  have hsample : Run.sample h (e.finished c h v) = .ok found.size ((e.finished c h v).noteLive h found.size) :=
    Run.sample_apply hfound (congrArg Value.truth? htraces)
  have hnoted : Calm h bound (e.finished c h v) ((e.finished c h v).noteLive h found.size) 0 [] :=
    .noteLive hm (hsize ▸ hle)
  refine ⟨(e.finished c h v).noteLive h found.size, ?_, ?_, rfl⟩
  · have hcount : Run.noteForced h ((e.recorded (.returned (some c) v)).setState c (.evaluated v)) =
        .ok () ((e.finished c h v).noteLive h found.size) := Run.noteForced_of_sample hm.forces hsample
    rw [force_of_suspended p depth hs.active hc, hr]
    dsimp only
    rw [Run.map_apply, hcount]
  · have hall := ((hbegan.trans hg).trans hfinished).trans hnoted
    simp only [Nat.zero_add, Nat.add_zero] at hall
    refine hall.mono fun d _ hd => ?_
    simpa [or_comm] using hd

/-- A force of a cell that is not live, and that changes nothing of what is, leaves the live cells as they are. -/
theorem force_aside (p : Program) (depth : Nat) {s e : Store} {h : HeapId} {base bound made : Nat} {root c : CellId}
    {t : Thunk} {v : Value} {changed cells : List CellId} (hs : s.Watches h base root) (hc : s.state c = .suspended t)
    (hr : t.produce p (p.runAt depth) (s.began c h t) = .ok v e)
    (hg : Calm h bound (s.began c h t) e made changed) (hl : s.Holds base root cells) (hd : cells.Nodup)
    (hle : cells.length ≤ bound) (haside : ∀ b ∈ cells, b ≠ c ∧ b ∉ changed) : ∃ e',
      force (p.runAt (depth + 1)) c s = .ok v e' ∧ Calm h bound s e' made (c :: changed) ∧
      e'.state c = .evaluated v ∧ ∀ b ≠ c, e'.state b = e.state b := by
  have hbegan : Calm h bound s (s.began c h t) 0 [c] := .of_grown (.began h s c t)
  have hfinished := Grown.finished (hg.watches (hbegan.watches hs)).valid c v
  have hcells := hl.calm ((hbegan.trans hg).trans (.of_grown hfinished)) fun b hb => by
    obtain ⟨hne, hmem⟩ := haside b hb
    simp [hne, hmem]
  obtain ⟨e', hforce, hall, hstate⟩ := force_watched p depth hs hc hr hg hcells hd hle
  refine ⟨e', hforce, hall, ?_, fun b hb => ?_⟩
  · rw [hstate, Store.state_finished_self]
    rw [hg.size, hbegan.size]
    exact Nat.lt_add_right made (Store.lt_of_suspended hc)
  · rw [hstate, Store.state_finished_of_ne e hb]

end Retention
