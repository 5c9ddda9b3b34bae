import Mathlib.Data.List.Induction
import Retention.Proofs.NestedSamples
/-!
# SampledCalls — a consumer on a heap that samples every force

A consumer of a repetition that is built anew may be asked to drop elements and to read its head, in any order
(`Call`).  What holds between two calls is a `Scene`: the heap watches the cell that is left, the consumer stands at the
start, inside the laps or at a node, and no count above seven was sampled yet.  Each call keeps the scene, and after a
step nothing is live but what is left of the repetition.
-/
namespace Retention

open Store (Grown Calm Watches Holds)
open NestedSamples

/-- What a consumer is asked for. -/
inductive Call where
  | drop (n : Nat)
  | head
  | headValue
deriving DecidableEq, Repr

/-- Answers a call, and forgets the answer. -/
def Call.perform (run : Runner) (d : ConsumerId) : Call → Run Unit
  | .drop n => discard (Consumer.drop run d n)
  | .head => discard (Consumer.head run d)
  | .headValue => discard (Consumer.headValue run d)

/-- Opens a heap that samples every force, and makes on it a consumer of the repetition of an interval by name.  The
result is the heap, the repetition, and the consumer. -/
def sampledConsumer (lo hi : Int) (traces samples : Bool) : Run (HeapId × CellId × ConsumerId) := do
  let h ← Run.newHeap { traces := .bool traces, samplesForces := .bool true }
  Run.enter h
  let c ← Discipline.cycle (.int lo) (.int hi) .name
  return (h, c, ← Consumer.new h (.bool samples) (.cell c))

/-- Makes such a consumer, and calls it.  The result is the heap and the repetition. -/
def sampledCalls (run : Runner) (lo hi : Int) (traces samples : Bool) (calls : List Call) : Run (HeapId × CellId) := do
  let (h, c, d) ← sampledConsumer lo hi traces samples
  forM calls (Call.perform run d)
  return (h, c)

/-- A consumer stands before the cell `c` of the repetition, and no count above seven was sampled. -/
structure Scene (r : Interval) (base : Nat) (h : HeapId) (d : ConsumerId) (samples : Bool) (c : CellId) (s : Store) :
    Prop where
  watches : s.Watches h base c
  standing : Standing r base s c
  bounded : s.Bounded h 7
  consumer : ∃ k, s.consumers[d]? = some ⟨h, .bool samples, k⟩

namespace Scene
variable {p : Program} {r : Interval} {base : Nat} {h : HeapId} {d : ConsumerId} {samples : Bool} {c : CellId}
  {s e : Store}

theorem remaining (hs : Scene r base h d samples c s) : Consumer.remaining d s = .ok (.cell c) s := by
  obtain ⟨k, hk⟩ := hs.consumer
  unfold Consumer.remaining
  rw [Run.bind_ok (Consumer.find_apply hk)]
  exact Consumer.root_apply hs.watches.roots

/-- Forces that are calm keep the scene. -/
theorem calm {made : Nat} {changed : List CellId} (hs : Scene r base h d samples c s) (hg : Calm h 7 s e made changed)
    (hstanding : Standing r base e c) : Scene r base h d samples c e :=
  ⟨hg.watches hs.watches, hstanding, hg.bounded hs.bounded, hg.consumers ▸ hs.consumer⟩

/-- The log is no part of the scene. -/
theorem noted (hs : Scene r base h d samples c s) (events : List Event) :
    Scene r base h d samples c { s with events := events } := by
  refine ⟨{ hs.watches with numbered := hs.watches.numbered.congr rfl rfl }, ?_, ⟨hs.bounded.peak, hs.bounded.samples⟩,
    hs.consumer⟩
  cases hs.standing with
  | start hc => exact .start hc
  | rest hl => exact .rest (hl.congr rfl)
  | node hn => exact .node (hn.congr rfl)

/-- The head of what is left is forced with its node. -/
theorem head (hs : Scene r base h d samples c s) (hne : r.lo ≤ r.hi) (hr : r.length ≤ sizeLimit) :
    ∃ tag head tail x y e, Consumer.head p.run d s = .ok (.cell head) e ∧ Scene r base h d samples c e ∧
      Node r base e c tag head tail x y := by
  obtain ⟨tag, head, tail, x, y, e, made, changed, hforce, hg, hn⟩ :=
    hs.standing.force p 4997 hs.watches hne hr
  refine ⟨tag, head, tail, x, y, e, ?_, hs.calm hg (.node hn), hn⟩
  unfold Consumer.head
  rw [Run.bind_ok hs.remaining]
  exact (Run.bind_ok (show Run.cellOf "state" (.cell c) s = .ok c s from rfl)).trans (Run.bind_ok hforce)

theorem headValue (hs : Scene r base h d samples c s) (hne : r.lo ≤ r.hi) (hr : r.length ≤ sizeLimit) :
    ∃ v e, Consumer.headValue p.run d s = .ok (.int v) e ∧ Scene r base h d samples c e := by
  obtain ⟨tag, head, tail, x, y, m, hhead, hm, hn⟩ := hs.head hne hr
  obtain ⟨v, e, made, changed, hforce, hg, hn⟩ := hn.read p 4999 hm.watches
  refine ⟨v, e, ?_, hm.calm hg (.node hn)⟩
  unfold Consumer.headValue
  rw [Run.bind_ok hhead]
  exact hforce

/-- The consumer moves from a node to what is left after it. -/
theorem moved {k : Nat} {tag : Tag} {head tail x y : CellId} (hs : Scene r base h d samples c s)
    (hk : s.consumers[d]? = some ⟨h, .bool samples, k⟩) (hn : Node r base s c tag head tail x y) :
    Scene r base h d samples tail (Consumer.moved ⟨h, .bool samples, k⟩ d (.cell tail) s) ∧
      Rest r base (Consumer.moved ⟨h, .bool samples, k⟩ d (.cell tail) s) tail x y := by
  have ht : (Consumer.moved ⟨h, .bool samples, k⟩ d (.cell tail) s).heap h =
      { s.heap h with roots := [(Consumer.rootName, .cell tail)] } :=
    Consumer.heap_moved hs.watches.valid ⟨_, hs.watches.roots⟩ (.cell tail)
  obtain ⟨b, htraces⟩ := hs.watches.traces
  have hrest := hn.rest.congr (e := Consumer.moved ⟨h, .bool samples, k⟩ d (.cell tail) s) rfl
  refine ⟨⟨⟨hs.watches.active, ?_, ?_, ⟨b, ?_⟩, ?_, ?_⟩, .rest hrest, ⟨?_, ?_⟩,
    k + 1, Consumer.consumer_moved hk _⟩, hrest⟩
  · exact (Store.size_updateHeap ..).symm ▸ hs.watches.valid
  · rw [ht]; exact hs.watches.forces
  · rw [ht]; exact htraces
  · exact hs.watches.numbered.congr rfl (by rw [ht])
  · rw [ht]
  · rw [ht]; exact hs.bounded.peak
  · rw [ht]; exact hs.bounded.samples

/-- **A step leads from node to node**: what is left is a concatenation in the middle of the laps, and so three cells are
live. -/
theorem step (hs : Scene r base h d samples c s) (hne : r.lo ≤ r.hi) (hr : r.length ≤ sizeLimit) :
    ∃ c' x y e, Consumer.step p.run d s = .ok true e ∧ Scene r base h d samples c' e ∧ Rest r base e c' x y := by
  obtain ⟨tag, head, tail, x, y, e, made, changed, hforce, hg, hn⟩ := hs.standing.force p 4997 hs.watches hne hr
  have he := hs.calm hg (.node hn)
  obtain ⟨k, hk⟩ := he.consumer
  let m := Consumer.moved ⟨h, .bool samples, k⟩ d (.cell tail) e
  obtain ⟨hm, hrest⟩ : Scene r base h d samples tail m ∧ Rest r base m tail x y := he.moved hk hn
  have hdistinct : tail ≠ c := fun heq => by
    have htail := hn.rest.state
    rw [heq, hn.evaluated] at htail
    cases htail
  have hdrop : Sequence.dropSteps p.run 1 (.cell c) s = .ok (.cell tail) e := Run.bind_ok hforce
  rw [Consumer.step_of_moved hs.remaining hdrop hk (beq_false_of_ne hdistinct),
    Run.bind_ok (show Run.truth (.bool samples) m = .ok samples m from rfl)]
  cases samples with
  | false => exact ⟨tail, x, y, m, rfl, hm, hrest⟩
  | true =>
    obtain ⟨hcells, hnodup⟩ := hrest.holds
    obtain ⟨found, hfound, hsize, -⟩ := hcells.count hnodup hm.watches.numbered hm.watches.roots
    obtain ⟨b, htraces⟩ := hm.watches.traces
    have hsample := Run.sample_apply hfound (congrArg Value.truth? htraces)
    simp only [if_true]
    rw [Run.bind_ok hsample]
    have hnoted : Calm h 7 m (m.noteLive h found.size) 0 [] := .noteLive hm.watches (by rw [hsize]; simp)
    exact ⟨tail, x, y, _, rfl, (hm.calm hnoted (.rest (hrest.congr rfl))).noted _, hrest.congr rfl⟩

theorem advance (n : Nat) (hs : Scene r base h d samples c s) (hne : r.lo ≤ r.hi) (hr : r.length ≤ sizeLimit) :
    ∃ c' e, Consumer.advance p.run d n s = .ok () e ∧ Scene r base h d samples c' e ∧
      ((0 < n ∨ ∃ x y, Rest r base s c x y) → ∃ x y, Rest r base e c' x y) := by
  induction n generalizing c s with
  | zero => exact ⟨c, s, rfl, hs, fun h => h.resolve_left (Nat.lt_irrefl 0)⟩
  | succ n ih =>
    obtain ⟨c₁, x, y, m, hstep, hm, hrest⟩ := hs.step (p := p) hne hr
    obtain ⟨c₂, e, hrun, he, hlater⟩ := ih hm
    refine ⟨c₂, e, ?_, he, fun _ => hlater (.inr ⟨x, y, hrest⟩)⟩
    unfold Consumer.advance
    rw [Run.bind_ok hstep]
    exact hrun

/-- A call succeeds and keeps the scene.  After a step the consumer stands in the middle of the laps. -/
theorem perform (call : Call) (hs : Scene r base h d samples c s) (hne : r.lo ≤ r.hi) (hr : r.length ≤ sizeLimit) :
    ∃ c' e, call.perform p.run d s = .ok () e ∧ Scene r base h d samples c' e ∧
      ∀ n, 0 < n → call = .drop n → ∃ x y, Rest r base e c' x y := by
  cases call with
  | drop n =>
    obtain ⟨c', e, hrun, he, hrest⟩ := hs.advance n hne hr
    refine ⟨c', e, Run.bind_ok ((Run.bind_ok hrun).trans he.remaining), he, fun k hk heq => hrest (.inl ?_)⟩
    cases heq
    exact hk
  | head =>
    obtain ⟨tag, head, tail, x, y, e, hhead, he, -⟩ := hs.head hne hr
    exact ⟨c, e, Run.bind_ok hhead, he, fun _ _ heq => by cases heq⟩
  | headValue =>
    obtain ⟨v, e, hvalue, he⟩ := hs.headValue hne hr
    exact ⟨c, e, Run.bind_ok hvalue, he, fun _ _ heq => by cases heq⟩

/-- **Any calls, one after the other, succeed and keep the scene.** -/
theorem performAll (calls : List Call) (hs : Scene r base h d samples c s) (hne : r.lo ≤ r.hi)
    (hr : r.length ≤ sizeLimit) : ∃ c' e, forM calls (Call.perform p.run d) s = .ok () e ∧
      Scene r base h d samples c' e ∧
      ∀ n, 0 < n → calls.getLast? = some (.drop n) → ∃ x y, Rest r base e c' x y := by
  induction calls using List.reverseRecOn with
  | nil => exact ⟨c, s, rfl, hs, fun _ _ heq => by cases heq⟩
  | append_singleton calls call ih =>
    obtain ⟨c₁, m, hrun, hm, -⟩ := ih
    obtain ⟨c₂, e, hcall, he, hrest⟩ := hm.perform (p := p) call hne hr
    refine ⟨c₂, e, ?_, he, fun n hn hlast => hrest n hn ?_⟩
    · rw [List.forM_append]
      exact (Run.bind_ok hrun).trans (Run.bind_ok hcall)
    · simpa using hlast

/-- In the middle of the laps, nothing is live but what is left, and the repetition itself is not. -/
theorem count_rest {x y : CellId} (hs : Scene r base h d samples c s) (hl : Rest r base s c x y) :
    Run.liveCount h s = .ok 3 s ∧ ∃ found : Found, Run.reachable h s = .ok found s ∧
      found.contains (s.address base) = false := by
  obtain ⟨hcells, hnodup⟩ := hl.holds
  obtain ⟨found, hfound, hsize, hmem⟩ := hcells.count hnodup hs.watches.numbered hs.watches.roots
  refine ⟨Run.liveCount_eq_ok_iff.2 ⟨⟨found, hfound, hsize⟩, rfl⟩, found, Run.reachable_eq_ok_iff.2 ⟨hfound, rfl⟩, ?_⟩
  rw [Std.TreeMap.contains_eq_isSome_getElem?, Option.isSome_eq_false_iff, Option.isNone_iff_eq_none]
  refine Option.eq_none_iff_forall_ne_some.2 fun b hb => ?_
  obtain ⟨hcell, haddress⟩ := hmem _ b hb
  obtain ⟨hle, hlt⟩ := hcells.valid b hcell
  have hlater := hl.base_lt
  have hbase : b = base := hs.watches.numbered.eq_of_address hle hlt (Nat.le_refl base)
    (Nat.lt_trans hlater.1 (hcells.valid c List.mem_cons_self).2) haddress
  have hne : ∀ d, base < d → b ≠ d := fun d hd heq => Nat.ne_of_gt hd (heq.symm.trans hbase)
  simp [hne c hlater.1, hne x hlater.2.1, hne y hlater.2.2] at hcell

/-- A new consumer before the start of the repetition, on a heap that has no roots and no samples yet. -/
theorem start {base : Nat} {tag : Tag} (ha : s.active = some h) (hh : h < s.heaps.size)
    (hf : (s.heap h).samplesForces = .bool true) (ht : ∃ b, (s.heap h).traces = .bool b) (hn : s.Numbered base h)
    (hroots : (s.heap h).roots = []) (hb : s.Bounded h 7)
    (hc : s.state base = .suspended (.freshLap tag (.interval (.int r.lo) (.int r.hi)))) (samples : Bool) : ∃ d e,
    Consumer.new h (.bool samples) (.cell base) s = .ok d e ∧ Scene r base h d samples base e := by
  obtain ⟨b, hb'⟩ := ht
  let m := s.rooted h Consumer.rootName (.cell base)
  have hm : m.heap h = { s.heap h with roots := [(Consumer.rootName, .cell base)] } :=
    Consumer.heap_rooted hh (.cell base) (.inl hroots)
  have hw : m.Watches h base base := by
    refine ⟨ha, (Store.size_updateHeap ..).symm ▸ hh, ?_, ⟨b, ?_⟩, hn.congr rfl ?_, ?_⟩
    all_goals rw [hm]
    exacts [hf, hb']
  have hmb : m.Bounded h 7 := ⟨by rw [hm]; exact hb.peak, by rw [hm]; exact hb.samples⟩
  -- the consumer as it is put into the store, whether a sample was taken before or not
  have hpush : ∀ e made changed, Calm h 7 m e made changed → e.state base = m.state base →
      Scene r base h e.consumers.size samples base { e with consumers := e.consumers.push ⟨h, .bool samples, 0⟩ } :=
    fun e made changed hg hstate => by
      have hwe := hg.watches hw
      have hbe := hg.bounded hmb
      exact ⟨{ hwe with numbered := hwe.numbered.congr rfl rfl }, .start (hstate.trans hc), ⟨hbe.peak, hbe.samples⟩, 0,
        Array.getElem?_push_size⟩
  unfold Consumer.new
  rw [Run.bind_ok (Consumer.setRoot_apply s h (.cell base)),
    Run.bind_ok (show Run.truth (.bool samples) m = .ok samples m from rfl)]
  cases samples with
  | false => exact ⟨_, _, rfl, hpush m 0 [] (.of_grown (.refl h m)) rfl⟩
  | true =>
    have hlive : m.Holds base base [base] := .leaf (Store.refs_of_state hc) (Nat.le_refl _) (Store.lt_of_suspended hc)
    obtain ⟨found, hfound, hsize, -⟩ := hlive.count (List.nodup_singleton _) hw.numbered hw.roots
    have htraces : (m.heap h).traces = .bool b := by rw [hm]; exact hb'
    have hsample := Run.sample_apply hfound (congrArg Value.truth? htraces)
    have hdiscard : discard (Run.sample h) m = .ok () (m.noteLive h found.size) := Run.bind_ok hsample
    simp only [if_true]
    rw [Run.bind_ok hdiscard]
    exact ⟨_, _, rfl, hpush _ 0 [] (.noteLive hw (by rw [hsize]; simp)) rfl⟩

/-- The scene at the beginning. -/
theorem ofNew (s : Store) (lo hi : Int) (traces samples : Bool) : ∃ h origin d e,
    sampledConsumer lo hi traces samples s = .ok (h, origin, d) e ∧ Scene ⟨lo, hi⟩ origin h d samples origin e := by
  let heap : Heap := { traces := .bool traces, samplesForces := .bool true }
  let h := s.heaps.size
  let pushed : Store := { s with heaps := s.heaps.push heap }
  let opened : Store := { pushed.entered h with events := .opened :: s.events }
  have hlt : h < pushed.heaps.size := by rw [Array.size_push]; exact Nat.lt_succ_self _
  have hvalid : h < opened.heaps.size := (Store.size_updateHeap ..).symm ▸ hlt
  have hpushed : pushed.heap h = heap := by
    unfold Store.heap
    rw [Array.getElem?_push_size]
    rfl
  have hopened : opened.heap h = { heap with contexts := [s.active] } := by
    refine (Store.heap_updateHeap hlt _).trans ?_
    rw [hpushed]
  have hnumbered : opened.Numbered s.cells.size h :=
    ⟨by rw [hopened]; rfl, fun c hc hlt => absurd hlt (Nat.not_lt_of_le hc)⟩
  -- the repetition, the first cell of the heap
  let lap := Thunk.freshLap opened.nextTag (.interval (.int lo) (.int hi))
  let m := opened.tagged.register h (.suspended lap)
  have hg : Grown h opened m 1 0 [] := (Grown.tagged h opened).trans (.register (s := opened.tagged) hvalid _)
  obtain ⟨table, hm⟩ := hg.heap
  rw [hopened] at hm
  have hcycle : Discipline.cycle (.int lo) (.int hi) .name opened = .ok s.cells.size m :=
    (Run.bind_ok (Run.freshTag_apply opened)).trans (Run.suspend_apply (s := opened.tagged) rfl lap)
  have hbounded : m.Bounded h 7 := ⟨by rw [hm]; exact Nat.zero_le 7, by rw [hm]; simp [heap]⟩
  obtain ⟨d, e, hnew, hs⟩ := Scene.start (s := m) (r := ⟨lo, hi⟩) rfl (hg.heaps ▸ hvalid) (by rw [hm])
    ⟨traces, by rw [hm]⟩ (hnumbered.grown hg) (by rw [hm]) hbounded
    (Store.state_register_new opened.tagged h (.suspended lap)) samples
  refine ⟨h, s.cells.size, d, e, ?_, hs⟩
  unfold sampledConsumer
  rw [Run.bind_ok (show Run.newHeap heap s = .ok h pushed from rfl),
    Run.bind_ok (show Run.enter h pushed = .ok () opened from rfl), Run.bind_ok hcycle, Run.bind_ok hnew]
  rfl

end Scene

/-- **A repetition by name is small at all times.**  For all bounds whose interval is not empty and can be counted, on a
new heap that samples every force and has no other roots, whatever is asked of a consumer of the repetition and in
whatever order: no call fails, and no live count that was ever sampled, after a step or at the end of a force, in the
middle of others or not, is above seven.  Right after elements were dropped, three cells are live, and the repetition
itself is not among them. -/
theorem sampled_counts_at_most_seven (p : Program) (s : Store) (lo hi : Int) (hle : lo ≤ hi)
    (hlimit : hi - lo + 1 ≤ sizeLimit) (traces samples : Bool) (calls : List Call) : ∃ h origin e,
    sampledCalls p.run lo hi traces samples calls s = .ok (h, origin) e ∧ (e.heap h).peak ≤ 7 ∧
    (∀ n ∈ (e.heap h).samples, n ≤ 7) ∧
    ∀ n, 0 < n → calls.getLast? = some (.drop n) → Run.liveCount h e = .ok 3 e ∧
      ∃ found : Found, Run.reachable h e = .ok found e ∧ found.contains (e.address origin) = false := by
  have hr : (⟨lo, hi⟩ : Interval).length ≤ sizeLimit := by
    show (hi - lo + 1).toNat ≤ sizeLimit
    omega
  obtain ⟨h, origin, d, m, hnew, hs⟩ := Scene.ofNew s lo hi traces samples
  obtain ⟨c, e, hcalls, he, hrest⟩ := hs.performAll (p := p) calls hle hr
  refine ⟨h, origin, e, ?_, he.bounded.peak, he.bounded.samples, fun n hn hlast => ?_⟩
  · unfold sampledCalls
    rw [Run.bind_ok hnew]
    exact Run.bind_ok hcalls
  · obtain ⟨x, y, hl⟩ := hrest n hn hlast
    exact he.count_rest hl

theorem sampled_counts_at_most_seven_boundary :
    (3 : Int) ≤ 4 ∧ (4 : Int) - 3 + 1 ≤ sizeLimit ∧ ∃ h origin e,
      sampledCalls (Program.run []) 3 4 true true [.headValue, .drop 2, .head, .drop 1] {} = .ok (h, origin) e ∧
      (∀ n ∈ (e.heap h).samples, n ≤ 7) ∧ Run.liveCount h e = .ok 3 e := by
  obtain ⟨h, origin, e, hrun, -, hsamples, hdropped⟩ :=
    sampled_counts_at_most_seven [] {} 3 4 (by decide) (by decide) true true [.headValue, .drop 2, .head, .drop 1]
  exact ⟨by decide, by decide, h, origin, e, hrun, hsamples, (hdropped 1 Nat.one_pos rfl).1⟩

end Retention
