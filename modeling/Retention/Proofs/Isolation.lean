import Retention.Proofs.ByName
import Retention.Proofs.ByNeed
import Retention.Proofs.Confinement
/-!
# Isolation — a scenario leaves everything as it was

A scenario runs on a heap of its own, so it leaves all other cells and heaps alone (`Confinement`).  What it tells does
not depend on them either: where the interval has elements that can be counted, its report is told by the course of the
list (`Course`), and otherwise it raises an error at the first force of the list (`DeadEnd`).
-/
namespace Retention

open Store (Hosts Grown)

/-! ## Lists that cannot be begun -/

/-- An error that the repetition of an interval raises at its first force: the interval is empty, and the list, with this
address, has come to its end; or the interval has more elements than can be counted. -/
def Store.Barren (s : Store) (r : Interval) (address : Nat) (x : FaultId) : Prop :=
  (r.hi < r.lo ∧ ∃ c, s.faults[x]? = some ⟨.emptyCycle address, [.cell c]⟩ ∧ s.state c = .evaluated .listEnd ∧
    s.address c = address) ∨
  (sizeLimit < r.length ∧ s.faults[x]? = some ⟨.tooLong, []⟩)

theorem Store.Barren.congr {s e : Store} {r : Interval} {address : Nat} {x : FaultId} (hs : s.Barren r address x)
    (hfaults : e.faults = s.faults) (hcells : e.cells = s.cells) : e.Barren r address x := by
  unfold Store.Barren Store.state Store.address
  rw [hfaults, hcells]
  exact hs

section
variable {p : Program} {depth : Nat} {s m e : Store} {h : HeapId} {r : Interval} {c x : CellId} {t next : Thunk}

theorem Run.lengthBetween_of_tooLong (hlong : sizeLimit < r.length) (s : Store) :
    Run.lengthBetween (.int r.lo) (.int r.hi) s =
      .error (.raised s.faults.size) { s with faults := s.faults.push ⟨.tooLong, []⟩ } := by
  have hnone : r.length? = none := if_neg (Nat.not_le_of_lt hlong)
  unfold Run.lengthBetween
  rw [show Value.between? (.int r.lo) (.int r.hi) = some r from rfl]
  simp only [hnone]
  rfl

theorem force_interval_tooLong (p : Program) (depth : Nat) {tag : Tag} (ha : s.active = some h)
    (hc : s.state c = .suspended (.intervalNode tag (.int r.lo) (.int r.hi))) (hlong : sizeLimit < r.length) :
    ∃ y e, force (p.runAt (depth + 1)) c s = .error (.raised y) e ∧ e.faults[y]? = some ⟨.tooLong, []⟩ := by
  let node := Thunk.intervalNode tag (.int r.lo) (.int r.hi)
  let failed : Store := { s.began c h node with faults := s.faults.push ⟨.tooLong, []⟩ }
  have hproduce : node.produce p (p.runAt depth) (s.began c h node) = .error (.raised s.faults.size) failed :=
    Run.bind_error (Run.lengthBetween_of_tooLong hlong (s.began c h node))
  refine ⟨s.faults.size, failed.aborted c s.faults.size, ?_, Array.getElem?_push_size⟩
  rw [force_of_suspended p depth ha hc, hproduce]

/-- **A lap of an interval that is empty, or too long to be counted, raises an error that says so.** -/
theorem force_lap_barren (hs : s.Hosts h) (hc : s.state c = .suspended t)
    (ht : t.produce p (p.runAt (depth + 1)) (s.began c h t) = Cycle.lap (p.runAt (depth + 1)) (.cell x) next m)
    (hm : m.Hosts h) {tag : Tag} (hx : m.state x = .suspended (.intervalNode tag (.int r.lo) (.int r.hi))) (hxc : x ≠ c)
    (hbad : r.hi < r.lo ∨ sizeLimit < r.length) :
    ∃ y e, force (p.runAt (depth + 2)) c s = .error (.raised y) e ∧ e.Barren r (m.address x) y := by
  rcases hbad with hempty | hlong
  · obtain ⟨e, hforce, hg, hend⟩ := force_interval_empty p depth hm hx hempty
    have haddress := hg.address x (Store.lt_of_suspended hx)
    refine ⟨_, _, force_lap_of_nil hs.active hc ht hforce, .inl ⟨hempty, x, ?_, ?_, ?_⟩⟩
    · exact haddress ▸ Array.getElem?_push_size
    · exact (Store.state_setState_of_ne _ _ hxc).trans hend
    · exact (Store.address_setState _ c x _).trans haddress
  · obtain ⟨y, e, hforce, hfault⟩ := force_interval_tooLong p depth hm.active hx hlong
    exact ⟨y, _, force_lap_of_error hs.active hc ht hforce, .inr ⟨hlong, hfault⟩⟩

end

/-- A list on a heap of which not even the first node can be had: what it looks like, and what is known of the error that
its force raises. -/
structure DeadEnd (run : Runner) (h : HeapId) where
  front : CellId → Store → Prop
  reason : FaultId → Store → Prop
  congr : ∀ {c s e}, front c s → e.cells = s.cells → (e.heap h).created = (s.heap h).created →
    (e.heap h).forced = (s.heap h).forced → front c e
  count : ∀ {c s}, front c s → (s.heap h).roots = [(Consumer.rootName, .cell c)] → ∃ found, s.reachable h = .ok found
  fails : ∀ {c s}, front c s → s.Hosts h → ∃ x e, force run c s = .error (.raised x) e ∧ reason x e

namespace Consumer
variable {run : Runner} {s : Store} {h : HeapId} {c : CellId}

/-- A new consumer of such a list stands before it. -/
theorem new_of_deadEnd (D : DeadEnd run h) (hs : s.Hosts h) {traces : Bool} (ht : (s.heap h).traces = .bool traces)
    (hr : (s.heap h).roots = []) (hf : D.front c s) (samples : Bool) : ∃ d e,
      new h (.bool samples) (.cell c) s = .ok d e ∧ remaining d e = .ok (.cell c) e ∧ e.Hosts h ∧ D.front c e := by
  let m := s.rooted h rootName (.cell c)
  have hm : m.heap h = { s.heap h with roots := [(rootName, .cell c)] } := heap_rooted hs.valid (.cell c) (.inl hr)
  have hmh : m.Hosts h := ⟨hs.active, (Store.size_updateHeap ..).symm ▸ hs.valid, hm ▸ hs.quiet⟩
  have hfront : D.front c m := D.congr hf rfl (by rw [hm]) (by rw [hm])
  have hstands : ∀ e : Store, e.Hosts h → D.front c e → (e.heap h).roots = [(rootName, .cell c)] →
      ∃ d f, (modifyGet (fun s : Store =>
        (s.consumers.size, { s with consumers := s.consumers.push ⟨h, .bool samples, 0⟩ })) : Run ConsumerId) e = .ok d f ∧
        remaining d f = .ok (.cell c) f ∧ f.Hosts h ∧ D.front c f := fun e he hfe hroots => by
    refine ⟨_, _, rfl, ?_, { he with }, D.congr hfe rfl rfl rfl⟩
    unfold remaining
    rw [Run.bind_ok (find_apply (x := ⟨h, .bool samples, 0⟩) Array.getElem?_push_size)]
    exact root_apply hroots
  unfold new
  rw [Run.bind_ok (setRoot_apply s h (.cell c)), Run.bind_ok (show Run.truth (.bool samples) m = .ok samples m from rfl)]
  cases samples with
  | false => exact hstands m hmh hfront (congrArg Heap.roots hm)
  | true =>
    obtain ⟨found, hfound⟩ := D.count hfront (congrArg Heap.roots hm)
    have htm : (m.heap h).traces = .bool traces := hm ▸ ht
    have hsample : discard (Run.sample h) m = .ok () (m.noteLive h found.size) :=
      Run.bind_ok (Run.sample_apply hfound (congrArg Value.truth? htm))
    have hnoted := heap_noteLive hmh.valid htm found.size
    simp only [if_true]
    rw [Run.bind_ok hsample]
    refine hstands _ ⟨hmh.active, (Store.size_updateHeap ..).symm ▸ hmh.valid, ?_⟩ (D.congr hfront rfl ?_ ?_) ?_
    · rw [hnoted]; exact hmh.quiet
    · rw [hnoted]
    · rw [hnoted]
    · rw [hnoted]; exact congrArg Heap.roots hm

/-- Whether it is to drop elements first or not, a consumer that stands before such a list raises its error. -/
theorem headValue_of_deadEnd {d : ConsumerId} {x : FaultId} {e : Store} (hleft : remaining d s = .ok (.cell c) s)
    (hfails : force run c s = .error (.raised x) e) (n : Int) :
    (do discard (drop run d n); headValue run d) s = .error (.raised x) e := by
  have hcell : Run.cellOf "state" (.cell c) s = .ok c s := rfl
  cases hn : n.toNat with
  | zero =>
    have hdrop : discard (drop run d n) s = .ok () s := by
      have hnone : drop run d n s = .ok (.cell c) s := by
        unfold drop
        rw [hn]
        exact (Run.bind_ok (Run.pure_apply () s)).trans hleft
      exact Run.bind_ok hnone
    have hhead : head run d s = .error (.raised x) e := by
      unfold head
      rw [Run.bind_ok hleft]
      exact (Run.bind_ok hcell).trans (Run.bind_error hfails)
    rw [Run.bind_ok hdrop]
    exact Run.bind_error hhead
  | succ k =>
    have hstep : step run d s = .error (.raised x) e := by
      have hsteps : Sequence.dropSteps run 1 (.cell c) s = .error (.raised x) e :=
        Run.bind_error ((Run.bind_ok hcell).trans hfails)
      unfold step
      rw [Run.bind_ok hleft]
      exact Run.bind_error hsteps
    have hdrop : drop run d n s = .error (.raised x) e := by
      unfold drop
      rw [hn]
      exact Run.bind_error (Run.bind_error hstep)
    exact Run.bind_error (Run.bind_error hdrop)

end Consumer

namespace Scenario
variable {run : Runner} {s : Store}

theorem measure_of_deadEnd {d : Discipline} {lo hi : Int} {traces : Bool} {m : Store} (D : DeadEnd run s.heaps.size)
    (hm : Opened s traces m) (drop : Int) (samples : Bool)
    (hcycle : ∀ m, Opened s traces m → ∃ c e made forced changed, d.cycle (.int lo) (.int hi) m = .ok c e ∧
      Grown s.heaps.size m e made forced changed ∧ D.front c e) : ∃ x e,
    measure run ⟨.int lo, .int hi, .int drop, .bool traces, .bool samples⟩ d s.heaps.size m = .error (.raised x) e ∧
      D.reason x e := by
  have hm := hm.noted (.running d lo hi drop :: m.events)
  obtain ⟨c, e₀, made, forced, changed, hc, hg, hfront⟩ := hcycle _ hm
  obtain ⟨table, ht⟩ := hg.heap
  rw [hm.heap] at ht
  obtain ⟨w, e₁, hnew, hleft, hhosts, hfront₁⟩ := Consumer.new_of_deadEnd D (hg.hosts hm.hosts)
    (show (e₀.heap s.heaps.size).traces = .bool traces by rw [ht]) (by rw [ht]) hfront samples
  obtain ⟨x, e, hfails, hreason⟩ := D.fails hfront₁ hhosts
  refine ⟨x, e, ?_, hreason⟩
  have hhead := Consumer.headValue_of_deadEnd hleft hfails drop
  unfold measure
  rw [Run.bind_ok (show announce _ d m = .ok () _ from rfl), Run.bind_ok hc, Run.bind_ok hnew,
    Run.bind_ok (show Run.integerOf (.int drop) e₁ = .ok drop e₁ from rfl)]
  rw [Run.bind_apply] at hhead ⊢
  cases hdrop : discard (Consumer.drop run w drop) e₁ with
  | ok _ e₂ =>
    rw [hdrop] at hhead
    exact Run.bind_error hhead
  | error _ _ =>
    rw [hdrop] at hhead
    cases hhead
    rfl

end Scenario

/-! ## The two disciplines -/

section
variable {s : Store} {r : Interval} {base : Nat} {h : HeapId} {c : CellId}

/-- The address of the list that a discipline finds empty: by name the list is made after the repetition. -/
def Discipline.emptyAddress : Discipline → Nat
  | need => 1
  | name => 2

theorem ByNeed.Start.force_barren (p : Program) (depth : Nat) (hl : Start r base h s) (hs : s.Hosts h)
    (hbad : r.hi < r.lo ∨ sizeLimit < r.length) :
    ∃ y e, force (p.runAt (depth + 2)) (base + 1) s = .error (.raised y) e ∧ e.Barren r 1 y := by
  obtain ⟨tag, hsource⟩ := hl.source
  let t := Thunk.cycleStart (base + 1) (.cell base)
  have hne : base ≠ base + 1 := Nat.ne_of_lt (Nat.lt_succ_self base)
  have hbegan := Grown.began h s (base + 1) t
  let m := (s.began (base + 1) h t).tagged
  have hm : m.Hosts h := { hbegan.hosts hs with }
  have hx : m.state base = .suspended (.intervalNode tag (.int r.lo) (.int r.hi)) :=
    (Store.state_began_of_ne s hne h t).trans hsource
  have haddress : m.address base = 1 := by
    have hlt := Store.lt_of_suspended hsource
    have hnumber := hl.numbered.address base (Nat.le_refl _) hlt
    have hkept : m.address base = s.address base := hbegan.address base hlt
    omega
  have hproduce : t.produce p (p.runAt (depth + 1)) (s.began (base + 1) h t) = Cycle.lap (p.runAt (depth + 1)) (.cell base)
      (.sharedLap (s.began (base + 1) h t).nextTag (.cell base) (.cell (base + 1))) m :=
    Run.bind_ok (Run.freshTag_apply _)
  obtain ⟨y, e, hforce, hbarren⟩ := force_lap_barren hs hl.origin hproduce hm hx hne hbad
  exact ⟨y, e, hforce, haddress ▸ hbarren⟩

theorem ByName.Start.force_barren (p : Program) (depth : Nat) (hl : Start r base h s c) (hs : s.Hosts h)
    (hbad : r.hi < r.lo ∨ sizeLimit < r.length) :
    ∃ y e, Retention.force (p.runAt (depth + 2)) c s = .error (.raised y) e ∧ e.Barren r 2 y := by
  obtain ⟨tag, hc⟩ := hl.state
  let t := Thunk.freshLap tag (.interval (.int r.lo) (.int r.hi))
  have hbegan := Grown.began h s c t
  have hbs := hbegan.hosts hs
  have hbsize : (s.began c h t).cells.size = s.cells.size := hbegan.size
  let list := Thunk.intervalNode s.nextTag (.int r.lo) (.int r.hi)
  let m := (s.began c h t).tagged.register h (.suspended list)
  have hm : Grown h (s.began c h t) m 1 0 [] :=
    (Grown.tagged h _).trans (.register (s := (s.began c h t).tagged) hbs.valid _)
  have hx : m.state s.cells.size = .suspended list :=
    hbsize ▸ Store.state_register_new (s.began c h t).tagged h (.suspended list)
  have haddress : m.address s.cells.size = 2 := by
    have hnew : m.address s.cells.size = ((s.began c h t).heap h).created + 1 :=
      hbsize ▸ Store.address_register_new (s.began c h t).tagged h (.suspended list)
    rw [hnew, hbegan.created, hl.created]
  have hproduce : t.produce p (p.runAt (depth + 1)) (s.began c h t) =
      Cycle.lap (p.runAt (depth + 1)) (.cell s.cells.size) t m := by
    have hbetween := Sequence.between_apply (s := s.began c h t) hbs.active (.int r.lo) (.int r.hi)
    rw [hbsize] at hbetween
    show Cycle.freshLap _ tag _ _ = _
    unfold Cycle.freshLap
    exact Run.bind_ok (Run.bind_ok hbetween)
  have hne : s.cells.size ≠ c := Nat.ne_of_gt (Store.lt_of_suspended hc)
  obtain ⟨y, e, hforce, hbarren⟩ := force_lap_barren hs hc hproduce (hm.hosts hbs) hx hne hbad
  exact ⟨y, e, hforce, haddress ▸ hbarren⟩

/-- The repetition of such an interval by need. -/
def ByNeed.deadEnd (p : Program) (r : Interval) (base : Nat) (h : HeapId) (hbad : r.hi < r.lo ∨ sizeLimit < r.length) :
    DeadEnd p.run h where
  front c s := c = base + 1 ∧ Start r base h s
  reason x s := s.Barren r 1 x
  congr hl hcells hmade hforced := ⟨hl.1, hl.2.congr hcells hmade hforced⟩
  count hl hroots := (hl.2.count (hl.1 ▸ hroots)).imp fun _ hfound => hfound.1
  fails := by
    rintro c s ⟨rfl, hl⟩ hs
    exact hl.force_barren p 4998 hs hbad

/-- The repetition of such an interval by name. -/
def ByName.deadEnd (p : Program) (r : Interval) (base : Nat) (h : HeapId) (hbad : r.hi < r.lo ∨ sizeLimit < r.length) :
    DeadEnd p.run h where
  front c s := Start r base h s c
  reason x s := s.Barren r 2 x
  congr hl hcells hmade hforced := by
    obtain ⟨tag, hc⟩ := hl.state
    exact ⟨hl.base_le, hl.numbered.congr hcells hmade, hmade.trans hl.created, hforced.trans hl.forced, tag,
      (congrFun (Store.state_of_cells hcells) _).trans hc⟩
  count hl hroots := (hl.count hroots).imp fun _ hfound => hfound.1
  fails hl hs := hl.force_barren p 4998 hs hbad

end

namespace Scenario

/-- **A scenario over an interval that is empty, or too long to be counted, raises an error that says so**, whatever it
is to drop, and leaves everything as it was. -/
theorem report_barren (p : Program) (s : Store) (d : Discipline) (r : Interval) (drop : Int) (traces samples : Bool)
    (hbad : r.hi < r.lo ∨ sizeLimit < r.length) : ∃ x f,
    report p.run ⟨.int r.lo, .int r.hi, .int drop, .bool traces, .bool samples⟩ d s = .error (.raised x) f ∧
      Isolated s f ∧ f.Barren r d.emptyAddress x := by
  have hmeasure : ∃ x e, measure p.run ⟨.int r.lo, .int r.hi, .int drop, .bool traces, .bool samples⟩ d s.heaps.size
      (started s (.bool traces)) = .error (.raised x) e ∧ e.Barren r d.emptyAddress x := by
    have hm := opened_started s traces
    cases d with
    | need =>
      refine measure_of_deadEnd (ByNeed.deadEnd p r s.cells.size s.heaps.size hbad) hm drop samples fun m hm => ?_
      obtain ⟨c, e, made, forced, changed, hcycle, hg, hleft⟩ := ByNeed.cycle_eq_ok (r := r) hm
      refine ⟨c, e, made, forced, changed, hcycle, hg, hleft.eq_spine, ?_⟩
      cases hleft with
      | start hl => exact hl
      | within hl => exact absurd hl.steps (by have := hl.pos; omega)
    | name =>
      refine measure_of_deadEnd (ByName.deadEnd p r s.cells.size s.heaps.size hbad) hm drop samples fun m hm => ?_
      obtain ⟨c, e, made, forced, changed, hcycle, hg, hleft⟩ := ByName.cycle_eq_ok (r := r) hm
      refine ⟨c, e, made, forced, changed, hcycle, hg, ?_⟩
      generalize hk : 0 = k at hleft
      cases hleft with
      | start hl => exact hl
      | within hl => exact absurd hk (by have := hl.pos; omega)
  obtain ⟨x, e, hmeasure, hbarren⟩ := hmeasure
  obtain ⟨f, hreport, hf, hfaults, hcells⟩ := report_raised hmeasure
  exact ⟨x, f, hreport, hf, hbarren.congr hfaults hcells⟩

end Scenario

/-! ## What a scenario reports -/

namespace Discipline

/-- How many cells are live once `n` elements of the endless repetition of a list with `m` elements are dropped and the
next one is read. -/
def retained (m n : Nat) : Discipline → Nat
  | need => n + 4 + 2 * min (n + 1) m
  | name => 5

/-- How many cells were then made. -/
def made (m n : Nat) : Discipline → Nat
  | need => 7 + n + 2 * (n / m) + 2 * min n (m - 1)
  | name => 7 + 3 * n + 3 * (n / m)

/-- How many forces were then completed. -/
def forced (m n : Nat) : Discipline → Nat
  | need => 4 + n + min n m + 2 * (n / m)
  | name => 4 + 2 * n + 3 * (n / m)

/-- Which samples were then kept. -/
def kept (m n : Nat) (traces samples : Bool) : Discipline → List Nat
  | need => ByNeed.keptSamples m n traces samples
  | name => if traces then (if samples then 1 :: List.replicate n 3 else []) ++ [5] else []

/-- What a scenario reports of an interval with elements that can be counted. -/
def reported (d : Discipline) (r : Interval) (n : Nat) (traces samples : Bool) : Report where
  discipline := d
  head := .int (r.lo + (n % r.length : Nat))
  live := .int (d.retained r.length n)
  peak := .int (d.retained r.length n)
  created := .int (d.made r.length n)
  forced := .int (d.forced r.length n)
  samples := (d.kept r.length n traces samples).map fun live : Nat => .int live

end Discipline

namespace Scenario

/-- **A scenario over an interval whose elements can be counted tells the report of its discipline**, where a negative
number of elements to drop is none, and leaves everything as it was. -/
theorem report_counted (p : Program) (s : Store) (d : Discipline) (r : Interval) (drop : Int) (traces samples : Bool)
    (hne : r.lo ≤ r.hi) (hr : r.length ≤ sizeLimit) : ∃ f,
    report p.run ⟨.int r.lo, .int r.hi, .int drop, .bool traces, .bool samples⟩ d s =
      .ok (d.reported r drop.toNat traces samples) f ∧ Isolated s f := by
  have hm := opened_started s traces
  have hpos := Interval.length_pos hne
  cases d with
  | need =>
    obtain ⟨e, hmeasure, -⟩ := measure_eq_ok (ByNeed.course p r s.cells.size s.heaps.size hne hr) hm drop samples
      fun m (hm : Opened s traces m) => ByNeed.cycle_eq_ok (r := r) hm
    obtain ⟨f, hreport, hf⟩ := report_ok hmeasure
    refine ⟨f, hreport.trans (congrArg (EStateM.Result.ok · f) ?_), hf⟩
    have hlive : ByNeed.liveAfter r.length (drop.toNat + 1) = Discipline.need.retained r.length drop.toNat := by
      rw [ByNeed.liveAfter, if_neg (Nat.succ_ne_zero _)]
      rfl
    have hmade : 5 + drop.toNat + 2 * min (drop.toNat + 1) r.length + 2 * (drop.toNat / r.length) =
        Discipline.need.made r.length drop.toNat := by simp only [Discipline.made]; omega
    have hkept := ByNeed.keptSamples_eq r.length drop.toNat traces samples
    unfold Discipline.reported
    rw [← hlive, ← hmade, show Discipline.need.kept _ _ traces samples = _ from hkept]
    rfl
  | name =>
    obtain ⟨e, hmeasure, -⟩ := measure_eq_ok (ByName.course p r s.cells.size s.heaps.size hne hr) hm drop samples
      fun m (hm : Opened s traces m) => ByName.cycle_eq_ok (r := r) hm
    obtain ⟨f, hreport, hf⟩ := report_ok hmeasure
    refine ⟨f, hreport.trans (congrArg (EStateM.Result.ok · f) ?_), hf⟩
    rw [ByName.samples_course]
    rfl

/-- What is told to those who run a scenario: its report, or the kind and the message of the error that it raises;
nothing if it goes too deep. -/
def answer : EStateM.Result Halt Store Report → Option (Except (ErrorKind × Except Fault String) Report)
  | .ok r _ => some (.ok r)
  | .error (.raised x) e => some (.error ((e.raised x).cause.kind, e.message x))
  | .error .tooDeep _ => none

/-- The error of a scenario over an interval that has no elements, or too many to be counted. -/
def complaint (d : Discipline) (r : Interval) : Fault := if r.hi < r.lo then .emptyCycle d.emptyAddress else .tooLong

end Scenario

namespace Store
variable {s : Store} {x : FaultId} {cause : Fault} {context : List Value}

theorem raised_eq (hx : s.faults[x]? = some ⟨cause, context⟩) : s.raised x = ⟨cause, context⟩ := by
  unfold raised
  rw [hx]
  rfl

/-- The message of an error that has a wording of its own. -/
theorem message_eq (hx : s.faults[x]? = some ⟨cause, context⟩) (hargs : cause.args = [.str cause.wording])
    (hkind : cause.kind ≠ .key) : s.message x = .ok cause.wording := by
  unfold message
  rw [show textDepth = 4294967294 + 1 + 1 from rfl]
  simp only [messageIn, raised_eq hx, hargs, if_neg hkind, textIn]

end Store

namespace Scenario

theorem answer_of_barren {d : Discipline} {r : Interval} {x : FaultId} {f : Store} (hf : f.Barren r d.emptyAddress x) :
    answer (.error (.raised x) f) = some (.error ((complaint d r).kind, .ok (complaint d r).wording)) := by
  have hcause : ∃ context, f.faults[x]? = some ⟨complaint d r, context⟩ ∧
      (complaint d r).args = [.str (complaint d r).wording] ∧ (complaint d r).kind ≠ .key := by
    unfold complaint
    rcases hf with ⟨hempty, c, hfault, -⟩ | ⟨hlong, hfault⟩
    · rw [if_pos hempty]
      exact ⟨_, hfault, rfl, by simp [Fault.kind]⟩
    · have hne : ¬ r.hi < r.lo := fun hlt => by
        rw [(r.length_eq_zero_iff).2 hlt] at hlong
        exact absurd hlong (Nat.not_lt_zero _)
      rw [if_neg hne]
      exact ⟨_, hfault, rfl, by simp [Fault.kind]⟩
  obtain ⟨context, hfault, hargs, hkind⟩ := hcause
  show some (Except.error ((f.raised x).cause.kind, f.message x)) = _
  rw [Store.message_eq hfault hargs hkind, Store.raised_eq hfault]

/-- **A scenario is isolated.**  Whatever is active and whatever cells and heaps there are, for all bounds, numbers of
elements to drop and flags, a scenario leaves the active heap, and every cell and heap that was there, exactly as they
were, and it leaves the heap that it made without roots and with an empty table.  It ends with a report or an error, and
these are the same as where there is nothing; an empty interval is an error that says so. -/
theorem report_isolated (p : Program) (s : Store) (d : Discipline) (lo hi drop : Int) (traces samples : Bool) :
    let run := report p.run ⟨.int lo, .int hi, .int drop, .bool traces, .bool samples⟩ d
    Isolated s (Run.finalStore (run s)) ∧
    ∃ told, answer (run s) = some told ∧ answer (run {}) = some told ∧
      (hi < lo → told = .error (.emptySequence, .ok (Fault.emptyCycle d.emptyAddress).wording)) ∧
      (lo ≤ hi → hi - lo + 1 ≤ sizeLimit → ∃ r, told = .ok r) := by
  intro run
  let r : Interval := ⟨lo, hi⟩
  -- each outcome is known without the store, so both runs are compared with it and not with one another
  by_cases hbad : r.hi < r.lo ∨ sizeLimit < r.length
  · have hrun : ∀ s, ∃ x f, run s = .error (.raised x) f ∧ Isolated s f ∧ f.Barren r d.emptyAddress x := fun s =>
      report_barren p s d r drop traces samples hbad
    obtain ⟨x, f, hreport, hf, hbarren⟩ := hrun s
    obtain ⟨y, g, hempty, -, hbarren'⟩ := hrun {}
    rw [hreport, hempty]
    refine ⟨hf, _, answer_of_barren hbarren, answer_of_barren hbarren', fun hlt => ?_, fun hle hlimit => ?_⟩
    · rw [complaint, if_pos hlt]
      rfl
    · have hlength : r.length ≤ sizeLimit := by unfold Interval.length; simp only [r]; omega
      rcases hbad with hlt | hlong
      · exact absurd hle (Int.not_le.2 hlt)
      · exact absurd hlength (Nat.not_le_of_lt hlong)
  · rw [not_or, Int.not_lt, Nat.not_lt] at hbad
    have hrun : ∀ s, ∃ f, run s = .ok (d.reported r drop.toNat traces samples) f ∧ Isolated s f := fun s =>
      report_counted p s d r drop traces samples hbad.1 hbad.2
    obtain ⟨f, hreport, hf⟩ := hrun s
    obtain ⟨g, hempty, -⟩ := hrun {}
    rw [hreport, hempty]
    exact ⟨hf, _, rfl, rfl, fun hlt => absurd hbad.1 (Int.not_le.2 hlt), fun _ _ => ⟨_, rfl⟩⟩

/-- A heap that is open, with a cell that is rooted. -/
def inUse : Store := Run.finalStore ((do
  Run.enter (← Run.newHeap {})
  Run.setRoot 0 (.str "page") (.cell (← Run.newCell (.evaluated (.int 7)))) : Run Unit) {})

/-- An empty interval by name, and one with elements by need, while a heap is open. -/
theorem report_isolated_inUse :
    let empty := report (Program.run []) ⟨.int 5, .int 3, .int 4, .bool true, .bool true⟩ .name
    let counted := report (Program.run []) ⟨.int 3, .int 5, .int (-1), .bool false, .bool true⟩ .need
    inUse.active = some 0 ∧ inUse.cells.size = 1 ∧
    (Isolated inUse (Run.finalStore (empty inUse)) ∧
      answer (empty inUse) = some (.error (.emptySequence, .ok "Cannot cycle an empty list (cell #2)"))) ∧
    Isolated inUse (Run.finalStore (counted inUse)) ∧ ∃ r, answer (counted inUse) = some (.ok r) := by
  intro empty counted
  obtain ⟨hempty, told, htold, -, hraised, -⟩ := report_isolated [] inUse .name 5 3 4 true true
  obtain ⟨hcounted, told', htold', -, -, hreported⟩ := report_isolated [] inUse .need 3 5 (-1) false true
  obtain ⟨r, rfl⟩ := hreported (by decide) (by decide)
  rw [hraised (by decide)] at htold
  exact ⟨rfl, rfl, ⟨hempty, htold⟩, hcounted, r, htold'⟩

end Scenario
end Retention
