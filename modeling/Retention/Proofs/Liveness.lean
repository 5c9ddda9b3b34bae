import Mathlib.Data.Set.Card
import Retention.Proofs.Following
import Retention.Proofs.Growth
import Retention.Proofs.Sampling
/-!
# Liveness — a heap keeps alive what its roots are connected to

What a heap should keep alive, said without a search: a value refers to the cells that are found in it (`Value.Refers`),
a cell to what its state refers to (`CellState.Refers`), and a heap keeps alive the cells that a chain of references
connects to one of its roots (`Store.KeepsAlive`).

`reachable_exact` says that the search finds just these, at every moment of every run, if one heap made all the cells.
It rests on an invariant of runs (`Store.Counts`): a heap that made all the cells gave them the addresses from 1 on in
the order in which they were made, so no two of them have the same.
-/
namespace Retention

open Store (OnlyCells)

/-! ## References -/

/-- A value refers to a cell: it is the cell, has it as a field, or an item of it refers to the cell. -/
inductive Value.Refers : Value → CellId → Prop
  | cell (c : CellId) : Refers (.cell c) c
  | head (tag : Tag) (c : CellId) (tail : Value) : Refers (.cons tag (.cell c) tail) c
  | tail (tag : Tag) (head : Value) (c : CellId) : Refers (.cons tag head (.cell c)) c
  | source (tag : Tag) (c : CellId) (origin : Value) : Refers (.shared tag (.cell c) origin) c
  | origin (tag : Tag) (source : Value) (c : CellId) : Refers (.shared tag source (.cell c)) c
  | listItem {tag : Tag} {items : List Value} {v : Value} {c : CellId} :
    v ∈ items → Refers v c → Refers (.list tag items) c
  | tupleItem {tag : Tag} {items : List Value} {v : Value} {c : CellId} :
    v ∈ items → Refers v c → Refers (.tuple tag items) c

/-- A state refers to a cell: a thunk, whether it waits or runs, by its arguments, and a result by itself.  A failure
refers to none. -/
inductive CellState.Refers : CellState → CellId → Prop
  | suspended {t : Thunk} {v : Value} {c : CellId} : v ∈ t.args → v.Refers c → Refers (.suspended t) c
  | inProgress {t : Thunk} {v : Value} {c : CellId} : v ∈ t.args → v.Refers c → Refers (.inProgress t) c
  | evaluated {v : Value} {c : CellId} : v.Refers c → Refers (.evaluated v) c

namespace Value

theorem mem_refsOfAll_iff {w : Value} {vs : List Value} : w ∈ refsOfAll vs ↔ ∃ v ∈ vs, w ∈ v.refs := by
  rw [refsOfAll_eq_flatMap, List.mem_flatMap]

theorem Refers.mem_refs {v : Value} {c : CellId} (h : v.Refers c) : .cell c ∈ v.refs := by
  induction h with
  | cell c => exact List.mem_cons_self
  | head tag c tail => exact List.mem_cons_self
  | tail tag head c => exact List.mem_cons_of_mem _ List.mem_cons_self
  | source tag c origin => exact List.mem_cons_self
  | origin tag source c => exact List.mem_cons_of_mem _ List.mem_cons_self
  | listItem hv _ ih => exact mem_refsOfAll_iff.2 ⟨_, hv, ih⟩
  | tupleItem hv _ ih => exact mem_refsOfAll_iff.2 ⟨_, hv, ih⟩

mutual
theorem refers_of_mem_refs {c : CellId} : ∀ {v : Value}, .cell c ∈ v.refs → v.Refers c
  | .cell d, h => by
    cases List.mem_singleton.1 h
    exact .cell c
  | .cons tag head tail, h => by
    rcases List.mem_cons.1 h with rfl | h
    · exact .head tag c tail
    · obtain rfl := List.mem_singleton.1 h
      exact .tail tag head c
  | .shared tag source origin, h => by
    rcases List.mem_cons.1 h with rfl | h
    · exact .source tag c origin
    · obtain rfl := List.mem_singleton.1 h
      exact .origin tag source c
  | .list tag items, h => by
    obtain ⟨v, hv, hc⟩ := refers_of_mem_refsOfAll h
    exact .listItem hv hc
  | .tuple tag items, h => by
    obtain ⟨v, hv, hc⟩ := refers_of_mem_refsOfAll h
    exact .tupleItem hv hc
theorem refers_of_mem_refsOfAll {c : CellId} : ∀ {vs : List Value}, .cell c ∈ refsOfAll vs → ∃ v ∈ vs, v.Refers c
  | v :: vs, h => by
    rcases List.mem_append.1 h with h | h
    · exact ⟨v, List.mem_cons_self, refers_of_mem_refs h⟩
    · obtain ⟨w, hw, hc⟩ := refers_of_mem_refsOfAll h
      exact ⟨w, List.mem_cons_of_mem _ hw, hc⟩
end

/-- **The references of a value are the cells it refers to.** -/
theorem mem_refs_iff {v : Value} {c : CellId} : .cell c ∈ v.refs ↔ v.Refers c :=
  ⟨refers_of_mem_refs, Refers.mem_refs⟩

end Value

theorem Thunk.mem_refs_iff {t : Thunk} {c : CellId} : .cell c ∈ t.refs ↔ ∃ v ∈ t.args, v.Refers c := by
  unfold Thunk.refs
  simp only [Value.mem_refsOfAll_iff, Value.mem_refs_iff]

theorem CellState.mem_refs_iff {st : CellState} {c : CellId} : .cell c ∈ st.refs ↔ st.Refers c := by
  cases st with
  | suspended t =>
    refine Thunk.mem_refs_iff.trans ⟨fun ⟨v, hv, hc⟩ => .suspended hv hc, fun h => ?_⟩
    cases h with
    | suspended hv hc => exact ⟨_, hv, hc⟩
  | inProgress t =>
    refine Thunk.mem_refs_iff.trans ⟨fun ⟨v, hv, hc⟩ => .inProgress hv hc, fun h => ?_⟩
    cases h with
    | inProgress hv hc => exact ⟨_, hv, hc⟩
  | evaluated v =>
    refine Value.mem_refs_iff.trans ⟨.evaluated, fun h => ?_⟩
    cases h with
    | evaluated hc => exact hc
  | failed e => exact ⟨fun h => absurd h List.not_mem_nil, fun h => by cases h⟩

namespace Store

/-! ## What should be kept alive -/

/-- A chain of references, each from the state of one cell to the next cell, connects two cells. -/
def Connected (s : Store) : CellId → CellId → Prop := Relation.ReflTransGen fun c d => (s.state c).Refers d

/-- A root of the heap is connected to the cell. -/
def KeepsAlive (s : Store) (h : HeapId) (c : CellId) : Prop :=
  c < s.cells.size ∧ ∃ name r, (name, .cell r) ∈ (s.heap h).roots ∧ s.Connected r c

/-- The heap with other roots. -/
def withRoots (s : Store) (h : HeapId) (roots : Entries Value Value) : Store :=
  s.updateHeap h fun heap => { heap with roots := roots }

variable {s e : Store} {h : HeapId}

theorem path_iff_connected {c d : CellId} : s.Path c d ↔ s.Connected c d := by
  constructor
  · intro hp
    induction hp with
    | refl c => exact .refl
    | step hd _ ih => exact .head (CellState.mem_refs_iff.1 hd) ih
  · intro hc
    induction hc with
    | refl => exact .refl c
    | tail _ hd ih => exact ih.snoc (CellState.mem_refs_iff.2 hd)

theorem live_iff_keepsAlive {c : CellId} : s.Live ((s.heap h).roots.map (·.2)) c ↔ s.KeepsAlive h c := by
  unfold Live Kept KeepsAlive
  simp only [List.mem_map, Prod.exists, exists_eq_right, path_iff_connected]
  constructor
  · rintro ⟨⟨r, ⟨name, hr⟩, hc⟩, hlt⟩
    exact ⟨hlt, name, r, hr, hc⟩
  · rintro ⟨hlt, name, r, hr, hc⟩
    exact ⟨⟨r, ⟨name, hr⟩, hc⟩, hlt⟩

/-! ## Addresses -/

/-- No heap made more cells than there are, and one that made them all numbered them from 1 on. -/
def Counts (s : Store) : Prop :=
  ∀ h, (s.heap h).created ≤ s.cells.size ∧ ((s.heap h).created = s.cells.size → s.Numbered 0 h)

theorem created_push {x : Heap} (hx : x.created = 0) (s : Store) (g : HeapId) :
    (({ s with heaps := s.heaps.push x } : Store).heap g).created = (s.heap g).created := by
  unfold heap
  rw [Array.getElem?_push]
  split
  · rw [‹g = s.heaps.size›, Array.getElem?_eq_none (Nat.le_refl _)]
    exact hx
  · rfl

theorem counts_start : Counts {} := fun _ => ⟨Nat.le_refl 0, fun _ => ⟨rfl, fun _ _ hc => absurd hc (Nat.not_lt_zero _)⟩⟩

theorem Counts.congr (hs : s.Counts) (hsize : e.cells.size = s.cells.size) (haddress : ∀ c, e.address c = s.address c)
    (hcreated : ∀ g, (e.heap g).created = (s.heap g).created) : e.Counts := fun g => by
  obtain ⟨hle, hall⟩ := hs g
  rw [hcreated, hsize]
  refine ⟨hle, fun heq => ⟨by rw [hcreated, hsize]; exact (hall heq).size, fun c hb hc => ?_⟩⟩
  rw [haddress]
  exact (hall heq).address c hb (hsize ▸ hc)

theorem heap_register_of_ne (s : Store) {h g : HeapId} (hg : g ≠ h) (st : CellState) :
    (s.register h st).heap g = s.heap g := by
  unfold register updateHeap heap
  rw [Array.getElem?_modify, if_neg (Ne.symm hg)]

theorem Counts.register (hs : s.Counts) (h : HeapId) (st : CellState) : (s.register h st).Counts := fun g => by
  have hsize := size_register s h st
  obtain ⟨hle, hall⟩ := hs g
  by_cases hg : g = h
  · subst hg
    by_cases hvalid : g < s.heaps.size
    · have hgrown := Grown.register hvalid st
      refine ⟨by rw [hgrown.created, hsize]; exact Nat.succ_le_succ hle, fun heq => ?_⟩
      rw [hgrown.created, hsize] at heq
      exact (hall (Nat.succ.inj heq)).grown hgrown
    · -- such a heap counts nothing
      have hnone : ((s.register g st).heap g).created = 0 := by
        rw [heap, Array.getElem?_eq_none (by rw [Store.register, size_updateHeap]; exact Nat.not_lt.1 hvalid)]
        rfl
      rw [hnone, hsize]
      exact ⟨Nat.zero_le _, fun heq => absurd heq.symm (Nat.succ_ne_zero _)⟩
  · rw [heap_register_of_ne s hg, hsize]
    exact ⟨Nat.le_succ_of_le hle, fun heq => absurd (heq ▸ hle) (Nat.not_succ_le_self _)⟩

theorem Counts.updateHeap (hs : s.Counts) (h : HeapId) {f : Heap → Heap} (hf : ∀ x, (f x).created = x.created) :
    (s.updateHeap h f).Counts := hs.congr rfl (fun _ => rfl) (field_updateHeap hf s h)

theorem Counts.step (hs : s.Counts) (h : s.Step e) : e.Counts := by
  cases h with
  | newCell h st active => exact hs.register h st
  | newHeap traces samplesForces temporary => exact hs.congr rfl (fun _ => rfl) (created_push rfl s)
  | entered h =>
    have hupdated := hs.updateHeap h (f := fun x => { x with contexts := s.active :: x.contexts }) fun _ => rfl
    exact hupdated.congr rfl (fun _ => rfl) fun _ => rfl
  | left h previous contexts =>
    have hupdated := hs.updateHeap h (f := fun x => { x with contexts := contexts }) fun _ => rfl
    exact hupdated.congr rfl (fun _ => rfl) fun _ => rfl
  | closed h => exact hs.updateHeap h fun _ => rfl
  | sampled h found => exact hs.updateHeap h fun _ => rfl
  | collected h found => exact hs.updateHeap h fun _ => rfl
  | rooted h name v => exact hs.updateHeap h fun _ => rfl
  | unrooted h name => exact hs.updateHeap h fun _ => rfl
  | _ => exact hs.congr rfl (fun _ => rfl) fun _ => rfl

theorem Counts.setState (hs : s.Counts) (c : CellId) (st : CellState) : (s.setState c st).Counts :=
  hs.congr (size_setState s c st) (fun d => address_setState s c d st) fun _ => rfl

theorem Counts.recorded (hs : s.Counts) (x : Turn) : (s.recorded x).Counts :=
  hs.congr rfl (fun _ => rfl) fun _ => rfl

end Store

/-- **At every moment of every run, a heap that made all the cells numbered them from 1 on.** -/
theorem Moment.Leads.counts {m m' : Moment} (h : Leads m m') (hm : m.store.Counts) : m'.store.Counts := by
  induction h with
  | refl => exact hm
  | tail _ hnext ih =>
    cases hnext with
    | change k hstep => exact ih.step hstep
    | call s k t => exact ih.recorded _
    | returned s k v => exact ih.recorded _
    | raised s k x => exact ih.recorded _
    | force s k c h t => exact (ih.setState c _).recorded _
    | finished s k c h v =>
      exact ((ih.recorded _).setState c _).updateHeap h fun _ => rfl
    | aborted s k c h x => exact (ih.recorded _).setState c _

namespace Store
variable {s : Store} {h : HeapId}

theorem Counts.searchable (hs : s.Counts) (hsole : (s.heap h).created = s.cells.size)
    (hroots : OnlyCells ((s.heap h).roots.map (·.2))) (hrefs : ∀ c, OnlyCells (s.refs c)) :
    s.Searchable ((s.heap h).roots.map (·.2)) where
  cells := hroots
  refs c _ := hrefs c
  apart c d hc hd := ((hs h).2 hsole).eq_of_address (Nat.zero_le c) hc.2 (Nat.zero_le d) hd.2

/-- What was found, without the addresses. -/
theorem mem_found_iff {found : Found} {live : CellId → Prop}
    (hfound : ∀ a c, found[a]? = some c ↔ live c ∧ s.address c = a) (c : CellId) :
    c ∈ found.toList.map (·.2) ↔ live c := by
  simp only [List.mem_map, Prod.exists, exists_eq_right, Std.TreeMap.mem_toList_iff_getElem?_eq_some]
  constructor
  · rintro ⟨a, ha⟩
    exact ((hfound a c).1 ha).1
  · intro hc
    exact ⟨s.address c, (hfound _ c).2 ⟨hc, rfl⟩⟩

theorem nodup_found {found : Found} {live : CellId → Prop}
    (hfound : ∀ a c, found[a]? = some c ↔ live c ∧ s.address c = a) : (found.toList.map (·.2)).Nodup := by
  have hkeys : (found.toList.map (·.1)).Nodup := by
    rw [Std.TreeMap.map_fst_toList_eq_keys]
    exact Std.TreeMap.nodup_keys
  refine (List.nodup_map_iff_inj_on (List.Nodup.of_map _ hkeys)).2 ?_
  rintro ⟨a, c⟩ hc ⟨b, d⟩ hd rfl
  rw [Std.TreeMap.mem_toList_iff_getElem?_eq_some] at hc hd
  rw [← ((hfound a c).1 hc).2, ← ((hfound b c).1 hd).2]

theorem size_found {found : Found} {live : CellId → Prop}
    (hfound : ∀ a c, found[a]? = some c ↔ live c ∧ s.address c = a) : found.size = {c | live c}.ncard := by
  have hset : {c | live c} = ((found.toList.map (·.2)).toFinset : Set CellId) := by
    ext c
    rw [List.coe_toFinset]
    exact (mem_found_iff hfound c).symm
  rw [hset, Set.ncard_coe_finset, List.toFinset_card_of_nodup (nodup_found hfound), List.length_map,
    Std.TreeMap.length_toList]

/-- A heap that made all the cells is searched with success: each cell that it keeps alive is found under its address. -/
theorem Counts.reachable_eq_ok (hs : s.Counts) (hsole : (s.heap h).created = s.cells.size)
    (hroots : OnlyCells ((s.heap h).roots.map (·.2))) (hrefs : ∀ c, OnlyCells (s.refs c)) :
    ∃ found, s.reachable h = .ok found ∧ (∀ a c, found[a]? = some c ↔ s.KeepsAlive h c ∧ s.address c = a) ∧
      found.size = {c | s.KeepsAlive h c}.ncard := by
  obtain ⟨found, hfound, hexact⟩ := walk_eq_ok (hs.searchable hsole hroots hrefs) _ fun v => List.mem_reverse
  simp only [live_iff_keepsAlive] at hexact
  exact ⟨found, hfound, hexact, size_found hexact⟩

/-- The roots of a heap after they were replaced by others of the same cells are of the same cells. -/
theorem mem_roots_withRoots {roots : Entries Value Value}
    (hsame : ∀ v, v ∈ roots.map (·.2) ↔ v ∈ (s.heap h).roots.map (·.2)) (v : Value) :
    v ∈ ((s.withRoots h roots).heap h).roots.map (·.2) ↔ v ∈ (s.heap h).roots.map (·.2) := by
  by_cases hvalid : h < s.heaps.size
  · rw [withRoots, heap_updateHeap hvalid]
    exact hsame v
  · have hsize : s.heaps.size ≤ h := Nat.not_lt.1 hvalid
    rw [heap, heap, Array.getElem?_eq_none hsize, Array.getElem?_eq_none (by rw [withRoots, size_updateHeap]; exact hsize)]

/-- What a heap keeps alive depends on its roots only by which cells are among them. -/
theorem keepsAlive_withRoots {roots : Entries Value Value}
    (hsame : ∀ v, v ∈ roots.map (·.2) ↔ v ∈ (s.heap h).roots.map (·.2)) (c : CellId) :
    (s.withRoots h roots).KeepsAlive h c ↔ s.KeepsAlive h c := by
  have hroot : ∀ r, (∃ name, (name, Value.cell r) ∈ ((s.withRoots h roots).heap h).roots) ↔
      ∃ name, (name, Value.cell r) ∈ (s.heap h).roots := fun r => by
    simpa using mem_roots_withRoots hsame (.cell r)
  constructor
  · rintro ⟨hlt, name, r, hr, hc⟩
    obtain ⟨name, hr⟩ := (hroot r).1 ⟨name, hr⟩
    exact ⟨hlt, name, r, hr, hc⟩
  · rintro ⟨hlt, name, r, hr, hc⟩
    obtain ⟨name, hr⟩ := (hroot r).2 ⟨name, hr⟩
    exact ⟨hlt, name, r, hr, hc⟩

end Store

open Store Run in
/-- **The search of a heap is exact.**  Whatever expression is evaluated, in whatever program and however deep, leads
from moment to moment.  At every moment, be it in the middle of a thunk, a heap that made all the cells, under whose
roots and in whose cells nothing but cells is referred to, is searched with success and without a change.  Found is
each cell once that a chain of references connects to a root, under its address, and nothing else; so the live count is
the number of these cells.  It is the same for all roots of the same cells, however they are named and ordered. -/
theorem reachable_exact (p : Program) :
    (∀ (depth : Nat) (args : List Value) (e : Expr) (s : Store),
      s.Reaches (finalStore (e.eval p (p.runAt depth) args s))) ∧
    ∀ m, Moment.Leads ⟨{}, []⟩ m → ∀ h, (m.store.heap h).created = m.store.cells.size →
      OnlyCells ((m.store.heap h).roots.map (·.2)) → (∀ c, OnlyCells (m.store.refs c)) →
      (∃ found : Found, reachable h m.store = .ok found m.store ∧
        (∀ a c, found[a]? = some c ↔ m.store.KeepsAlive h c ∧ m.store.address c = a) ∧
        (found.toList.map (·.2)).Nodup ∧ ∀ c, c ∈ found.toList.map (·.2) ↔ m.store.KeepsAlive h c) ∧
      liveCount h m.store = .ok {c | m.store.KeepsAlive h c}.ncard m.store ∧
      ∀ roots : Entries Value Value, (∀ v, v ∈ roots.map (·.2) ↔ v ∈ (m.store.heap h).roots.map (·.2)) →
        liveCount h (m.store.withRoots h roots) =
          .ok {c | m.store.KeepsAlive h c}.ncard (m.store.withRoots h roots) := by
  refine ⟨fun depth args e s => (e.follows_eval (p.follows_runAt depth) args s).reaches, ?_⟩
  intro m hm h hsole hroots hrefs
  have hcounts := hm.counts counts_start
  obtain ⟨found, hfound, hexact, hsize⟩ := hcounts.reachable_eq_ok hsole hroots hrefs
  refine ⟨?_, liveCount_eq_ok_iff.2 ⟨⟨found, hfound, hsize⟩, rfl⟩, fun roots hsame => ?_⟩
  · exact ⟨found, reachable_eq_ok_iff.2 ⟨hfound, rfl⟩, hexact, nodup_found hexact, mem_found_iff hexact⟩
  · have hother : (m.store.withRoots h roots).Counts := hcounts.updateHeap h fun _ => rfl
    have hmade : ((m.store.withRoots h roots).heap h).created = (m.store.withRoots h roots).cells.size :=
      (field_updateHeap (f := fun x => { x with roots := roots }) (fun _ => rfl) m.store h h).trans hsole
    obtain ⟨found, hfound, -, hsize⟩ := hother.reachable_eq_ok hmade
      (fun v hv => hroots v ((mem_roots_withRoots hsame v).1 hv)) hrefs
    simp only [keepsAlive_withRoots hsame] at hsize
    exact liveCount_eq_ok_iff.2 ⟨⟨found, hfound, hsize⟩, rfl⟩

open Store Run in
theorem reachable_exact_running :
    let p : Program := [("f", ⟨.apply (.cell .force) [.argument 1], false⟩)]
    let e : Expr := .apply (.value .seq) [.apply (.heap .openNew) [],
      .assign "c" (.apply (.cell .suspend) [.constant (.str "f"), .constant .null, .constant .null]),
      .assign "d" (.apply (.cell .fix) [.constant (.str "f"), .lookup "c"]),
      .apply (.heap .root) [.constant (.str "d"), .lookup "d"],
      .apply (.heap .root) [.constant (.str "c"), .lookup "c"], .apply (.cell .force) [.lookup "d"]]
    let s := finalStore (e.eval p (p.runAt 1) [] {})
    let roots := (s.heap 0).roots
    (s.state 1).phase = .inProgress ∧ (s.heap 0).created = s.cells.size ∧ OnlyCells (roots.map (·.2)) ∧
      (∀ c, OnlyCells (s.refs c)) ∧ (∃ found, reachable 0 s = .ok found s) ∧
      liveCount 0 (s.withRoots 0 roots.reverse) = .ok {c | s.KeepsAlive 0 c}.ncard (s.withRoots 0 roots.reverse) := by
  intro p e s roots
  obtain ⟨follows, moments⟩ := reachable_exact p
  obtain ⟨k, hk⟩ := follows 1 [] e {} []
  have hroots : OnlyCells (roots.map (·.2)) := onlyCells_map [1, 0]
  have hrefs : ∀ c, OnlyCells (s.refs c)
    | 0 => onlyCells_map []
    | 1 => onlyCells_map [1, 0]
    | c + 2 => by
      rw [refs_of_state (s.state_of_size_le (Nat.le_add_left 2 c))]
      exact onlyCells_map []
  obtain ⟨⟨found, hfound, -⟩, -, hcount⟩ := moments _ hk 0 rfl hroots hrefs
  refine ⟨rfl, rfl, hroots, hrefs, ⟨found, hfound⟩, hcount roots.reverse fun v => ?_⟩
  rw [List.map_reverse, List.mem_reverse]

end Retention
