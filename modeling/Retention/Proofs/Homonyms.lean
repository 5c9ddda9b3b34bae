import Retention.Proofs.Conservation
/-!
# Homonyms — cells of several heaps with one address

An address is given once by each heap, so cells of different heaps may have the same.  The search for live cells tells
cells apart by their addresses only.  Among several that have one address it visits the first that it meets; the others,
and what only they lead to, are not found.

So the live count of a heap is at most the number of different addresses among the cells that the heap keeps alive, and
it is the number of these cells where their addresses are all different.  Then a collection, too, drops none of them.
This is so wherever all of them were registered in one heap (`Store.Balanced.injOn_address`).
-/
namespace Retention

namespace Store
variable {s : Store} {h : HeapId}

theorem walk_visit {c : CellId} (hc : c < s.cells.size) {found : Found} (hnew : found.contains (s.address c) = false)
    (stack : List Value) :
    s.walk found (.cell c :: stack) = s.walk (found.insert (s.address c) c) ((s.refs c).reverse ++ stack) := by
  have hcell := Array.getElem?_eq_getElem hc
  have haddress := address_of_cell hcell
  have hrefs := refs_of_cell hcell
  rw [walk]
  split
  · simp_all
  · rename_i cell heq
    cases hcell.symm.trans heq
    rw [dif_neg (by rw [← haddress, hnew]; exact Bool.false_ne_true), haddress, hrefs]

/-- Of two cells with one address, only the first that is met is visited. -/
theorem walk_pass {c : CellId} (hc : c < s.cells.size) {found : Found} (hmet : found.contains (s.address c) = true)
    (stack : List Value) : s.walk found (.cell c :: stack) = s.walk found stack := by
  have hcell := Array.getElem?_eq_getElem hc
  have haddress := address_of_cell hcell
  rw [walk]
  split
  · rfl
  · rename_i cell heq
    cases hcell.symm.trans heq
    rw [dif_pos (haddress ▸ hmet)]

theorem finite_keepsAlive (s : Store) (h : HeapId) : {c | s.KeepsAlive h c}.Finite :=
  (Set.finite_lt_nat s.cells.size).subset fun _ hc => hc.1

/-- **A search that comes to a result finds no more cells than there are addresses among those that are kept alive.** -/
theorem size_le_of_reachable {found : Found} (hfound : s.reachable h = .ok found) :
    found.size ≤ (s.address '' {c | s.KeepsAlive h c}).ncard := by
  have hwalk : s.walk {} ((s.heap h).roots.map (·.2)).reverse = .ok found := hfound
  have hsound := walk_sound ((s.heap h).roots.map (·.2)) {} _ (fun a c hc => by simp at hc)
    (fun c hc => .root (List.mem_reverse.1 hc)) hwalk
  have hsub : (found.keys.toFinset : Set Nat) ⊆ s.address '' {c | s.KeepsAlive h c} := fun a ha => by
    rw [List.coe_toFinset] at ha
    have hmem := Std.TreeMap.mem_keys.1 ha
    rw [Std.TreeMap.mem_iff_isSome_getElem?, Option.isSome_iff_exists] at hmem
    obtain ⟨c, hc⟩ := hmem
    obtain ⟨hlive, haddress⟩ := hsound a c hc
    exact ⟨c, live_iff_keepsAlive.1 hlive, haddress⟩
  calc found.size = found.keys.toFinset.card := by
        rw [List.toFinset_card_of_nodup Std.TreeMap.nodup_keys, Std.TreeMap.length_keys]
    _ = (found.keys.toFinset : Set Nat).ncard := (Set.ncard_coe_finset _).symm
    _ ≤ _ := Set.ncard_le_ncard hsub ((s.finite_keepsAlive h).image _)

/-- Where the addresses of what is kept alive are all different, the search finds each cell of it. -/
theorem reachable_of_injOn (hapart : Set.InjOn s.address {c | s.KeepsAlive h c})
    (hroots : OnlyCells ((s.heap h).roots.map (·.2))) (hrefs : ∀ c, s.KeepsAlive h c → OnlyCells (s.refs c)) :
    ∃ found, s.reachable h = .ok found ∧ (∀ a c, found[a]? = some c ↔ s.KeepsAlive h c ∧ s.address c = a) ∧
      found.size = {c | s.KeepsAlive h c}.ncard := by
  have hs : s.Searchable ((s.heap h).roots.map (·.2)) := by
    refine ⟨hroots, fun c hc => ?_, fun c d hc hd => hapart (live_iff_keepsAlive.1 hc) (live_iff_keepsAlive.1 hd)⟩
    rcases Nat.lt_or_ge c s.cells.size with hlt | hge
    · exact hrefs c (live_iff_keepsAlive.1 ⟨hc, hlt⟩)
    · rw [refs_of_state (state_of_size_le hge)]
      exact fun v hv => (List.not_mem_nil hv).elim
  obtain ⟨found, hfound, hexact⟩ := walk_eq_ok hs _ fun v => List.mem_reverse
  simp only [live_iff_keepsAlive] at hexact
  exact ⟨found, hfound, hexact, size_found hexact⟩

/-- **Cells of one heap have different addresses.** -/
theorem Balanced.injOn_address (hs : s.Balanced) (g : HeapId) : Set.InjOn s.address {c | s.home? c = some g} := by
  intro c hc d hd heq
  have hmem : ∀ b, s.home? b = some g → b ∈ s.registered g := fun b hb => by
    refine List.mem_filter.2 ⟨List.mem_range.2 (Nat.lt_of_not_le fun hle => ?_), beq_iff_eq.2 hb⟩
    rw [home?, Array.getElem?_eq_none hle] at hb
    cases hb
  have hnodup : ((s.registered g).map s.address).Nodup := by
    rw [hs.addresses]
    exact List.nodup_range'
  exact List.inj_on_of_nodup_map hnodup (hmem c hc) (hmem d hd) heq

/-- A collection leaves in a heap's table the cells whose addresses were found. -/
theorem mem_table_keepOnly (found : Found) (c : CellId) :
    c ∈ ((s.keepOnly h found).heap h).table ↔ c ∈ (s.heap h).table ∧ found.contains (s.address c) = true := by
  by_cases hvalid : h < s.heaps.size
  · rw [keepOnly, heap_updateHeap hvalid]
    exact Array.mem_filter
  · have hsize : s.heaps.size ≤ h := Nat.not_lt.1 hvalid
    rw [heap, heap, Array.getElem?_eq_none hsize,
      Array.getElem?_eq_none (by rw [keepOnly, size_updateHeap]; exact hsize)]
    exact ⟨fun hc => (Array.not_mem_empty c hc).elim, fun hc => (Array.not_mem_empty c hc.1).elim⟩

/-- A collection keeps what the search finds. -/
theorem collect_eq_ok {found : Found} (hfound : s.reachable h = .ok found) :
    ∃ dead e, Run.collect h s = .ok dead e ∧
      ∀ c, c ∈ (e.heap h).table ↔ c ∈ (s.heap h).table ∧ found.contains (s.address c) = true := by
  refine ⟨_, _, by unfold Run.collect; rw [Run.bind_apply, Run.reachable_eq_ok_iff.2 ⟨hfound, rfl⟩]; rfl, fun c => ?_⟩
  exact mem_table_keepOnly found c

end Store

open Store (OnlyCells) in
/-- **The search is sound, and exact where the addresses of what is kept alive are all different.**  Where nothing but
cells is referred to, the live count of a heap is at most the number of addresses among the cells that it keeps alive.
If no two of these cells have the same address, it is their number, and a collection drops none of them from the table.
So it is if all of them were registered in one heap. -/
theorem search_with_homonyms (s : Store) (h : HeapId) (hroots : OnlyCells ((s.heap h).roots.map (·.2)))
    (hrefs : ∀ c, OnlyCells (s.refs c)) :
    (∃ live, Run.liveCount h s = .ok live s ∧ live ≤ (s.address '' {c | s.KeepsAlive h c}).ncard) ∧
    (Set.InjOn s.address {c | s.KeepsAlive h c} →
      Run.liveCount h s = .ok {c | s.KeepsAlive h c}.ncard s ∧
      ∃ dead e, Run.collect h s = .ok dead e ∧ ∀ c ∈ (s.heap h).table, s.KeepsAlive h c → c ∈ (e.heap h).table) ∧
    (s.Attained → ∀ g, (∀ c, s.KeepsAlive h c → s.home? c = some g) →
      Set.InjOn s.address {c | s.KeepsAlive h c}) := by
  refine ⟨?_, fun hapart => ?_, ?_⟩
  · obtain ⟨found, hfound⟩ : ∃ found, s.reachable h = .ok found :=
      s.walk_of_cells hrefs {} _ fun v hv => hroots v (List.mem_reverse.1 hv)
    exact ⟨found.size, Run.liveCount_eq_ok_iff.2 ⟨⟨found, hfound, rfl⟩, rfl⟩, Store.size_le_of_reachable hfound⟩
  · obtain ⟨found, hfound, hexact, hsize⟩ := Store.reachable_of_injOn hapart hroots fun c _ => hrefs c
    obtain ⟨dead, e, hcollect, htable⟩ := Store.collect_eq_ok hfound
    refine ⟨Run.liveCount_eq_ok_iff.2 ⟨⟨found, hfound, hsize⟩, rfl⟩, dead, e, hcollect, fun c hc halive => ?_⟩
    refine (htable c).2 ⟨hc, ?_⟩
    rw [Std.TreeMap.contains_eq_isSome_getElem?, (hexact _ c).2 ⟨halive, rfl⟩]
    rfl
  · rintro ⟨k, hk⟩ g hg
    exact (hk.balanced.store.injOn_address g).mono hg

/-! ## A hidden list -/

namespace Session

/-- Makes a list in one heap and roots it there, then roots in the same heap a cell of another heap that has the list's
address. -/
def homonyms : List Expr := [
  .assign "g" (.apply (.heap .openNew) []), .assign "h" (.apply (.heap .openNew) []),
  .assign "d" (.apply (.cell .ready) [.constant (.int 3)]),
  .assign "b" (.apply (.cell .ready) [.apply (.value .list) [.lookup "d"]]),
  .apply (.heap .root) [.constant (.str "b"), .lookup "b"],
  .apply (.heap .enter) [.lookup "g"], .apply (.cell .ready) [.constant (.int 0)],
  .assign "a" (.apply (.cell .ready) [.constant (.int 1)]), .apply (.heap .exit) [],
  .apply (.heap .root) [.constant (.str "a"), .lookup "a"]]

theorem plain_homonyms : ∀ e ∈ homonyms, e.Plain := by
  simp only [homonyms, List.forall_mem_cons, Expr.Plain, Expr.AllPlain]
  grind

/-- The store that its first steps lead to, counted from 0. -/
def homonymsAfter (n : Nat) : Store := ((Session.run [] homonyms)[n]?.map (·.store)).getD {}

theorem attained_homonymsAfter (n : Nat) : (homonymsAfter n).Attained := by
  unfold homonymsAfter
  cases ho : (Session.run [] homonyms)[n]? with
  | none => exact ⟨[], .refl⟩
  | some o =>
    refine attained_of_mem (Program.plain_of_bodies ?_) plain_homonyms (List.mem_of_getElem? ho)
    exact fun x hx => absurd hx List.not_mem_nil

theorem onlyCells_refs_homonymsAfter {n : Nat} (hn : n = 4 ∨ n = 9) (c : CellId) :
    Store.OnlyCells ((homonymsAfter n).refs c) := by
  have hsize : (homonymsAfter n).cells.size ≤ 4 := by rcases hn with rfl | rfl <;> decide +kernel
  have hcells : ∀ c < 4, Store.OnlyCells ((homonymsAfter n).refs c) := by rcases hn with rfl | rfl <;> decide +kernel
  rcases Nat.lt_or_ge c 4 with hlt | hge
  · exact hcells c hlt
  · rw [Store.refs_of_state (Store.state_of_size_le (Nat.le_trans hsize hge))]
    exact Store.onlyCells_map []

end Session

open Session in
/-- The list is counted when it is rooted, and once the cell of the other heap hides it there is room for two cells. -/
theorem search_with_homonyms_hidden :
    Run.liveCount 1 (homonymsAfter 4) = .ok {c | (homonymsAfter 4).KeepsAlive 1 c}.ncard (homonymsAfter 4) ∧
    ∃ live, Run.liveCount 1 (homonymsAfter 9) = .ok live (homonymsAfter 9) ∧ live ≤ 2 := by
  obtain ⟨-, exact, apart⟩ := search_with_homonyms (homonymsAfter 4) 1 (Store.onlyCells_map [1])
    (onlyCells_refs_homonymsAfter (.inl rfl))
  obtain ⟨⟨live, hlive, hle⟩, -⟩ := search_with_homonyms (homonymsAfter 9) 1 (Store.onlyCells_map [1, 3])
    (onlyCells_refs_homonymsAfter (.inr rfl))
  have hhome : ∀ c < 2, (homonymsAfter 4).home? c = some 1 := by decide +kernel
  have haddress : ∀ c < 4, (homonymsAfter 9).address c ∈ ({1, 2} : Finset Nat) := by decide +kernel
  refine ⟨(exact (apart (attained_homonymsAfter 4) 1 fun c hc => hhome c hc.1)).1, live, hlive, hle.trans ?_⟩
  calc _ ≤ (({1, 2} : Finset Nat) : Set Nat).ncard :=
        Set.ncard_le_ncard (Set.image_subset_iff.2 fun c hc => haddress c hc.1) (Finset.finite_toSet _)
    _ = 2 := Set.ncard_coe_finset _

open Session in
/-- **A cell that is kept alive goes uncounted and is collected** where a cell of another heap hides what leads to it. -/
theorem hidden_list_is_lost :
    let s := homonymsAfter 9
    s.Attained ∧ Store.OnlyCells ((s.heap 1).roots.map (·.2)) ∧ (∀ c, Store.OnlyCells (s.refs c)) ∧
      {c | s.KeepsAlive 1 c} = {0, 1, 3} ∧ Run.liveCount 1 s = .ok 1 s ∧
      0 ∈ (s.heap 1).table ∧ ∃ dead e, Run.collect 1 s = .ok dead e ∧ 0 ∉ (e.heap 1).table := by
  intro s
  have hroots : (s.heap 1).roots.map (·.2) = [1, 3].map .cell := rfl
  have hlt : ∀ c < 4, c < s.cells.size := by decide +kernel
  have hfound : s.reachable 1 = .ok (({} : Found).insert 2 3) := by
    have htop : s.address 3 = 2 := rfl
    have hhidden : s.address 1 = 2 := rfl
    have hrefs : s.refs 3 = [] := rfl
    calc s.reachable 1 = s.walk {} [.cell 3, .cell 1] := rfl
      _ = s.walk (({} : Found).insert 2 3) [.cell 1] := by
        rw [Store.walk_visit (hlt 3 (by decide)) rfl, htop, hrefs]
        rfl
      -- the cell of the other heap stands under the address of the list, so the list is passed over
      _ = s.walk (({} : Found).insert 2 3) [] := Store.walk_pass (hlt 1 (by decide)) (by simp [hhidden]) _
      _ = .ok (({} : Found).insert 2 3) := by rw [Store.walk]
  have halive : ∀ c, s.KeepsAlive 1 c ↔ c ∈ ({0, 1, 3} : Set CellId) := fun c => by
    rw [← Store.live_iff_keepsAlive, hroots]
    constructor
    · rintro ⟨hkept, -⟩
      refine hkept.induction (P := fun c => c ∈ ({0, 1, 3} : Set CellId)) (fun c hc => ?_) (fun b d hb hd => ?_)
      · obtain rfl | rfl : c = 1 ∨ c = 3 := by simpa using hc
        all_goals simp
      · obtain rfl | rfl | rfl := hb
        · cases List.not_mem_nil hd
        · obtain rfl : d = 0 := by simpa using List.mem_singleton.1 (show Value.cell d ∈ [.cell 0] from hd)
          simp
        · cases List.not_mem_nil hd
    · rintro (rfl | rfl | rfl)
      · exact ⟨(Store.Kept.root (c := 1) (by simp)).step List.mem_cons_self, hlt 0 (by decide)⟩
      · exact ⟨.root (by simp), hlt 1 (by decide)⟩
      · exact ⟨.root (by simp), hlt 3 (by decide)⟩
  obtain ⟨dead, e, hcollect, htable⟩ := Store.collect_eq_ok hfound
  refine ⟨attained_homonymsAfter 9, Store.onlyCells_map [1, 3], onlyCells_refs_homonymsAfter (.inr rfl), Set.ext halive,
    Run.liveCount_eq_ok_iff.2 ⟨⟨_, hfound, rfl⟩, rfl⟩, by decide +kernel, dead, e, hcollect, fun h => ?_⟩
  have haddress : s.address 0 = 1 := rfl
  have hmet := ((htable 0).1 h).2
  rw [haddress] at hmet
  cases hmet

end Retention
