import Mathlib.Data.List.Nodup
import Retention.Reachable
/-!
# Search — the search for live cells is exact

A search comes to a result wherever nothing but cells is referred to (`Store.walk_of_cells`).  `Store.Kept` is what
values lead to, and nothing else is found (`Store.walk_sound`).  Where they lead to nothing but cells, and those of them
that are in the store have different addresses (`Store.Searchable`), the search finds each of these cells under its
address (`Store.walk_eq_ok`).
The invariant of the search (`Store.Searching`): what was found is kept; what a found cell refers to was found or waits
on the stack, and so do the values that the search began with.  A number that no cell of the store has leads nowhere,
and is passed over.

`Store.size_of_listing` counts: the search finds as many cells as stand in any list of them without repetition.
-/
namespace Retention
namespace Store
variable {s : Store} {roots : List Value}

/-- The values are cells. -/
def OnlyCells (vs : List Value) : Prop := ∀ v ∈ vs, ∃ c, v = .cell c

theorem onlyCells_map (cs : List CellId) : OnlyCells (cs.map .cell) := by
  intro v hv
  obtain ⟨c, -, rfl⟩ := List.mem_map.1 hv
  exact ⟨c, rfl⟩

theorem onlyCells_pair (x y : CellId) : OnlyCells [.cell x, .cell y] := onlyCells_map [x, y]

/-- Whether the values are cells. -/
def onlyCells? (vs : List Value) : Bool := vs.all fun
  | .cell _ => true
  | _ => false

theorem onlyCells?_iff {vs : List Value} : onlyCells? vs = true ↔ OnlyCells vs := by
  unfold onlyCells? OnlyCells
  rw [List.all_eq_true]
  refine forall₂_congr fun v _ => ?_
  cases v <;> simp

instance : DecidablePred OnlyCells := fun _ => decidable_of_iff _ onlyCells?_iff

/-- The values lead to the cell. -/
def Kept (s : Store) (roots : List Value) (c : CellId) : Prop := ∃ r, .cell r ∈ roots ∧ s.Path r c

theorem Path.snoc {c d e : CellId} (h : Path s c d) (he : .cell e ∈ s.refs d) : Path s c e := by
  induction h with
  | refl d => exact .step he (.refl e)
  | step hd _ ih => exact .step hd (ih he)

theorem Kept.root {c : CellId} (h : .cell c ∈ roots) : s.Kept roots c := ⟨c, h, .refl c⟩

theorem Kept.step {c d : CellId} (h : s.Kept roots c) (hd : .cell d ∈ s.refs c) : s.Kept roots d := by
  obtain ⟨r, hr, hc⟩ := h
  exact ⟨r, hr, hc.snoc hd⟩

/-- What is closed under references and holds of the roots holds of all that they lead to. -/
theorem Kept.induction {P : CellId → Prop} (hroots : ∀ c, .cell c ∈ roots → P c)
    (hrefs : ∀ c d, P c → .cell d ∈ s.refs c → P d) {c : CellId} (h : s.Kept roots c) : P c := by
  obtain ⟨r, hr, hpath⟩ := h
  have hP := hroots r hr
  clear hr
  induction hpath with
  | refl => exact hP
  | step hd _ ih => exact ih (hrefs _ _ hP hd)

theorem address_of_cell {c : CellId} {x : Cell} (h : s.cells[c]? = some x) : s.address c = x.address := by
  rw [address, h]
  rfl

theorem refs_of_cell {c : CellId} {x : Cell} (h : s.cells[c]? = some x) : s.refs c = x.state.refs := by
  rw [refs, state, h]
  rfl

theorem walk_of_cells (s : Store) (hrefs : ∀ c, OnlyCells (s.refs c)) (found : Found) (stack : List Value)
    (hstack : OnlyCells stack) : ∃ live, s.walk found stack = .ok live := by
  fun_induction s.walk found stack with
  | case1 found => exact ⟨found, rfl⟩
  | case2 found c stack hnone ih => exact ih fun v hv => hstack v (List.mem_cons_of_mem _ hv)
  | case3 found c stack cell hcell hf ih => exact ih fun v hv => hstack v (List.mem_cons_of_mem _ hv)
  | case4 found c stack cell hcell hf ih =>
    refine ih fun v hv => ?_
    rcases List.mem_append.1 hv with hv | hv
    · exact hrefs c v (refs_of_cell hcell ▸ List.mem_reverse.1 hv)
    · exact hstack v (List.mem_cons_of_mem _ hv)
  | case5 found v stack hv =>
    obtain ⟨c, rfl⟩ := hstack v List.mem_cons_self
    exact absurd rfl (hv c)

/-- The cells of the store that the values lead to. -/
def Live (s : Store) (roots : List Value) (c : CellId) : Prop := s.Kept roots c ∧ c < s.cells.size

theorem lt_of_mem_refs {c : CellId} {v : Value} (h : v ∈ s.refs c) : c < s.cells.size := by
  refine Nat.lt_of_not_le fun hc => ?_
  rw [refs_of_state (state_of_size_le hc)] at h
  exact List.not_mem_nil h

/-- What a search finds is kept, and stands under its address. -/
theorem walk_sound (roots : List Value) (found : Found) (stack : List Value)
    (hfound : ∀ a c, found[a]? = some c → s.Live roots c ∧ s.address c = a)
    (hstack : ∀ c, .cell c ∈ stack → s.Kept roots c) {live : Found} (hlive : s.walk found stack = .ok live) :
    ∀ a c, live[a]? = some c → s.Live roots c ∧ s.address c = a := by
  fun_induction s.walk found stack with
  | case1 found =>
    cases hlive
    exact hfound
  | case2 found c stack hnone ih => exact ih hfound (fun d hd => hstack d (List.mem_cons_of_mem _ hd)) hlive
  | case3 found c stack cell hcell hf ih => exact ih hfound (fun d hd => hstack d (List.mem_cons_of_mem _ hd)) hlive
  | case4 found c stack cell hcell hf ih =>
    have haddress := address_of_cell hcell
    have hrefs := refs_of_cell hcell
    have hkept := hstack c List.mem_cons_self
    refine ih (fun a d hd => ?_) (fun d hd => ?_) hlive
    · rw [Std.TreeMap.getElem?_insert] at hd
      split at hd
      · cases hd
        exact ⟨⟨hkept, (Array.getElem?_eq_some_iff.1 hcell).1⟩, haddress.trans (Nat.compare_eq_eq.1 ‹_›)⟩
      · exact hfound a d hd
    · rcases List.mem_append.1 hd with hd | hd
      · exact hkept.step (hrefs ▸ List.mem_reverse.1 hd)
      · exact hstack d (List.mem_cons_of_mem _ hd)
  | case5 found v stack hv => cases hlive

/-- All that the values lead to are cells, and those of the store are told apart by their addresses. -/
structure Searchable (s : Store) (roots : List Value) : Prop where
  cells : OnlyCells roots
  refs : ∀ c, s.Kept roots c → OnlyCells (s.refs c)
  apart : ∀ c d, s.Live roots c → s.Live roots d → s.address c = s.address d → c = d

/-- What holds all through a search. -/
structure Searching (s : Store) (roots : List Value) (found : Found) (stack : List Value) : Prop where
  sound : ∀ a c, found[a]? = some c → s.Live roots c ∧ s.address c = a
  waiting : ∀ v ∈ stack, ∃ c, v = .cell c ∧ s.Kept roots c
  begun : ∀ c < s.cells.size, .cell c ∈ roots → found.contains (s.address c) = true ∨ .cell c ∈ stack
  closed : ∀ c, found[s.address c]? = some c → ∀ d < s.cells.size, .cell d ∈ s.refs c →
    found.contains (s.address d) = true ∨ .cell d ∈ stack

theorem Searching.start (hs : s.Searchable roots) (stack : List Value) (h : ∀ v, v ∈ stack ↔ v ∈ roots) :
    s.Searching roots {} stack where
  sound a c hc := by simp at hc
  waiting v hv := by
    obtain ⟨c, rfl⟩ := hs.cells v ((h v).1 hv)
    exact ⟨c, rfl, .root ((h _).1 hv)⟩
  begun c _ hc := .inr ((h _).2 hc)
  closed c hc := by simp at hc

/-- A cell whose address was found was itself found. -/
theorem Searching.getElem?_eq {found : Found} {stack : List Value} (hs : s.Searchable roots)
    (hw : s.Searching roots found stack) {c : CellId} (hc : s.Live roots c)
    (hf : found.contains (s.address c) = true) : found[s.address c]? = some c := by
  rw [Std.TreeMap.contains_eq_isSome_getElem?, Option.isSome_iff_exists] at hf
  obtain ⟨d, hd⟩ := hf
  obtain ⟨hlive, haddress⟩ := hw.sound _ d hd
  rw [hd, hs.apart d c hlive hc haddress]

/-- The top of the stack was found before, or is no cell of the store. -/
theorem Searching.skip {found : Found} {c : CellId} {stack : List Value}
    (hw : s.Searching roots found (.cell c :: stack))
    (hc : c < s.cells.size → found.contains (s.address c) = true) : s.Searching roots found stack := by
  have hkeep : ∀ d < s.cells.size, found.contains (s.address d) = true ∨ .cell d ∈ .cell c :: stack →
      found.contains (s.address d) = true ∨ .cell d ∈ stack := by
    rintro d hd (hf | hmem)
    · exact .inl hf
    · rcases List.mem_cons.1 hmem with heq | hmem
      · cases heq; exact .inl (hc hd)
      · exact .inr hmem
  exact ⟨hw.sound, fun v hv => hw.waiting v (List.mem_cons_of_mem _ hv), fun d hd hr => hkeep d hd (hw.begun d hd hr),
    fun b hb d hd hr => hkeep d hd (hw.closed b hb d hd hr)⟩

/-- The top of the stack is visited. -/
theorem Searching.visit {found : Found} {c : CellId} {stack : List Value} (hs : s.Searchable roots)
    (hw : s.Searching roots found (.cell c :: stack)) (hlt : c < s.cells.size) :
    s.Searching roots (found.insert (s.address c) c) ((s.refs c).reverse ++ stack) := by
  obtain ⟨c', hcell, hc⟩ := hw.waiting (.cell c) List.mem_cons_self
  cases hcell
  have hkeep : ∀ d, found.contains (s.address d) = true ∨ .cell d ∈ .cell c :: stack →
      (found.insert (s.address c) c).contains (s.address d) = true ∨ .cell d ∈ (s.refs c).reverse ++ stack := by
    rintro d (hf | hmem)
    · exact .inl (by rw [Std.TreeMap.contains_insert, hf, Bool.or_true])
    · rcases List.mem_cons.1 hmem with heq | hmem
      · cases heq; exact .inl Std.TreeMap.contains_insert_self
      · exact .inr (List.mem_append_right _ hmem)
  refine ⟨fun a d hd => ?_, fun v hv => ?_, fun d hd hr => hkeep d (hw.begun d hd hr), fun b hb d hd hr => ?_⟩
  · rw [Std.TreeMap.getElem?_insert] at hd
    split at hd
    · cases hd
      exact ⟨⟨hc, hlt⟩, Nat.compare_eq_eq.1 ‹_›⟩
    · exact hw.sound a d hd
  · rcases List.mem_append.1 hv with hv | hv
    · rw [List.mem_reverse] at hv
      obtain ⟨d, rfl⟩ := hs.refs c hc v hv
      exact ⟨d, rfl, hc.step hv⟩
    · exact hw.waiting v (List.mem_cons_of_mem _ hv)
  · rw [Std.TreeMap.getElem?_insert] at hb
    split at hb
    · cases hb
      exact .inr (List.mem_append_left _ (List.mem_reverse.2 hr))
    · exact hkeep d (hw.closed b hb d hd hr)

theorem walk_searching (hs : s.Searchable roots) (found : Found) (stack : List Value)
    (hw : s.Searching roots found stack) : ∃ live, s.walk found stack = .ok live ∧ s.Searching roots live [] := by
  fun_induction s.walk found stack with
  | case1 found => exact ⟨found, rfl, hw⟩
  | case2 found c stack hnone ih =>
    exact ih (hw.skip fun hlt => absurd hlt (Nat.not_lt.2 (Array.getElem?_eq_none_iff.1 hnone)))
  | case3 found c stack cell hcell hf ih =>
    refine ih (hw.skip fun _ => ?_)
    rw [address_of_cell hcell]
    exact hf
  | case4 found c stack cell hcell hf ih =>
    exact ih (address_of_cell hcell ▸ refs_of_cell hcell ▸ hw.visit hs (Array.getElem?_eq_some_iff.1 hcell).1)
  | case5 found v stack hv =>
    obtain ⟨c, rfl, -⟩ := hw.waiting v List.mem_cons_self
    exact absurd rfl (hv c)

/-- **The search finds exactly the cells that the roots lead to, each under its address.** -/
theorem walk_eq_ok (hs : s.Searchable roots) (stack : List Value) (h : ∀ v, v ∈ stack ↔ v ∈ roots) :
    ∃ live, s.walk {} stack = .ok live ∧ ∀ a c, live[a]? = some c ↔ s.Live roots c ∧ s.address c = a := by
  obtain ⟨live, hlive, hw⟩ := walk_searching hs {} stack (.start hs stack h)
  refine ⟨live, hlive, fun a c => ⟨hw.sound a c, ?_⟩⟩
  rintro ⟨hc, rfl⟩
  -- by then nothing waits on the stack, so what was found is closed under references
  have hmem : s.Kept roots c ∧ (c < s.cells.size → live.contains (s.address c) = true) := by
    refine Kept.induction (P := fun d => s.Kept roots d ∧ (d < s.cells.size → live.contains (s.address d) = true))
      (fun d hd => ?_) (fun b d hb hd => ?_) hc.1
    · exact ⟨.root hd, fun hlt => (hw.begun d hlt hd).resolve_right List.not_mem_nil⟩
    · have hb' := lt_of_mem_refs hd
      have hfound := hw.getElem?_eq hs ⟨hb.1, hb'⟩ (hb.2 hb')
      exact ⟨hb.1.step hd, fun hlt => (hw.closed b hfound d hlt hd).resolve_right List.not_mem_nil⟩
  exact hw.getElem?_eq hs hc (hmem.2 hc.2)

/-- **A list of all that is live, without repetition, is as long as what the search finds.** -/
theorem size_of_listing (hs : s.Searchable roots) {live : Found}
    (hlive : ∀ a c, live[a]? = some c ↔ s.Live roots c ∧ s.address c = a) {cells : List CellId} (hd : cells.Nodup)
    (hmem : ∀ c, c ∈ cells ↔ s.Live roots c) : live.size = cells.length := by
  have haddresses : (cells.map s.address).Nodup := by
    refine (List.nodup_map_iff_inj_on hd).2 fun c hc d hd heq => ?_
    exact hs.apart c d ((hmem c).1 hc) ((hmem d).1 hd) heq
  have hperm : live.keys.Perm (cells.map s.address) := by
    rw [List.perm_ext_iff_of_nodup Std.TreeMap.nodup_keys haddresses]
    intro a
    rw [Std.TreeMap.mem_keys, Std.TreeMap.mem_iff_isSome_getElem?, Option.isSome_iff_exists, List.mem_map]
    constructor
    · rintro ⟨c, hc⟩
      obtain ⟨hl, haddress⟩ := (hlive a c).1 hc
      exact ⟨c, (hmem c).2 hl, haddress⟩
    · rintro ⟨c, hc, haddress⟩
      exact ⟨c, (hlive a c).2 ⟨(hmem c).1 hc, haddress⟩⟩
  rw [← Std.TreeMap.length_keys, hperm.length_eq, List.length_map]

/-- **What a heap keeps alive can be counted by a list of it**: a list of cells without repetition that has the roots,
is closed under references, and holds nothing that the roots do not lead to. -/
theorem reachable_of_listing {h : HeapId} (cells : List CellId) (hd : cells.Nodup)
    (hroots : ∀ v ∈ (s.heap h).roots.map (·.2), ∃ c ∈ cells, v = .cell c)
    (hrefs : ∀ c ∈ cells, ∀ v ∈ s.refs c, ∃ d ∈ cells, v = .cell d) (hvalid : ∀ c ∈ cells, c < s.cells.size)
    (hapart : ∀ c ∈ cells, ∀ d ∈ cells, s.address c = s.address d → c = d)
    (hkept : ∀ c ∈ cells, s.Kept ((s.heap h).roots.map (·.2)) c) :
    ∃ found, s.reachable h = .ok found ∧ found.size = cells.length := by
  have hlisted : ∀ c, s.Kept ((s.heap h).roots.map (·.2)) c → c ∈ cells := fun c hc => by
    refine Kept.induction (P := fun d => d ∈ cells) (fun d hd => ?_) (fun b d hb hd => ?_) hc
    · obtain ⟨d', hd', heq⟩ := hroots _ hd
      cases heq
      exact hd'
    · obtain ⟨d', hd', heq⟩ := hrefs b hb _ hd
      cases heq
      exact hd'
  have hs : s.Searchable ((s.heap h).roots.map (·.2)) := by
    refine ⟨fun v hv => ?_, fun c hc v hv => ?_, fun c d hc hd => ?_⟩
    · obtain ⟨c, -, rfl⟩ := hroots v hv
      exact ⟨c, rfl⟩
    · obtain ⟨d, -, rfl⟩ := hrefs c (hlisted c hc) v hv
      exact ⟨d, rfl⟩
    · exact hapart c (hlisted c hc.1) d (hlisted d hd.1)
  obtain ⟨found, hfound, hexact⟩ := walk_eq_ok hs _ fun v => List.mem_reverse
  refine ⟨found, hfound, size_of_listing hs hexact hd fun c => ⟨fun hc => ⟨hkept c hc, hvalid c hc⟩, fun hc => ?_⟩⟩
  exact hlisted c hc.1

end Store
end Retention
