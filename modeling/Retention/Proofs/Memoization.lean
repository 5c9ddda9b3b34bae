import Retention.Proofs.Following
/-!
# Memoization — the life of a cell

A cell that is made suspended goes through a prefix of suspended, in progress, evaluated or failed.  `Store.Lived` says
how far it has come and, for each phase, which turns the history holds for it: none before its thunk began, one that
begins the very thunk it was made over, and one that ends it with the value or the error the cell is left with.

`Moment.Sound` makes that an invariant of every moment.  What carries it is that a pending force owns its cell: the
cells of the pending forces are in progress and pairwise different, so only the end of the latest run can give a cell
its final state, and it does so once.
-/
namespace Retention

/-- The cell for which a turn was taken. -/
def Turn.owner : Turn → Option CellId
  | began owner _ _ => owner
  | returned owner _ => owner
  | raised owner _ => owner

/-- One step of a cell's life. -/
inductive CellState.Next : CellState → CellState → Prop
  | began (t : Thunk) : Next (.suspended t) (.inProgress t)
  | returned (t : Thunk) (v : Value) : Next (.inProgress t) (.evaluated v)
  | raised (t : Thunk) (e : FaultId) : Next (.inProgress t) (.failed (.fault e))

namespace Store

/-- The state a cell was made in. -/
def initial? (s : Store) (c : CellId) : Option CellState := s.cells[c]?.map (·.initial)

/-- The turns that were taken for a cell, earliest first. -/
def turnsOf (s : Store) (c : CellId) : List Turn := (s.history.filter fun x => x.owner == some c).reverse

/-- How far a cell that was made in the given state has come, by its turns and its state. -/
inductive Lived (s : Store) (c : CellId) : CellState → Prop
  | unrun {st : CellState} : s.turnsOf c = [] → s.state c = st → Lived s c st
  | running {t : Thunk} {h : HeapId} :
    s.turnsOf c = [.began (some c) (some h) t] → s.state c = .inProgress t → Lived s c (.suspended t)
  | evaluated {t : Thunk} {h : HeapId} {v : Value} :
    s.turnsOf c = [.began (some c) (some h) t, .returned (some c) v] → s.state c = .evaluated v →
    Lived s c (.suspended t)
  | failed {t : Thunk} {h : HeapId} {e : FaultId} :
    s.turnsOf c = [.began (some c) (some h) t, .raised (some c) e] → s.state c = .failed (.fault e) →
    Lived s c (.suspended t)

/-! ## What a change leaves alone -/

theorem turnsOf_of_history {s e : Store} (h : e.history = s.history) (c : CellId) : e.turnsOf c = s.turnsOf c := by
  unfold turnsOf; rw [h]

theorem turnsOf_recorded (s : Store) (x : Turn) (c : CellId) :
    (s.recorded x).turnsOf c = if x.owner = some c then s.turnsOf c ++ [x] else s.turnsOf c := by
  unfold turnsOf recorded
  rw [List.filter_cons]
  by_cases hx : x.owner = some c
  · simp [hx]
  · simp [hx]

theorem turnsOf_setState (s : Store) (c d : CellId) (st : CellState) : (s.setState c st).turnsOf d = s.turnsOf d := rfl

theorem initial?_setState (s : Store) (c d : CellId) (st : CellState) :
    (s.setState c st).initial? d = s.initial? d := by
  unfold setState initial?
  rw [Array.getElem?_modify]
  split
  · cases s.cells[d]? <;> rfl
  · rfl

theorem initial?_eq_some_of_lt {s : Store} {c : CellId} (h : c < s.cells.size) : ∃ st, s.initial? c = some st :=
  ⟨s.cells[c].initial, by unfold initial?; rw [Array.getElem?_eq_getElem h]; rfl⟩

theorem lt_of_initial? {s : Store} {c : CellId} {st : CellState} (h : s.initial? c = some st) : c < s.cells.size := by
  refine Nat.lt_of_not_le fun hc => ?_
  unfold initial? at h
  rw [Array.getElem?_eq_none hc] at h
  cases h

/-- **A change that runs no thunk leaves the history and every cell alone**; it may make one cell. -/
theorem Step.cells {s e : Store} (h : Step s e) :
    e.history = s.history ∧ (e.cells = s.cells ∨ ∃ x : Cell, x.state = x.initial ∧ e.cells = s.cells.push x) := by
  cases h with
  | newCell h st => exact ⟨rfl, .inr ⟨⟨h, _, st, st⟩, rfl, rfl⟩⟩
  | _ => exact ⟨rfl, .inl rfl⟩

theorem Step.initial? {s e : Store} (h : Step s e) {c : CellId} {st : CellState} (hc : s.initial? c = some st) :
    e.initial? c = some st := by
  have hlt := lt_of_initial? hc
  unfold Store.initial? at hc ⊢
  rcases h.cells.2 with hcells | ⟨x, -, hcells⟩
  · rw [hcells]; exact hc
  · rw [hcells, Array.getElem?_push_lt hlt, ← Array.getElem?_eq_getElem hlt]; exact hc

theorem Step.state {s e : Store} (h : Step s e) {c : CellId} (hc : c < s.cells.size) : e.state c = s.state c := by
  unfold Store.state
  rcases h.cells.2 with hcells | ⟨x, -, hcells⟩
  · rw [hcells]
  · rw [hcells, Array.getElem?_push_lt hc, Array.getElem?_eq_getElem hc]

/-- Among the cells there were, the one that a change may make is new and in the state it is made in. -/
theorem Step.initial?_inv {s e : Store} (h : Step s e) {c : CellId} {st : CellState} (hc : e.initial? c = some st) :
    s.initial? c = some st ∨ s.cells.size ≤ c ∧ e.state c = st := by
  unfold Store.initial? Store.state at *
  rcases h.cells.2 with hcells | ⟨x, hx, hcells⟩
  · rw [hcells] at hc; exact .inl hc
  · rw [hcells] at hc ⊢
    rcases Nat.lt_or_ge c s.cells.size with hlt | hge
    · rw [Array.getElem?_push_lt hlt, ← Array.getElem?_eq_getElem hlt] at hc
      exact .inl hc
    · refine .inr ⟨hge, ?_⟩
      rw [Array.getElem?_push] at hc ⊢
      split at hc
      · rw [if_pos ‹_›]
        cases hc
        exact hx
      · rw [Array.getElem?_eq_none hge] at hc
        cases hc

theorem Step.size_le {s e : Store} (h : Step s e) : s.cells.size ≤ e.cells.size := by
  rcases h.cells.2 with hcells | ⟨x, -, hcells⟩
  · exact Nat.le_of_eq (by rw [hcells])
  · rw [hcells, Array.size_push]; exact Nat.le_succ _

/-- What a turn of a cell's own does: it is noted, the cell gets a state, and every other cell stays as it was. -/
structure Moved (s e : Store) (c : CellId) (x : Turn) (st : CellState) : Prop where
  initial : ∀ d, e.initial? d = s.initial? d
  size : e.cells.size = s.cells.size
  turns : e.turnsOf c = s.turnsOf c ++ [x]
  state : e.state c = st
  turnsOther : ∀ d, d ≠ c → e.turnsOf d = s.turnsOf d
  stateOther : ∀ d, d ≠ c → e.state d = s.state d

theorem moved_setState_recorded {s : Store} {c : CellId} {x : Turn} {st : CellState} (hc : c < s.cells.size)
    (hx : x.owner = some c) : Moved s ((s.recorded x).setState c st) c x st where
  initial d := initial?_setState (s.recorded x) c d st
  size := size_setState (s.recorded x) c st
  turns := by rw [turnsOf_setState, turnsOf_recorded, if_pos hx]
  state := state_setState_self (s.recorded x) c st hc
  turnsOther d hd := by
    have hne : x.owner ≠ some d := fun h => hd (Option.some.inj (hx.symm.trans h)).symm
    rw [turnsOf_setState, turnsOf_recorded, if_neg hne]
  stateOther d hd := state_setState_of_ne (s.recorded x) st hd

theorem moved_began {s : Store} {c : CellId} (h : HeapId) (t : Thunk) (hc : c < s.cells.size) :
    Moved s (s.began c h t) c (.began (some c) (some h) t) (.inProgress t) := moved_setState_recorded hc rfl

theorem moved_finished {s : Store} {c : CellId} (h : HeapId) (v : Value) (hc : c < s.cells.size) :
    Moved s (s.finished c h v) c (.returned (some c) v) (.evaluated v) :=
  have hm : Moved s ((s.recorded (.returned (some c) v)).setState c (.evaluated v)) c (.returned (some c) v)
      (.evaluated v) :=
    moved_setState_recorded hc rfl
  ⟨hm.initial, hm.size, hm.turns, hm.state, hm.turnsOther, hm.stateOther⟩

theorem moved_aborted {s : Store} {c : CellId} (e : FaultId) (hc : c < s.cells.size) :
    Moved s (s.aborted c e) c (.raised (some c) e) (.failed (.fault e)) := moved_setState_recorded hc rfl

theorem Lived.congr {s e : Store} {c : CellId} {st : CellState} (h : s.Lived c st) (ht : e.turnsOf c = s.turnsOf c)
    (hs : e.state c = s.state c) : e.Lived c st := by
  cases h with
  | unrun hturns hstate => exact .unrun (ht.trans hturns) (hs.trans hstate)
  | running hturns hstate => exact .running (ht.trans hturns) (hs.trans hstate)
  | evaluated hturns hstate => exact .evaluated (ht.trans hturns) (hs.trans hstate)
  | failed hturns hstate => exact .failed (ht.trans hturns) (hs.trans hstate)

end Store

/-- The cell that a pending force is about. -/
def Frame.cell? : Frame → Option CellId
  | call => none
  | force c _ => some c

namespace Moment

open Store (Lived)

/-- What holds at every moment: each cell has lived as its turns say, and the pending forces are the latest turns of
cells in progress, a different one for each. -/
structure Sound (m : Moment) : Prop where
  lived : ∀ c st, m.store.initial? c = some st → m.store.Lived c st
  unborn : ∀ c, m.store.cells.size ≤ c → m.store.turnsOf c = []
  running : ∀ c h, .force c h ∈ m.pending → ∃ t, m.store.initial? c = some (.suspended t) ∧
    m.store.turnsOf c = [.began (some c) (some h) t] ∧ m.store.state c = .inProgress t
  distinct : (m.pending.filterMap Frame.cell?).Nodup

theorem sound_start : Sound ⟨{}, []⟩ where
  lived _ _ h := absurd (Store.lt_of_initial? h) (Nat.not_lt_zero _)
  unborn _ _ := rfl
  running _ _ h := absurd h List.not_mem_nil
  distinct := .nil

/-- A cell that is suspended was made so, and its thunk was never run. -/
theorem Sound.of_suspended {m : Moment} (hm : m.Sound) {c : CellId} {t : Thunk} (h : m.store.state c = .suspended t) :
    m.store.initial? c = some (.suspended t) ∧ m.store.turnsOf c = [] := by
  have hlt : c < m.store.cells.size := by
    refine Nat.lt_of_not_le fun hc => ?_
    rw [Store.state_of_size_le hc] at h
    cases h
  obtain ⟨st, hst⟩ := Store.initial?_eq_some_of_lt hlt
  cases hm.lived c st hst with
  | unrun hturns hstate =>
    rw [h] at hstate
    exact ⟨hstate ▸ hst, hturns⟩
  | running _ hstate => rw [h] at hstate; cases hstate
  | evaluated _ hstate => rw [h] at hstate; cases hstate
  | failed _ hstate => rw [h] at hstate; cases hstate

theorem Sound.change {s e : Store} {k : List Frame} (hm : Sound ⟨s, k⟩) (h : s.Step e) : Sound ⟨e, k⟩ where
  lived c st hc := by
    have ht := Store.turnsOf_of_history h.cells.1 c
    rcases h.initial?_inv hc with hold | ⟨hnew, hstate⟩
    · exact (hm.lived c st hold).congr ht (h.state (Store.lt_of_initial? hold))
    · exact .unrun (ht.trans (hm.unborn c hnew)) hstate
  unborn c hc := (Store.turnsOf_of_history h.cells.1 c).trans (hm.unborn c (Nat.le_trans h.size_le hc))
  running c g hc := by
    obtain ⟨t, hi, ht, hs⟩ := hm.running c g hc
    exact ⟨t, h.initial? hi, (Store.turnsOf_of_history h.cells.1 c).trans ht,
      (h.state (Store.lt_of_initial? hi)).trans hs⟩
  distinct := hm.distinct

/-- A turn of no cell's leaves everything as it is. -/
theorem Sound.recorded {s : Store} {k k' : List Frame} (hm : Sound ⟨s, k⟩) {x : Turn} (hx : x.owner = none)
    (hk : ∀ c h, .force c h ∈ k' → .force c h ∈ k) (hd : (k'.filterMap Frame.cell?).Nodup) :
    Sound ⟨s.recorded x, k'⟩ := by
  have ht : ∀ c, (s.recorded x).turnsOf c = s.turnsOf c := fun c => by
    have hne : x.owner ≠ some c := fun h => by rw [hx] at h; cases h
    rw [Store.turnsOf_recorded, if_neg hne]
  refine ⟨fun c st hc => (hm.lived c st hc).congr (ht c) rfl, fun c hc => (ht c).trans (hm.unborn c hc), ?_, hd⟩
  intro c h hc
  obtain ⟨t, hi, hturns, hs⟩ := hm.running c h (hk c h hc)
  exact ⟨t, hi, (ht c).trans hturns, hs⟩

/-- A turn of a cell's own keeps the other cells' lives. -/
theorem Sound.moved {s e : Store} {k k' : List Frame} {c : CellId} {x : Turn} {st : CellState} (hm : Sound ⟨s, k⟩)
    (h : s.Moved e c x st) (hc : c < s.cells.size) (hlived : ∀ st, s.initial? c = some st → e.Lived c st)
    (hown : ∀ g, .force c g ∈ k' → ∃ t, s.initial? c = some (.suspended t) ∧
      e.turnsOf c = [.began (some c) (some g) t] ∧ e.state c = .inProgress t)
    (hk : ∀ d g, d ≠ c → .force d g ∈ k' → .force d g ∈ k) (hd : (k'.filterMap Frame.cell?).Nodup) :
    Sound ⟨e, k'⟩ where
  lived d st' hd := by
    rw [h.initial] at hd
    by_cases hdc : d = c
    · subst hdc; exact hlived st' hd
    · exact (hm.lived d st' hd).congr (h.turnsOther d hdc) (h.stateOther d hdc)
  unborn d hd := by
    have hsize : s.cells.size ≤ d := h.size ▸ hd
    have hdc : d ≠ c := fun heq => absurd hc (Nat.not_lt_of_le (heq ▸ hsize))
    exact (h.turnsOther d hdc).trans (hm.unborn d hsize)
  running d g hdg := by
    by_cases hdc : d = c
    · subst hdc
      obtain ⟨t, hi, hturns, hs⟩ := hown g hdg
      exact ⟨t, (h.initial d).trans hi, hturns, hs⟩
    · obtain ⟨t, hi, hturns, hs⟩ := hm.running d g (hk d g hdc hdg)
      exact ⟨t, (h.initial d).trans hi, (h.turnsOther d hdc).trans hturns, (h.stateOther d hdc).trans hs⟩
  distinct := hd

theorem Sound.force {s : Store} {k : List Frame} (hm : Sound ⟨s, k⟩) {c : CellId} {h : HeapId} {t : Thunk}
    (hs : s.state c = .suspended t) : Sound ⟨s.began c h t, .force c h :: k⟩ := by
  obtain ⟨hi, hturns⟩ := hm.of_suspended hs
  have hc := Store.lt_of_initial? hi
  have hmoved := Store.moved_began (s := s) h t hc
  have hbegan : (s.began c h t).turnsOf c = [.began (some c) (some h) t] := by rw [hmoved.turns, hturns]; rfl
  -- no pending force is about this cell, since such a cell is in progress
  have hfree : ∀ g, .force c g ∉ k := fun g hg => by
    obtain ⟨t', -, -, hrunning⟩ := hm.running c g hg
    rw [hs] at hrunning
    cases hrunning
  refine hm.moved hmoved hc (fun st hst => ?_) (fun g hg => ?_) (fun d g hdc hg => ?_) ?_
  · obtain rfl := Option.some.inj (hi.symm.trans hst)
    exact .running hbegan hmoved.state
  · rcases List.mem_cons.1 hg with heq | hg
    · cases heq
      exact ⟨t, hi, hbegan, hmoved.state⟩
    · exact absurd hg (hfree g)
  · rcases List.mem_cons.1 hg with heq | hg
    · cases heq; exact absurd rfl hdc
    · exact hg
  · refine List.nodup_cons.2 ⟨fun hmem => ?_, hm.distinct⟩
    obtain ⟨f, hf, hcell⟩ := List.mem_filterMap.1 hmem
    cases f with
    | call => cases hcell
    | force d g => cases hcell; exact hfree g hf

/-- The end of the latest force gives its cell the final state and leaves all other pending forces alone. -/
theorem Sound.ended {s e : Store} {k : List Frame} {c : CellId} {h : HeapId} {x : Turn} {st : CellState}
    (hm : Sound ⟨s, .force c h :: k⟩) (hmoved : s.Moved e c x st)
    (hlived : ∀ t, e.turnsOf c = [.began (some c) (some h) t, x] → e.Lived c (.suspended t)) : Sound ⟨e, k⟩ := by
  obtain ⟨t, hi, hturns, -⟩ := hm.running c h List.mem_cons_self
  obtain ⟨hfree, hdistinct⟩ := List.nodup_cons.1 hm.distinct
  refine hm.moved hmoved (Store.lt_of_initial? hi) (fun st' hst => ?_) (fun g hg => ?_)
    (fun d g _ hg => List.mem_cons_of_mem _ hg) hdistinct
  · obtain rfl := Option.some.inj (hi.symm.trans hst)
    exact hlived t (by rw [hmoved.turns, hturns]; rfl)
  · have hmem : c ∈ k.filterMap Frame.cell? := List.mem_filterMap.2 ⟨.force c g, hg, rfl⟩
    exact absurd hmem hfree

theorem Sound.next {m m' : Moment} (hm : m.Sound) (h : Next m m') : m'.Sound := by
  cases h with
  | change k hstep => exact hm.change hstep
  | call s k t =>
    exact hm.recorded rfl (fun c h hc => (List.mem_cons.1 hc).resolve_left fun heq => by cases heq) hm.distinct
  | returned s k v => exact hm.recorded rfl (fun c h hc => List.mem_cons_of_mem _ hc) hm.distinct
  | raised s k x => exact hm.recorded rfl (fun c h hc => List.mem_cons_of_mem _ hc) hm.distinct
  | force s k c h t hs => exact hm.force hs
  | finished s k c h v =>
    obtain ⟨t, hi, -, -⟩ := hm.running c h List.mem_cons_self
    have hmoved := Store.moved_finished h v (Store.lt_of_initial? hi)
    exact hm.ended hmoved fun t ht => .evaluated ht hmoved.state
  | aborted s k c h x =>
    obtain ⟨t, hi, -, -⟩ := hm.running c h List.mem_cons_self
    have hmoved := Store.moved_aborted x (Store.lt_of_initial? hi)
    exact hm.ended hmoved fun t ht => .failed ht hmoved.state

/-- **Every moment of every run is sound.** -/
theorem Sound.leads {m m' : Moment} (hm : m.Sound) (h : Leads m m') : m'.Sound := by
  induction h with
  | refl => exact hm
  | tail _ hnext ih => exact ih.next hnext

/-! ## What one moment says of a later one -/

/-- A transition keeps the state of a cell, or takes it one step on. -/
theorem Next.state {m m' : Moment} (hm : m.Sound) (h : Next m m') {c : CellId} (hc : c < m.store.cells.size) :
    m'.store.state c = m.store.state c ∨ CellState.Next (m.store.state c) (m'.store.state c) := by
  -- a turn of some cell's own takes that cell one step on and keeps the others
  have hstep : ∀ {s e : Store} {d : CellId} {x : Turn} {st : CellState}, s.Moved e d x st →
      CellState.Next (s.state d) st → e.state c = s.state c ∨ CellState.Next (s.state c) (e.state c) := by
    intro s e d x st hmoved hnext
    by_cases hdc : c = d
    · subst hdc; rw [hmoved.state]; exact .inr hnext
    · exact .inl (hmoved.stateOther c hdc)
  cases h with
  | change k hs => exact .inl (hs.state hc)
  | call s k t => exact .inl rfl
  | returned s k v => exact .inl rfl
  | raised s k x => exact .inl rfl
  | force s k d h t hs =>
    exact hstep (Store.moved_began h t (Store.lt_of_initial? (hm.of_suspended hs).1)) (hs ▸ .began t)
  | finished s k d h v =>
    obtain ⟨t, hi, -, hs⟩ := hm.running d h List.mem_cons_self
    exact hstep (Store.moved_finished h v (Store.lt_of_initial? hi)) (hs ▸ .returned t v)
  | aborted s k d h x =>
    obtain ⟨t, hi, -, hs⟩ := hm.running d h List.mem_cons_self
    exact hstep (Store.moved_aborted x (Store.lt_of_initial? hi)) (hs ▸ .raised t x)

theorem Next.initial? {m m' : Moment} (h : Next m m') {c : CellId} {st : CellState}
    (hc : m.store.initial? c = some st) : m'.store.initial? c = some st := by
  cases h with
  | change k hs => exact hs.initial? hc
  | call s k t => exact hc
  | returned s k v => exact hc
  | raised s k x => exact hc
  | force s k d h t => exact (Store.initial?_setState s d c _).trans hc
  | finished s k d h v => exact (Store.initial?_setState (s.recorded (.returned (some d) v)) d c _).trans hc
  | aborted s k d h x => exact (Store.initial?_setState (s.recorded (.raised (some d) x)) d c _).trans hc

theorem Next.history {m m' : Moment} (h : Next m m') : m.store.history <:+ m'.store.history := by
  cases h with
  | change k hs => exact hs.cells.1 ▸ List.suffix_refl _
  | call s k t => exact List.suffix_cons _ _
  | returned s k v => exact List.suffix_cons _ _
  | raised s k x => exact List.suffix_cons _ _
  | force s k d h t => exact List.suffix_cons _ _
  | finished s k d h v => exact List.suffix_cons _ _
  | aborted s k d h x => exact List.suffix_cons _ _

theorem Leads.initial? {m m' : Moment} (h : Leads m m') {c : CellId} {st : CellState}
    (hc : m.store.initial? c = some st) : m'.store.initial? c = some st := by
  induction h with
  | refl => exact hc
  | tail _ hnext ih => exact hnext.initial? ih

/-- No cell is ever removed. -/
theorem Leads.size_le {m m' : Moment} (h : Leads m m') : m.store.cells.size ≤ m'.store.cells.size := by
  refine Nat.le_of_not_lt fun hlt => ?_
  obtain ⟨st, hst⟩ := Store.initial?_eq_some_of_lt hlt
  exact Nat.lt_irrefl _ (Store.lt_of_initial? (Leads.initial? h hst))

theorem Leads.history {m m' : Moment} (h : Leads m m') : m.store.history <:+ m'.store.history := by
  induction h with
  | refl => exact List.suffix_refl _
  | tail _ hnext ih => exact ih.trans hnext.history

/-- **From any moment to any later one, a cell has taken steps of its life and no others.** -/
theorem Leads.state {m m' : Moment} (hm : m.Sound) (h : Leads m m') {c : CellId} {st : CellState}
    (hc : m.store.initial? c = some st) :
    Relation.ReflTransGen CellState.Next (m.store.state c) (m'.store.state c) := by
  induction h with
  | refl => exact .refl
  | tail hleads hnext ih =>
    rcases hnext.state (hm.leads hleads) (Store.lt_of_initial? (Leads.initial? hleads hc)) with heq | hstep
    · rw [heq]; exact ih
    · exact ih.tail hstep

end Moment

theorem Store.Runs.lt_size {s e : Store} {c : CellId} (hr : s.Runs e) (hc : c < s.cells.size) : c < e.cells.size :=
  Nat.lt_of_lt_of_le hc (Moment.Leads.size_le (hr []))

/-- A cell whose force gives a value has got that value. -/
theorem evaluated_of_force {run : Runner} (hr : run.Follows) {s e : Store} {c : CellId} {v : Value}
    (hf : force run c s = .ok v e) : e.state c = .evaluated v := by
  obtain ⟨hc, rfl⟩ | ⟨t, hc⟩ := force_eq_ok hf
  · exact hc
  · obtain ⟨body, hb, hbody⟩ := hr (some c) t
    obtain ⟨h, m, -, hm, hnote⟩ := force_of_turn_eq_ok hc hbody hf
    have hruns := hb.runs_of_ok hm
    have hlt : c < (s.began c h t).cells.size := (Store.size_setState s c _).symm ▸ Store.lt_of_suspended hc
    rw [Store.state_of_cells (Run.noteForced_cells hnote)]
    exact Store.state_setState_self _ _ _ (hruns.lt_size hlt)

/-- A state that a cell cannot leave. -/
theorem CellState.eq_of_final {st st' : CellState} (h : Relation.ReflTransGen Next st st')
    (hfinal : ∀ st', ¬ Next st st') : st' = st := by
  rcases Relation.ReflTransGen.cases_head h with heq | ⟨m, hm, -⟩
  · exact heq.symm
  · exact absurd hm (hfinal m)

/-- A suspended cell is made over its thunk, and one that refers to itself over a thunk that has it as an argument. -/
theorem initial?_suspend {s : Store} {h : HeapId} (ha : s.active = some h) (thunk : CellId → Thunk) :
    ∃ e, Run.suspendSelf thunk s = .ok s.cells.size e ∧
      e.initial? s.cells.size = some (.suspended (thunk s.cells.size)) := by
  refine ⟨s.register h (.suspended (thunk s.cells.size)), ?_, ?_⟩
  · unfold Run.suspendSelf
    rw [Run.bind_ok (m := s) (a := h) (by rw [Run.activeHeap_apply, ha])]
    rfl
  · unfold Store.initial? Store.register Store.updateHeap
    rw [Array.getElem?_push_size]
    rfl

/-- **A thunk is run at most once, and what its cell then holds is for good.**  Whatever expression is evaluated, in
whatever program and however deep, leads from moment to moment.  At every moment, a cell that was made suspended has
lived a prefix of one life: its thunk, with the arguments it was made over (the cell itself first among them if it was
made to refer to itself), is run at most once, and the cell holds the value that this run returned or the error that it
raised, if the run is over.  From every moment to every later one the cell only goes forward.  Once it is evaluated or
failed, forcing it hands out the same value or raises the same error, whichever heap is active and if none is, and
changes nothing. -/
theorem thunk_runs_at_most_once (p : Program) :
    (∀ (depth : Nat) (args : List Value) (e : Expr) (s : Store),
      s.Reaches (Run.finalStore (e.eval p (p.runAt depth) args s))) ∧
    (∀ (s : Store) (h : HeapId) (f : Function) (args : List Value), s.active = some h →
      (∃ e, Run.suspend (.call f args) s = .ok s.cells.size e ∧
        e.initial? s.cells.size = some (.suspended (.call f args))) ∧
      (∃ e, Run.suspendSelf (fun c => .call f (.cell c :: args)) s = .ok s.cells.size e ∧
        e.initial? s.cells.size = some (.suspended (.call f (.cell s.cells.size :: args))))) ∧
    ∀ m, Moment.Leads ⟨{}, []⟩ m → ∀ c t, m.store.initial? c = some (.suspended t) →
      m.store.Lived c (.suspended t) ∧
      ∀ m', Moment.Leads m m' →
        Relation.ReflTransGen CellState.Next (m.store.state c) (m'.store.state c) ∧
        m.store.history <:+ m'.store.history ∧
        (∀ v, m.store.state c = .evaluated v → ∀ (run : Runner) (active : Option HeapId),
          force run c { m'.store with active } = .ok v { m'.store with active }) ∧
        (∀ e, m.store.state c = .failed (.fault e) → ∀ (run : Runner) (active : Option HeapId),
          force run c { m'.store with active } = .error (.raised e) { m'.store with active }) := by
  refine ⟨fun depth args e s => (e.follows_eval (p.follows_runAt depth) args s).reaches, fun s h f args ha => ?_, ?_⟩
  · exact ⟨initial?_suspend ha fun _ => .call f args, initial?_suspend ha fun c => .call f (.cell c :: args)⟩
  intro m hm c t hc
  have hsound := Moment.sound_start.leads hm
  refine ⟨hsound.lived c _ hc, fun m' hleads => ?_⟩
  have hstates := Moment.Leads.state hsound hleads hc
  refine ⟨hstates, Moment.Leads.history hleads, fun v hv run active => ?_, fun e he run active => ?_⟩
  · have hlater : m'.store.state c = .evaluated v := by
      rw [hv] at hstates
      exact CellState.eq_of_final hstates fun st hnext => by cases hnext
    exact force_evaluated (s := { m'.store with active }) hlater run
  · have hlater : m'.store.state c = .failed (.fault e) := by
      rw [he] at hstates
      exact CellState.eq_of_final hstates fun st hnext => by cases hnext
    exact force_failed (s := { m'.store with active }) hlater run

theorem thunk_runs_at_most_once_constant :
    let f : Function := .defined "f" false
    let p : Program := [("f", ⟨.constant (.int 7), false⟩)]
    let e : Expr := .apply (.value .seq) [.apply (.heap .openNew) [],
      .assign "c" (.apply (.cell .suspend) [.constant (.str "f")]), .apply (.cell .force) [.lookup "c"]]
    let s := Run.finalStore (e.eval p (p.runAt 1) [] {})
    s.Lived 0 (.suspended (.call f [])) ∧
      (∀ run active, force run 0 { s with active } = .ok (.int 7) { s with active }) ∧
      ∃ m, Run.suspend (.call f []) s = .ok 1 m ∧ m.initial? 1 = some (.suspended (.call f [])) := by
  intro f p e s
  obtain ⟨follows, made, life⟩ := thunk_runs_at_most_once p
  obtain ⟨k, hk⟩ := follows 1 [] e {} []
  obtain ⟨hlived, hlater⟩ := life _ hk 0 (.call f []) rfl
  exact ⟨hlived, (hlater _ .refl).2.2.1 (.int 7) rfl, (made s 0 f [] rfl).1⟩

end Retention
