import Retention.Proofs.Following
/-!
# Growth — what runs on one heap leave alone

`Store.Grown` is the frame of a run on a heap that takes no samples of its own accord: so many cells were made, so many
forces completed, and the old cells that changed their state are among those that are named.  Everything else that a
later step looks at is as it was, and the new cells are numbered and addressed one after the other.  Frames are put
together (`Grown.trans`), one for each way to change the store; `force_grown` is the frame of a force by that of the
thunk it runs.
-/
namespace Retention
namespace Store

/-- The store after a tag was given out. -/
def tagged (s : Store) : Store := { s with nextTag := s.nextTag + 1 }

/-! ## Frames -/

/-- A heap that is active and counts forces without taking a sample. -/
structure Hosts (s : Store) (h : HeapId) : Prop where
  active : s.active = some h
  valid : h < s.heaps.size
  quiet : (s.heap h).samplesForces = .bool false

/-- So many cells were made on a heap and so many forces counted there, and only the given ones of the old cells changed
their state. -/
structure Grown (h : HeapId) (s e : Store) (made forced : Nat) (changed : List CellId) : Prop where
  active : e.active = s.active
  heaps : e.heaps.size = s.heaps.size
  consumers : e.consumers = s.consumers
  heap : ∃ table, e.heap h =
    { s.heap h with created := (s.heap h).created + made, forced := (s.heap h).forced + forced, table := table }
  size : e.cells.size = s.cells.size + made
  state : ∀ c < s.cells.size, c ∉ changed → e.state c = s.state c
  address : ∀ c < s.cells.size, e.address c = s.address c
  numbered : ∀ i < made, e.address (s.cells.size + i) = (s.heap h).created + i + 1

namespace Grown
variable {h : HeapId} {s m e : Store} {made made' forced forced' : Nat} {changed changed' : List CellId}

theorem created (hg : Grown h s e made forced changed) : (e.heap h).created = (s.heap h).created + made := by
  obtain ⟨table, ht⟩ := hg.heap; rw [ht]

theorem forces (hg : Grown h s e made forced changed) : (e.heap h).forced = (s.heap h).forced + forced := by
  obtain ⟨table, ht⟩ := hg.heap; rw [ht]

theorem hosts (hg : Grown h s e made forced changed) (hs : s.Hosts h) : e.Hosts h where
  active := hg.active.trans hs.active
  valid := hg.heaps ▸ hs.valid
  quiet := by obtain ⟨table, ht⟩ := hg.heap; rw [ht]; exact hs.quiet

theorem size_le (hg : Grown h s e made forced changed) : s.cells.size ≤ e.cells.size :=
  hg.size ▸ Nat.le_add_right _ _

theorem refl (h : HeapId) (s : Store) : Grown h s s 0 0 [] where
  active := rfl
  heaps := rfl
  consumers := rfl
  heap := ⟨_, rfl⟩
  size := rfl
  state _ _ _ := rfl
  address _ _ := rfl
  numbered i hi := absurd hi (Nat.not_lt_zero i)

theorem trans (hg : Grown h s m made forced changed) (hg' : Grown h m e made' forced' changed') :
    Grown h s e (made + made') (forced + forced') (changed ++ changed') where
  active := hg'.active.trans hg.active
  heaps := hg'.heaps.trans hg.heaps
  consumers := hg'.consumers.trans hg.consumers
  heap := by
    obtain ⟨table, ht⟩ := hg.heap
    obtain ⟨table', ht'⟩ := hg'.heap
    refine ⟨table', ?_⟩
    rw [ht', ht]
    simp only [Nat.add_assoc]
  size := by rw [hg'.size, hg.size, Nat.add_assoc]
  state c hc hn := by
    rw [List.mem_append, not_or] at hn
    rw [hg'.state c (Nat.lt_of_lt_of_le hc hg.size_le) hn.2, hg.state c hc hn.1]
  address c hc := by rw [hg'.address c (Nat.lt_of_lt_of_le hc hg.size_le), hg.address c hc]
  numbered i hi := by
    by_cases hm : i < made
    · rw [hg'.address _ (by have := hg.size; omega), hg.numbered i hm]
    · have hi' := hg'.numbered (i - made) (by omega)
      rw [hg.size, hg.created, show s.cells.size + made + (i - made) = s.cells.size + i by omega] at hi'
      rw [hi']
      omega

/-- More cells may be named as changed, and new ones need not be. -/
theorem mono (hg : Grown h s e made forced changed) (hc : ∀ c < s.cells.size, c ∈ changed → c ∈ changed') :
    Grown h s e made forced changed' :=
  { hg with state := fun c hlt hn => hg.state c hlt fun hmem => hn (hc c hlt hmem) }

theorem register (hh : h < s.heaps.size) (st : CellState) : Grown h s (s.register h st) 1 0 [] where
  active := rfl
  heaps := Array.size_modify ..
  consumers := rfl
  heap := ⟨_, heap_updateHeap (s := { s with cells := s.cells.push _ }) hh _⟩
  size := size_register s h st
  state c hc _ := state_register_of_lt hc h st
  address c hc := address_register_of_lt hc h st
  numbered i hi := by
    obtain rfl : i = 0 := by omega
    exact address_register_new s h st

theorem setState (h : HeapId) (s : Store) (c : CellId) (st : CellState) : Grown h s (s.setState c st) 0 0 [c] where
  active := rfl
  heaps := rfl
  consumers := rfl
  heap := ⟨_, rfl⟩
  size := size_setState s c st
  state _ _ hd := state_setState_of_ne s st (List.ne_of_not_mem_cons hd)
  address d _ := address_setState s c d st
  numbered i hi := absurd hi (Nat.not_lt_zero i)

theorem counted (hh : h < s.heaps.size) : Grown h s (s.counted h) 0 1 [] where
  active := rfl
  heaps := Array.size_modify ..
  consumers := rfl
  heap := ⟨_, heap_updateHeap hh _⟩
  size := rfl
  state _ _ _ := rfl
  address _ _ := rfl
  numbered i hi := absurd hi (Nat.not_lt_zero i)

theorem tagged (h : HeapId) (s : Store) : Grown h s s.tagged 0 0 [] := { refl h s with }

theorem recorded (h : HeapId) (s : Store) (x : Turn) : Grown h s (s.recorded x) 0 0 [] := { refl h s with }

theorem began (h : HeapId) (s : Store) (c : CellId) (t : Thunk) : Grown h s (s.began c h t) 0 0 [c] :=
  (setState h s c (.inProgress t)).trans (recorded h _ _)

theorem finished (hh : h < s.heaps.size) (c : CellId) (v : Value) : Grown h s (s.finished c h v) 0 1 [c] :=
  ((recorded h s _).trans (setState h _ c _)).trans (counted hh)

end Grown

/-- From the cell `base` on, every cell was made on the heap, and addressed by the order in which it was made. -/
structure Numbered (s : Store) (base : Nat) (h : HeapId) : Prop where
  size : s.cells.size = base + (s.heap h).created
  address : ∀ c : Nat, base ≤ c → c < s.cells.size → s.address c + base = c + 1

namespace Numbered
variable {base : Nat} {h : HeapId} {s e : Store}

theorem grown {made forced : Nat} {changed : List CellId} (hn : s.Numbered base h)
    (hg : Grown h s e made forced changed) : e.Numbered base h := by
  refine ⟨by rw [hg.size, hg.created, hn.size, Nat.add_assoc], fun c hb hc => ?_⟩
  by_cases hlt : c < s.cells.size
  · rw [hg.address c hlt]
    exact hn.address c hb hlt
  · have haddress := hg.numbered (c - s.cells.size) (by have := hg.size; omega)
    rw [show s.cells.size + (c - s.cells.size) = c by omega] at haddress
    have := hn.size
    omega

/-- The addresses tell these cells apart. -/
theorem eq_of_address {c d : Nat} (hn : s.Numbered base h) (hc : base ≤ c) (hcs : c < s.cells.size) (hd : base ≤ d)
    (hds : d < s.cells.size) (ha : s.address c = s.address d) : c = d := by
  have := hn.address c hc hcs
  have := hn.address d hd hds
  omega

theorem congr (hn : s.Numbered base h) (hc : e.cells = s.cells) (hh : (e.heap h).created = (s.heap h).created) :
    e.Numbered base h := by
  refine ⟨by rw [hc, hh, hn.size], fun c hb hlt => ?_⟩
  unfold Store.address
  rw [hc] at hlt ⊢
  exact hn.address c hb hlt

end Numbered

/-! ## A force of a suspended cell -/

theorem state_began_of_ne (s : Store) {c d : CellId} (hd : d ≠ c) (h : HeapId) (t : Thunk) :
    (s.began c h t).state d = s.state d := state_setState_of_ne s (.inProgress t) hd

theorem state_finished_self {s : Store} {c : CellId} (hc : c < s.cells.size) (h : HeapId) (v : Value) :
    (s.finished c h v).state c = .evaluated v := state_setState_self (s.recorded _) c (.evaluated v) hc

theorem state_finished_of_ne (s : Store) {c d : CellId} (hd : d ≠ c) (h : HeapId) (v : Value) :
    (s.finished c h v).state d = s.state d := state_setState_of_ne (s.recorded _) (.evaluated v) hd

end Store

open Store (Hosts Grown)

theorem Run.noteForced_apply {s : Store} {h : HeapId} (hh : h < s.heaps.size)
    (hq : (s.heap h).samplesForces = .bool false) : Run.noteForced h s = .ok () (s.counted h) := by
  have hflag : ((s.counted h).heap h).samplesForces = .bool false := by
    rw [Store.counted, Store.heap_updateHeap hh]; exact hq
  unfold Run.noteForced
  rw [Run.bind_ok (Run.modify_apply _ s), Run.bind_ok (Run.get_apply _), hflag]
  rfl

/-- What a force of a suspended cell does, by how its thunk ends. -/
theorem force_of_suspended (p : Program) (depth : Nat) {s : Store} {h : HeapId} {c : CellId} {t : Thunk}
    (ha : s.active = some h) (hc : s.state c = .suspended t) : force (p.runAt (depth + 1)) c s =
    match t.produce p (p.runAt depth) (s.began c h t) with
    | .ok v e => ((fun _ => v) <$> Run.noteForced h) ((e.recorded (.returned (some c) v)).setState c (.evaluated v))
    | .error (.raised x) e => .error (.raised x) (e.aborted c x)
    | .error .tooDeep e => .error .tooDeep e :=
  force_of_turn hc ha rfl

/-- **A force of a suspended cell does what its thunk does**, and leaves the cell evaluated. -/
theorem force_suspended (p : Program) (depth : Nat) {s e : Store} {h : HeapId} {c : CellId} {t : Thunk} {v : Value}
    {made forced : Nat} {changed : List CellId} (hs : s.Hosts h) (hc : s.state c = .suspended t)
    (hr : t.produce p (p.runAt depth) (s.began c h t) = .ok v e) (hg : Grown h (s.began c h t) e made forced changed) :
    force (p.runAt (depth + 1)) c s = .ok v (e.finished c h v) ∧
      Grown h s (e.finished c h v) made (forced + 1) (c :: changed) := by
  have hbegan := Grown.began h s c t
  have he := hg.hosts (hbegan.hosts hs)
  refine ⟨?_, ?_⟩
  · have hcount : Run.noteForced h ((e.recorded (.returned (some c) v)).setState c (.evaluated v)) =
        .ok () (e.finished c h v) := Run.noteForced_apply he.valid he.quiet
    rw [force_of_suspended p depth hs.active hc, hr]
    dsimp only
    rw [Run.map_apply, hcount]
  · have hall := (hbegan.trans hg).trans (Grown.finished he.valid c v)
    rw [Nat.zero_add, Nat.zero_add] at hall
    refine hall.mono fun d _ hd => ?_
    simpa [or_comm] using hd

end Retention
