import Retention.Proofs.Collection
import Retention.Proofs.Sampling
import Retention.Proofs.Unrolling
/-!
# Soundness — every cell shows what it lists

`Collection.Sound` is the invariant of all evaluation: whatever the state of a cell, it is one that agrees with what
the cell was made to list (`Collection.Fine`).  A cell that is being forced agrees with anything; what keeps lists from
running into it is that it nests deeper than they do (`Collection.Idle`).
-/
namespace Retention

namespace Store
variable {s m e : Store} {h : HeapId} {c d : CellId} {st : CellState}

/-- The thunk of a cell is being run. -/
def running (s : Store) (c : CellId) : Prop := (s.state c).phase = .inProgress

/-- A later store in which no more cells are being forced. -/
structure Advances (s e : Store) : Prop extends s.Extends e where
  calm : ∀ c, e.running c → s.running c

/-- The error of an empty sequence. -/
def isEmptyError (s : Store) (x : FaultId) : Prop := ∃ r, s.faults[x]? = some r ∧ r.cause.kind = .emptySequence

theorem lt_of_running (h : s.running c) : c < s.cells.size := by
  refine Nat.lt_of_not_le fun hle => ?_
  rw [running, state_of_size_le hle] at h
  cases h

theorem thunk?_setState (s : Store) (c d : CellId) (st : CellState) : (s.setState c st).thunk? d = s.thunk? d := by
  unfold setState thunk?
  rw [Array.getElem?_modify]
  split
  · cases s.cells[d]? <;> rfl
  · rfl

theorem thunk?_register_new (s : Store) (h : HeapId) (st : CellState) :
    (s.register h st).thunk? s.cells.size = st.thunk? := by
  unfold register thunk? updateHeap
  rw [Array.getElem?_push_size]
  rfl

theorem thunk?_register_of_lt (hc : c < s.cells.size) (h : HeapId) (st : CellState) :
    (s.register h st).thunk? c = s.thunk? c := by
  unfold register thunk? updateHeap
  rw [Array.getElem?_push_lt hc, Array.getElem?_eq_getElem hc]

theorem Extends.setState (s : Store) (c : CellId) (st : CellState) : s.Extends (s.setState c st) :=
  { Extends.refl s with
    size := Nat.le_of_eq (size_setState s c st).symm
    thunk := fun d _ => thunk?_setState s c d st }

theorem Extends.isEmptyError (he : s.Extends e) {x : FaultId} (h : s.isEmptyError x) : e.isEmptyError x := by
  obtain ⟨r, hr, hkind⟩ := h
  exact ⟨r, he.faults x r hr, hkind⟩

namespace Advances

theorem refl (s : Store) : s.Advances s := { Extends.refl s with calm := fun _ h => h }

theorem trans (h : s.Advances m) (h' : m.Advances e) : s.Advances e :=
  { h.toExtends.trans h'.toExtends with calm := fun c hc => h.calm c (h'.calm c hc) }

theorem recorded (s : Store) (x : Turn) : s.Advances (s.recorded x) := { refl s with }

theorem tagged (s : Store) : s.Advances s.tagged := { refl s with }

theorem register (s : Store) (h : HeapId) (t : Thunk) : s.Advances (s.register h (.suspended t)) where
  size := by rw [size_register]; exact Nat.le_succ _
  thunk c hc := thunk?_register_of_lt hc h _
  faults _ _ hx := hx
  bindings _ _ hv := hv
  calm c hc := by
    rcases Nat.lt_or_eq_of_le (Nat.le_of_lt_succ (size_register s h _ ▸ lt_of_running hc)) with hlt | rfl
    · rwa [running, state_register_of_lt hlt] at hc
    · rw [running, state_register_new] at hc
      cases hc

/-- A new error. -/
theorem faulted (s : Store) (x : Raised) : s.Advances { s with faults := s.faults.push x } :=
  { refl s with
    faults := fun i y hy => by
      show (s.faults.push x)[i]? = some y
      rw [Array.getElem?_push, if_neg, hy]
      rintro rfl
      rw [Array.getElem?_eq_none (Nat.le_refl _)] at hy
      cases hy }

end Advances

theorem Extends.began (s : Store) (c : CellId) (h : HeapId) (t : Thunk) : s.Extends (s.began c h t) :=
  (Extends.setState s c (.inProgress t)).trans (Advances.recorded _ _).toExtends

theorem running_began {t : Thunk} (h' : (s.began c h t).running d) : d = c ∨ s.running d := by
  by_cases hd : d = c
  · exact .inl hd
  · rw [running, state_began_of_ne _ hd] at h'
    exact .inr h'

/-- A cell that was being forced gets its final state. -/
theorem Advances.settled {t : Thunk} (hbegan : (s.began c h t).Advances e) (hext : e.Extends m)
    (hcells : m.cells = (e.setState c st).cells) (hlt : c < e.cells.size) (hst : st.phase ≠ .inProgress) :
    s.Advances m :=
  { ((Extends.began s c h t).trans hbegan.toExtends).trans hext with
    calm := fun b hb => by
      rw [running, state_of_cells hcells] at hb
      by_cases hbc : b = c
      · exact absurd ((congrArg CellState.phase (state_setState_self e c st hlt)).symm.trans (hbc ▸ hb)) hst
      · have hbe : e.running b := (congrArg CellState.phase (state_setState_of_ne e st hbc)).symm.trans hb
        exact (running_began (hbegan.calm b hbe)).resolve_left hbc }

end Store

namespace Collection
open Signature
variable {w : Collection} {s m e : Store} {n k : Nat} {c : CellId} {d : Meaning} {x : Int}

/-! ## The invariant -/

/-- A node that shows how a sequence begins: its first element and its rest, or its end. -/
def Node (w : Collection) (s : Store) (n : Nat) (d : Meaning) (v : Value) : Prop :=
  match d.read 0 with
  | .element x => ∃ tag head tail, v = .cons tag (.cell head) (.cell tail) ∧ w.Element s head x ∧ w.Lists s n tail d.rest
  | .done => ∃ tag, v = .nil tag
  | .failed => False

/-- A state that a cell may be in which lists a sequence. -/
def Fits (w : Collection) (s : Store) (n : Nat) (d : Meaning) : CellState → Prop
  | .suspended _ | .inProgress _ => True
  | .evaluated v => w.Node s n d v
  | .failed v => d.read 0 = .failed ∧ ∃ x, v = .fault x ∧ s.isEmptyError x

/-- A state that a cell may be in which stands for an element.  No other thunk is run for it. -/
def FitsElement (x : Int) : CellState → Prop
  | .suspended _ => True
  | .evaluated v => v = .int x
  | .inProgress _ | .failed _ => False

/-- A cell agrees with what it was made for. -/
structure Fine (w : Collection) (s : Store) (c : CellId) : Prop where
  thunk : ∀ t, s.state c = .suspended t → s.thunk? c = some t
  list : ∀ n d, w.Lists s n c d → w.Fits s n d (s.state c)
  element : ∀ x, w.Element s c x → FitsElement x (s.state c)

/-- What the builder of a repetition relies on holds. -/
def Relied (w : Collection) (s : Store) (t : Thunk) : Prop :=
  ∀ tag maker, t = .freshLap tag maker → w.relies maker s

/-- The heap serves, and every cell of the collection agrees with what it was made for. -/
structure Sound (w : Collection) (s : Store) : Prop where
  serves : s.Serves w.heap
  base : w.base ≤ s.cells.size
  fine : ∀ c, w.base ≤ c → w.Fine s c
  relied : ∀ c t, w.built s c = some t → w.Relied s t

/-- No cell that nests so few levels is being forced. -/
def Idle (w : Collection) (n : Nat) (s : Store) : Prop := ∀ c d, w.Lists s n c d → ¬ s.running c

theorem Node.cases {v : Value} (h : w.Node s n d v) :
    (∃ x tag head tail, d.read 0 = .element x ∧ v = .cons tag (.cell head) (.cell tail) ∧ w.Element s head x ∧
      w.Lists s n tail d.rest) ∨ (d.read 0 = .done ∧ ∃ tag, v = .nil tag) := by
  unfold Node at h
  split at h
  · obtain ⟨tag, head, tail, h⟩ := h
    exact .inl ⟨_, tag, head, tail, by assumption, h⟩
  · exact .inr ⟨by assumption, h⟩
  · exact h.elim

theorem node_cons {tag : Tag} {head tail : CellId} (hd : d.read 0 = .element x) (hhead : w.Element s head x)
    (htail : w.Lists s n tail d.rest) : w.Node s n d (.cons tag (.cell head) (.cell tail)) := by
  unfold Node
  rw [hd]
  exact ⟨tag, head, tail, rfl, hhead, htail⟩

theorem node_nil (hd : d.read 0 = .done) (tag : Tag) : w.Node s n d (.nil tag) := by
  unfold Node
  rw [hd]
  exact ⟨tag, rfl⟩

theorem Node.later {v : Value} (h : w.Node s n d v) (he : s.Extends e) : w.Node e n d v := by
  rcases h.cases with ⟨x, tag, head, tail, hd, rfl, hhead, htail⟩ | ⟨hd, tag, rfl⟩
  · exact node_cons hd (hhead.later he) (htail.later he)
  · exact node_nil hd tag

theorem Node.mono {v : Value} (h : w.Node s n d v) (hnk : n ≤ k) : w.Node s k d v := by
  rcases h.cases with ⟨x, tag, head, tail, hd, rfl, hhead, htail⟩ | ⟨hd, tag, rfl⟩
  · exact node_cons hd hhead (htail.mono hnk)
  · exact node_nil hd tag

theorem Node.refs {v : Value} (h : w.Node s n d v) : Store.OnlyCells v.refs := by
  rcases h.cases with ⟨x, tag, head, tail, hd, rfl, hhead, htail⟩ | ⟨hd, tag, rfl⟩
  · exact Store.onlyCells_map [head, tail]
  · exact Store.onlyCells_map []

theorem Fits.later {st : CellState} (h : w.Fits s n d st) (he : s.Extends e) : w.Fits e n d st := by
  cases st with
  | suspended t => trivial
  | inProgress t => trivial
  | evaluated v => exact Node.later h he
  | failed v =>
    obtain ⟨hd, x, rfl, hx⟩ := h
    exact ⟨hd, x, rfl, he.isEmptyError hx⟩

theorem Relied.later {t : Thunk} (h : w.Relied s t) (he : s.Extends e) : w.Relied e t :=
  fun tag maker ht => w.lasting maker he (h tag maker ht)

theorem Fine.later (h : w.Fine s c) (he : s.Extends e) (hlt : c < s.cells.size) (hstate : e.state c = s.state c) :
    w.Fine e c where
  thunk t ht := by
    rw [he.thunk c hlt]
    exact h.thunk t (hstate ▸ ht)
  list n d hl := hstate ▸ (h.list n d (hl.earlier he hlt)).later he
  element x hx := hstate ▸ h.element x (hx.earlier he hlt)

theorem Fine.built {t : Thunk} (h : w.Fine s c) (hc : w.base ≤ c) (hstate : s.state c = .suspended t) :
    w.built s c = some t := by
  rw [Signature.built, if_pos hc]
  exact h.thunk t hstate

theorem fine_of_size_le (h : s.cells.size ≤ c) : w.Fine s c where
  thunk t ht := by
    rw [Store.state_of_size_le h] at ht
    cases ht
  list n d hl := absurd hl.lt (Nat.not_lt.2 h)
  element x hx := absurd hx.lt (Nat.not_lt.2 h)

/-- A cell agrees with the state that it gets, if that fits what it lists or stands for. -/
theorem fine_setState {st : CellState} (hlt : c < s.cells.size) (hst : ∀ t, st ≠ .suspended t)
    (hlist : ∀ n d, w.Lists s n c d → w.Fits s n d st) (helement : ∀ x, w.Element s c x → FitsElement x st) :
    w.Fine (s.setState c st) c := by
  have hext := Store.Extends.setState s c st
  have hstate := Store.state_setState_self s c st hlt
  constructor
  · intro t ht
    exact absurd (hstate.symm.trans ht) (hst t)
  · intro n d hl
    rw [hstate]
    exact (hlist n d (hl.earlier hext hlt)).later hext
  · intro x hx
    rw [hstate]
    exact helement x (hx.earlier hext hlt)

theorem Idle.mono (h : w.Idle k s) (hnk : n ≤ k) : w.Idle n s := fun c d hl => h c d (hl.mono hnk)

theorem Idle.later (h : w.Idle n s) (he : s.Advances e) : w.Idle n e := fun c d hl hc => by
  have hs := he.calm c hc
  exact h c d (hl.earlier he.toExtends (Store.lt_of_running hs)) hs

/-- A cell that nests deeper begins to be forced. -/
theorem Idle.began (h : w.Idle n s) (hc : ∀ d, ¬ w.Lists s n c d) (t : Thunk) : w.Idle n (s.began c w.heap t) :=
  fun b d hl hb => by
    have hlt : b < s.cells.size := by
      have := hl.lt
      rwa [Store.began, Store.recorded, Store.size_setState] at this
    have hls := hl.earlier (Store.Extends.began s c w.heap t) hlt
    rcases Store.running_began hb with rfl | hrun
    · exact hc d hls
    · exact h b d hls hrun

/-! ## What keeps the invariant -/

namespace Sound

theorem later (hs : w.Sound s) (he : s.Extends e) (hserves : e.Serves w.heap)
    (hstate : ∀ b < s.cells.size, e.state b = s.state b) (hnew : ∀ b, s.cells.size ≤ b → w.Fine e b)
    (hrelied : ∀ b t, s.cells.size ≤ b → w.built e b = some t → w.Relied e t) : w.Sound e where
  serves := hserves
  base := Nat.le_trans hs.base he.size
  fine c hc := by
    by_cases hlt : c < s.cells.size
    · exact (hs.fine c hc).later he hlt (hstate c hlt)
    · exact hnew c (Nat.not_lt.1 hlt)
  relied c t ht := by
    by_cases hlt : c < s.cells.size
    · exact (hs.relied c t ((built_eq he hlt).symm.trans ht)).later he
    · exact hrelied c t (Nat.not_lt.1 hlt) ht

/-- Nothing but cells matters. -/
theorem congr (hs : w.Sound s) (he : s.Extends e) (hserves : e.Serves w.heap) (hcells : e.cells = s.cells) :
    w.Sound e := by
  have hstate := Store.state_of_cells hcells
  refine hs.later he hserves (fun b _ => congrFun hstate b) (fun b hb => fine_of_size_le (hcells ▸ hb))
    fun b t hb ht => ?_
  exact absurd (lt_of_built ht) (Nat.not_lt.2 (hcells ▸ hb))

theorem recorded (hs : w.Sound s) (x : Turn) : w.Sound (s.recorded x) :=
  hs.congr (Store.Advances.recorded s x).toExtends (hs.serves.recorded x) rfl

theorem tagged (hs : w.Sound s) : w.Sound s.tagged :=
  hs.congr (Store.Advances.tagged s).toExtends (hs.serves.congr rfl rfl rfl) rfl

theorem faulted (hs : w.Sound s) (x : Raised) : w.Sound { s with faults := s.faults.push x } :=
  hs.congr (Store.Advances.faulted s x).toExtends (hs.serves.congr rfl rfl rfl) rfl

theorem built_new (hs : w.Sound s) (t : Thunk) :
    w.built (s.register w.heap (.suspended t)) s.cells.size = some t := by
  rw [built, if_pos hs.base, Store.thunk?_register_new]
  rfl

/-- A suspended cell is made. -/
theorem register (hs : w.Sound s) {t : Thunk} (hrefs : Store.OnlyCells t.refs) (ht : w.Relied s t) :
    w.Sound (s.register w.heap (.suspended t)) := by
  have he := (Store.Advances.register s w.heap t).toExtends
  have hsize := Store.size_register s w.heap (.suspended t)
  refine hs.later he (hs.serves.register hrefs) (fun b hb => Store.state_register_of_lt hb _ _) (fun b hb => ?_) ?_
  · rcases Nat.lt_or_eq_of_le hb with hlt | rfl
    · exact fine_of_size_le (by rw [hsize]; exact hlt)
    · have hstate := Store.state_register_new s w.heap (.suspended t)
      have hthunk := Store.thunk?_register_new s w.heap (.suspended t)
      constructor
      · intro t' ht'
        cases hstate.symm.trans ht'
        exact hthunk
      · intro n d _
        rw [hstate]
        trivial
      · intro x _
        rw [hstate]
        trivial
  · intro b t' hb hb'
    obtain rfl : b = s.cells.size := Nat.le_antisymm (Nat.le_of_lt_add_one (hsize ▸ lt_of_built hb')) hb
    cases (hs.built_new t).symm.trans hb'
    exact ht.later he

/-- A cell gets a state that it agrees with, whatever state it was in. -/
theorem setState {st : CellState} (hserves : s.Serves w.heap) (hbase : w.base ≤ s.cells.size)
    (hothers : ∀ b, b ≠ c → w.base ≤ b → w.Fine s b) (hrelied : ∀ b t, w.built s b = some t → w.Relied s t)
    (hst : Store.OnlyCells st.refs) (hc : w.Fine (s.setState c st) c) : w.Sound (s.setState c st) where
  serves := hserves.setState c hst
  base := by rw [Store.size_setState]; exact hbase
  fine b hb := by
    have he := Store.Extends.setState s c st
    by_cases hbc : b = c
    · exact hbc ▸ hc
    · by_cases hlt : b < s.cells.size
      · exact (hothers b hbc hb).later he hlt (Store.state_setState_of_ne s st hbc)
      · exact fine_of_size_le (by rw [Store.size_setState]; exact Nat.not_lt.1 hlt)
  relied b t ht := by
    have he := Store.Extends.setState s c st
    have hlt : b < s.cells.size := Store.size_setState s c st ▸ lt_of_built ht
    exact (hrelied b t ((built_eq he hlt).symm.trans ht)).later he

theorem size_began (s : Store) (c : CellId) (h : HeapId) (t : Thunk) : (s.began c h t).cells.size = s.cells.size :=
  Store.size_setState ..

theorem fine_began (hs : w.Sound s) (t : Thunk) {b : CellId} (hb : b ≠ c) (hbase : w.base ≤ b) :
    w.Fine (s.began c w.heap t) b := by
  have hext := Store.Extends.began s c w.heap t
  by_cases hbs : b < s.cells.size
  · exact (hs.fine b hbase).later hext hbs (Store.state_began_of_ne s hb _ _)
  · exact fine_of_size_le (by rw [size_began]; exact Nat.not_lt.1 hbs)

theorem relied_began (hs : w.Sound s) (t : Thunk) {b : CellId} {u : Thunk}
    (hb : w.built (s.began c w.heap t) b = some u) : w.Relied (s.began c w.heap t) u := by
  have hext := Store.Extends.began s c w.heap t
  have hbs : b < s.cells.size := size_began s c w.heap t ▸ lt_of_built hb
  exact (hs.relied b u ((built_eq hext hbs).symm.trans hb)).later hext

/-- The thunk of a list begins to run. -/
theorem began (hs : w.Sound s) (hl : w.Lists s n c d) {t : Thunk} (hc : s.state c = .suspended t) :
    w.Sound (s.began c w.heap t) := by
  have hbuilt := (hs.fine c hl.base_le).built hl.base_le hc
  have hrefs : Store.OnlyCells t.refs := fun v hv => by
    obtain ⟨b, d', hb, -⟩ := hl.refs hbuilt v hv
    exact ⟨b, hb⟩
  have hagrees : w.Fine (s.setState c (.inProgress t)) c := by
    refine fine_setState hl.lt (fun _ h => by cases h) (fun _ _ _ => trivial) fun x hx => ?_
    exact absurd hx hl.not_element
  have hset : w.Sound (s.setState c (.inProgress t)) :=
    setState hs.serves hs.base (fun b _ => hs.fine b) hs.relied hrefs hagrees
  exact hset.recorded _

end Sound
end Collection
end Retention
