import Retention.Proofs.Meaning
import Retention.Store
import Mathlib.Data.Nat.Find
/-!
# Collection — what cells were made to list

The cells of a collection are made on one heap, each list from lists made before it.  What a cell lists is settled when
it is made (`Signature.Lists`): its first thunk tells, and that never changes.  `Store.Extends` is all that what cells
list depends on, so what a cell lists, it lists forever, and later cells add nothing to it.

A repetition by name is given what builds its list.  What the builder promises (`Promise`) is one more thing a
collection comes with.
-/
namespace Retention

namespace Store

/-- A later store: the old cells were made the same, and errors and values of variables are kept. -/
structure Extends (s e : Store) : Prop where
  size : s.cells.size ≤ e.cells.size
  thunk : ∀ c < s.cells.size, e.thunk? c = s.thunk? c
  faults : ∀ (i : Nat) (x : Raised), s.faults[i]? = some x → e.faults[i]? = some x
  bindings : ∀ name v, Entries.get? (· == ·) s.bindings name = some v → Entries.get? (· == ·) e.bindings name = some v

namespace Extends

theorem refl (s : Store) : s.Extends s := ⟨Nat.le_refl _, fun _ _ => rfl, fun _ _ h => h, fun _ _ h => h⟩

theorem trans {s m e : Store} (h : s.Extends m) (h' : m.Extends e) : s.Extends e where
  size := Nat.le_trans h.size h'.size
  thunk c hc := (h'.thunk c (Nat.lt_of_lt_of_le hc h.size)).trans (h.thunk c hc)
  faults i x hx := h'.faults i x (h.faults i x hx)
  bindings name v hv := h'.bindings name v (h.bindings name v hv)

end Extends

theorem lt_of_thunk {s : Store} {c : CellId} {t : Thunk} (h : s.thunk? c = some t) : c < s.cells.size := by
  unfold thunk? at h
  refine Nat.lt_of_not_le fun hle => ?_
  rw [Array.getElem?_eq_none hle] at h
  cases h

end Store

/-- Whether a thunk is a lap of a repetition. -/
def Thunk.isLap : Thunk → Bool
  | .cycleStart _ _ | .sharedLap _ _ _ | .freshLap _ _ => true
  | _ => false

/-- What is promised of a builder: the sequence that its lists stand for, and how deep their thunks nest. -/
structure Promise where
  depth : Nat
  meaning : Meaning

/-- What settles what cells list: the number of the first cell that counts, and what the builders promise. -/
structure Signature where
  base : Nat
  promises : Maker Value → Option Promise

/-- A collection of lists: the heap they are made on, and what each builder relies on, which once it holds goes on to
hold. -/
structure Collection extends Signature where
  heap : HeapId
  relies : Maker Value → Store → Prop
  lasting : ∀ {s e : Store} (maker : Maker Value), s.Extends e → relies maker s → relies maker e

namespace Signature

/-- The thunk that a cell of the collection was made with. -/
def built (w : Signature) (s : Store) (c : CellId) : Option Thunk := if w.base ≤ c then s.thunk? c else none

/-- A cell stands for an element. -/
def Element (w : Signature) (s : Store) (c : CellId) (x : Int) : Prop :=
  ∃ (tag : Tag) (r : Interval), w.built s c = some (.intervalHead tag (.int r.lo) (.int r.hi)) ∧ r.lo ≤ r.hi ∧
    r.length ≤ sizeLimit ∧ r.lo = x

/-- A cell lists a sequence, and no thunk that is run for an element nests deeper than so many levels.  A lap takes a
level for itself, one for its first node, and those of the list.  A concatenation with a lap is a node of the
repetition, and nests no deeper than the lap. -/
inductive Lists (w : Signature) (s : Store) : Nat → CellId → Meaning → Prop
  | interval {n : Nat} {c : CellId} {tag : Tag} {r : Interval}
    (hc : w.built s c = some (.intervalNode tag (.int r.lo) (.int r.hi))) (hr : r.length ≤ sizeLimit) :
    Lists w s (n + 1) c (.finite r.elements)
  | append {n : Nat} {c a b : CellId} {d d' : Meaning} (hc : w.built s c = some (.appendNode (.cell a) (.cell b)))
    (ha : a < c) (hb : b < c) (hfirst : Lists w s n a d) (hsecond : Lists w s n b d') :
    Lists w s (n + 1) c (d.append d')
  | start {n : Nat} {c a : CellId} {d : Meaning} (hc : w.built s c = some (.cycleStart c (.cell a))) (ha : a < c)
    (hsource : Lists w s n a d) : Lists w s (n + 3) c d.cycle
  | shared {n : Nat} {c a o : CellId} {tag : Tag} {d : Meaning}
    (hc : w.built s c = some (.sharedLap tag (.cell a) (.cell o))) (ha : a < c) (ho : o < c)
    (horigin : w.built s o = some (.cycleStart o (.cell a))) (hao : a < o) (hsource : Lists w s n a d) :
    Lists w s (n + 3) c d.cycle
  | fresh {n : Nat} {c : CellId} {tag : Tag} {maker : Maker Value} {q : Promise}
    (hc : w.built s c = some (.freshLap tag maker)) (hq : w.promises maker = some q) (hn : q.depth ≤ n) :
    Lists w s (n + 3) c q.meaning.cycle
  | node {n : Nat} {c a b : CellId} {t : Thunk} {d d' : Meaning}
    (hc : w.built s c = some (.appendNode (.cell a) (.cell b))) (ha : a < c) (hb : b < c)
    (ht : w.built s b = some t) (hlap : t.isLap = true) (hfirst : Lists w s (n + 2) a d)
    (hlaps : Lists w s (n + 3) b d') : Lists w s (n + 3) c (d.append d')

variable {w : Signature} {s e : Store} {n m : Nat} {c : CellId} {d d' : Meaning} {x : Int}

theorem built_thunk {t : Thunk} (h : w.built s c = some t) : s.thunk? c = some t := by
  unfold built at h
  split at h
  · exact h
  · cases h

theorem lt_of_built {t : Thunk} (h : w.built s c = some t) : c < s.cells.size := Store.lt_of_thunk (built_thunk h)

theorem base_le_of_built {t : Thunk} (h : w.built s c = some t) : w.base ≤ c := by
  unfold built at h
  split at h
  · assumption
  · cases h

theorem built_eq (he : s.Extends e) (hc : c < s.cells.size) : w.built e c = w.built s c := by
  unfold built
  rw [he.thunk c hc]

theorem built_extends (he : s.Extends e) {t : Thunk} (h : w.built s c = some t) : w.built e c = some t := by
  rw [built_eq he (lt_of_built h), h]

namespace Element

theorem lt (h : w.Element s c x) : c < s.cells.size := by
  obtain ⟨tag, r, hc, -⟩ := h
  exact lt_of_built hc

theorem base_le (h : w.Element s c x) : w.base ≤ c := by
  obtain ⟨tag, r, hc, -⟩ := h
  exact base_le_of_built hc

theorem unique {y : Int} (h : w.Element s c x) (h' : w.Element s c y) : x = y := by
  obtain ⟨tag, ⟨lo, hi⟩, hc, -, -, rfl⟩ := h
  obtain ⟨tag', ⟨lo', hi'⟩, hc', -, -, rfl⟩ := h'
  cases hc.symm.trans hc'
  rfl

theorem later (h : w.Element s c x) (he : s.Extends e) : w.Element e c x := by
  obtain ⟨tag, r, hc, hr⟩ := h
  exact ⟨tag, r, built_extends he hc, hr⟩

theorem earlier (h : w.Element e c x) (he : s.Extends e) (hlt : c < s.cells.size) : w.Element s c x := by
  obtain ⟨tag, r, hc, hr⟩ := h
  exact ⟨tag, r, (built_eq he hlt).symm.trans hc, hr⟩

end Element

namespace Lists

theorem built (h : w.Lists s n c d) : ∃ t, w.built s c = some t := by
  cases h <;> exact ⟨_, by assumption⟩

theorem lt (h : w.Lists s n c d) : c < s.cells.size := by
  obtain ⟨t, ht⟩ := h.built
  exact lt_of_built ht

theorem base_le (h : w.Lists s n c d) : w.base ≤ c := by
  obtain ⟨t, ht⟩ := h.built
  exact base_le_of_built ht

theorem not_element (h : w.Lists s n c d) : ¬ w.Element s c x := by
  rintro ⟨tag, r, hc, -⟩
  cases h with
  | interval hc' | append hc' | start hc' | shared hc' | fresh hc' | node hc' => cases hc.symm.trans hc'

theorem pos (h : w.Lists s n c d) : 0 < n := by
  cases h <;> exact Nat.succ_pos _

/-- What a cell lists, it lists in every later store. -/
theorem later (h : w.Lists s n c d) (he : s.Extends e) : w.Lists e n c d := by
  induction h with
  | interval hc hr => exact .interval (built_extends he hc) hr
  | append hc ha hb _ _ iha ihb => exact .append (built_extends he hc) ha hb iha ihb
  | start hc ha _ ih => exact .start (built_extends he hc) ha ih
  | shared hc ha ho horigin hao _ ih => exact .shared (built_extends he hc) ha ho (built_extends he horigin) hao ih
  | fresh hc hq hn => exact .fresh (built_extends he hc) hq hn
  | node hc ha hb ht hlap _ _ iha ihb => exact .node (built_extends he hc) ha hb (built_extends he ht) hlap iha ihb

/-- What an old cell lists in a later store, it listed before. -/
theorem earlier (h : w.Lists e n c d) (he : s.Extends e) (hlt : c < s.cells.size) : w.Lists s n c d := by
  induction h with
  | interval hc hr => exact .interval ((built_eq he hlt).symm.trans hc) hr
  | append hc ha hb _ _ iha ihb =>
    exact .append ((built_eq he hlt).symm.trans hc) ha hb (iha (Nat.lt_trans ha hlt)) (ihb (Nat.lt_trans hb hlt))
  | start hc ha _ ih => exact .start ((built_eq he hlt).symm.trans hc) ha (ih (Nat.lt_trans ha hlt))
  | shared hc ha ho horigin hao _ ih =>
    exact .shared ((built_eq he hlt).symm.trans hc) ha ho ((built_eq he (Nat.lt_trans ho hlt)).symm.trans horigin) hao
      (ih (Nat.lt_trans ha hlt))
  | fresh hc hq hn => exact .fresh ((built_eq he hlt).symm.trans hc) hq hn
  | node hc ha hb ht hlap _ _ iha ihb =>
    exact .node ((built_eq he hlt).symm.trans hc) ha hb ((built_eq he (Nat.lt_trans hb hlt)).symm.trans ht) hlap
      (iha (Nat.lt_trans ha hlt)) (ihb (Nat.lt_trans hb hlt))

theorem mono (h : w.Lists s n c d) (hnm : n ≤ m) : w.Lists s m c d := by
  obtain ⟨k, rfl⟩ := Nat.exists_eq_add_of_le hnm
  clear hnm
  induction h with
  | @interval n c tag r hc hr =>
    rw [Nat.add_right_comm]
    exact .interval hc hr
  | @append n c a b d d' hc ha hb _ _ iha ihb =>
    rw [Nat.add_right_comm]
    exact .append hc ha hb iha ihb
  | @start n c a d hc ha _ ih =>
    rw [Nat.add_right_comm]
    exact .start hc ha ih
  | @shared n c a o tag d hc ha ho horigin hao _ ih =>
    rw [Nat.add_right_comm]
    exact .shared hc ha ho horigin hao ih
  | @fresh n c tag maker q hc hq hn =>
    rw [Nat.add_right_comm]
    exact .fresh hc hq (Nat.le_add_right_of_le hn)
  | @node n c a b t d d' hc ha hb ht hlap _ _ iha ihb =>
    rw [Nat.add_right_comm] at iha ihb ⊢
    exact .node hc ha hb ht hlap iha ihb

/-- What the thunk of a list refers to are lists. -/
theorem refs (h : w.Lists s n c d) {t : Thunk} (ht : w.built s c = some t) :
    ∀ v ∈ t.refs, ∃ b d', v = .cell b ∧ w.Lists s n b d' := by
  intro v hv
  have hl := h
  cases h with
  | interval hc =>
    cases ht.symm.trans hc
    cases hv
  | append hc _ _ hfirst hsecond =>
    cases ht.symm.trans hc
    rcases List.mem_cons.1 hv with rfl | hv
    · exact ⟨_, _, rfl, hfirst.mono (Nat.le_succ _)⟩
    · exact ⟨_, _, List.mem_singleton.1 hv, hsecond.mono (Nat.le_succ _)⟩
  | start hc _ hsource =>
    cases ht.symm.trans hc
    rcases List.mem_cons.1 hv with rfl | hv
    · exact ⟨_, _, rfl, hl⟩
    · exact ⟨_, _, List.mem_singleton.1 hv, hsource.mono (Nat.le_add_right _ 3)⟩
  | shared hc _ _ horigin hao hsource =>
    cases ht.symm.trans hc
    rcases List.mem_cons.1 hv with rfl | hv
    · exact ⟨_, _, rfl, hsource.mono (Nat.le_add_right _ 3)⟩
    · exact ⟨_, _, List.mem_singleton.1 hv, .start horigin hao hsource⟩
  | fresh hc =>
    cases ht.symm.trans hc
    cases hv
  | node hc _ _ _ _ hfirst hlaps =>
    cases ht.symm.trans hc
    rcases List.mem_cons.1 hv with rfl | hv
    · exact ⟨_, _, rfl, hfirst.mono (Nat.le_succ _)⟩
    · exact ⟨_, _, List.mem_singleton.1 hv, hlaps⟩

/-- **A cell lists one sequence only.** -/
theorem unique (h : w.Lists s n c d) (h' : w.Lists s m c d') : d = d' := by
  induction h generalizing m d' with
  | @interval n c tag r hc hr =>
    cases h' with
    | @interval m c tag' r' hc' =>
      obtain ⟨lo, hi⟩ := r
      obtain ⟨lo', hi'⟩ := r'
      cases hc.symm.trans hc'
      rfl
    | append hc' | start hc' | shared hc' | fresh hc' | node hc' => cases hc.symm.trans hc'
  | append hc ha hb _ _ iha ihb =>
    cases h' with
    | append hc' _ _ ha' hb' | node hc' _ _ _ _ ha' hb' =>
      cases hc.symm.trans hc'
      rw [iha ha', ihb hb']
    | interval hc' | start hc' | shared hc' | fresh hc' => cases hc.symm.trans hc'
  | start hc ha _ ih =>
    cases h' with
    | start hc' _ hsource =>
      cases hc.symm.trans hc'
      rw [ih hsource]
    | interval hc' | append hc' | shared hc' | fresh hc' | node hc' => cases hc.symm.trans hc'
  | shared hc ha ho horigin hao _ ih =>
    cases h' with
    | shared hc' _ _ _ _ hsource =>
      cases hc.symm.trans hc'
      rw [ih hsource]
    | interval hc' | append hc' | start hc' | fresh hc' | node hc' => cases hc.symm.trans hc'
  | fresh hc hq hn =>
    cases h' with
    | fresh hc' hq' =>
      cases hc.symm.trans hc'
      cases hq.symm.trans hq'
      rfl
    | interval hc' | append hc' | start hc' | shared hc' | node hc' => cases hc.symm.trans hc'
  | node hc ha hb ht hlap _ _ iha ihb =>
    cases h' with
    | append hc' _ _ ha' hb' | node hc' _ _ _ _ ha' hb' =>
      cases hc.symm.trans hc'
      rw [iha ha', ihb hb']
    | interval hc' | start hc' | shared hc' | fresh hc' => cases hc.symm.trans hc'

/-- There is a least number of levels that a cell nests. -/
theorem least (h : w.Lists s n c d) : ∃ k ≤ n, w.Lists s k c d ∧ ∀ j < k, ∀ d', ¬ w.Lists s j c d' := by
  classical
  have hex : ∃ k, ∃ d', w.Lists s k c d' := ⟨n, d, h⟩
  obtain ⟨d', hfind⟩ := Nat.find_spec hex
  refine ⟨Nat.find hex, Nat.find_min' hex ⟨d, h⟩, h.unique hfind ▸ hfind, fun j hj d' hl => ?_⟩
  exact Nat.find_min hex hj ⟨d', hl⟩

end Lists

end Signature
end Retention
