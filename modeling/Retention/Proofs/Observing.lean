import Retention.Iterator
import Retention.Proofs.Showing
/-!
# Observing — what can be read off a list

A list can be forced, stepped along, asked for its first element, and its elements can be taken.  Each of these tells
of a list what the sequence that it stands for tells, or raises the error of an empty sequence where the sequence has
no more to tell (`Collection.Observed`), and leaves a sound store for whatever is observed next.
-/
namespace Retention

namespace Sequence

/-- The value of the first element of a list. -/
def first (run : Runner) (xs : Value) : Run Value := do forceValue run (← head run xs)

/-- The value of the element of a list at a position. -/
def nth (run : Runner) (i : Nat) (xs : Value) : Run Value := do first run (← drop run i xs)

end Sequence

namespace Collection

open Signature
open Run (Gives finalStore)

variable {p : Program} {depth : Nat} {w : Collection} {s m e : Store} {n k : Nat} {a b c : CellId} {d d' : Meaning}
  {x : Int} {α β : Type}

/-- No list of the collection is being forced. -/
def Rested (w : Collection) (s : Store) : Prop := ∀ n, w.Idle n s

theorem Rested.later (h : w.Rested s) (he : s.Advances e) : w.Rested e := fun n => (h n).later he

/-! ## Forces -/

theorem force_observed (hh : w.Honest p) (hs : w.Sound s) (hr : w.Rested s) (hl : w.Lists s n c d) (hn : n ≤ depth) :
    w.Observed s (fun v e => w.Node e n d v) (d.read 0 = .failed) (force (p.runAt depth) c s) :=
  (answers hh n s c d depth hs (hr n) hl hn).1

/-- The cell of an element gives the element. -/
theorem element_observed (hs : w.Sound s) (hx : w.Element s c x) (hdepth : 0 < depth) :
    w.Observed s (fun v _ => v = .int x) False (force (p.runAt depth) c s) := by
  obtain ⟨under, rfl⟩ : ∃ under, depth = under + 1 := ⟨depth - 1, by omega⟩
  have hfine := hs.fine c hx.base_le
  have hfits := hfine.element x hx
  cases hstate : s.state c with
  | evaluated v =>
    rw [hstate] at hfits
    rw [force_evaluated hstate]
    exact .value hs (.refl s) not_false hfits
  | failed v => exact absurd hfits (by rw [hstate]; exact not_false)
  | inProgress t => exact absurd hfits (by rw [hstate]; exact not_false)
  | suspended t =>
    have hthunk := hfine.thunk t hstate
    have hmade := hx
    obtain ⟨tag, r, hbuilt, hne, hlimit, rfl⟩ := hmade
    cases hthunk.symm.trans (built_thunk hbuilt)
    have hext := Store.Extends.began s c w.heap (.intervalHead tag (.int r.lo) (.int r.hi))
    let m := s.began c w.heap (.intervalHead tag (.int r.lo) (.int r.hi))
    have hlt : c < m.cells.size := Nat.lt_of_lt_of_le hx.lt hext.size
    have hserves : m.Serves w.heap := (hs.serves.setState c fun v hv => by cases hv).recorded _
    have hagrees : w.Fine (m.setState c (.evaluated (.int r.lo))) c := by
      refine fine_setState hlt (fun _ h => by cases h) (fun j d hl => ?_) fun y hy => ?_
      · exact absurd hx (hl.earlier hext hx.lt).not_element
      · obtain rfl := hx.unique (hy.earlier hext hx.lt)
        rfl
    obtain ⟨e, he, hsound, hme, hcells⟩ := Sound.finish hserves (Nat.le_trans hs.base hext.size)
      (fun b => hs.fine_began _) (fun b u => hs.relied_began _) (fun v hv => by cases hv) hagrees
    rw [force_of_suspended p under hs.serves.active hstate,
      show (Thunk.intervalHead tag (.int r.lo) (.int r.hi)).produce p (p.runAt under) m = .ok (.int r.lo) m from
        Sequence.element_zero hne hlimit tag m]
    dsimp only
    rw [he]
    exact .value hsound ((Store.Advances.refl m).settled hme hcells hlt (fun h => by cases h)) not_false rfl

/-! ## Steps along a list -/

theorem dropSteps_observed (hh : w.Honest p) (hs : w.Sound s) (hr : w.Rested s) (hl : w.Lists s n c d) (hn : n ≤ depth)
    (k : Nat) : w.Observed s (fun v e => ∃ b, v = .cell b ∧ w.Lists e n b (d.drop k)) (∃ i < k, d.read i = .failed)
      (Sequence.dropSteps (p.runAt depth) k (.cell c) s) := by
  induction k generalizing s c d with
  | zero => exact .value hs (.refl s) (by simp) ⟨c, rfl, by rwa [Meaning.drop_zero]⟩
  | succ k ih =>
    unfold Sequence.dropSteps
    have hforce : w.Observed s _ _ (forceValue (p.runAt depth) (.cell c) s) := force_observed hh hs hr hl hn
    refine hforce.bind (fun hd => ⟨0, Nat.succ_pos k, hd⟩) fun v m hm hsm hd hnode => ?_
    rcases hnode.cases with ⟨x, tag, head, tail, hx, rfl, hhead, htail⟩ | ⟨hx, tag, rfl⟩
    · refine (ih hm (hr.later hsm) htail).congr (fun v e hv => ?_) (Meaning.fails_rest_iff hd k)
      rwa [Meaning.drop_succ]
    · refine .value hm (.refl m) (Meaning.not_fails_of_done hx _) ⟨c, rfl, ?_⟩
      rw [Meaning.drop_of_done hx]
      exact hl.later hsm.toExtends

theorem drop_observed (hh : w.Honest p) (hs : w.Sound s) (hr : w.Rested s) (hl : w.Lists s n c d) (hn : n ≤ depth)
    (k : Nat) : w.Observed s (fun v e => ∃ b, v = .cell b ∧ w.Lists e n b (d.drop k)) (∃ i < k, d.read i = .failed)
      (Sequence.drop (p.runAt depth) k (.cell c) s) := by
  rw [Sequence.drop, if_neg (Int.not_lt.2 (Int.natCast_nonneg k)), Int.toNat_natCast]
  exact dropSteps_observed hh hs hr hl hn k

/-- The first cell of a list.  There is none at the end, and that is the error of an empty sequence as well. -/
theorem head_observed (hh : w.Honest p) (hs : w.Sound s) (hr : w.Rested s) (hl : w.Lists s n c d) (hn : n ≤ depth) :
    w.Observed s (fun v e => ∃ x head, v = .cell head ∧ d.read 0 = .element x ∧ w.Element e head x)
      (∀ x, d.read 0 ≠ .element x) (Sequence.head (p.runAt depth) (.cell c) s) := by
  unfold Sequence.head
  rw [Run.bind_ok (show Run.cellOf "state" (.cell c) s = .ok c s from rfl)]
  refine (force_observed hh hs hr hl hn).bind (fun hd x hx => ?_) fun v m hm hsm hd hnode => ?_
  · cases hd.symm.trans hx
  · rcases hnode.cases with ⟨x, tag, head, tail, hx, rfl, hhead, htail⟩ | ⟨hx, tag, rfl⟩
    · exact .value hm (.refl m) (fun h => h x hx) ⟨x, head, rfl, hx, hhead⟩
    · refine .error (hm.faulted ⟨.noHead (m.address c), [.cell c]⟩) (.faulted m _) (fun x hx' => ?_)
        ⟨_, Array.getElem?_push_size, rfl⟩
      cases hx.symm.trans hx'

theorem first_observed (hh : w.Honest p) (hs : w.Sound s) (hr : w.Rested s) (hl : w.Lists s n c d) (hn : n ≤ depth) :
    w.Observed s (fun v _ => ∃ x, d.read 0 = .element x ∧ v = .int x) (∀ x, d.read 0 ≠ .element x)
      (Sequence.first (p.runAt depth) (.cell c) s) := by
  refine (head_observed hh hs hr hl hn).bind id fun v m hm hsm hd hv => ?_
  obtain ⟨x, head, rfl, hx, hhead⟩ := hv
  have hforce : w.Observed m _ _ (forceValue (p.runAt depth) (.cell head) m) :=
    element_observed hm hhead (Nat.lt_of_lt_of_le hl.pos hn)
  exact hforce.congr (fun v e hv => ⟨x, hx, hv⟩) ⟨False.elim, hd⟩

theorem nth_observed (hh : w.Honest p) (hs : w.Sound s) (hr : w.Rested s) (hl : w.Lists s n c d) (hn : n ≤ depth)
    (i : Nat) : w.Observed s (fun v _ => ∃ x, d.read i = .element x ∧ v = .int x) (∀ x, d.read i ≠ .element x)
      (Sequence.nth (p.runAt depth) i (.cell c) s) := by
  refine (drop_observed hh hs hr hl hn i).bind (fun hd x hx => ?_) fun v m hm hsm hd hv => ?_
  · obtain ⟨j, hj, hread⟩ := hd
    cases (Meaning.read_of_failed hread (Nat.le_of_lt hj)).symm.trans hx
  · obtain ⟨b, rfl, hb⟩ := hv
    have hread : (d.drop i).read 0 = d.read i := by rw [Meaning.read_drop, Nat.add_zero]
    have hfirst := first_observed hh hm (hr.later hsm) hb hn
    rw [hread] at hfirst
    exact hfirst

/-! ## The first elements at once -/

theorem guarded_observed {right : α → Store → Prop} {fails : Prop} {y : Run α} (h : w.Observed s right fails (y s)) :
    w.Observed s right fails (Iterator.guarded y s) := by
  unfold Iterator.guarded
  rcases h.cases with ⟨a, e, hrun, he, hse, hf, ha⟩ | ⟨x, e, hrun, he, hse, hf, hx⟩
  · rw [Run.bind_ok (show Run.attempt y s = .ok (.ok a) e by rw [Run.attempt_apply, hrun])]
    exact .value he hse hf ha
  · rw [Run.bind_ok (show Run.attempt y s = .ok (.error x) e by rw [Run.attempt_apply, hrun])]
    obtain ⟨r, hr, hkind⟩ := hx
    dsimp only
    rw [Run.bind_ok (Run.get_apply e), hr]
    dsimp only
    rw [if_neg (by rw [hkind]; decide)]
    exact .error he hse hf ⟨r, hr, hkind⟩

/-- One step of a walk: the next element and where the walk goes on, or nothing at the end. -/
theorem step_observed {place : Place} (hh : w.Honest p) (hs : w.Sound s) (hr : w.Rested s)
    (hplace : Iterator.listAt place s = .ok (.cell c) s) (hl : w.Lists s n c d) (hn : n ≤ depth) :
    w.Observed s
      (fun o e => (d.read 0 = .done ∧ o = none) ∨ ∃ x tag head tail, d.read 0 = .element x ∧
        o = some (.int x, .past (.cons tag (.cell head) (.cell tail))) ∧ w.Lists e n tail d.rest)
      (d.read 0 = .failed) (Iterator.step (p.runAt depth) place s) := by
  unfold Iterator.step
  rw [Run.bind_ok hplace]
  have hforce : w.Observed s _ _ (forceValue (p.runAt depth) (.cell c) s) := force_observed hh hs hr hl hn
  refine hforce.bind id fun v m hm hsm hd hnode => ?_
  rcases hnode.cases with ⟨x, tag, head, tail, hx, rfl, hhead, htail⟩ | ⟨hx, tag, rfl⟩
  · rw [Run.bind_ok (show Run.truth (.cons tag (.cell head) (.cell tail)) m = .ok true m from rfl)]
    have helement : w.Observed m _ _ (Iterator.forceHead (p.runAt depth) (.cons tag (.cell head) (.cell tail)) m) :=
      element_observed hm hhead (Nat.lt_of_lt_of_le hl.pos hn)
    refine helement.bind False.elim fun v e he hme _ hv => ?_
    subst hv
    exact .value he (.refl e) hd (.inr ⟨x, tag, head, tail, hx, rfl, htail.later hme.toExtends⟩)
  · rw [Run.bind_ok (show Run.truth (.nil tag) m = .ok false m from rfl)]
    exact .value hm (.refl m) hd (.inl ⟨hx, rfl⟩)

theorem takeOnto_observed (place : Place) (hh : w.Honest p) (hs : w.Sound s) (hr : w.Rested s)
    (hplace : ∀ m, Iterator.listAt place m = .ok (.cell c) m) (hl : w.Lists s n c d) (hn : n ≤ depth) (k : Nat)
    (taken : List Value) : w.Observed s (fun vs _ => vs = taken.reverse ++ (d.take k).map .int)
      (∃ i < k, d.read i = .failed) (Sequence.takeOnto (p.runAt depth) k taken place s) := by
  induction k generalizing s c d place taken with
  | zero => exact .value hs (.refl s) (by simp) (by cases d <;> simp [Meaning.take])
  | succ k ih =>
    unfold Sequence.takeOnto
    refine (guarded_observed (step_observed hh hs hr (hplace s) hl hn)).bind (fun hd => ⟨0, Nat.succ_pos k, hd⟩)
      fun o m hm hsm hd ho => ?_
    rcases ho with ⟨hx, rfl⟩ | ⟨x, tag, head, tail, hx, rfl, htail⟩
    · refine .value hm (.refl m) (Meaning.not_fails_of_done hx _) ?_
      rw [Meaning.take_of_done hx]
      simp
    · refine (ih (.past (.cons tag (.cell head) (.cell tail))) hm (hr.later hsm) (fun _ => rfl) htail
        (.int x :: taken)).congr (fun vs e hvs => ?_) (Meaning.fails_rest_iff hd k)
      rw [hvs, Meaning.take_succ_of_element hx]
      simp

theorem take_observed (hh : w.Honest p) (hs : w.Sound s) (hr : w.Rested s) (hl : w.Lists s n c d) (hn : n ≤ depth)
    (k : Nat) : w.Observed s (fun vs _ => vs = (d.take k).map .int) (∃ i < k, d.read i = .failed)
      (Sequence.take (p.runAt depth) k (.cell c) s) :=
  takeOnto_observed (.before (.cell c)) hh hs hr (fun _ => rfl) hl hn k []

end Collection
end Retention
