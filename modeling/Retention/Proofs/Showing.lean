import Retention.Proofs.Soundness
/-!
# Showing — a force shows how a list begins

In a sound store a force of a cell that lists a sequence shows how the sequence begins, and leaves the store sound
(`Collection.answers`).  The induction is on the levels that the thunks of the cell nest.  A lap forces the list that
it repeats, and then a concatenation that it has just made of that list with the next lap; by then the list is
evaluated, so this last force nests no further.

What a builder of a repetition by name does is part of the collection: `Collection.Honest` says that it keeps its
promise.
-/
namespace Retention

namespace Run

/-- A computation gives a right value, unless it fails; then it raises the error of an empty sequence. -/
inductive Gives {α : Type} (right : α → Store → Prop) (fails : Prop) : EStateM.Result Halt Store α → Prop
  | value {a : α} {e : Store} (hfails : ¬ fails) (hright : right a e) : Gives right fails (.ok a e)
  | error {x : FaultId} {e : Store} (hfails : fails) (hx : e.isEmptyError x) : Gives right fails (.error (.raised x) e)

end Run

namespace Collection

open Signature
open Run (Gives finalStore)

variable {p : Program} {depth : Nat} {w : Collection} {s m e : Store} {n k : Nat} {a b c : CellId} {d d' : Meaning}
  {α β : Type}

/-! ## What can be observed -/

/-- A computation gives what it should, and keeps the store sound. -/
structure Observed (w : Collection) (s : Store) (right : α → Store → Prop) (fails : Prop)
    (r : EStateM.Result Halt Store α) : Prop where
  sound : w.Sound (finalStore r)
  advances : s.Advances (finalStore r)
  gives : Gives right fails r

namespace Observed
variable {right : α → Store → Prop} {right' : β → Store → Prop} {fails fails' : Prop}
  {r : EStateM.Result Halt Store α}

theorem cases (h : w.Observed s right fails r) :
    (∃ a e, r = .ok a e ∧ w.Sound e ∧ s.Advances e ∧ ¬ fails ∧ right a e) ∨
    ∃ x e, r = .error (.raised x) e ∧ w.Sound e ∧ s.Advances e ∧ fails ∧ e.isEmptyError x := by
  cases h.gives with
  | @value a e hfails hright => exact .inl ⟨a, e, rfl, h.sound, h.advances, hfails, hright⟩
  | @error x e hfails hx => exact .inr ⟨x, e, rfl, h.sound, h.advances, hfails, hx⟩

theorem keeps (h : w.Observed s right fails r) : w.Sound (finalStore r) ∧ s.Advances (finalStore r) :=
  ⟨h.sound, h.advances⟩

theorem result (h : w.Observed s right False r) :
    ∃ a e, r = .ok a e ∧ w.Sound e ∧ s.Advances e ∧ right a e := by
  rcases h.cases with ⟨a, e, hrun, he, hse, -, ha⟩ | ⟨x, e, -, -, -, hf, -⟩
  · exact ⟨a, e, hrun, he, hse, ha⟩
  · exact hf.elim

theorem value {a : α} (hs : w.Sound e) (he : s.Advances e) (hfails : ¬ fails) (hright : right a e) :
    w.Observed s right fails (.ok a e) := ⟨hs, he, .value hfails hright⟩

theorem error {x : FaultId} (hs : w.Sound e) (he : s.Advances e) (hfails : fails) (hx : e.isEmptyError x) :
    w.Observed s right fails (.error (.raised x) e) := ⟨hs, he, .error hfails hx⟩

theorem after (h : w.Observed m right fails r) (hm : s.Advances m) : w.Observed s right fails r :=
  ⟨h.sound, hm.trans h.advances, h.gives⟩

theorem congr {right' : α → Store → Prop} (h : w.Observed s right fails r) (hright : ∀ a e, right a e → right' a e)
    (hfails : fails ↔ fails') : w.Observed s right' fails' r := by
  rcases h.cases with ⟨a, e, rfl, he, hse, hf, ha⟩ | ⟨x, e, rfl, he, hse, hf, hx⟩
  · exact .value he hse (mt hfails.2 hf) (hright a e ha)
  · exact .error he hse (hfails.1 hf) hx

/-- What is done with a value that was observed.  If there is none, all of it fails. -/
theorem bind {f : α → Run β} {y : Run α} (h : w.Observed s right fails (y s)) (hfails : fails → fails')
    (hf : ∀ a m, w.Sound m → s.Advances m → ¬ fails → right a m → w.Observed m right' fails' (f a m)) :
    w.Observed s right' fails' ((y >>= f) s) := by
  rcases h.cases with ⟨a, e, hrun, he, hse, hfail, ha⟩ | ⟨x, e, hrun, he, hse, hfail, hx⟩
  · rw [Run.bind_ok hrun]
    exact (hf a e he hse hfail ha).after hse
  · rw [Run.bind_error hrun]
    exact .error he hse (hfails hfail) hx

end Observed

section
variable {r : EStateM.Result Halt Store Value}

/-- The result of a computation that shows how a sequence begins. -/
def Shows (w : Collection) (s : Store) (n : Nat) (d : Meaning) (r : EStateM.Result Halt Store Value) : Prop :=
  w.Observed s (fun v e => w.Node e n d v) (d.read 0 = .failed) r

/-- The result of a force that shows how a sequence begins. -/
def Forced (w : Collection) (s : Store) (n : Nat) (c : CellId) (d : Meaning) (r : EStateM.Result Halt Store Value) :
    Prop := w.Shows s n d r ∧ ∀ v e, r = .ok v e → e.state c = .evaluated v

theorem shows_node {v : Value} (he : w.Sound e) (hse : s.Advances e) (hnode : w.Node e n d v) :
    w.Shows s n d (.ok v e) := by
  refine .value he hse (fun hd => ?_) hnode
  unfold Node at hnode
  rw [hd] at hnode
  exact hnode

theorem Shows.mono (h : w.Shows s n d r) (hnk : n ≤ k) : w.Shows s k d r :=
  Observed.congr h (fun _ _ hnode => hnode.mono hnk) .rfl

theorem Forced.mono (h : w.Forced s n c d r) (hnk : n ≤ k) : w.Forced s k c d r := ⟨h.1.mono hnk, h.2⟩

end

/-! ## One node -/

theorem intervalNode_shows {i : Interval} (hs : w.Sound s) (hi : i.length ≤ sizeLimit) (tag : Tag) (n : Nat) :
    w.Shows s (n + 1) (.finite i.elements) (Sequence.intervalNode tag (.int i.lo) (.int i.hi) s) := by
  by_cases hne : i.lo ≤ i.hi
  · rw [Sequence.intervalNode_apply hs.serves.active hne hi, Interval.elements_of_nonempty hne]
    let head := Thunk.intervalHead tag (.int i.lo) (.int i.hi)
    let tail := Thunk.intervalNode s.nextTag (.int i.rest.lo) (.int i.rest.hi)
    have hm : w.Sound (s.register w.heap (.suspended head)).tagged :=
      (hs.register (t := head) (Store.onlyCells_map []) (by simp [head, Relied])).tagged
    have hsm := (Store.Advances.register s w.heap head).trans (.tagged _)
    have he := hm.register (t := tail) (Store.onlyCells_map []) (by simp [tail, Relied])
    have hme := (Store.Advances.register (s.register w.heap (.suspended head)).tagged w.heap tail).trans (.tagged _)
    refine shows_node he.tagged (hsm.trans hme) (node_cons (x := i.lo) rfl ?_ ?_)
    · exact Element.later ⟨tag, i, hs.built_new head, hne, hi, rfl⟩
        ((Store.Advances.tagged _).trans hme).toExtends
    · have hbuilt := hm.built_new tail
      rw [show (s.register w.heap (.suspended head)).tagged.cells.size = s.cells.size + 1 from
        Store.size_register ..] at hbuilt
      refine Lists.later (.interval hbuilt ?_) (Store.Advances.tagged _).toExtends
      rw [Interval.length_rest]
      exact Nat.le_trans (Nat.sub_le _ _) hi
  · have hempty := Int.not_le.1 hne
    rw [Sequence.intervalNode_of_empty hempty, Interval.elements_of_empty hempty]
    exact shows_node hs (.refl s) (node_nil rfl _)

theorem relied_appendNode (w : Collection) (s : Store) (xs ys : Value) : w.Relied s (.appendNode xs ys) := by
  simp [Relied]

/-- A concatenation shows how the first list begins, or the second if the first is at its end. -/
theorem appendNode_shows {run : Runner} (hb : b < s.cells.size) (hfirst : w.Shows s n d (force run a s))
    (hsecond : ∀ e, w.Sound e → s.Advances e → d.read 0 = .done → w.Shows e k d' (force run b e))
    (hrest : ∀ e c tail, s.Extends e → w.built e c = some (.appendNode (.cell tail) (.cell b)) → tail < c → b < c →
      w.Lists e n tail d.rest → w.Lists e k c (d.rest.append d')) :
    w.Shows s k (d.append d') (Sequence.appendNode run (.cell a) (.cell b) s) := by
  rcases hfirst.cases with ⟨v, e, hrun, he, hse, -, hnode⟩ | ⟨x, e, hrun, he, hse, hd, hx⟩
  · rcases hnode.cases with ⟨x, tag, head, tail, hd, rfl, hhead, htail⟩ | ⟨hd, tag, rfl⟩
    · rw [Sequence.appendNode_of_cons he.serves.active hrun]
      have hem := (Store.Advances.register e w.heap (.appendNode (.cell tail) (.cell b))).trans (.tagged _)
      have hm := (he.register (t := .appendNode (.cell tail) (.cell b)) (Store.onlyCells_pair tail b)
        (relied_appendNode w e _ _)).tagged
      refine shows_node hm (hse.trans hem)
        (node_cons (Meaning.read_append_of_element hd d') (hhead.later hem.toExtends) ?_)
      rw [Meaning.rest_append_of_element hd]
      exact hrest _ _ tail (hse.trans hem).toExtends (built_extends (Store.Advances.tagged _).toExtends (he.built_new _))
        htail.lt (Nat.lt_of_lt_of_le hb hse.size) (htail.later hem.toExtends)
    · rw [Sequence.appendNode_of_nil hrun, Meaning.append_of_done hd]
      exact (hsecond e he hse hd).after hse
  · rw [Sequence.appendNode_of_error hrun]
    exact .error he hse (Meaning.read_append_of_failed hd d') hx

/-! ## Forces -/

/-- A cell of the collection gets its value, and the force is counted. -/
theorem Sound.finish {v : Value} (hserves : e.Serves w.heap) (hbase : w.base ≤ e.cells.size)
    (hothers : ∀ b, b ≠ c → w.base ≤ b → w.Fine e b) (hrelied : ∀ b t, w.built e b = some t → w.Relied e t)
    (hv : Store.OnlyCells v.refs) (hc : w.Fine (e.setState c (.evaluated v)) c) : ∃ m,
      ((fun _ => v) <$> Run.noteForced w.heap) ((e.recorded (.returned (some c) v)).setState c (.evaluated v)) = .ok v m ∧
      w.Sound m ∧ e.Extends m ∧ m.cells = (e.setState c (.evaluated v)).cells := by
  have hset : w.Sound (e.setState c (.evaluated v)) := .setState hserves hbase hothers hrelied hv hc
  have hsound : w.Sound ((e.recorded (.returned (some c) v)).setState c (.evaluated v)) :=
    hset.congr { Store.Extends.refl (e.setState c (.evaluated v)) with } (hset.serves.congr rfl rfl rfl) rfl
  obtain ⟨heaps, hnote, hserves'⟩ := Run.noteForced_eq_ok hsound.serves
  have hextends := (Store.Advances.recorded e (.returned (some c) v)).toExtends.trans (.setState _ c (.evaluated v))
  refine ⟨_, ?_, hsound.congr ?_ hserves' rfl, hextends.trans ?_, rfl⟩
  · rw [Run.map_apply, hnote]
  · exact { Store.Extends.refl _ with }
  · exact { Store.Extends.refl _ with }

theorem Sound.aborted {x : FaultId} (he : w.Sound e) (hlt : c < e.cells.size) (hd : d.read 0 = .failed)
    (hx : e.isEmptyError x) (hl : ∀ n d', w.Lists e n c d' → d' = d) (hc : ∀ x, ¬ w.Element e c x) :
    w.Sound (e.aborted c x) := by
  have hr := he.recorded (.raised (some c) x)
  have hext := (Store.Advances.recorded e (.raised (some c) x)).toExtends
  have hagrees : w.Fine (e.aborted c x) c := by
    refine fine_setState hlt (fun _ h => by cases h) (fun n d' hl' => ?_) fun y hy => absurd (hy.earlier hext hlt) (hc y)
    obtain rfl := hl n d' (hl'.earlier hext hlt)
    exact ⟨hd, x, rfl, hx⟩
  exact .setState hr.serves hr.base (fun b _ => hr.fine b) hr.relied (fun v hv => by cases hv) hagrees

/-- **A cell that lists a sequence shows how it begins, once its thunk does**, as long as the thunk is not being run. -/
theorem force_shows (hs : w.Sound s) (hl : w.Lists s n c d) (hidle : ¬ s.running c)
    (hproduce : ∀ t k, w.built s c = some t → k ≤ n → w.Lists s k c d → (∀ j < k, ∀ d', ¬ w.Lists s j c d') →
      w.Sound (s.began c w.heap t) →
      w.Shows (s.began c w.heap t) k d (t.produce p (p.runAt depth) (s.began c w.heap t))) :
    w.Forced s n c d (force (p.runAt (depth + 1)) c s) := by
  have hfine := hs.fine c hl.base_le
  have hfits := hfine.list n d hl
  cases hstate : s.state c with
  | evaluated v =>
    rw [hstate] at hfits
    rw [force_evaluated hstate]
    exact ⟨shows_node hs (.refl s) hfits, fun _ _ h => by cases h; exact hstate⟩
  | failed v =>
    rw [hstate] at hfits
    obtain ⟨hd, x, rfl, hx⟩ := hfits
    rw [force_failed hstate]
    exact ⟨.error hs (.refl s) hd hx, fun _ _ h => by cases h⟩
  | inProgress t => exact absurd (by rw [Store.running, hstate]; rfl) hidle
  | suspended t =>
    -- the state that the cell gets must agree with the fewest levels that it nests
    obtain ⟨k, hkn, hlk, hleast⟩ := hl.least
    have hbuilt := hfine.built hl.base_le hstate
    have hext := Store.Extends.began s c w.heap t
    have hshows := hproduce t k hbuilt hkn hlk hleast (hs.began hl hstate)
    refine Forced.mono ?_ hkn
    rw [force_of_suspended p depth hs.serves.active hstate]
    rcases hshows.cases with ⟨v, e, hrun, he, hbe, -, hnode⟩ | ⟨x, e, hrun, he, hbe, hd, hx⟩
    all_goals
      have hse := hext.trans hbe.toExtends
      have hlt := Nat.lt_of_lt_of_le hl.lt hse.size
      rw [hrun]
      dsimp only
    · have hagrees : w.Fine (e.setState c (.evaluated v)) c := by
        refine fine_setState hlt (fun _ h => by cases h) (fun j d' hl' => ?_) fun x hx => ?_
        · have hls := hl'.earlier hse hl.lt
          obtain rfl := hls.unique hl
          exact hnode.mono (Nat.le_of_not_lt fun hj => hleast j hj _ hls)
        · exact absurd (hx.earlier hse hl.lt) hl.not_element
      obtain ⟨m, hm, hsound, hem, hcells⟩ :=
        Sound.finish he.serves he.base (fun b _ => he.fine b) he.relied hnode.refs hagrees
      rw [hm]
      refine ⟨shows_node hsound (hbe.settled hem hcells hlt (fun h => by cases h)) (hnode.later hem), fun v' m' h => ?_⟩
      cases h
      rw [Store.state_of_cells hcells]
      exact Store.state_setState_self e c (.evaluated v) hlt
    · have haborted :=
        (Store.Advances.recorded e (.raised (some c) x)).toExtends.trans (.setState _ c (.failed (.fault x)))
      refine ⟨.error (he.aborted hlt hd hx (fun j d' hl' => (hl'.earlier hse hl.lt).unique hl) (fun y hy => ?_))
        (hbe.settled haborted rfl hlt (fun h => by cases h)) hd (haborted.isEmptyError hx), fun _ _ h => by cases h⟩
      exact hl.not_element (hy.earlier hse hl.lt)

/-- The force of a concatenation.  The lists that it forces nest less deep, but for a second list that is a lap. -/
theorem force_append_shows (hs : w.Sound s) (hl : w.Lists s n c d)
    (hc : w.built s c = some (.appendNode (.cell a) (.cell b))) (hidle : ¬ s.running c)
    (hfirst : ∀ j d, j < n → (∀ d', ¬ w.Lists s j c d') → w.Lists s j a d →
      w.Sound (s.began c w.heap (.appendNode (.cell a) (.cell b))) →
      w.Shows (s.began c w.heap (.appendNode (.cell a) (.cell b))) j d
        (force (p.runAt depth) a (s.began c w.heap (.appendNode (.cell a) (.cell b)))))
    (hsecond : ∀ j d e, j ≤ n → (∀ i < j, ∀ d', ¬ w.Lists s i c d') →
      (j < n ∧ ∀ d', ¬ w.Lists s j c d') ∨ (∃ t, w.built s b = some t ∧ t.isLap = true) → w.Lists s j b d → w.Sound e →
      (s.began c w.heap (.appendNode (.cell a) (.cell b))).Advances e → (∃ i d, w.Lists s i a d ∧ d.read 0 = .done) →
      w.Shows e j d (force (p.runAt depth) b e)) :
    w.Forced s n c d (force (p.runAt (depth + 1)) c s) := by
  refine force_shows hs hl hidle fun t k ht hkn hlk hleast hbegan => ?_
  cases hc.symm.trans ht
  have hext := Store.Extends.began s c w.heap (.appendNode (.cell a) (.cell b))
  cases hlk with
  | interval hc' | start hc' | shared hc' | fresh hc' => cases hc.symm.trans hc'
  | @append j _ _ _ _ _ hc' ha hb hla hlb =>
    cases hc.symm.trans hc'
    have hleast' : ∀ i < j, ∀ d', ¬ w.Lists s i c d' := fun i hi => hleast i (Nat.lt_succ_of_lt hi)
    have hnot := hleast j (Nat.lt_succ_self j)
    refine appendNode_shows (Nat.lt_of_lt_of_le hlb.lt hext.size) (hfirst j _ hkn hnot hla hbegan)
      (fun e he hbe hd => ?_) fun e c' tail hbe hbuilt htail hb' hlt => ?_
    · exact (hsecond j _ e (Nat.le_of_lt hkn) hleast' (.inl ⟨hkn, hnot⟩) hlb he hbe ⟨j, _, hla, hd⟩).mono (Nat.le_succ j)
    · exact .append hbuilt htail hb' hlt (hlb.later (hext.trans hbe))
  | @node j _ _ _ t _ _ hc' ha hb ht' hlap hla hlb =>
    cases hc.symm.trans hc'
    refine appendNode_shows (Nat.lt_of_lt_of_le hlb.lt hext.size)
      (hfirst (j + 2) _ hkn (hleast _ (Nat.lt_succ_self _)) hla hbegan)
      (fun e he hbe hd => ?_) fun e c' tail hbe hbuilt htail hb' hlt => ?_
    · exact hsecond (j + 3) _ e hkn hleast (.inr ⟨t, ht', hlap⟩) hlb he hbe ⟨j + 2, _, hla, hd⟩
    · exact .node hbuilt htail hb' (built_extends (hext.trans hbe) ht') hlap hlt (hlb.later (hext.trans hbe))

/-! ## Laps -/

/-- Once its list is evaluated, a lap begins with a concatenation of the list and the next lap, and this one shows how
the repetition begins. -/
theorem firstNode_shows {next : Thunk} {v : Value} {x : Int} (hs : w.Sound s) (hl : w.Lists s n a d)
    (hstate : s.state a = .evaluated v) (hd : d.read 0 = .element x) (hrefs : Store.OnlyCells next.refs)
    (hrelied : w.Relied s next) (hlap : next.isLap = true)
    (hnext : w.Lists (s.register w.heap (.suspended next)) (n + 3) s.cells.size d.cycle) :
    w.Shows s (n + 3) d.cycle (force (p.runAt (depth + 1)) (s.cells.size + 1)
      ((s.register w.heap (.suspended next)).register w.heap
        (.suspended (.appendNode (.cell a) (.cell s.cells.size))))) := by
  let m := s.register w.heap (.suspended next)
  have hm : w.Sound m := hs.register hrefs hrelied
  have hsm := Store.Advances.register s w.heap next
  have hsize : m.cells.size = s.cells.size + 1 := Store.size_register ..
  let thunk := Thunk.appendNode (.cell a) (.cell s.cells.size)
  let e := m.register w.heap (.suspended thunk)
  have he : w.Sound e := hm.register (t := thunk) (Store.onlyCells_pair _ _) (relied_appendNode _ _ _ _)
  have hme := Store.Advances.register m w.heap thunk
  have hle := hl.later (hsm.trans hme).toExtends
  have hbuilt : w.built e (s.cells.size + 1) = some thunk := hsize ▸ hm.built_new thunk
  have halt : a < s.cells.size + 1 := Nat.lt_succ_of_lt hl.lt
  have hlists : w.Lists e (n + 3) (s.cells.size + 1) d.cycle := by
    rw [← Meaning.append_cycle hd]
    exact .node hbuilt halt (Nat.lt_succ_self _) (built_extends hme.toExtends (hs.built_new next)) hlap
      (hle.mono (Nat.le_add_right n 2)) (hnext.later hme.toExtends)
  have hnew : e.state (s.cells.size + 1) = .suspended thunk := hsize ▸ Store.state_register_new m w.heap _
  have hidle : ¬ e.running (s.cells.size + 1) := by
    rw [Store.running, hnew]
    exact fun h => by cases h
  -- the list is evaluated, so this force runs no thunk but its own
  have hevaluated : (e.began (s.cells.size + 1) w.heap thunk).state a = .evaluated v := by
    rw [Store.state_began_of_ne _ (Nat.ne_of_lt halt), Store.state_register_of_lt (hsize.symm ▸ halt),
      Store.state_register_of_lt hl.lt, hstate]
  refine (force_append_shows he hlists hbuilt hidle (fun j d' _ _ hlj hbegan => ?_)
    fun j d' e' _ _ _ _ _ _ hdone => ?_).1.after (hsm.trans hme)
  · rw [force_evaluated hevaluated]
    have hfits := (hbegan.fine a hl.base_le).list j d' (hlj.later (Store.Extends.began _ _ _ _))
    rw [hevaluated] at hfits
    exact shows_node hbegan (.refl _) hfits
  · obtain ⟨i, d₀, hl₀, hd₀⟩ := hdone
    obtain rfl := hl₀.unique hle
    cases hd.symm.trans hd₀

/-- A lap shows how the repetition of its list begins. -/
theorem lap_shows {next : Thunk} (hl : w.Lists s n a d) (hforce : w.Forced s n a d (force (p.runAt (depth + 1)) a s))
    (hrefs : Store.OnlyCells next.refs) (hrelied : w.Relied s next) (hlap : next.isLap = true)
    (hnext : ∀ e c, s.Extends e → s.cells.size ≤ c → w.built e c = some next → w.Lists e (n + 3) c d.cycle) :
    w.Shows s (n + 3) d.cycle (Cycle.lap (p.runAt (depth + 1)) (.cell a) next s) := by
  rcases hforce.1.cases with ⟨v, e, hrun, he, hse, -, hnode⟩ | ⟨x, e, hrun, he, hse, hd, hx⟩
  · rcases hnode.cases with ⟨x, tag, head, tail, hd, rfl, -, -⟩ | ⟨hd, tag, rfl⟩
    · rw [Cycle.lap_of_cons he.serves.active hrun]
      have hlaps := hnext _ _ (hse.trans (.register e w.heap next)).toExtends hse.size (he.built_new next)
      exact (firstNode_shows he (hl.later hse.toExtends) (hforce.2 _ e hrun) hd hrefs (hrelied.later hse.toExtends) hlap
        hlaps).after hse
    · rw [Cycle.lap_of_nil hrun]
      exact .error (he.faulted _) (hse.trans (.faulted e _)) (Meaning.read_cycle_of_done hd)
        ⟨_, Array.getElem?_push_size, rfl⟩
  · rw [Cycle.lap_of_error hrun]
    exact .error he hse (Meaning.read_cycle_of_failed hd) hx

/-- The builders keep their promises: whatever was forced before, a builder makes a list that stands for what it should,
and leaves the store sound. -/
def Honest (w : Collection) (p : Program) : Prop :=
  ∀ maker q, w.promises maker = some q → ∀ s depth, w.Sound s → w.relies maker s → w.Idle q.depth s → q.depth ≤ depth →
    ∃ c e, Cycle.make (p.runAt depth) maker s = .ok (.cell c) e ∧ w.Sound e ∧ s.Advances e ∧
      w.Lists e q.depth c q.meaning

/-- Every force of a cell that nests so many levels shows what it lists. -/
def Answers (w : Collection) (p : Program) (n : Nat) : Prop :=
  ∀ s c d depth, w.Sound s → w.Idle n s → w.Lists s n c d → n ≤ depth → w.Forced s n c d (force (p.runAt depth) c s)

theorem answers_lap {t : Thunk} (hh : w.Honest p) (ih : ∀ k < n, w.Answers p k) (hs : w.Sound s)
    (hbelow : ∀ j, j + 3 ≤ n → w.Idle j s) (hidle : ¬ s.running c) (hl : w.Lists s n c d) (ht : w.built s c = some t)
    (hlap : t.isLap = true) (hn : n ≤ depth + 1) : w.Forced s n c d (force (p.runAt depth) c s) := by
  have hthree : 3 ≤ n := by
    cases hl with
    | interval hc | append hc => cases ht.symm.trans hc; cases hlap
    | start | shared | fresh | node => exact Nat.le_add_left 3 _
  obtain ⟨under, rfl⟩ : ∃ under, depth = under + 2 := ⟨depth - 2, by omega⟩
  refine force_shows hs hl hidle fun t' k ht' hkn hlk hleast hbegan => ?_
  cases ht.symm.trans ht'
  have hext := Store.Extends.began s c w.heap t
  have hclt : c < (s.began c w.heap t).cells.size := Nat.lt_of_lt_of_le hl.lt hext.size
  have hquiet : ∀ j, j + 3 = k → w.Idle j (s.began c w.heap t) := fun j hj =>
    (hbelow j (hj ▸ hkn)).began (hleast j (by omega)) t
  cases hlk with
  | interval hc | append hc | node hc => cases ht.symm.trans hc; cases hlap
  | @start j _ a _ hc ha hsource =>
    cases ht.symm.trans hc
    have htag := Store.Advances.tagged (s.began c w.heap (.cycleStart c (.cell a)))
    have hsource' := hsource.later (hext.trans htag.toExtends)
    have hforce := ih j (by omega) _ a _ (under + 1) hbegan.tagged ((hquiet j rfl).later htag) hsource' (by omega)
    refine Observed.after (lap_shows hsource' hforce ?_ ?_ rfl fun e c' he hc' hbuilt => ?_) htag
    · exact Store.onlyCells_map [a, c]
    · simp [Relied]
    · exact .shared hbuilt (Nat.lt_of_lt_of_le hsource'.lt hc') (Nat.lt_of_lt_of_le hclt hc')
        (built_extends ((hext.trans htag.toExtends).trans he) hc) ha (hsource'.later he)
  | @shared j _ a o tag _ hc ha ho horigin hao hsource =>
    cases ht.symm.trans hc
    have hsource' := hsource.later hext
    have hforce := ih j (by omega) _ a _ (under + 1) hbegan (hquiet j rfl) hsource' (by omega)
    refine lap_shows hsource' hforce ?_ ?_ rfl fun e c' he hc' hbuilt => ?_
    · exact Store.onlyCells_map [a, o]
    · simp [Relied]
    · exact .shared hbuilt (Nat.lt_of_lt_of_le hsource'.lt hc') (Nat.lt_of_lt_of_le (Nat.lt_trans ho hclt) hc')
        (built_extends (hext.trans he) horigin) hao (hsource'.later he)
  | @fresh j _ tag maker q hc hq hj =>
    cases ht.symm.trans hc
    have hrelied := (hs.relied c _ ht).later hext
    obtain ⟨a, e, hmake, he, hbe, hla⟩ := hh maker q hq _ (under + 1) hbegan (hrelied tag maker rfl)
      ((hquiet j rfl).mono hj) (by omega)
    have hsource := hla.mono hj
    have hforce := ih j (by omega) e a _ (under + 1) he ((hquiet j rfl).later hbe) hsource (by omega)
    show w.Shows _ _ _ (Cycle.freshLap _ tag maker _)
    unfold Cycle.freshLap
    rw [Run.bind_ok hmake]
    refine Observed.after (lap_shows hsource hforce ?_ (hrelied.later hbe.toExtends) rfl fun m c' _ _ hbuilt => ?_) hbe
    · exact Store.onlyCells_map []
    · exact .fresh hbuilt hq hj

theorem answers_append (hh : w.Honest p) (ih : ∀ k < n, w.Answers p k) (hs : w.Sound s) (hidle : w.Idle n s)
    (hl : w.Lists s n c d) (hc : w.built s c = some (.appendNode (.cell a) (.cell b))) (hb : b < c)
    (hn : n ≤ depth + 1) : w.Forced s n c d (force (p.runAt (depth + 1)) c s) := by
  have hext := Store.Extends.began s c w.heap (.appendNode (.cell a) (.cell b))
  have hquiet : ∀ j < n, (∀ d', ¬ w.Lists s j c d') → w.Idle j (s.began c w.heap (.appendNode (.cell a) (.cell b))) :=
    fun j hj hcj => (hidle.mono (Nat.le_of_lt hj)).began hcj _
  refine force_append_shows hs hl hc (hidle c d hl) (fun j d' hj hcj hla hbegan => ?_)
    fun j d' e hj hbelow hcase hlb he hbe _ => ?_
  · exact (ih j hj _ a d' depth hbegan (hquiet j hj hcj) (hla.later hext) (by omega)).1
  · have hlb' := hlb.later (hext.trans hbe.toExtends)
    rcases hcase with ⟨hj, hcj⟩ | ⟨t, ht, hlap⟩
    · exact (ih j hj e b d' depth he ((hquiet j hj hcj).later hbe) hlb' (by omega)).1
    · refine (answers_lap hh (fun k hk => ih k (by omega)) he (fun i hi => ?_) (fun hrun => ?_) hlb'
        (built_extends (hext.trans hbe.toExtends) ht) hlap (by omega)).1
      · exact (hquiet i (by omega) (hbelow i (by omega))).later hbe
      · rcases Store.running_began (hbe.calm b hrun) with hbc | hrun
        · exact Nat.ne_of_lt hb hbc
        · exact hidle b d' (hlb.mono hj) hrun

/-- **Every force of a list shows how the list begins.** -/
theorem answers (hh : w.Honest p) (n : Nat) : w.Answers p n := by
  induction n using Nat.strongRecOn with
  | ind n ih =>
    intro s c d depth hs hidle hl hn
    have hnot := hidle c d hl
    by_cases hlap : ∃ t, w.built s c = some t ∧ t.isLap = true
    · obtain ⟨t, ht, hlap⟩ := hlap
      exact answers_lap hh ih hs (fun j hj => hidle.mono (by omega)) hnot hl ht hlap (Nat.le_succ_of_le hn)
    · have hpos := hl.pos
      obtain ⟨under, rfl⟩ : ∃ under, depth = under + 1 := ⟨depth - 1, by omega⟩
      have hl' := hl
      cases hl' with
      | interval hc hr =>
        refine force_shows hs hl hnot fun t k ht _ hlk _ hbegan => ?_
        cases hc.symm.trans ht
        obtain ⟨k, rfl⟩ := Nat.exists_eq_succ_of_ne_zero (Nat.ne_of_gt hlk.pos)
        exact intervalNode_shows hbegan hr _ k
      | append hc _ hb => exact answers_append hh ih hs hidle hl hc hb hn
      | node hc _ hb => exact answers_append hh ih hs hidle hl hc hb hn
      | start hc | shared hc | fresh hc => exact absurd ⟨_, hc, rfl⟩ hlap

end Collection
end Retention
