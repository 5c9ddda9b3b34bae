import Mathlib.Logic.Relation
import Retention.Proofs.Building
/-!
# Faithful — lazy lists read as what they stand for

Lists are made on one heap, each from lists made before it, and observed in between, in any order (`Collection.Plays`).
Whatever was made and observed so far, everything that is observed next reads as what its list stands for
(`Collection.Faithful`): evaluation is neither seen nor felt.

The runs of thunks nest as deep as lists are made of lists.  An observation may be given any depth that its list takes,
which the number of levels in `Signature.Lists` is a bound on.  That number is settled when the list is made, whatever
is observed before or after.
-/
namespace Retention

namespace Run
variable {α : Type}

/-- The value that a computation ends with, if it ends with one. -/
def value? : EStateM.Result Halt Store α → Option α
  | .ok a _ => some a
  | .error _ _ => none

theorem Gives.value?_eq {right : α → Store → Prop} {fails : Prop} {r r' : EStateM.Result Halt Store α}
    (h : Gives right fails r) (h' : Gives right fails r') (hright : ∀ a b s e, right a s → right b e → a = b) :
    value? r = value? r' := by
  cases h with
  | value hfails ha =>
    cases h' with
    | value _ hb => exact congrArg some (hright _ _ _ _ ha hb)
    | error hfails' => exact absurd hfails' hfails
  | error hfails =>
    cases h' with
    | value hfails' => exact absurd hfails hfails'
    | error => rfl

theorem Gives.right {right : α → Store → Prop} {a : α} {e : Store} (h : Gives right False (.ok a e)) : right a e := by
  cases h with
  | value _ ha => exact ha

end Run

namespace Collection

open Signature
open Run (Gives finalStore)

variable {p : Program} {w : Collection} {s m e : Store} {n k : Nat} {a b c : CellId} {d d' : Meaning}
  {x : Int}

/-- A list is made, or put under a name that is free, or a cell is observed. -/
inductive Move (w : Collection) (p : Program) (s : Store) : Store → Prop
  | between {r : Interval} (hr : r.length ≤ sizeLimit) :
    Move w p s (finalStore (Sequence.between (.int r.lo) (.int r.hi) s))
  | append {n k : Nat} {a b : CellId} {d d' : Meaning} (ha : w.Lists s n a d) (hb : w.Lists s k b d') :
    Move w p s (finalStore (Sequence.append (.cell a) (.cell b) s))
  | shared {n : Nat} {a : CellId} {d : Meaning} (ha : w.Lists s n a d) :
    Move w p s (finalStore (Cycle.shared (.cell a) s))
  | fresh (tag : Tag) {maker : Maker Value} {q : Promise} (hq : w.promises maker = some q) (hrelies : w.relies maker s) :
    Move w p s (finalStore (Cycle.fresh tag maker s))
  | named {n : Nat} {c : CellId} {d : Meaning} (name : String) (hc : w.Lists s n c d)
    (hfree : Entries.get? (· == ·) s.bindings name = none) : Move w p s (finalStore (Run.assign name (.cell c) s))
  | force {depth n : Nat} {c : CellId} {d : Meaning} (hc : w.Lists s n c d) (hn : n ≤ depth) :
    Move w p s (finalStore (force (p.runAt depth) c s))
  | element {depth : Nat} {c : CellId} {x : Int} (hc : w.Element s c x) (hdepth : 0 < depth) :
    Move w p s (finalStore (force (p.runAt depth) c s))
  | drop (i : Nat) {depth n : Nat} {c : CellId} {d : Meaning} (hc : w.Lists s n c d) (hn : n ≤ depth) :
    Move w p s (finalStore (Sequence.drop (p.runAt depth) i (.cell c) s))
  | first {depth n : Nat} {c : CellId} {d : Meaning} (hc : w.Lists s n c d) (hn : n ≤ depth) :
    Move w p s (finalStore (Sequence.first (p.runAt depth) (.cell c) s))
  | take (i : Nat) {depth n : Nat} {c : CellId} {d : Meaning} (hc : w.Lists s n c d) (hn : n ≤ depth) :
    Move w p s (finalStore (Sequence.take (p.runAt depth) i (.cell c) s))

/-- Any moves, one after the other. -/
def Plays (w : Collection) (p : Program) : Store → Store → Prop := Relation.ReflTransGen (w.Move p)

/-- What is made lists what it should, what is within reach is a list or an element, and what is observed reads as what
it stands for. -/
structure Faithful (w : Collection) (p : Program) (s : Store) : Prop where
  between : ∀ r : Interval, r.length ≤ sizeLimit →
    Gives (fun c e => w.Lists e 1 c (.finite r.elements)) False (Sequence.between (.int r.lo) (.int r.hi) s)
  append : ∀ {n k : Nat} {a b : CellId} {d d' : Meaning}, w.Lists s n a d → w.Lists s k b d' →
    Gives (fun c e => w.Lists e (max n k + 1) c (d.append d')) False (Sequence.append (.cell a) (.cell b) s)
  shared : ∀ {n : Nat} {a : CellId} {d : Meaning}, w.Lists s n a d →
    Gives (fun c e => w.Lists e (n + 3) c d.cycle) False (Cycle.shared (.cell a) s)
  fresh : ∀ (tag : Tag) {maker : Maker Value} {q : Promise}, w.promises maker = some q → w.relies maker s →
    Gives (fun c e => w.Lists e (q.depth + 3) c q.meaning.cycle) False (Cycle.fresh tag maker s)
  /-- No cell stands for two sequences. -/
  unique : ∀ {n k : Nat} {c : CellId} {d d' : Meaning}, w.Lists s n c d → w.Lists s k c d' → d = d'
  reach : ∀ {n : Nat} {c b : CellId} {d : Meaning}, w.Lists s n c d → s.Path c b →
    (∃ d', w.Lists s n b d') ∨ ∃ x, w.Element s b x
  force : ∀ {depth n : Nat} {c : CellId} {d : Meaning}, w.Lists s n c d → n ≤ depth →
    Gives (fun v e => w.Node e n d v) (d.read 0 = .failed) (Retention.force (p.runAt depth) c s)
  element : ∀ {depth : Nat} {c : CellId} {x : Int}, w.Element s c x → 0 < depth →
    Gives (fun v _ => v = .int x) False (Retention.force (p.runAt depth) c s)
  drop : ∀ (i : Nat) {depth n : Nat} {c : CellId} {d : Meaning}, w.Lists s n c d → n ≤ depth →
    Gives (fun v e => ∃ b, v = .cell b ∧ w.Lists e n b (d.drop i)) (∃ j < i, d.read j = .failed)
      (Sequence.drop (p.runAt depth) i (.cell c) s)
  first : ∀ {depth n : Nat} {c : CellId} {d : Meaning}, w.Lists s n c d → n ≤ depth →
    Gives (fun v _ => ∃ x, d.read 0 = .element x ∧ v = .int x) (∀ x, d.read 0 ≠ .element x)
      (Sequence.first (p.runAt depth) (.cell c) s)
  nth : ∀ (i : Nat) {depth n : Nat} {c : CellId} {d : Meaning}, w.Lists s n c d → n ≤ depth →
    Gives (fun v _ => ∃ x, d.read i = .element x ∧ v = .int x) (∀ x, d.read i ≠ .element x)
      (Sequence.nth (p.runAt depth) i (.cell c) s)
  take : ∀ (i : Nat) {depth n : Nat} {c : CellId} {d : Meaning}, w.Lists s n c d → n ≤ depth →
    Gives (fun vs _ => vs = (d.take i).map .int) (∃ j < i, d.read j = .failed)
      (Sequence.take (p.runAt depth) i (.cell c) s)
  /-- Two lists that stand for the same are not told apart, such as the two repetitions of one list. -/
  alike : ∀ (i : Nat) {depth n k : Nat} {a b : CellId} {d : Meaning}, w.Lists s n a d → w.Lists s k b d → n ≤ depth →
    k ≤ depth →
    Run.value? (Sequence.nth (p.runAt depth) i (.cell a) s) = Run.value? (Sequence.nth (p.runAt depth) i (.cell b) s) ∧
    Run.value? (Sequence.take (p.runAt depth) i (.cell a) s) = Run.value? (Sequence.take (p.runAt depth) i (.cell b) s)

/-! ## What is within reach -/

theorem Sound.refs_of_list (hs : w.Sound s) (hr : w.Rested s) (hl : w.Lists s n c d) :
    ∀ v ∈ s.refs c, ∃ b, v = .cell b ∧ ((∃ d', w.Lists s n b d') ∨ ∃ x, w.Element s b x) := by
  intro v hv
  have hfine := hs.fine c hl.base_le
  have hfits := hfine.list n d hl
  unfold Store.refs at hv
  cases hstate : s.state c with
  | suspended t =>
    rw [hstate] at hv
    obtain ⟨b, d', rfl, hb⟩ := hl.refs (hfine.built hl.base_le hstate) v hv
    exact ⟨b, rfl, .inl ⟨d', hb⟩⟩
  | inProgress t => exact absurd (by rw [Store.running, hstate]; rfl) (hr n c d hl)
  | evaluated u =>
    rw [hstate] at hv hfits
    have hnode : w.Node s n d u := hfits
    rcases hnode.cases with ⟨x, tag, head, tail, -, rfl, hhead, htail⟩ | ⟨-, tag, rfl⟩
    · rcases List.mem_cons.1 hv with rfl | hv
      · exact ⟨head, rfl, .inr ⟨x, hhead⟩⟩
      · exact ⟨tail, List.mem_singleton.1 hv, .inl ⟨_, htail⟩⟩
    · cases hv
  | failed u =>
    rw [hstate] at hv
    cases hv

theorem Sound.refs_of_element (hs : w.Sound s) (hx : w.Element s c x) : s.refs c = [] := by
  have hfine := hs.fine c hx.base_le
  have hfits := hfine.element x hx
  unfold Store.refs
  cases hstate : s.state c with
  | suspended t =>
    obtain ⟨tag, r, hbuilt, -⟩ := hx
    cases (hfine.thunk t hstate).symm.trans (built_thunk hbuilt)
    rfl
  | evaluated u =>
    rw [hstate] at hfits
    obtain rfl : u = .int x := hfits
    rfl
  | inProgress t =>
    rw [hstate] at hfits
    exact hfits.elim
  | failed u => rfl

theorem Sound.reach (hs : w.Sound s) (hr : w.Rested s) (hl : w.Lists s n c d) (hpath : s.Path c b) :
    (∃ d', w.Lists s n b d') ∨ ∃ x, w.Element s b x := by
  have hstart : (∃ d', w.Lists s n c d') ∨ ∃ x, w.Element s c x := .inl ⟨d, hl⟩
  clear hl
  induction hpath with
  | refl c => exact hstart
  | @step c b' e hmem _ ih =>
    refine ih ?_
    rcases hstart with ⟨d, hl⟩ | ⟨x, hx⟩
    · obtain ⟨b, hb, hmeaning⟩ := hs.refs_of_list hr hl _ hmem
      cases hb
      exact hmeaning
    · rw [hs.refs_of_element hx] at hmem
      cases hmem

/-! ## Moves -/

theorem sound_start (hserves : s.Serves w.heap) (hbase : w.base = s.cells.size) : w.Sound s ∧ w.Rested s := by
  have hnone : ∀ c t, w.built s c ≠ some t := fun c t ht => by
    have hlt := lt_of_built ht
    exact Nat.not_lt.2 (hbase ▸ base_le_of_built ht) hlt
  refine ⟨⟨hserves, Nat.le_of_eq hbase, fun c hc => fine_of_size_le (hbase ▸ hc), fun c t ht => ?_⟩, fun n c d hl => ?_⟩
  · exact absurd ht (hnone c t)
  · obtain ⟨t, ht⟩ := hl.built
    exact absurd ht (hnone c t)

theorem assign_keeps {name : String} (hs : w.Sound s) (hfree : Entries.get? (· == ·) s.bindings name = none)
    (v : Value) :
    w.Sound (finalStore (Run.assign name v s)) ∧ s.Advances (finalStore (Run.assign name v s)) := by
  have hadvances : s.Advances (finalStore (Run.assign name v s)) :=
    { Store.Advances.refl s with
      bindings := fun name' u hu => by
        refine (Entries.get?_put_of_ne s.bindings v (fun i hi => ?_) (beq_self_eq_true name)).trans hu
        refine beq_eq_false_iff_ne.2 fun heq => ?_
        obtain rfl := eq_of_beq hi
        rw [heq, hfree] at hu
        cases hu }
  exact ⟨hs.congr hadvances.toExtends (hs.serves.congr rfl rfl rfl) rfl, hadvances⟩

/-- A move leaves a sound store. -/
theorem Move.keeps (hh : w.Honest p) (hs : w.Sound s) (hr : w.Rested s) (hm : w.Move p s e) :
    w.Sound e ∧ s.Advances e := by
  cases hm with
  | between hlimit => exact (between_observed hs hlimit).keeps
  | append ha hb => exact (append_observed hs ha hb).keeps
  | shared ha => exact (shared_observed hs ha).keeps
  | fresh tag hq hrelies => exact (fresh_observed hs hq hrelies tag).keeps
  | named name hc hfree => exact assign_keeps hs hfree _
  | force hc hn => exact (force_observed hh hs hr hc hn).keeps
  | element hc hdepth => exact (element_observed hs hc hdepth).keeps
  | drop i hc hn => exact (drop_observed hh hs hr hc hn i).keeps
  | first hc hn => exact (first_observed hh hs hr hc hn).keeps
  | take i hc hn => exact (take_observed hh hs hr hc hn i).keeps

/-- Any moves leave a sound store. -/
theorem Plays.keeps (hh : w.Honest p) (hs : w.Sound s) (hr : w.Rested s) (hplays : w.Plays p s e) :
    w.Sound e ∧ s.Advances e := by
  induction hplays with
  | refl => exact ⟨hs, .refl s⟩
  | tail _ hm ih =>
    obtain ⟨hm', hsm⟩ := ih
    obtain ⟨he, hme⟩ := hm.keeps hh hm' (hr.later hsm)
    exact ⟨he, hsm.trans hme⟩

theorem Sound.faithful (hh : w.Honest p) (hs : w.Sound s) (hr : w.Rested s) : w.Faithful p s where
  between r hlimit := (between_observed hs hlimit).gives
  append ha hb := (append_observed hs ha hb).gives
  shared ha := (shared_observed hs ha).gives
  fresh tag _ _ hq hrelies := (fresh_observed hs hq hrelies tag).gives
  unique hc hc' := hc.unique hc'
  reach hc hpath := hs.reach hr hc hpath
  force hc hn := (force_observed hh hs hr hc hn).gives
  element hc hdepth := (element_observed hs hc hdepth).gives
  drop i _ _ _ _ hc hn := (drop_observed hh hs hr hc hn i).gives
  first hc hn := (first_observed hh hs hr hc hn).gives
  nth i _ _ _ _ hc hn := (nth_observed hh hs hr hc hn i).gives
  take i _ _ _ _ hc hn := (take_observed hh hs hr hc hn i).gives
  alike i _ _ _ _ _ _ ha hb hn hk := by
    refine ⟨(nth_observed hh hs hr ha hn i).gives.value?_eq (nth_observed hh hs hr hb hk i).gives ?_,
      (take_observed hh hs hr ha hn i).gives.value?_eq (take_observed hh hs hr hb hk i).gives ?_⟩
    · rintro u v _ _ ⟨x, hx, rfl⟩ ⟨y, hy, rfl⟩
      cases hx.symm.trans hy
      rfl
    · rintro us vs _ _ rfl rfl
      rfl

/-- **Lazy evaluation is faithful, in whatever order things are observed.**  From a store with an active heap and
builders that keep their promises, any lists are made of lists and observed in any order.  Then all that can be made or
observed next is faithful: it ends, and reads the element, the end or the error that the sequence of the list has
there.  What a cell lists, it goes on to list. -/
theorem plays_faithful {start : Store} (hh : w.Honest p) (hserves : start.Serves w.heap)
    (hbase : w.base = start.cells.size) (hs : w.Plays p start s) (he : w.Plays p s e) :
    w.Faithful p e ∧ (∀ n c d, w.Lists s n c d → w.Lists e n c d) ∧ ∀ c x, w.Element s c x → w.Element e c x := by
  obtain ⟨hsound, hrested⟩ := sound_start hserves hbase
  obtain ⟨hm, hstart⟩ := hs.keeps hh hsound hrested
  obtain ⟨he, hadvances⟩ := he.keeps hh hm (hrested.later hstart)
  exact ⟨he.faithful hh (hrested.later (hstart.trans hadvances)), fun _ _ _ hl => hl.later hadvances.toExtends,
    fun _ _ hx => hx.later hadvances.toExtends⟩

/-! ## A builder that refers to a list made before -/

/-- A function that puts two more elements behind the list that a variable holds. -/
def extending : Program :=
  [("more", ⟨.apply (.list .append)
    [.lookup "xs", .apply (.list .makeGenerator) [.constant (.int 7), .constant (.int 8)]], true⟩)]

/-- What that function makes of the elements one and two. -/
def extendingSignature : Signature where
  base := 0
  promises
    | .function (.defined "more" true) =>
      some ⟨2, (Meaning.finite [1, 2]).append (.finite (Interval.elements ⟨7, 8⟩))⟩
    | _ => none

/-- The function relies on the variable to hold a list of one and two. -/
def extendingCollection : Collection where
  toSignature := extendingSignature
  heap := 0
  relies _ s := ∃ c, Entries.get? (· == ·) s.bindings "xs" = some (.cell c) ∧
    extendingSignature.Lists s 1 c (.finite [1, 2])
  lasting _ he h := by
    obtain ⟨c, hget, hl⟩ := h
    exact ⟨c, he.bindings _ _ hget, hl.later he⟩

/-- A new heap is active, and nothing is made yet. -/
def opened : Store := { heaps := #[{}], active := some 0 }

theorem extending_honest : extendingCollection.Honest extending := by
  refine honest_of_bodies fun maker q hq => ?_
  have hpromise : maker = .function (.defined "more" true) ∧
      q = ⟨2, (Meaning.finite [1, 2]).append (.finite (Interval.elements ⟨7, 8⟩))⟩ := by
    unfold extendingCollection extendingSignature at hq
    dsimp only at hq
    split at hq
    · exact ⟨rfl, (Option.some.inj hq).symm⟩
    · cases hq
  obtain ⟨rfl, rfl⟩ := hpromise
  exact .function rfl (.append (.lookup fun s h => h) (.interval (r := ⟨7, 8⟩) (by decide)))

/-- The seventh element of the repetition of one, two, seven and eight by name. -/
theorem plays_faithful_extending :
    extendingCollection.Honest extending ∧ opened.Serves 0 ∧ extendingCollection.base = opened.cells.size ∧
    ∃ s e, extendingCollection.Plays extending opened s ∧ extendingCollection.Plays extending s e ∧
      Run.value? (Sequence.nth (extending.runAt 5) 6 (.cell 1) e) = some (.int 7) := by
  have hserves : opened.Serves 0 := ⟨rfl, by decide, ⟨false, rfl⟩, fun h => by cases h⟩
  let maker : Maker Value := .function (.defined "more" true)
  let m := finalStore (Sequence.between (.int 1) (.int 2) opened)
  let s := finalStore (Run.assign "xs" (.cell 0) m)
  let e := finalStore (Cycle.fresh 0 maker s)
  have hlist : extendingSignature.Lists m 1 0 (.finite [1, 2]) := .interval (r := ⟨1, 2⟩) rfl (by decide)
  have hrelies : extendingCollection.relies maker s := ⟨0, rfl, .interval (r := ⟨1, 2⟩) rfl (by decide)⟩
  have hs : extendingCollection.Plays extending opened s :=
    .tail (.single (.between (r := ⟨1, 2⟩) (by decide))) (.named "xs" hlist rfl)
  have he : extendingCollection.Plays extending s e := .single (.fresh 0 rfl hrelies)
  let q : Promise := ⟨2, (Meaning.finite [1, 2]).append (.finite (Interval.elements ⟨7, 8⟩))⟩
  have hq : extendingCollection.promises maker = some q := rfl
  have hcycle : extendingCollection.Lists e 5 1 q.meaning.cycle :=
    ((plays_faithful extending_honest hserves rfl hs .refl).1.fresh 0 hq hrelies).right
  have hread : q.meaning.cycle.read 6 = .element 7 := by decide
  have hnth := (plays_faithful extending_honest hserves rfl hs he).1.nth 6 hcycle (Nat.le_refl 5)
  have hvalue : Run.value? (Sequence.nth (extending.runAt 5) 6 (.cell 1) e) = some (.int 7) := by
    generalize Sequence.nth (extending.runAt 5) 6 (.cell 1) e = r at hnth
    cases hnth with
    | value _ hv =>
      obtain ⟨x, hx, rfl⟩ := hv
      cases hread.symm.trans hx
      rfl
    | error hfails => exact absurd hread (hfails 7)
  exact ⟨extending_honest, hserves, rfl, s, e, hs, he, hvalue⟩

end Collection
end Retention
