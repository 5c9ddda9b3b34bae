import Retention.Proofs.Dropping
import Retention.Proofs.Heapless
import Retention.Proofs.Sharing
/-!
# Repeating — what was taken of a list is there to be taken again

Once elements of a list were taken, what a take of as many comes to is decided (`Store.Decided`): the nodes and the
heads that were read have their values for good, and where the list has ended or raised an error it does so again.  A
cell that has failed raises the very same error each time; but some errors are made anew whenever they are raised, each
like the one before (`Raised.Anew`).  So whoever takes the elements again forces the same cells, runs no thunk, and
comes to the same (`Sequence.Again`).
-/
namespace Retention

open Run (takeList finalStore)

variable {p : Program} {depth n : Nat} {run : Runner} {g : HeapId} {s m e : Store} {c d : CellId} {K : List Frame}
  {v : Value} {vs : List Value} {read : List (CellId × CellId)}

/-! ## Errors that come again -/

/-- Errors that are made anew whenever they are raised: for a cell that is being forced, for a cell that has failed with
something that is no error, and for the end of an iterator inside a walk. -/
inductive Raised.Anew : Raised → Prop
  | running (c : CellId) (address : Nat) : Anew ⟨.reentrantForce address, [.cell c]⟩
  | notAnError : Anew ⟨.notAnError, []⟩
  | exhausted : Anew ⟨.exhaustedInside, []⟩

/-- What is raised whenever something is tried: a certain error, or each time another one that is just like it. -/
inductive Refusal where
  | known (z : FaultId) (y : Raised)
  | anew (y : Raised) (h : y.Anew)

namespace Refusal

/-- What the errors tell. -/
def raised : Refusal → Raised
  | known _ y => y
  | anew y _ => y

/-- An error of a store is one of those that are raised. -/
structure Names (r : Refusal) (z : FaultId) (s : Store) : Prop where
  told : s.faults[z]? = some r.raised
  same : ∀ w y, r = .known w y → z = w

/-- What is raised in its place inside a walk. -/
def passed (r : Refusal) : Refusal := if r.raised.cause.kind = .stopIteration then .anew _ .exhausted else r

theorem kind_passed (r : Refusal) : r.passed.raised.cause.kind ≠ .stopIteration := by
  by_cases hkind : r.raised.cause.kind = .stopIteration
  · rw [show r.passed = .anew _ .exhausted from if_pos hkind]
    decide
  · rwa [show r.passed = r from if_neg hkind]

theorem passed_passed (r : Refusal) : r.passed.passed = r.passed := if_neg r.kind_passed

/-- An error that is passed on is passed on again as it is. -/
theorem passed_known (z : FaultId) (r : Refusal) : (known z r.passed.raised).passed = known z r.passed.raised :=
  if_neg r.kind_passed

theorem Names.passed {r : Refusal} {z : FaultId} (h : r.Names z s) :
    r.passed.Names (Iterator.passed z s).1 (Iterator.passed z s).2 := by
  unfold Refusal.passed Iterator.passed
  rw [h.told, Option.map_some]
  by_cases hkind : r.raised.cause.kind = .stopIteration
  · rw [if_pos hkind, if_pos (congrArg some hkind)]
    exact ⟨Array.getElem?_push_size, fun _ _ hr => by cases hr⟩
  · rw [if_neg hkind, if_neg fun hsome => hkind (Option.some.inj hsome)]
    exact h

end Refusal

/-- What is raised in place of an error spends at most a number. -/
theorem Iterator.spends_passed (z : FaultId) (s : Store) : s.Spends (passed z s).2 := by
  unfold passed
  split
  · rw [← Array.append_singleton]
    exact .of_faults s _
  · exact .refl s

/-- A cell whose force raises an error, whenever it is tried. -/
inductive Store.Denies (s : Store) (c : CellId) : Refusal → Prop
  | failed {z : FaultId} {y : Raised} (hc : s.state c = .failed (.fault z)) (hz : s.faults[z]? = some y) :
    Denies s c (.known z y)
  | notAnError {v : Value} (hc : s.state c = .failed v) (hv : ∀ z, v ≠ .fault z) : Denies s c (.anew _ .notAnError)
  | running {t : Thunk} (hc : s.state c = .inProgress t) : Denies s c (.anew _ (.running c (s.address c)))

/-- No force that was going on is over. -/
def Store.Engages (s e : Store) : Prop := ∀ c t, s.state c = .inProgress t → e.state c = .inProgress t

namespace Store.Denies
variable {r : Refusal}

/-- The errors of a cell are told by its state and its address, and by the errors of the store. -/
theorem congr (h : s.Denies c r) (hstate : e.state c = s.state c) (haddress : e.address c = s.address c)
    (hfaults : ∀ (z : FaultId) y, s.faults[z]? = some y → e.faults[z]? = some y) : e.Denies c r := by
  cases h with
  | failed hc hz => exact .failed (hstate.trans hc) (hfaults _ _ hz)
  | notAnError hc hv => exact .notAnError (hstate.trans hc) hv
  | running hc =>
    rw [← haddress]
    exact .running (hstate.trans hc)

theorem lt_size (h : s.Denies c r) : c < s.cells.size := by
  cases h with
  | failed hc | notAnError hc | running hc => exact Store.lt_of_state hc (by simp)

/-- **A cell that raises an error does so from now on**, as long as the force of it that may be going on is not over. -/
theorem leads {a a' : Moment} (h : a.store.Denies c r) (ha : a.Sound) (hlater : Moment.Leads a a')
    (hengaged : a.store.Engages a'.store) : a'.store.Denies c r := by
  refine h.congr ?_ (hlater.address h.lt_size) fun z y hz => hlater.faults hz
  cases h with
  | failed hc => exact (hlater.failed ha hc).trans hc.symm
  | notAnError hc => exact (hlater.failed ha hc).trans hc.symm
  | running hc => exact (hengaged c _ hc).trans hc.symm

/-- Nothing changes by it but the errors. -/
theorem force (h : s.Denies c r) : ∃ z raised,
    (∀ run, Retention.force run c s = .error (.raised z) { s with faults := s.faults ++ raised }) ∧
      r.Names z { s with faults := s.faults ++ raised } := by
  have hanew : ∀ {context : List Value} {cause : Fault} (hy : Raised.Anew ⟨cause, context⟩),
      (∀ run, Retention.force run c s = Run.raiseIn context cause s) → ∃ z raised,
        (∀ run, Retention.force run c s = .error (.raised z) { s with faults := s.faults ++ raised }) ∧
        (Refusal.anew _ hy).Names z { s with faults := s.faults ++ raised } := fun {context cause} hy hforce => by
    refine ⟨s.faults.size, #[⟨cause, context⟩], fun run => ?_, ?_, fun _ _ hr => by cases hr⟩
    · rw [hforce, Array.append_singleton]
      rfl
    · rw [Array.append_singleton]
      exact Array.getElem?_push_size
  cases h with
  | @failed z y hc hz =>
    refine ⟨z, #[], fun run => ?_, ?_, fun _ _ hr => by cases hr; rfl⟩
    · rw [force_failed hc, Array.append_empty]
    · rw [Array.append_empty]
      exact hz
  | @notAnError v hc hv =>
    refine hanew .notAnError fun run => ?_
    rw [force_apply, hc]
    cases v with
    | fault z => exact absurd rfl (hv z)
    | _ => rfl
  | running hc =>
    refine hanew (.running c _) fun run => ?_
    rw [force_apply, hc]

/-- **A force that raises an error while a heap is active raises it from then on**, if its count does not fail. -/
theorem of_error {z : FaultId} (ha : s.active = some g)
    (hr : Retention.force (p.runAt depth) c s = .error (.raised z) e) (he : e.Serves g) (hz : z < e.faults.size) :
    ∃ r, e.Denies c r ∧ r.Names z e := by
  obtain ⟨y, hy⟩ : ∃ y, e.faults[z]? = some y := ⟨_, Array.getElem?_eq_getElem hz⟩
  have hdenies : ∀ {r}, s.Denies c r → e.Denies c r ∧ r.Names z e := fun {r} hc => by
    obtain ⟨w, raised, hforce, hnames⟩ := hc.force
    cases (hforce (p.runAt depth)).symm.trans hr
    refine ⟨hc.congr rfl rfl fun z y hz => ?_, hnames⟩
    have hlt := (Array.getElem?_eq_some_iff.1 hz).1
    exact (Array.getElem?_append_left hlt).trans hz
  cases hc : s.state c with
  | evaluated v =>
    rw [force_evaluated hc] at hr
    cases hr
  | inProgress t => exact ⟨_, hdenies (.running hc)⟩
  | failed v =>
    by_cases hv : ∃ w, v = .fault w
    · obtain ⟨w, rfl⟩ := hv
      rw [force_failed hc] at hr
      cases hr
      exact ⟨_, .failed hc hy, hy, fun _ _ hr => by cases hr; rfl⟩
    · exact ⟨_, hdenies (.notAnError hc fun w hw => hv ⟨w, hw⟩)⟩
  | suspended t =>
    exact ⟨_, .failed (failed_of_force_error hc ha hr he.countsForces) hy, hy, fun _ _ hr => by cases hr; rfl⟩

end Store.Denies

/-- What only spends numbers ends no force. -/
theorem Store.Spends.engages (h : s.Spends e) : s.Engages e := by
  obtain ⟨tags, made, raised, rfl⟩ := h
  exact fun _ _ hc => hc

/-- What only spends numbers is a run. -/
theorem Store.Spends.runs (h : s.Spends e) : s.Runs e := by
  have htags : ∀ tags (s : Store), s.Runs { s with nextTag := s.nextTag + tags } := fun tags => by
    induction tags with
    | zero => exact .refl
    | succ tags ih => exact fun s => (ih s).trans (.of_step (.freshTag _))
  have hfaults : ∀ raised (s : Store), s.Runs { s with faults := s.faults ++ List.toArray raised } := fun raised => by
    induction raised with
    | nil => exact fun s => by rw [show s.faults ++ [].toArray = s.faults from Array.append_empty]; exact .refl s
    | cons x raised ih =>
      intro s
      have hrest := ih { s with faults := s.faults.push x }
      rw [List.push_append_toArray] at hrest
      exact .trans (.of_step (.newFault s x)) hrest
  obtain ⟨tags, made, raised, rfl⟩ := h
  have hmade : s.Runs { s with iterators := s.iterators ++ made } := .of_step (.iterated s _)
  exact (hmade.trans (htags tags _)).trans (hfaults raised.toList _)

/-! ## What a take comes to -/

namespace Run

/-- How something ends that gives a value such as these, or raises an error. -/
inductive Delivers {α : Type} (q : α → Prop) : Option Refusal → EStateM.Result Halt Store α → Prop
  | gives {a : α} {e : Store} (ha : q a) : Delivers q none (.ok a e)
  | raises {r : Refusal} {z : FaultId} {e : Store} (h : r.Names z e) : Delivers q (some r) (.error (.raised z) e)

/-- Two takes come to the same: the identical values, or the same error.  This is the very same one, unless it is made
anew whenever it is raised; then it is another one with the same cause and context. -/
inductive SameTake : EStateM.Result Halt Store Value → EStateM.Result Halt Store Value → Prop
  | gives (vs : List Value) (tag tag' : Tag) (e e' : Store) : SameTake (.ok (.list tag vs) e) (.ok (.list tag' vs) e')
  | raises {y : Raised} {z z' : FaultId} {e e' : Store} (hz : e.faults[z]? = some y) (hz' : e'.faults[z']? = some y)
    (hsame : z' = z ∨ y.Anew) : SameTake (.error (.raised z) e) (.error (.raised z') e')

/-- A list of these values. -/
def IsList (vs : List Value) (v : Value) : Prop := ∃ tag, v = .list tag vs

theorem Delivers.same {r : Option Refusal} {a b : EStateM.Result Halt Store Value} (ha : Delivers (IsList vs) r a)
    (hb : Delivers (IsList vs) r b) : SameTake a b := by
  cases ha with
  | gives ha =>
    cases hb with
    | gives hb =>
      obtain ⟨tag, rfl⟩ := ha
      obtain ⟨tag', rfl⟩ := hb
      exact .gives vs tag tag' _ _
  | @raises r z e ha =>
    cases hb with
    | @raises _ z' e' hb =>
      refine .raises ha.told hb.told ?_
      cases r with
      | known w y => exact .inl ((hb.same w y rfl).trans (ha.same w y rfl).symm)
      | anew y hy => exact .inr hy

/-- Two takes come to the same if what they come to is told by one result. -/
theorem Delivers.same_of_result {α : Type} {q : α → Prop} {r r' : Option Refusal} {result : EStateM.Result Halt Store α}
    {a b : EStateM.Result Halt Store Value} (hr : Delivers q r result) (hr' : Delivers q r' result)
    (ha : Delivers (IsList vs) (r.map .passed) a) (hb : Delivers (IsList vs) (r'.map .passed) b) : SameTake a b := by
  cases hr with
  | gives =>
    cases hr' with
    | gives => exact ha.same hb
  | @raises r z e hr =>
    cases hr' with
    | @raises r' _ _ hr' =>
      have htold : r.raised = r'.raised := Option.some.inj (hr.told.symm.trans hr'.told)
      cases ha with
      | @raises _ w e ha =>
        cases hb with
        | @raises _ w' e' hb =>
          by_cases hkind : r.raised.cause.kind = .stopIteration
          · rw [show r.passed = .anew _ .exhausted from if_pos hkind] at ha
            rw [show r'.passed = .anew _ .exhausted from if_pos (htold ▸ hkind)] at hb
            exact .raises ha.told hb.told (.inr .exhausted)
          · rw [show r.passed = r from if_neg hkind] at ha
            rw [show r'.passed = r' from if_neg (htold ▸ hkind)] at hb
            refine .raises ha.told (hb.told.trans (congrArg some htold.symm)) ?_
            cases r with
            | anew y hy => exact .inr hy
            | known u y =>
              cases r' with
              | anew y' hy' => exact .inr ((show y = y' from htold) ▸ hy')
              | known u' y' =>
                obtain rfl := (hr.same u y rfl).symm.trans (hr'.same u' y' rfl)
                exact .inl ((hb.same u y' rfl).trans (ha.same u y rfl).symm)

end Run

open Run (Delivers SameTake IsList)

namespace Sequence

/-- What cells of a list are forced to take `n` elements, one after the other: those of the elements, each with its
head, and one more, with its head if there is one, if these were not enough.  The take returns the elements, or ends as
the last of these forces does. -/
def Asks (run : Runner) (n : Nat) (c : CellId) (s : Store) (read : List (CellId × CellId)) (vs : List Value) (d : CellId)
    (take : EStateM.Result Halt Store Value) : Prop :=
  ∃ m rest result, Taken run c s read vs d m ∧ vs.length + rest = n ∧ Over run d m rest result ∧
    take = handedOut vs result

theorem delivers_handedOut {q : Unit → Prop} {r : Option Refusal} {result : EStateM.Result Halt Store Unit}
    (h : Delivers q r result) (vs : List Value) : Delivers (IsList vs) (r.map .passed) (handedOut vs result) := by
  cases h with
  | gives => exact .gives ⟨_, rfl⟩
  | raises hz => exact .raises hz.passed

/-- All that happens after the last force is that a tag is given for the list, or an error is made in place of another. -/
theorem spends_handedOut (vs : List Value) : ∀ result, (finalStore result).Spends (finalStore (handedOut vs result))
  | .ok _ e => by
    refine ⟨1, #[], #[], ?_⟩
    rw [Array.append_empty]
    unfold Store.spend
    rw [Array.append_empty]
    rfl
  | .error (.raised z) e => Iterator.spends_passed z e
  | .error .tooDeep e => .refl e

end Sequence

/-- Where the elements end that were read of a list: there are enough of them; or the list is at its end; or an error is
raised, by the next cell or by its head. -/
inductive Store.Closes (s : Store) (d : CellId) : Nat → Option Refusal → Prop
  | done : Closes s d 0 none
  | ended {tag : Tag} {n : Nat} (hd : s.state d = .evaluated (.nil tag)) : Closes s d (n + 1) none
  | list {r : Refusal} {n : Nat} (hd : s.Denies d r) : Closes s d (n + 1) (some r)
  | element {tag : Tag} {head next : CellId} {r : Refusal} {n : Nat}
    (hd : s.state d = .evaluated (.cons tag (.cell head) (.cell next))) (hhead : s.Denies head r) :
    Closes s d (n + 1) (some r)

/-- What a take of `n` elements comes to is decided: these cells have the values of the elements, and then it stops. -/
structure Store.Decided (s : Store) (c : CellId) (n : Nat) (read : List (CellId × CellId)) (vs : List Value)
    (d : CellId) (r : Option Refusal) : Prop where
  shows : s.Shows c read vs d
  closes : ∃ rest, vs.length + rest = n ∧ s.Closes d rest r

namespace Store
variable {r : Option Refusal} {rest : Nat}

theorem Closes.leads {a a' : Moment} (h : a.store.Closes d rest r) (ha : a.Sound) (hlater : Moment.Leads a a')
    (hengaged : a.store.Engages a'.store) : a'.store.Closes d rest r := by
  cases h with
  | done => exact .done
  | ended hd => exact .ended (hlater.evaluated ha hd (by simp))
  | list hd => exact .list (hd.leads ha hlater hengaged)
  | element hd hhead => exact .element (hlater.evaluated ha hd (by simp)) (hhead.leads ha hlater hengaged)

/-- To come there again changes nothing but the errors. -/
theorem Closes.over (h : s.Closes d rest r) (run : Runner) : ∃ result, Over run d s rest result ∧
    Delivers (fun _ => True) r result ∧ ∃ raised, finalStore result = { s with faults := s.faults ++ raised } := by
  cases h with
  | done => exact ⟨_, .done, .gives trivial, #[], by rw [Array.append_empty]; rfl⟩
  | ended hd => exact ⟨_, .ended (force_evaluated hd run), .gives trivial, #[], by rw [Array.append_empty]; rfl⟩
  | list hd =>
    obtain ⟨z, raised, hforce, hnames⟩ := hd.force
    exact ⟨_, .fails (.list (hforce run)), .raises hnames, raised, rfl⟩
  | element hd hhead =>
    obtain ⟨z, raised, hforce, hnames⟩ := hhead.force
    exact ⟨_, .fails (.element (force_evaluated hd run) (hforce run)), .raises hnames, raised, rfl⟩

namespace Decided

theorem leads {a a' : Moment} (h : a.store.Decided c n read vs d r) (ha : a.Sound) (hlater : Moment.Leads a a')
    (hengaged : a.store.Engages a'.store) : a'.store.Decided c n read vs d r where
  shows := (h.shows.taken (Program.runAt [] 0)).shows (k := a.pending) ha hlater
  closes := by
    obtain ⟨rest, hn, hcloses⟩ := h.closes
    exact ⟨rest, hn, hcloses.leads ha hlater hengaged⟩

/-- **A take whose outcome is decided** comes to it, however thunks are run, and changes nothing: a tag is given for the
list, or an error is made anew. -/
theorem take (h : s.Decided c n read vs d r) (hn : n ≤ sizeLimit) (run : Runner) :
    let take := takeList run (.int n) (.cell c) s
    Sequence.Asks run n c s read vs d take ∧ Delivers (IsList vs) (r.map .passed) take ∧ s.Spends (finalStore take) := by
  intro take
  obtain ⟨rest, rfl, hcloses⟩ := h.closes
  obtain ⟨result, hover, hdelivers, raised, hfinal⟩ := hcloses.over run
  have htake : take = Sequence.handedOut vs result := Sequence.takeList_of_over (h.shows.taken run) hover hn
  obtain ⟨tags, made, raised', hstore⟩ := Sequence.spends_handedOut vs result
  rw [htake]
  refine ⟨⟨s, rest, result, h.shows.taken run, rfl, hover, rfl⟩, Sequence.delivers_handedOut hdelivers vs, tags, made,
    raised ++ raised', ?_⟩
  rw [hstore, hfinal, ← Array.append_assoc]
  rfl

end Decided
end Store

namespace Sequence

/-- Whenever the first `n` elements are taken again, as long as no force that was going on is over, the same cells are
forced and it comes to the same; no thunk is run, and all that happens is that a tag is given, or an error is made. -/
def Again (n : Nat) (c : CellId) (read : List (CellId × CellId)) (vs : List Value) (d : CellId)
    (first : EStateM.Result Halt Store Value) (K : List Frame) : Prop :=
  ∀ m, Moment.Leads ⟨finalStore first, K⟩ m → (finalStore first).Engages m.store → ∀ run,
    let again := takeList run (.int n) (.cell c) m.store
    Asks run n c m.store read vs d again ∧ SameTake first again ∧ m.store.Spends (finalStore again)

theorem again_of_decided {first : EStateM.Result Halt Store Value} {r : Option Refusal} (hn : n ≤ sizeLimit)
    (hs : Moment.Sound ⟨finalStore first, K⟩) (h : (finalStore first).Decided c n read vs d r)
    (hfirst : Delivers (IsList vs) (r.map .passed) first) : Again n c read vs d first K := by
  intro m hlater hengaged run
  obtain ⟨hasks, hdelivers, hspends⟩ := (h.leads hs hlater hengaged).take hn run
  exact ⟨hasks, hfirst.same hdelivers, hspends⟩

/-! ## The first time -/

/-- However the force of a cell ends, the heap is active then and can count forces, and an error is one of the store. -/
structure Keeps (run : Runner) (g : HeapId) (c : CellId) (s : Store) : Prop where
  value : ∀ v m, force run c s = .ok v m → m.Serves g
  error : ∀ z m, force run c s = .error (.raised z) m → m.Serves g ∧ z < m.faults.size

/-- One more element of a list can be read: its cell comes to a list node or to the end of a list, unless this cell or
the head of the node raises an error; and each force leaves the heap active. -/
structure Readable (run : Runner) (g : HeapId) (c : CellId) (s : Store) : Prop where
  list : Keeps run g c s
  node : ∀ v m, force run c s = .ok v m → m.Node v
  head : ∀ tag head next m, force run c s = .ok (.cons tag (.cell head) (.cell next)) m → Keeps run g head m

theorem Keeps.of_ok (h : force run c s = .ok v m) (hm : m.Serves g) : Keeps run g c s where
  value w e hw := by
    cases h.symm.trans hw
    exact hm
  error z e hz := by cases h.symm.trans hz

/-- So an error that is raised is raised from then on. -/
theorem Keeps.denies {z : FaultId} (h : Keeps (p.runAt depth) g c s) (ha : s.active = some g)
    (hr : force (p.runAt depth) c s = .error (.raised z) e) : ∃ r, e.Denies c r ∧ r.Names z e := by
  obtain ⟨he, hz⟩ := h.error z e hr
  exact Store.Denies.of_error ha hr he hz

/-- An element can be read where a cell comes to a node, -/
theorem Readable.of_node {tag : Tag} {head next : CellId}
    (h : force run c s = .ok (.cons tag (.cell head) (.cell next)) m) (hm : m.Serves g) (hlt : head < m.cells.size)
    (hhead : Keeps run g head m) : Readable run g c s where
  list := .of_ok h hm
  node w e hw := by
    cases h.symm.trans hw
    exact ⟨.node _ _ _, fun _ _ _ hnode => by cases hnode; exact hlt⟩
  head _ _ _ e hw := by
    cases h.symm.trans hw
    exact hhead

/-- or to the end of the list. -/
theorem Readable.of_nil {tag : Tag} (h : force run c s = .ok (.nil tag) m) (hm : m.Serves g) : Readable run g c s where
  list := .of_ok h hm
  node w e hw := by
    cases h.symm.trans hw
    exact ⟨.done _, fun _ _ _ hnode => by cases hnode⟩
  head _ _ _ e hw := by cases h.symm.trans hw

/-- **An error that ends the reading of an element is raised from then on**, by the cell of the list or by the head of its
node. -/
theorem Readable.denies_of_fails {z : FaultId} (h : Readable (p.runAt depth) g c s) (hs : Moment.Sound ⟨s, K⟩)
    (ha : s.active = some g) (hf : Fails (p.runAt depth) c s (.raised z) e) : ∃ r, r.Names z e ∧ s.Runs e ∧
    (e.Denies c r ∨ ∃ tag head next m, force (p.runAt depth) c s = .ok (.cons tag (.cell head) (.cell next)) m ∧
      e.state c = .evaluated (.cons tag (.cell head) (.cell next)) ∧ e.Denies head r) := by
  cases hf with
  | list hforce =>
    obtain ⟨r, hdenies, hnames⟩ := h.list.denies ha hforce
    exact ⟨r, hnames, runs_of_force_raised hforce, .inl hdenies⟩
  | @element m head next tag hnode hhead =>
    have hm := h.list.value _ m hnode
    obtain ⟨r, hdenies, hnames⟩ := (h.head tag head next m hnode).denies hm.active hhead
    have hruns := runs_of_force_raised hhead
    have hc := (hruns K).evaluated (hs.leads (runs_of_force_ok hnode K)) (force_ok_state hnode) (by simp)
    exact ⟨r, hnames, (runs_of_force_ok hnode).trans hruns, .inr ⟨tag, head, next, m, hnode, hc, hdenies⟩⟩

/-- As far as a list is read to take `n` elements, each of them can be read. -/
def Behaves (run : Runner) (g : HeapId) : Nat → CellId → Store → Prop
  | 0, _, _ => True
  | n + 1, c, s => Readable run g c s ∧ ∀ tag head next m w e,
      force run c s = .ok (.cons tag (.cell head) (.cell next)) m → force run head m = .ok w e → Behaves run g n next e

/-- An element is read, or the list stops. -/
theorem Readable.cases (h : Readable run g c s) : (∃ tag head next m v e,
    force run c s = .ok (.cons tag (.cell head) (.cell next)) m ∧ head < m.cells.size ∧ force run head m = .ok v e ∧
      e.Serves g) ∨ ∃ result, ∀ n, Over run c s (n + 1) result := by
  cases hnode : force run c s with
  | error halt m => exact .inr ⟨_, fun n => .fails (.list hnode)⟩
  | ok v m =>
    obtain ⟨hv, hlt⟩ := h.node v m hnode
    cases hv with
    | done tag => exact .inr ⟨_, fun n => .ended hnode⟩
    | node tag head next =>
      cases helement : force run head m with
      | error halt e => exact .inr ⟨_, fun n => .fails (.element hnode helement)⟩
      | ok w e =>
        exact .inl ⟨tag, head, next, m, w, e, rfl, hlt _ _ _ rfl, helement, (h.head _ _ _ _ hnode).value w e helement⟩

/-- The list is read up to where it stops. -/
theorem taken_of_behaves (h : Behaves run g n c s) (ha : s.active = some g) : ∃ read vs d m rest result,
    Taken run c s read vs d m ∧ vs.length + rest = n ∧ Over run d m rest result ∧ m.active = some g ∧
    (rest ≠ 0 → Readable run g d m) := by
  induction n generalizing c s with
  | zero => exact ⟨[], [], c, s, 0, _, .here c s, rfl, .done, ha, fun hne => absurd rfl hne⟩
  | succ n ih =>
    obtain ⟨hreadable, hfollows⟩ := h
    rcases hreadable.cases with ⟨tag, head, next, m, v, e, hnode, hlt, hhead, he⟩ | ⟨result, hover⟩
    · obtain ⟨read, vs, d, f, rest, result, htaken, hn, hlast⟩ := ih (hfollows _ _ _ _ _ _ hnode hhead) he.active
      exact ⟨_, _, d, f, rest, result, .next hnode hlt hhead htaken, by rw [List.length_cons]; omega, hlast⟩
    · exact ⟨[], [], c, s, n + 1, result, .here c s, Nat.zero_add _, hover n, ha, fun _ => hreadable⟩

/-- **Where a list stops, it stops from then on**, unless the depth is exceeded. -/
theorem closes_of_over {rest : Nat} {result : EStateM.Result Halt Store Unit} (hs : Moment.Sound ⟨m, K⟩)
    (ha : m.active = some g) (h : rest ≠ 0 → Readable (p.runAt depth) g d m)
    (hover : Over (p.runAt depth) d m rest result) :
    (∃ e, result = .error .tooDeep e) ∨ ∃ r, (finalStore result).Closes d rest r ∧ Delivers (fun _ => True) r result ∧
      m.Runs (finalStore result) := by
  cases hover with
  | done => exact .inr ⟨none, .done, .gives trivial, .refl m⟩
  | ended hforce => exact .inr ⟨none, .ended (force_ok_state hforce), .gives trivial, runs_of_force_ok hforce⟩
  | @fails e halt n hfails =>
    cases halt with
    | tooDeep => exact .inl ⟨e, rfl⟩
    | raised z =>
      obtain ⟨r, hnames, hruns, hdenies | ⟨_, _, _, _, -, hd, hhead⟩⟩ := (h n.succ_ne_zero).denies_of_fails hs ha hfails
      · exact .inr ⟨some r, .list hdenies, .raises hnames, hruns⟩
      · exact .inr ⟨some r, .element hd hhead, .raises hnames, hruns⟩

/-- **A take that is done for the first time decides what it comes to from then on**, unless the depth is exceeded. -/
theorem decided_of_behaves (hs : Moment.Sound ⟨s, K⟩) (ha : s.active = some g) (hn : n ≤ sizeLimit)
    (h : Behaves (p.runAt depth) g n c s) :
    let first := takeList (p.runAt depth) (.int n) (.cell c) s
    ∃ read vs d, Asks (p.runAt depth) n c s read vs d first ∧ ((∃ e, first = .error .tooDeep e) ∨
      ∃ r, (finalStore first).Decided c n read vs d r ∧ Delivers (IsList vs) (r.map .passed) first ∧
        s.Runs (finalStore first)) := by
  intro first
  obtain ⟨read, vs, d, m, rest, result, htaken, rfl, hover, hm, hreadable⟩ := taken_of_behaves h ha
  have hfirst : first = handedOut vs result := takeList_of_over htaken hover hn
  have hread := hs.leads (htaken.runs K)
  rw [hfirst]
  refine ⟨read, vs, d, ⟨m, rest, result, htaken, rfl, hover, rfl⟩, ?_⟩
  rcases closes_of_over hread hm hreadable hover with ⟨e, rfl⟩ | ⟨r, hcloses, hdelivers, hruns⟩
  · exact .inl ⟨e, rfl⟩
  · have hspends := spends_handedOut vs result
    have hlast : Moment.Leads ⟨finalStore result, K⟩ ⟨finalStore (handedOut vs result), K⟩ := hspends.runs K
    have hclosed := hcloses.leads (hread.leads (hruns K)) hlast hspends.engages
    exact .inr ⟨r, ⟨htaken.shows hs ((hruns K).trans hlast), rest, rfl, hclosed⟩, delivers_handedOut hdelivers vs,
      (htaken.runs.trans hruns).trans hspends.runs⟩

end Sequence
end Retention
