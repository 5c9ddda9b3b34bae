import Retention.Scenario
/-!
# Naming — which heaps a value names

A heap stands in a value as a number, and a number may be written that no heap has.  What a computation reads and what it
leaves is said to be below a number if all heaps that it names have smaller numbers (`Below`).  A store is grounded if it
is below the number of its heaps (`Store.Grounded`): all heaps that are named anywhere in it are there.

Errors, flags of heaps and what a cell was made in are left out, since no computation ever takes a value from them.
-/
namespace Retention

/-- The value names a heap. -/
inductive Value.Names : Value → HeapId → Prop
  | heap (h : HeapId) : Names (.heap h) h
  | list {tag : Tag} {items : List Value} {v : Value} {h : HeapId} : v ∈ items → Names v h → Names (.list tag items) h
  | tuple {tag : Tag} {items : List Value} {v : Value} {h : HeapId} : v ∈ items → Names v h → Names (.tuple tag items) h
  | key {tag : Tag} {entries : List (Value × Value)} {e : Value × Value} {h : HeapId} :
    e ∈ entries → Names e.1 h → Names (.dict tag entries) h
  | entry {tag : Tag} {entries : List (Value × Value)} {e : Value × Value} {h : HeapId} :
    e ∈ entries → Names e.2 h → Names (.dict tag entries) h
  | head {tag : Tag} {head tail : Value} {h : HeapId} : Names head h → Names (.cons tag head tail) h
  | tail {tag : Tag} {head tail : Value} {h : HeapId} : Names tail h → Names (.cons tag head tail) h
  | lo {tag : Tag} {lo hi : Value} {h : HeapId} : Names lo h → Names (.interval tag lo hi) h
  | hi {tag : Tag} {lo hi : Value} {h : HeapId} : Names hi h → Names (.interval tag lo hi) h
  | source {tag : Tag} {source origin : Value} {h : HeapId} : Names source h → Names (.shared tag source origin) h
  | origin {tag : Tag} {source origin : Value} {h : HeapId} : Names origin h → Names (.shared tag source origin) h
  | makerLo {tag : Tag} {lo hi : Value} {h : HeapId} : Names lo h → Names (.unshared tag (.interval lo hi)) h
  | makerHi {tag : Tag} {lo hi : Value} {h : HeapId} : Names hi h → Names (.unshared tag (.interval lo hi)) h

/-- What may name heaps, and what it is for all of them to have numbers below the given one. -/
class Naming (α : Type) where
  below : Nat → α → Prop
  mono {n m : Nat} {a : α} : n ≤ m → below n a → below m a

/-- All heaps that are named have numbers below the given one. -/
def Below {α : Type} [Naming α] (n : Nat) (a : α) : Prop := Naming.below n a

/-- What can name no heap. -/
class Nameless (α : Type)

section Instances
variable {α β : Type}

instance [Nameless α] : Naming α := ⟨fun _ _ => True, fun _ _ => trivial⟩

instance : Nameless Unit := ⟨⟩
instance : Nameless Bool := ⟨⟩
instance : Nameless Nat := ⟨⟩
instance : Nameless Int := ⟨⟩
instance : Nameless String := ⟨⟩
instance : Nameless Found := ⟨⟩
instance : Nameless Function := ⟨⟩
instance : Nameless Discipline := ⟨⟩
instance : Nameless ErrorKind := ⟨⟩

instance : Naming Value := ⟨fun n v => ∀ h, v.Names h → h < n, fun hn hv h hh => Nat.lt_of_lt_of_le (hv h hh) hn⟩

instance [Naming α] : Naming (List α) := ⟨fun n xs => ∀ x ∈ xs, Below n x, fun hn hxs x hx => Naming.mono hn (hxs x hx)⟩

instance [Naming α] : Naming (Option α) := ⟨fun n o => ∀ x ∈ o, Below n x, fun hn ho x hx => Naming.mono hn (ho x hx)⟩

instance [Naming α] [Naming β] : Naming (α × β) :=
  ⟨fun n x => Below n x.1 ∧ Below n x.2, fun hn hx => ⟨Naming.mono hn hx.1, Naming.mono hn hx.2⟩⟩

/-- An error stands for itself. -/
instance [Naming α] : Naming (Except FaultId α) :=
  ⟨fun n r => ∀ a, r = .ok a → Below n a, fun hn hr a ha => Naming.mono hn (hr a ha)⟩

instance : Naming (Maker Value) where
  below
    | _, .function _ => True
    | n, .interval lo hi => Below n lo ∧ Below n hi
  mono {_ _ a} hn ha := by
    cases a with
    | function f => trivial
    | interval lo hi => exact ⟨Naming.mono hn ha.1, Naming.mono hn ha.2⟩

end Instances

section
variable {α β : Type} [Naming α] [Naming β] {n m : Nat}

@[grind →] theorem Below.mono {a : α} (h : Below n a) (hn : n ≤ m) : Below m a := Naming.mono hn h

@[grind ←] theorem below_of_nameless {γ : Type} [Nameless γ] (a : γ) : Below n a := trivial

/-! ## Lists, pairs and options -/

@[grind =] theorem below_listNil : Below n ([] : List α) ↔ True := iff_true_intro fun _ h => by cases h

@[grind =] theorem below_listCons {x : α} {xs : List α} : Below n (x :: xs) ↔ Below n x ∧ Below n xs :=
  List.forall_mem_cons

@[grind →] theorem below_of_getLast? {xs : List α} {x : α} (h : Below n xs) (hx : xs.getLast? = some x) : Below n x :=
  h x (List.mem_of_getLast? hx)

@[grind =] theorem below_append {xs ys : List α} : Below n (xs ++ ys) ↔ Below n xs ∧ Below n ys :=
  List.forall_mem_append

@[grind =] theorem below_reverse {xs : List α} : Below n xs.reverse ↔ Below n xs :=
  forall_congr' fun x => by rw [List.mem_reverse]

@[grind ←] theorem below_getD {xs : List α} {d : α} (h : Below n xs) (hd : Below n d) (i : Nat) :
    Below n (xs[i]?.getD d) := by
  cases hx : xs[i]? with
  | none => exact hd
  | some x => exact h x (List.mem_of_getElem? hx)

@[grind =] theorem below_none : Below n (none : Option α) ↔ True := iff_true_intro fun _ h => by cases h

@[grind =] theorem below_some {a : α} : Below n (some a) ↔ Below n a :=
  ⟨fun h => h a rfl, fun h x hx => by cases hx; exact h⟩

@[grind =] theorem below_pair {a : α} {b : β} : Below n (a, b) ↔ Below n a ∧ Below n b := .rfl

@[grind =] theorem below_ok {a : α} : Below n (.ok a : Except FaultId α) ↔ Below n a :=
  ⟨fun h => h a rfl, fun h x hx => by cases hx; exact h⟩

@[grind ←] theorem below_put {κ : Type} [Naming κ] {same : κ → κ → Bool} {k : κ} {a : α} (hk : Below n k) (ha : Below n a) :
    ∀ {xs : Entries κ α}, Below n xs → Below n (Entries.put same k a xs)
  | [], _ => by unfold Entries.put; grind
  | x :: xs, h => by
    have ih : Below n xs → Below n (Entries.put same k a xs) := below_put hk ha
    unfold Entries.put; grind

@[grind →] theorem below_of_get? {κ : Type} [Naming κ] {same : κ → κ → Bool} {k : κ} {a : α} {xs : Entries κ α}
    (h : Below n xs) (ha : Entries.get? same xs k = some a) : Below n a := by
  obtain ⟨x, hx, rfl⟩ := Option.map_eq_some_iff.1 ha
  exact (h x (List.mem_of_find?_eq_some hx)).2

theorem below_erase {κ : Type} [Naming κ] {same : κ → κ → Bool} {k : κ} {xs : Entries κ α} (h : Below n xs) :
    Below n (Entries.erase same k xs) := fun x hx => h x (List.mem_filter.1 hx).1

end

/-! ## Values -/

section
variable {n : Nat} {tag : Tag}

@[grind =] theorem below_heap {h : HeapId} : Below n (Value.heap h) ↔ h < n :=
  ⟨fun hv => hv h (.heap h), fun hh g hg => by cases hg; exact hh⟩

@[grind =] theorem below_list {items : List Value} : Below n (Value.list tag items) ↔ Below n items :=
  ⟨fun hv x hx h hh => hv h (.list hx hh), fun hx h hh => by cases hh with | list hv hh => exact hx _ hv h hh⟩

@[grind =] theorem below_tuple {items : List Value} : Below n (Value.tuple tag items) ↔ Below n items :=
  ⟨fun hv x hx h hh => hv h (.tuple hx hh), fun hx h hh => by cases hh with | tuple hv hh => exact hx _ hv h hh⟩

@[grind =] theorem below_dict {entries : List (Value × Value)} : Below n (Value.dict tag entries) ↔ Below n entries :=
  ⟨fun hv _ hx => ⟨fun h hh => hv h (.key hx hh), fun h hh => hv h (.entry hx hh)⟩, fun hx h hh => by
    cases hh with
    | key hv hh => exact (hx _ hv).1 h hh
    | entry hv hh => exact (hx _ hv).2 h hh⟩

@[grind =] theorem below_cons {head tail : Value} : Below n (Value.cons tag head tail) ↔ Below n head ∧ Below n tail :=
  ⟨fun hv => ⟨fun h hh => hv h (.head hh), fun h hh => hv h (.tail hh)⟩, fun hx h hh => by
    cases hh with
    | head hh => exact hx.1 h hh
    | tail hh => exact hx.2 h hh⟩

@[grind =] theorem below_interval {lo hi : Value} : Below n (Value.interval tag lo hi) ↔ Below n lo ∧ Below n hi :=
  ⟨fun hv => ⟨fun h hh => hv h (.lo hh), fun h hh => hv h (.hi hh)⟩, fun hx h hh => by
    cases hh with
    | lo hh => exact hx.1 h hh
    | hi hh => exact hx.2 h hh⟩

@[grind =] theorem below_shared {source origin : Value} :
    Below n (Value.shared tag source origin) ↔ Below n source ∧ Below n origin :=
  ⟨fun hv => ⟨fun h hh => hv h (.source hh), fun h hh => hv h (.origin hh)⟩, fun hx h hh => by
    cases hh with
    | source hh => exact hx.1 h hh
    | origin hh => exact hx.2 h hh⟩

@[grind =] theorem below_unshared {maker : Maker Value} : Below n (Value.unshared tag maker) ↔ Below n maker := by
  cases maker with
  | function f => exact iff_of_true (fun h hh => by cases hh) trivial
  | interval lo hi =>
    exact ⟨fun hv => ⟨fun h hh => hv h (.makerLo hh), fun h hh => hv h (.makerHi hh)⟩, fun hx h hh => by
      cases hh with
      | makerLo hh => exact hx.1 h hh
      | makerHi hh => exact hx.2 h hh⟩

/-- The value has no parts and is no heap. -/
@[grind] def Value.IsLeaf : Value → Prop
  | .null | .bool _ | .int _ | .str _ | .cell _ | .nil _ | .state _ _ | .discipline _ | .report _ | .consumer _ | .iterator _
  | .fault _ => True
  | .list _ _ | .tuple _ _ | .dict _ _ | .cons _ _ _ | .interval _ _ _ | .shared _ _ _ | .unshared _ _ | .heap _ => False

@[grind ←] theorem below_of_isLeaf {v : Value} (h : v.IsLeaf) : Below n v := by
  intro g hg
  cases hg
  all_goals cases h

mutual
theorem below_refs : ∀ {v : Value}, Below n v → Below n v.refs
  | .cell c, h => below_listCons.2 ⟨h, below_listNil.2 trivial⟩
  | .cons _ _ _, h => by
    obtain ⟨hhead, htail⟩ := below_cons.1 h
    unfold Value.refs; grind
  | .shared _ _ _, h => by
    obtain ⟨hsource, horigin⟩ := below_shared.1 h
    unfold Value.refs; grind
  | .list _ items, h => below_refsOfAll (below_list.1 h)
  | .tuple _ items, h => below_refsOfAll (below_tuple.1 h)
  | .null, _ | .bool _, _ | .int _, _ | .str _, _ | .dict _ _, _ | .nil _, _ | .interval _ _ _, _ | .state _ _, _
  | .unshared _ _, _ | .discipline _, _ | .report _, _ | .heap _, _ | .consumer _, _ | .iterator _, _ | .fault _, _ =>
    below_listNil.2 trivial
theorem below_refsOfAll : ∀ {vs : List Value}, Below n vs → Below n (Value.refsOfAll vs)
  | [], _ => below_listNil.2 trivial
  | _ :: _, h => below_append.2 ⟨below_refs (below_listCons.1 h).1, below_refsOfAll (below_listCons.1 h).2⟩
end

end

/-! ## What is in a store -/

instance : Naming Thunk where
  below
    | n, .intervalNode _ lo hi => Below n lo ∧ Below n hi
    | n, .intervalHead _ lo hi => Below n lo ∧ Below n hi
    | n, .appendNode xs ys => Below n xs ∧ Below n ys
    | _, .iteratorNode _ => True
    | n, .cycleStart _ source => Below n source
    | n, .sharedLap _ source origin => Below n source ∧ Below n origin
    | n, .freshLap _ maker => Below n maker
    | n, .call _ args => Below n args
  mono {_ _ t} hn ht := by
    cases t with
    | iteratorNode source => trivial
    | cycleStart origin source => exact Below.mono (a := source) ht hn
    | freshLap tag maker => exact Below.mono (a := maker) ht hn
    | call f args => exact Below.mono (a := args) ht hn
    | _ => exact ⟨Below.mono ht.1 hn, Below.mono ht.2 hn⟩

instance : Naming CellState where
  below
    | n, .suspended t => Below n t
    | n, .inProgress t => Below n t
    | n, .evaluated v => Below n v
    | _, .failed _ => True
  mono {_ _ st} hn hst := by
    cases st with
    | suspended t => exact Below.mono (a := t) hst hn
    | inProgress t => exact Below.mono (a := t) hst hn
    | evaluated v => exact Below.mono (a := v) hst hn
    | failed error => trivial

instance : Naming Place where
  below
    | n, .before xs => Below n xs
    | n, .past node => Below n node
  mono {_ _ place} hn h := by
    cases place with
    | before xs => exact Below.mono (a := xs) h hn
    | past node => exact Below.mono (a := node) h hn

instance : Naming Cursor where
  below
    | n, .items rest => Below n rest
    | n, .calls _ _ stop => Below n stop
    | n, .spine place => Below n place
    | _, _ => True
  mono {_ _ cursor} hn h := by
    cases cursor with
    | items rest => exact Below.mono (a := rest) h hn
    | calls f next stop => exact Below.mono (a := stop) h hn
    | spine place => exact Below.mono (a := place) h hn
    | busy => trivial
    | finished => trivial

section
variable {n : Nat} {tag : Tag} {lo hi xs ys source origin : Value}

@[grind =] theorem below_intervalNode : Below n (Thunk.intervalNode tag lo hi) ↔ Below n lo ∧ Below n hi := .rfl

@[grind =] theorem below_intervalHead : Below n (Thunk.intervalHead tag lo hi) ↔ Below n lo ∧ Below n hi := .rfl

@[grind =] theorem below_appendNode : Below n (Thunk.appendNode xs ys) ↔ Below n xs ∧ Below n ys := .rfl

@[grind =] theorem below_iteratorNode {i : IteratorId} : Below n (Thunk.iteratorNode i) ↔ True := .rfl

@[grind =] theorem below_cycleStart {c : CellId} : Below n (Thunk.cycleStart c source) ↔ Below n source := .rfl

@[grind =] theorem below_sharedLap :
    Below n (Thunk.sharedLap tag source origin) ↔ Below n source ∧ Below n origin := .rfl

@[grind =] theorem below_freshLap {maker : Maker Value} : Below n (Thunk.freshLap tag maker) ↔ Below n maker := .rfl

@[grind =] theorem below_call {f : Function} {args : List Value} : Below n (Thunk.call f args) ↔ Below n args := .rfl

@[grind =] theorem below_makerFunction {f : Function} : Below n (Maker.function f : Maker Value) ↔ True := .rfl

@[grind =] theorem below_makerInterval : Below n (Maker.interval lo hi) ↔ Below n lo ∧ Below n hi := .rfl

theorem below_args : ∀ {t : Thunk}, Below n t → Below n t.args
  | .intervalNode _ _ _, h => below_listCons.2 ⟨below_interval.2 h, below_listNil.2 trivial⟩
  | .intervalHead _ _ _, _ => below_listCons.2 ⟨below_of_isLeaf trivial, below_listNil.2 trivial⟩
  | .appendNode _ _, h => below_listCons.2 ⟨h.1, below_listCons.2 ⟨h.2, below_listNil.2 trivial⟩⟩
  | .iteratorNode _, _ => below_listCons.2 ⟨below_of_isLeaf trivial, below_listNil.2 trivial⟩
  | .cycleStart _ _, h => below_listCons.2 ⟨below_of_isLeaf trivial, below_listCons.2 ⟨h, below_listNil.2 trivial⟩⟩
  | .sharedLap _ _ _, h => below_listCons.2 ⟨below_shared.2 h, below_listNil.2 trivial⟩
  | .freshLap _ _, h => below_listCons.2 ⟨below_unshared.2 h, below_listNil.2 trivial⟩
  | .call _ _, h => h

@[grind =] theorem below_inProgress {t : Thunk} : Below n (CellState.inProgress t) ↔ Below n t := .rfl

@[grind =] theorem below_failed {error : Value} : Below n (CellState.failed error) ↔ True := .rfl

/-- What a state refers to names no other heaps than the state. -/
theorem below_stateRefs : ∀ {st : CellState}, Below n st → Below n st.refs
  | .suspended _, h => below_refsOfAll (below_args h)
  | .inProgress _, h => below_refsOfAll (below_args h)
  | .evaluated _, h => below_refs h
  | .failed _, _ => below_listNil.2 trivial

@[grind =] theorem below_before : Below n (Place.before xs) ↔ Below n xs := .rfl

@[grind =] theorem below_past : Below n (Place.past xs) ↔ Below n xs := .rfl

@[grind =] theorem below_items {rest : List Value} : Below n (Cursor.items rest) ↔ Below n rest := .rfl

@[grind =] theorem below_calls {f : Function} {next : Int} : Below n (Cursor.calls f next xs) ↔ Below n xs := .rfl

@[grind =] theorem below_spine {place : Place} : Below n (Cursor.spine place) ↔ Below n place := .rfl

@[grind =] theorem below_busy : Below n Cursor.busy ↔ True := .rfl

@[grind =] theorem below_finished : Below n Cursor.finished ↔ True := .rfl

end

/-- Of a report, the head can be asked for; its other fields are only compared and written. -/
instance : Naming Report := ⟨fun n r => Below n r.head, fun hn hr => Below.mono hr hn⟩

instance : Naming Consumer := ⟨fun n x => Below n x.samples, fun hn hx => Below.mono hx hn⟩

/-- What is active, if there is anything, is a heap with a number below the given one. -/
def ActiveBelow (n : Nat) (active : Option HeapId) : Prop := ∀ h, active = some h → h < n

/-- Of a heap, its roots can be read, and it makes active again what was active when it was entered. -/
instance : Naming Heap where
  below n x := (∀ previous ∈ x.contexts, ActiveBelow n previous) ∧ Below n x.roots
  mono hn hx := ⟨fun p hp g hg => Nat.lt_of_lt_of_le (hx.1 p hp g hg) hn, hx.2.mono hn⟩

/-- All heaps that a store names, where a computation could take them from, have numbers below the given one. -/
structure Store.BelowIn (s : Store) (n : Nat) : Prop where
  active : ActiveBelow n s.active
  heaps : ∀ h, Below n (s.heap h)
  states : ∀ c, Below n (s.state c)
  cursors : ∀ i, Below n (s.cursor i)
  consumers : ∀ d : ConsumerId, Below n s.consumers[d]?
  reports : ∀ r, Below n (s.reportAt r)
  bindings : Below n s.bindings

instance : Naming Store where
  below n s := s.BelowIn n
  mono hn hs := {
    active h hh := Nat.lt_of_lt_of_le (hs.active h hh) hn
    heaps h := (hs.heaps h).mono hn
    states c := (hs.states c).mono hn
    cursors i := (hs.cursors i).mono hn
    consumers d := (hs.consumers d).mono hn
    reports r := (hs.reports r).mono hn
    bindings := hs.bindings.mono hn }

/-- All heaps that are named in the store are there. -/
def Store.Grounded (s : Store) : Prop := s.BelowIn s.heaps.size

namespace Store.BelowIn
variable {n : Nat} {s : Store}

/-- What holds of the record of every heap holds of the changed records. -/
theorem updateHeap (hs : s.BelowIn n) (h : HeapId) {f : Heap → Heap} (hf : Below n (s.heap h) → Below n (f (s.heap h))) :
    (s.updateHeap h f).BelowIn n where
  active := hs.active
  heaps g := by
    have hg := hs.heaps g
    unfold Store.updateHeap heap at *
    rw [Array.getElem?_modify]
    split
    · next hhg =>
      subst hhg
      cases hx : s.heaps[h]? with
      | none => rw [hx] at hg; exact hg
      | some x => rw [hx] at hf hg; exact hf hg
    · exact hg
  states := hs.states
  cursors := hs.cursors
  consumers := hs.consumers
  reports := hs.reports
  bindings := hs.bindings

theorem activate {active : Option HeapId} (hs : s.BelowIn n) (ha : ActiveBelow n active) :
    BelowIn { s with active } n := { hs with active := ha }

theorem pushHeap {x : Heap} (hs : s.BelowIn n) (hx : Below n x) : BelowIn { s with heaps := s.heaps.push x } n where
  active := hs.active
  heaps g := by
    have hg := hs.heaps g
    unfold heap at hg ⊢
    rw [Array.getElem?_push]
    split
    · exact hx
    · exact hg
  states := hs.states
  cursors := hs.cursors
  consumers := hs.consumers
  reports := hs.reports
  bindings := hs.bindings

theorem entered {h : HeapId} (hs : s.BelowIn n) (hh : h < n) : (s.entered h).BelowIn n := by
  have hcontexts := hs.updateHeap h (f := fun x => { x with contexts := s.active :: x.contexts }) fun hx =>
    ⟨List.forall_mem_cons.2 ⟨hs.active, hx.1⟩, hx.2⟩
  exact hcontexts.activate fun g hg => by cases hg; exact hh

theorem left {h : HeapId} {previous : Option HeapId} {contexts : List (Option HeapId)} (hs : s.BelowIn n)
    (hc : (s.heap h).contexts = previous :: contexts) : (s.left h previous contexts).BelowIn n := by
  have hall := List.forall_mem_cons.1 (hc ▸ (hs.heaps h).1)
  have hcontexts := hs.updateHeap h (f := fun x => { x with contexts := contexts }) fun hx => ⟨hall.2, hx.2⟩
  exact hcontexts.activate hall.1

theorem closed (hs : s.BelowIn n) (h : HeapId) : (s.closed h).BelowIn n :=
  hs.updateHeap h fun hx => ⟨hx.1, below_listNil.2 trivial⟩

theorem rooted {name v : Value} (hs : s.BelowIn n) (h : HeapId) (hname : Below n name) (hv : Below n v) :
    (s.rooted h name v).BelowIn n := hs.updateHeap h fun hx => ⟨hx.1, below_put hname hv hx.2⟩

theorem unrooted (hs : s.BelowIn n) (h : HeapId) (name : Value) : (s.unrooted h name).BelowIn n :=
  hs.updateHeap h fun hx => ⟨hx.1, below_erase hx.2⟩

theorem noteLive (hs : s.BelowIn n) (h : HeapId) (live : Nat) : (s.noteLive h live).BelowIn n :=
  hs.updateHeap h fun hx => hx

theorem keepOnly (hs : s.BelowIn n) (h : HeapId) (found : Found) : (s.keepOnly h found).BelowIn n :=
  hs.updateHeap h fun hx => hx

theorem counted (hs : s.BelowIn n) (h : HeapId) : (s.counted h).BelowIn n := hs.updateHeap h fun hx => hx

theorem recorded (hs : s.BelowIn n) (turn : Turn) : (s.recorded turn).BelowIn n := { hs with }

theorem setState {st : CellState} (hs : s.BelowIn n) (c : CellId) (hst : Below n st) : (s.setState c st).BelowIn n where
  active := hs.active
  heaps := hs.heaps
  states d := by
    by_cases hd : d = c
    · subst hd
      rcases Nat.lt_or_ge d s.cells.size with hlt | hge
      · rw [state_setState_self s d st hlt]
        exact hst
      · rw [state_of_size_le (by rw [size_setState]; exact hge)]
        exact below_of_isLeaf (v := .null) trivial
    · rw [state_setState_of_ne s st hd]
      exact hs.states d
  cursors := hs.cursors
  consumers := hs.consumers
  reports := hs.reports
  bindings := hs.bindings

theorem register {st : CellState} (hs : s.BelowIn n) (h : HeapId) (hst : Below n st) : (s.register h st).BelowIn n := by
  have hcells : BelowIn { s with cells := s.cells.push ⟨h, (s.heap h).created + 1, st, st⟩ } n := {
    hs with
    states := fun c => by
      have hc := hs.states c
      unfold state at hc ⊢
      rw [Array.getElem?_push]
      split
      · exact hst
      · exact hc }
  exact hcells.updateHeap h fun hx => hx

theorem setCursor {cursor : Cursor} (hs : s.BelowIn n) (i : IteratorId) (hcursor : Below n cursor) :
    (s.setCursor i cursor).BelowIn n := {
  hs with
  cursors := fun j => by
    have hj := hs.cursors j
    unfold Store.setCursor Store.cursor at *
    rw [Array.getElem?_modify]
    split
    · cases hx : s.iterators[j]? with
      | none => exact trivial
      | some x => exact hcursor
    · exact hj }

theorem pushIterator {x : Iterator} (hs : s.BelowIn n) (hx : Below n x.cursor) :
    BelowIn { s with iterators := s.iterators.push x } n := {
  hs with
  cursors := fun i => by
    have hi := hs.cursors i
    unfold Store.cursor at hi ⊢
    rw [Array.getElem?_push]
    split
    · exact hx
    · exact hi }

theorem pushReport {r : Report} (hs : s.BelowIn n) (hr : Below n r) :
    BelowIn { s with reports := s.reports.push r } n := {
  hs with
  reports := fun i => by
    have hi := hs.reports i
    unfold reportAt at hi ⊢
    rw [Array.getElem?_push]
    split
    · exact hr
    · exact hi }

theorem pushConsumer {x : Consumer} (hs : s.BelowIn n) (hx : Below n x) :
    BelowIn { s with consumers := s.consumers.push x } n := {
  hs with
  consumers := fun d => by
    rw [Array.getElem?_push]
    split
    · exact below_some.2 hx
    · exact hs.consumers d }

theorem stepConsumer (hs : s.BelowIn n) (d : ConsumerId) (steps : Nat) :
    BelowIn { s with consumers := s.consumers.modify d fun x => { x with steps := steps } } n := {
  hs with
  consumers := fun c => by
    have hc := hs.consumers c
    rw [Array.getElem?_modify]
    split
    · cases hx : s.consumers[c]? with
      | none => exact below_none.2 trivial
      | some x => rw [hx] at hc; exact below_some.2 (below_some.1 hc :)
    · exact hc }

theorem assign {name : String} {v : Value} (hs : s.BelowIn n) (hv : Below n v) :
    BelowIn { s with bindings := Entries.put (· == ·) name v s.bindings } n :=
  { hs with bindings := below_put (below_of_nameless name) hv hs.bindings }

end Store.BelowIn
end Retention
