import Retention.Proofs.Stepping
/-!
# Cohabiting — the consumers of one heap share what is left

A heap has one root for what is left of a list, whichever consumer put it there.  So a new consumer displaces the lists of
all others (`second_consumer_displaces_first`), and from then on they stand before the same cell: whoever takes a step takes
it for both, though each counts only its own (`Consumer.Together`).

`Together.request` is what one request to either of two consumers comes to, and `Plays` follows requests to both, in any
order.
-/
namespace Retention

variable {p : Program} {depth k k' k₁ k₂ : Nat} {h : HeapId} {x y : Consumer} {d d' d₁ d₂ : ConsumerId}
  {origin c c' : CellId} {s m e : Store}

theorem Store.keepsAlive_of_left? (hl : s.left? h = some (.cell c)) (hc : c < s.cells.size) : s.KeepsAlive h c := by
  obtain ⟨name, hroot⟩ := mem_roots_of_left? hl
  exact ⟨hc, name, c, hroot, .refl⟩

namespace Consumer

/-- What came to this did not run out of depth, and left the consumers of the heap alone. -/
structure Spares (h : HeapId) (s : Store) (result : EStateM.Result Halt Store Value) : Prop where
  inDepth : ∀ e, result ≠ .error .tooDeep e
  leavesBe : s.LeavesBe h (Run.finalStore result)

/-- The head of a list is found by one force. -/
theorem Spares.head {run : Runner} (hf : Spares h s (force run c s)) : Spares h s (Sequence.head run (.cell c) s) := by
  unfold Sequence.head
  rw [Run.bind_ok (show Run.cellOf "state" (.cell c) s = .ok c s from rfl)]
  cases hforce : force run c s with
  | error halt m =>
    rw [Run.bind_error hforce]
    exact hforce ▸ hf
  | ok v m =>
    rw [hforce] at hf
    rw [Run.bind_ok hforce]
    cases v <;> exact ⟨fun _ => nofun, hf.leavesBe.congr rfl rfl⟩

/-- What a consumer is asked for. -/
inductive Request where
  /-- To step over so many elements. -/
  | drop (n : Int)
  /-- For the head of what is left. -/
  | head
  /-- For the value of the next element. -/
  | headValue
deriving Repr

namespace Request

def run (run : Runner) (d : ConsumerId) : Request → Run Value
  | .drop n => Consumer.drop run d n
  | .head => Consumer.head run d
  | .headValue => Consumer.headValue run d

theorem follows (ask : Request) : Run.Follows (ask.run (p.runAt depth) d) := by
  cases ask with
  | drop n => exact follows_drop (p.follows_runAt depth) d n
  | head => exact follows_head (p.follows_runAt depth) d
  | headValue => exact follows_headValue (p.follows_runAt depth) d

/-- The forces that a request asks for do not run out of depth and leave the consumers of the heap alone, and those of steps
come to cells that can be stepped along. -/
def Heeds (p : Program) (depth : Nat) (x : Consumer) (d : ConsumerId) (s : Store) : Request → Prop
  | .drop n => Along p depth d (Treads p depth x) n.toNat s ∧ Along p depth d (InDepth p depth) n.toNat s
  | .head => ∀ c, remaining d s = .ok (.cell c) s → Spares x.heap s (force (p.runAt depth) c s)
  | .headValue => (∀ c, remaining d s = .ok (.cell c) s → Spares x.heap s (force (p.runAt depth) c s)) ∧
    ∀ v m, Consumer.head (p.runAt depth) d s = .ok v m → Spares x.heap m (forceValue (p.runAt depth) v m)

/-- How a request ends if the consumer stands before a cell: over how many elements it steps, before which cell it stands
then, and what it hands out. -/
inductive Answers (p : Program) (depth : Nat) (d : ConsumerId) (c : CellId) (s : Store) :
    Request → Nat → CellId → EStateM.Result Halt Store Value → Prop
  | moved {n : Int} {c' : CellId} {e : Store} : Answers p depth d c s (.drop n) n.toNat c' (.ok (.cell c') e)
  | stopped {n : Int} {i : Nat} {c' : CellId} {e : Store} (hi : i < n.toNat) (hstops : e.Stops c') :
    Answers p depth d c s (.drop n) i c' (.ok (.cell c') e)
  | raised {n : Int} {i : Nat} {c' : CellId} {z : FaultId} {m e : Store} (hi : i < n.toNat)
    (hadvance : advance (p.runAt depth) d i s = .ok () m) (hforce : force (p.runAt depth) c' m = .error (.raised z) e) :
    Answers p depth d c s (.drop n) i c' (.error (.raised z) e)
  | head : Answers p depth d c s .head 0 c (Sequence.head (p.runAt depth) (.cell c) s)
  | headValue : Answers p depth d c s .headValue 0 c
    ((Sequence.head (p.runAt depth) (.cell c) >>= forceValue (p.runAt depth)) s)

end Request

/-- Two consumers of a heap stand before the same cell, so many steps of both together into one list. -/
structure Together (h : HeapId) (d d' : ConsumerId) (x y : Consumer) (origin : CellId) (k k' : Nat) (c : CellId)
    (s : Store) : Prop where
  first : s.consumers[d]? = some { x with steps := x.steps + k }
  second : s.consumers[d']? = some { y with steps := y.steps + k' }
  spine : s.SpineAt origin (k + k') c
  remaining : Consumer.remaining d s = .ok (.cell c) s ∧ Consumer.remaining d' s = .ok (.cell c) s
  left : s.left? h = some (.cell c)
  alive : c < s.cells.size → s.KeepsAlive h c

namespace Together

theorem of_faces (hx : x.heap = h) (hfirst : Faces { x with steps := x.steps + k } d c s)
    (hsecond : Faces { y with steps := y.steps + k' } d' c s) (hspine : s.SpineAt origin (k + k') c) :
    Together h d d' x y origin k k' c s where
  first := hfirst.record
  second := hsecond.record
  spine := hspine
  remaining := ⟨hfirst.remaining, hsecond.remaining⟩
  left := hx ▸ hfirst.left
  alive := Store.keepsAlive_of_left? (hx ▸ hfirst.left)

theorem symm (hs : Together h d d' x y origin k k' c s) : Together h d' d y x origin k' k c s :=
  ⟨hs.second, hs.first, Nat.add_comm k k' ▸ hs.spine, hs.remaining.symm, hs.left, hs.alive⟩

theorem faces (hs : Together h d d' x y origin k k' c s) (hx : x.heap = h) :
    Faces { x with steps := x.steps + k } d c s := ⟨hs.first, hx ▸ hs.left⟩

theorem leavesBe (hs : Together h d d' x y origin k k' c s) (hx : x.heap = h) (hy : y.heap = h) (hreached : s.Reached)
    (hr : s.Runs e) (hl : s.LeavesBe h e) : Together h d d' x y origin k k' c e :=
  .of_faces hx ((hs.faces hx).leavesBe (hx ▸ hl)) ((hs.symm.faces hy).leavesBe (hy ▸ hl)) (hs.spine.runs hreached hr)

theorem drop {b : Bool} {n : Int} (hs : Together h d d' x y origin k k' c s) (hx : x.heap = h) (hy : y.heap = h)
    (hne : d' ≠ d) (hb : x.samples.truth? = some b) (hreached : s.Reached)
    (hh : (Request.drop n).Heeds p depth x d s) :
    ∃ i c', (Request.drop n).Answers p depth d c s i c' (Consumer.drop (p.runAt depth) d n s) ∧
      Together h d d' x y origin (k + i) k' c' (Run.finalStore (Consumer.drop (p.runAt depth) d n s)) := by
  obtain ⟨ht, hd⟩ := hh
  have hfaces := hs.faces hx
  obtain ⟨i, rest, c', m, hwalk, hn, hhalts⟩ := hfaces.walk hb ht
  have hm := hwalk.faces hfaces
  -- the other consumer is moved along by every step, and counts none
  have hother := hwalk.facesOther hfaces (hs.symm.faces hy) (hy.trans hx.symm) hne
  have hmReached := hreached.after hwalk.runs.reaches
  have htogether : Together h d d' x y origin (k + i) k' c' m := by
    refine .of_faces hx (Nat.add_assoc _ _ _ ▸ hm) hother ?_
    have hspine := (hs.spine.runs hreached hwalk.runs).trans (hwalk.spine hreached).1
    rwa [Nat.add_right_comm] at hspine
  have hdeep := hfaces.advance_ne_tooDeep hb ht hd
  have hruns : m.Runs (Run.finalStore (advance (p.runAt depth) d n.toNat s)) := by
    rw [← hn, hwalk.advance_add] at hdeep ⊢
    exact (follows_advance (p.follows_runAt depth) d rest m).runs hdeep
  have hend := htogether.leavesBe hx hy hmReached hruns (hx ▸ hhalts.leavesBe hdeep)
  have hremaining := (hend.faces hx).remaining
  refine ⟨i, c', ?_⟩
  unfold Consumer.drop
  generalize hadvance : advance (p.runAt depth) d n.toNat s = result at hhalts hend hremaining hdeep
  cases hhalts with
  | done =>
    simp only [Run.finalStore] at hremaining
    rw [Run.bind_ok hadvance, hremaining]
    obtain rfl : i = n.toNat := hn
    exact ⟨.moved, hend⟩
  | stopped _ _ _ hstops =>
    simp only [Run.finalStore] at hremaining
    rw [Run.bind_ok hadvance, hremaining]
    exact ⟨.stopped (by omega) hstops, hend⟩
  | raised _ hforce =>
    rw [Run.bind_error hadvance]
    exact ⟨.raised (by omega) hwalk.advance hforce, hend⟩
  | tooDeep => exact absurd rfl (hdeep _)

theorem head (hs : Together h d d' x y origin k k' c s) (hx : x.heap = h) (hy : y.heap = h) (hreached : s.Reached)
    (hf : Spares h s (force (p.runAt depth) c s)) :
    Consumer.head (p.runAt depth) d s = Sequence.head (p.runAt depth) (.cell c) s ∧
      Together h d d' x y origin k k' c (Run.finalStore (Consumer.head (p.runAt depth) d s)) := by
  have hsame : Consumer.head (p.runAt depth) d s = Sequence.head (p.runAt depth) (.cell c) s :=
    Run.bind_ok (hs.faces hx).remaining
  have hhead : Spares h s (Consumer.head (p.runAt depth) d s) := hsame ▸ hf.head
  have hruns := (follows_head (p.follows_runAt depth) d s).runs hhead.inDepth
  exact ⟨hsame, hs.leavesBe hx hy hreached hruns hhead.leavesBe⟩

/-- **What one request on either comes to.** -/
theorem request {b : Bool} {ask : Request} (hs : Together h d d' x y origin k k' c s) (hx : x.heap = h) (hy : y.heap = h)
    (hne : d' ≠ d) (hb : x.samples.truth? = some b) (hreached : s.Reached) (hh : ask.Heeds p depth x d s) :
    ∃ i c', ask.Answers p depth d c s i c' (ask.run (p.runAt depth) d s) ∧
      Together h d d' x y origin (k + i) k' c' (Run.finalStore (ask.run (p.runAt depth) d s)) := by
  have hremaining := (hs.faces hx).remaining
  cases ask with
  | drop n => exact hs.drop hx hy hne hb hreached hh
  | head =>
    obtain ⟨hsame, hend⟩ := hs.head hx hy hreached (hx ▸ hh c hremaining)
    refine ⟨0, c, ?_, hend⟩
    rw [show Request.head.run (p.runAt depth) d s = _ from hsame]
    exact .head
  | headValue =>
    obtain ⟨hf, hv⟩ := hh
    obtain ⟨hsame, hend⟩ := hs.head hx hy hreached (hx ▸ hf c hremaining)
    have hvalue : Request.headValue.run (p.runAt depth) d s =
        (Sequence.head (p.runAt depth) (.cell c) >>= forceValue (p.runAt depth)) s := by
      rw [Run.bind_apply, ← hsame]
      exact Run.bind_apply (Consumer.head (p.runAt depth) d) _ s
    refine ⟨0, c, hvalue ▸ Request.Answers.headValue, ?_⟩
    cases hhead : Consumer.head (p.runAt depth) d s with
    | error halt m =>
      rw [show Request.headValue.run (p.runAt depth) d s = _ from Run.bind_error hhead]
      rwa [hhead] at hend
    | ok v m =>
      have hforce : Request.headValue.run (p.runAt depth) d s = forceValue (p.runAt depth) v m := Run.bind_ok hhead
      rw [hforce]
      rw [hhead] at hend
      have hmReached := hreached.after ((follows_head (p.follows_runAt depth) d).runs_of_ok hhead).reaches
      have hvalue := hv v m hhead
      have hruns := (follows_forceValue (p.follows_runAt depth) v m).runs hvalue.inDepth
      exact hend.leavesBe hx hy hmReached hruns (hx ▸ hvalue.leavesBe)

end Together

/-- Requests to two consumers, one after the other, those to the second on the right: after each of them they stand
together, whatever it has come to. -/
inductive Plays (p : Program) (depth : Nat) (h : HeapId) (d₁ d₂ : ConsumerId) (x y : Consumer) (origin : CellId) :
    List (Request ⊕ Request) → Nat → Nat → CellId → Store → Prop
  | over {k₁ k₂ : Nat} {c : CellId} {s : Store} (hs : Together h d₁ d₂ x y origin k₁ k₂ c s) :
    Plays p depth h d₁ d₂ x y origin [] k₁ k₂ c s
  | first {k₁ k₂ i : Nat} {c c' : CellId} {s : Store} {ask : Request} {asks : List (Request ⊕ Request)}
    (hs : Together h d₁ d₂ x y origin k₁ k₂ c s)
    (ha : ask.Answers p depth d₁ c s i c' (ask.run (p.runAt depth) d₁ s))
    (hrest : Plays p depth h d₁ d₂ x y origin asks (k₁ + i) k₂ c' (Run.finalStore (ask.run (p.runAt depth) d₁ s))) :
    Plays p depth h d₁ d₂ x y origin (.inl ask :: asks) k₁ k₂ c s
  | second {k₁ k₂ i : Nat} {c c' : CellId} {s : Store} {ask : Request} {asks : List (Request ⊕ Request)}
    (hs : Together h d₁ d₂ x y origin k₁ k₂ c s)
    (ha : ask.Answers p depth d₂ c s i c' (ask.run (p.runAt depth) d₂ s))
    (hrest : Plays p depth h d₁ d₂ x y origin asks k₁ (k₂ + i) c' (Run.finalStore (ask.run (p.runAt depth) d₂ s))) :
    Plays p depth h d₁ d₂ x y origin (.inr ask :: asks) k₁ k₂ c s

/-- Every one of the requests finds what it needs. -/
def Orderly (p : Program) (depth : Nat) (d₁ d₂ : ConsumerId) (x y : Consumer) : List (Request ⊕ Request) → Store → Prop
  | [], _ => True
  | .inl ask :: asks, s => ask.Heeds p depth x d₁ s ∧
    Orderly p depth d₁ d₂ x y asks (Run.finalStore (ask.run (p.runAt depth) d₁ s))
  | .inr ask :: asks, s => ask.Heeds p depth y d₂ s ∧
    Orderly p depth d₁ d₂ x y asks (Run.finalStore (ask.run (p.runAt depth) d₂ s))

theorem Together.plays {b b' : Bool} {asks : List (Request ⊕ Request)} (hs : Together h d₁ d₂ x y origin k₁ k₂ c s)
    (hx : x.heap = h) (hy : y.heap = h) (hne : d₁ ≠ d₂) (hb : x.samples.truth? = some b)
    (hb' : y.samples.truth? = some b') (hreached : s.Reached) (ho : Orderly p depth d₁ d₂ x y asks s) :
    Plays p depth h d₁ d₂ x y origin asks k₁ k₂ c s := by
  induction asks generalizing k₁ k₂ c s with
  | nil => exact .over hs
  | cons one asks ih =>
    cases one with
    | inl ask =>
      obtain ⟨hheeds, hrest⟩ := ho
      obtain ⟨i, c', hanswers, hend⟩ := hs.request hx hy hne.symm hb hreached hheeds
      exact .first hs hanswers (ih hend (hreached.after (ask.follows s).reaches) hrest)
    | inr ask =>
      obtain ⟨hheeds, hrest⟩ := ho
      obtain ⟨i, c', hanswers, hend⟩ := hs.symm.request hy hx hne hb' hreached hheeds
      exact .second hs hanswers (ih hend.symm (hreached.after (ask.follows s).reaches) hrest)

end Consumer

/-- **Consumers of one heap share what is left.**  Take a consumer of a heap, on any store that runs lead to, and a new one
of whichever list on the same heap.  From then on, and whatever is asked of the one or the other in whichever order, both
stand before the same cell of the list of the new consumer, and the heap keeps it alive.  A request to drop elements steps on
from there, over as many as it names, unless it comes before the end of the list, before a node whose tail is the very cell,
or before a cell that raises an error.  The steps of both together tell how far into the list they are, and each counts those
that it took itself.  Heads, and their values, are those of the cell before which they stand.  The forces on the way are not
to run out of depth, and to leave the consumers of the heap alone; those of steps are to come to list nodes or raise errors,
and to leave a heap that can be sampled if the consumer samples (`Heeds`). -/
theorem consumers_share_what_is_left (p : Program) {depth : Nat} {h : HeapId} {x : Consumer} {samples : Value}
    {b b' : Bool} {origin : CellId} {d₁ d₂ : ConsumerId} {s₀ s : Store} {asks : List (Consumer.Request ⊕ Consumer.Request)}
    (hreached : s₀.Reached) (hh : h < s₀.heaps.size) (hx : s₀.consumers[d₁]? = some x) (hxh : x.heap = h)
    (hb : x.samples.truth? = some b) (hb' : samples.truth? = some b')
    (hnew : Consumer.new h samples (.cell origin) s₀ = .ok d₂ s)
    (horderly : Consumer.Orderly p depth d₁ d₂ x ⟨h, samples, 0⟩ asks s) :
    Consumer.Plays p depth h d₁ d₂ x ⟨h, samples, 0⟩ origin asks 0 0 origin s := by
  have hmade := Consumer.made_of_new hb' hnew
  obtain ⟨hfirst, hne⟩ := hmade.facesOther hx hxh hh
  have hsReached := Consumer.reached_of_new hreached hnew
  have htogether : Consumer.Together h d₁ d₂ x ⟨h, samples, 0⟩ origin 0 0 origin s :=
    .of_faces hxh hfirst (hmade.faces hh) .first
  exact htogether.plays hxh rfl hne hb hb' hsReached horderly

namespace Cohabiting
open Session (after)

/-- Makes two lists on a heap that traces: one of no elements, and one of one. -/
def lists : List Expr := [
  .apply (.heap .openNew) [.constant (.bool true)], .apply (.cell .ready) [.apply (.list .nil) []],
  .assign "x" (.apply (.cell .ready) [.constant (.int 8)]),
  .assign "end" (.apply (.cell .ready) [.apply (.list .nil) []]),
  .apply (.cell .ready) [.apply (.list .cons) [.lookup "x", .lookup "end"]]]

theorem sampled_lists : (after [] lists).Sampled 0 :=
  .of_bound (b := true) (n := 4) (by decide +kernel) (by decide +kernel) (by decide +kernel) (by decide +kernel)

theorem roots_lists : ((after [] lists).heap 0).roots = [] := List.isEmpty_iff.1 (by decide +kernel)

end Cohabiting

open Cohabiting Consumer Supplying Session in
/-- The first consumer, of a list without elements, steps over the one element of the second list. -/
theorem consumers_share_what_is_left_after_step : ∃ d₁ s₁ d₂ s₂,
    Consumer.new 0 (.bool true) (.cell 0) (after [] lists) = .ok d₁ s₁ ∧
    Consumer.new 0 (.bool true) (.cell 3) s₁ = .ok d₂ s₂ ∧
    Plays [] 1 0 d₁ d₂ ⟨0, .bool true, 0⟩ ⟨0, .bool true, 0⟩ 3 [.inl (.drop 1), .inr .head] 0 0 3 s₂ ∧
    ∃ e, Consumer.drop (Program.runAt [] 1) d₁ 1 s₂ = .ok (.cell 2) e ∧ Consumer.remaining d₂ e = .ok (.cell 2) e ∧
      e.consumers[d₂]? = some ⟨0, .bool true, 0⟩ := by
  have hvalid : 0 < (after [] lists).heaps.size := by decide +kernel
  have hflag : (Value.bool true).truth? = some true := rfl
  obtain ⟨d₁, s₁, hnew₁⟩ := new_eq_ok hflag sampled_lists hvalid 0
  have hmade₁ := made_of_new hflag hnew₁
  have hsampled₁ := hmade₁.heapSampled sampled_lists hvalid
  have hx := (hmade₁.faces hvalid).record
  have hvalid₁ := Store.lt_of_left? (hmade₁.faces hvalid).left
  obtain ⟨d₂, s₂, hnew₂⟩ := new_eq_ok hflag hsampled₁ hvalid₁ 3
  have hmade₂ := made_of_new hflag hnew₂
  have hsampled₂ := hmade₂.heapSampled hsampled₁ hvalid₁
  obtain ⟨hfirst, hne⟩ := hmade₂.facesOther hx rfl hvalid₁
  have hstate : s₂.state = (after [] lists).state := Store.state_of_cells (hmade₂.cells.trans hmade₁.cells)
  obtain ⟨tag, hnode⟩ := eq_of_node? (show node? ((after [] lists).state 3) = some (1, 2) by decide +kernel)
  obtain ⟨tag', hend⟩ := eq_of_ended (show ended ((after [] lists).state 2) = true by decide +kernel)
  have hc : s₂.state 3 = .evaluated (.cons tag (.cell 1) (.cell 2)) := hstate ▸ hnode
  -- the step of the first consumer
  obtain ⟨e, hstep, hstepped⟩ : ∃ e, step (Program.runAt [] 1) d₁ s₂ = .ok true e ∧ Stepped ⟨0, .bool true, 0⟩ d₁ 2 s₂ e :=
    hfirst.step_moves hflag (force_evaluated hc _) (.refl 0 s₂) (fun _ => hsampled₂) (by decide)
  have he := hstepped.faces hfirst
  have heOther := hstepped.facesOther (hmade₂.faces hvalid₁) rfl hne.symm
  have heEnd : e.state 2 = .evaluated (.nil tag') :=
    (congrFun (Store.state_of_cells hstepped.cells) 2).trans (hstate ▸ hend)
  have hdrop : Consumer.drop (Program.runAt [] 1) d₁ 1 s₂ = .ok (.cell 2) e :=
    (Run.bind_ok (show advance (Program.runAt [] 1) d₁ 1 s₂ = .ok () e from Run.bind_ok hstep)).trans he.remaining
  have hheedsDrop : (Request.drop 1).Heeds [] 1 ⟨0, .bool true, 0⟩ d₁ s₂ := by
    constructor
    · exact .of_rest hfirst (.of_evaluated hc (.node tag 1 2) fun _ => hsampled₂) hstep (.zero e)
    · exact .of_rest hfirst (.of_evaluated hc) hstep (.zero e)
  have hheedsHead : Request.head.Heeds [] 1 ⟨0, .bool true, 0⟩ d₂ e := fun a ha => by
    cases heOther.remaining.symm.trans ha
    rw [force_evaluated heEnd]
    exact ⟨fun _ => nofun, .refl 0 e⟩
  have horderly : Orderly [] 1 d₁ d₂ ⟨0, .bool true, 0⟩ ⟨0, .bool true, 0⟩ [.inl (.drop 1), .inr .head] s₂ := by
    refine ⟨hheedsDrop, ?_, trivial⟩
    rw [show (Request.drop 1).run (Program.runAt [] 1) d₁ s₂ = _ from hdrop]
    exact hheedsHead
  have hreached := reached_of_new (reached_after [] lists) hnew₁
  exact ⟨d₁, s₁, d₂, s₂, hnew₁, hnew₂,
    consumers_share_what_is_left [] hreached hvalid₁ hx rfl hflag hflag hnew₂ horderly, e, hdrop, heOther.remaining,
    heOther.record⟩

open Cohabiting Consumer Supplying Session in
/-- **A second consumer displaces the list of the first**: what is left to the first is the second list, and its own is no
longer kept alive. -/
theorem second_consumer_displaces_first : ∃ d₁ s₁ d₂ s₂,
    Consumer.new 0 (.bool true) (.cell 3) (after [] lists) = .ok d₁ s₁ ∧ Consumer.remaining d₁ s₁ = .ok (.cell 3) s₁ ∧
    Consumer.new 0 (.bool true) (.cell 0) s₁ = .ok d₂ s₂ ∧ Consumer.remaining d₁ s₂ = .ok (.cell 0) s₂ ∧
    ¬ s₂.KeepsAlive 0 3 := by
  have hvalid : 0 < (after [] lists).heaps.size := by decide +kernel
  have hflag : (Value.bool true).truth? = some true := rfl
  obtain ⟨d₁, s₁, hnew₁⟩ := new_eq_ok hflag sampled_lists hvalid 3
  have hmade₁ := made_of_new hflag hnew₁
  have hfirst := hmade₁.faces hvalid
  have hvalid₁ := Store.lt_of_left? hfirst.left
  obtain ⟨d₂, s₂, hnew₂⟩ := new_eq_ok hflag (hmade₁.heapSampled sampled_lists hvalid) hvalid₁ 0
  have hmade₂ := made_of_new hflag hnew₂
  refine ⟨d₁, s₁, d₂, s₂, hnew₁, hfirst.remaining, hnew₂, (hmade₂.facesOther hfirst.record rfl hvalid₁).1.remaining, ?_⟩
  have hroots₁ : (s₁.heap 0).roots = [(rootName, .cell 3)] := by
    rw [hmade₁.roots, Store.rooted, Store.heap_updateHeap hvalid, roots_lists]
    rfl
  have hroots₂ : (s₂.heap 0).roots = [(rootName, .cell 0)] := by
    rw [hmade₂.roots, Store.rooted, Store.heap_updateHeap hvalid₁, hroots₁]
    unfold Entries.put
    rw [if_pos (s₁.equal_of_same rfl)]
  obtain ⟨tag, hend⟩ := eq_of_ended (show ended ((after [] lists).state 0) = true by decide +kernel)
  have hstate : s₂.state 0 = .evaluated (.nil tag) :=
    (congrFun (Store.state_of_cells (hmade₂.cells.trans hmade₁.cells)) 0).trans hend
  rintro ⟨-, name, r, hroot, hconnected⟩
  rw [hroots₂, List.mem_singleton] at hroot
  cases hroot
  rcases hconnected.cases_head with heq | ⟨c, hrefers, -⟩
  · cases heq
  · rw [hstate] at hrefers
    cases hrefers with
    | evaluated hc => cases hc

end Retention
