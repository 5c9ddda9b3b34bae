import Retention.Proofs.Demanding
import Retention.Proofs.Spines
/-!
# Supplying — a repetition that is built anew calls its producer lap by lap

The producer of a fresh repetition is any function, and each of its calls may return another list.  A lap calls it, and
the nodes of the lap have the heads of the list that was returned; only once that list is at its end the next lap comes,
and calls the producer again.  If a list is found at its end where a lap begins, the lap fails, and with it the cell at
which the repetition had come to stand, for good.

What the producer and the lists do is their own affair, as long as they come to lists and list nodes, leave the active
heap as it is, call the producer no more, and do not get at the lap that comes next (`Supply`, `Demand`); the cells that
wait for them are in progress, so nobody can force these.  `Around` is anything that can be done around a repetition: a
force of one of its cells, from wherever, or any transition that leaves the cells alone with which it goes on
(`Store.Avoids`).  `Store.Laps` is the invariant: the lists of the calls so far, with what was read of them.
-/
namespace Retention

open Store (OnlyCells)

/-- A turn that begins a call of a function. -/
def Turn.calls (f : Function) : Turn → Bool
  | .began _ _ (.call g _) => g = f
  | _ => false

/-- A node of a list, or the end of a list. -/
inductive Value.ListNode : Value → Prop
  | node (tag : Tag) (head next : CellId) : ListNode (.cons tag (.cell head) (.cell next))
  | done (tag : Tag) : ListNode (.nil tag)

namespace Store

/-- How often a function was called. -/
def callsOf (s : Store) (f : Function) : Nat := s.history.countP (·.calls f)

/-- With these cells a repetition goes on: the first of its cells that is not evaluated, and the next lap, if this cell
is a concatenation. -/
def Outstanding (s : Store) (origin d : CellId) : Prop :=
  ∃ l c t, s.Begins origin l c ∧ (s.state c).thunk? = some t ∧ (d = c ∨ ∃ xs, t = .appendNode xs (.cell d))

/-- What happened avoids a repetition: the cells with which it goes on are as they were, and its producer was not
called. -/
structure Avoids (s : Store) (f : Function) (origin : CellId) (e : Store) : Prop where
  state : ∀ d, s.Outstanding origin d → e.state d = s.state d
  calls : e.callsOf f = s.callsOf f

end Store

variable {p : Program} {f : Function} {origin : CellId} {g : HeapId} {depth : Nat} {s m e : Store} {c x r y : CellId}
  {l xs : List CellId} {ls : List (List CellId)} {t : Thunk} {v : Value} {k : List Frame}

namespace Store.Outstanding

theorem here (hl : s.Begins origin l c) (hc : (s.state c).thunk? = some t) : s.Outstanding origin c :=
  ⟨l, c, t, hl, hc, .inl rfl⟩

theorem next {first : Value} (hl : s.Begins origin l c) (hc : (s.state c).thunk? = some (.appendNode first (.cell y))) :
    s.Outstanding origin y := ⟨l, c, _, hl, hc, .inr ⟨first, rfl⟩⟩

end Store.Outstanding

/-! ## What is demanded -/

/-- A lap is supplied with a list: the producer returns the list, whose first cell comes to a list node, and calls itself
no more. -/
inductive Supply (p : Program) (f : Function) (g : HeapId) : Nat → Store → CellId → CellId → Prop
  | mk {depth : Nat} {s m e : Store} {c x : CellId} {tag : Tag} {v : Value} (ha : s.active = some g)
    (hc : s.state c = .suspended (.freshLap tag (.function f)))
    (hcall : p.runAt (depth + 1) none (.call f []) (s.began c g (.freshLap tag (.function f))) = .ok (.cell x) m)
    (hcalled : m.callsOf f = s.callsOf f + 1) (hx : force (p.runAt (depth + 1)) x m = .ok v e) (hv : v.ListNode)
    (hforced : e.callsOf f = m.callsOf f) (hserves : e.Serves g) : Supply p f g (depth + 2) s c x

/-- A cell of a repetition is forced, and all goes well with what this demands of the producer and of the lists; with the
lists that the producer returns. -/
inductive Demand (p : Program) (f : Function) : Nat → Store → CellId → List CellId → Prop
  /-- The first lap. -/
  | lap {depth : Nat} {s : Store} {c x : CellId} {g : HeapId} (h : Supply p f g depth s c x) : Demand p f depth s c [x]
  /-- The list of the lap has another node; the next lap is left alone. -/
  | within {depth : Nat} {s m : Store} {c r y head next : CellId} {g : HeapId} {tag : Tag} (ha : s.active = some g)
    (hc : s.state c = .suspended (.appendNode (.cell r) (.cell y)))
    (hr : force (p.runAt depth) r (s.began c g (.appendNode (.cell r) (.cell y))) =
      .ok (.cons tag (.cell head) (.cell next)) m)
    (hforced : m.callsOf f = s.callsOf f) (hy : m.state y = s.state y) (hserves : m.Serves g) :
    Demand p f (depth + 1) s c []
  /-- The list of the lap is at its end, and the next lap comes. -/
  | boundary {depth : Nat} {s m : Store} {c r y x : CellId} {g : HeapId} {tag : Tag} (ha : s.active = some g)
    (hc : s.state c = .suspended (.appendNode (.cell r) (.cell y)))
    (hr : force (p.runAt depth) r (s.began c g (.appendNode (.cell r) (.cell y))) = .ok (.nil tag) m)
    (hforced : m.callsOf f = s.callsOf f) (hnext : Supply p f g depth m y x) : Demand p f (depth + 1) s c [x]

/-- What can be done around a repetition, with the lists that its producer returned so far: any of its cells is forced,
be it by a consumer, by a thunk that is running, or by anyone else; or anything else happens that avoids it. -/
inductive Around (p : Program) (f : Function) (origin : CellId) : List CellId × Moment → List CellId × Moment → Prop
  | demanded {s : Store} {k : List Frame} {xs new l : List CellId} {c : CellId} {depth : Nat} (hc : s.Begins origin l c)
    (h : Demand p f depth s c new) :
    Around p f origin (xs, ⟨s, k⟩) (xs ++ new, ⟨Run.finalStore (force (p.runAt depth) c s), k⟩)
  | other {m m' : Moment} {xs : List CellId} (hnext : m.Next m') (h : m.store.Avoids f origin m'.store) :
    Around p f origin (xs, m) (xs, m')

/-! ## Calls -/

namespace Store

theorem callsOf_cons {turn : Turn} (h : e.history = turn :: s.history) (hturn : turn.calls f = false) :
    e.callsOf f = s.callsOf f := by
  unfold callsOf
  rw [h, List.countP_cons_of_neg (by simp [hturn])]

theorem callsOf_recorded (s : Store) {turn : Turn} (hturn : turn.calls f = false) :
    (s.recorded turn).callsOf f = s.callsOf f := callsOf_cons rfl hturn

end Store

/-! ## Forces that succeed -/

/-- A force succeeds if its thunk does, on a heap on which the force can be counted. -/
theorem force_of_serves (ha : s.active = some g) (hc : s.state c = .suspended t)
    (hproduce : t.produce p (p.runAt depth) (s.began c g t) = .ok v m) (hm : m.Serves g) (hv : OnlyCells v.refs) :
    ∃ e, force (p.runAt (depth + 1)) c s = .ok v e ∧ e.Serves g ∧ (∀ d ≠ c, e.state d = m.state d) ∧
      e.history = .returned (some c) v :: m.history := by
  let n := (m.recorded (.returned (some c) v)).setState c (.evaluated v)
  have hn : n.Serves g := (hm.recorded (.returned (some c) v)).setState c hv
  obtain ⟨heaps, hnote, hserves⟩ := Run.noteForced_eq_ok hn
  refine ⟨{ n with heaps := heaps }, ?_, hserves, fun d hd => Store.state_setState_of_ne _ _ hd, rfl⟩
  rw [force_of_suspended p depth ha hc, hproduce]
  exact Run.bind_ok hnote

/-- While the thunk of a forced cell runs, the cell is in progress. -/
theorem running_of_runs {b : Store} (hs : Moment.Sound ⟨s, k⟩) (hc : s.state c = .suspended t)
    (h : (s.began c g t).Runs b) : b.state c = .inProgress t := by
  have hbegan := hs.force (h := g) hc
  have hinitial : (s.began c g t).initial? c = some (.suspended t) :=
    (Store.initial?_setState s c c _).trans (hs.of_suspended hc).1
  obtain ⟨u, hu, -, hstate⟩ := (hbegan.leads (h (.force c g :: k))).running c g List.mem_cons_self
  cases hu.symm.trans (Moment.Leads.initial? (h (.force c g :: k)) hinitial)
  exact hstate

theorem Store.ne_of_running {d : CellId} {st : CellState} (hc : s.state c = .inProgress t) (hd : s.state d = st)
    (hst : st ≠ .inProgress t) : d ≠ c := by
  rintro rfl
  exact hst (hd.symm.trans hc)

/-! ## One node -/

/-- A cell holds a node with the head of a list that was read.  Its tail is the concatenation of the rest of the list
with a cell that waits. -/
structure Joined (g : HeapId) (x c y : CellId) (next : Thunk) (e : Store) (mark : Tag) (head q : CellId) : Prop where
  node : e.state c = .evaluated (.cons mark (.cell head) (.cell q))
  list : ∃ tag r, e.state x = .evaluated (.cons tag (.cell head) (.cell r)) ∧
    e.state q = .suspended (.appendNode (.cell r) (.cell y))
  next : e.state y = .suspended next
  serves : e.Serves g

section Nodes
variable {b head rest q : CellId} {tag mark : Tag} {next : Thunk}

/-- The node is that of another cell as well, whose thunk came to it. -/
theorem Joined.hand (h : Joined g x c y next m mark head q) (hb : m.state b = .inProgress t) (he : e.Serves g)
    (hother : ∀ d ≠ b, e.state d = m.state d) (hnode : e.state b = .evaluated (.cons mark (.cell head) (.cell q))) :
    Joined g x b y next e mark head q := by
  have hkept : ∀ {d st}, m.state d = st → st ≠ .inProgress t → e.state d = st := fun hd hst =>
    (hother _ (Store.ne_of_running hb hd hst)).trans hd
  obtain ⟨tag, r, hx, hq⟩ := h.list
  exact ⟨hnode, ⟨tag, r, hkept hx (by simp), hkept hq (by simp)⟩, hkept h.next (by simp), he⟩

/-- A concatenation whose first list comes to a node. -/
theorem force_append_of_serves (hs : Moment.Sound ⟨s, k⟩) (ha : s.active = some g)
    (hc : s.state c = .suspended (.appendNode (.cell x) (.cell y)))
    (hx : force (p.runAt depth) x (s.began c g (.appendNode (.cell x) (.cell y))) =
      .ok (.cons tag (.cell head) (.cell rest)) m)
    (hm : m.Serves g) (hy : m.state y = .suspended next) :
    ∃ mark q e, force (p.runAt (depth + 1)) c s = .ok (.cons mark (.cell head) (.cell q)) e ∧
      Joined g x c y next e mark head q ∧
      e.history = .returned (some c) (.cons mark (.cell head) (.cell q)) :: m.history := by
  let t := Thunk.appendNode (.cell x) (.cell y)
  have hfirst := follows_force (p.follows_runAt depth) x (s.began c g t)
  rw [hx] at hfirst
  have hu := running_of_runs hs hc hfirst
  have hxm := force_ok_state hx
  let left := CellState.suspended (.appendNode (.cell rest) (.cell y))
  let n := (m.register g left).tagged
  have hleft : OnlyCells left.refs := Store.onlyCells_pair rest y
  have hn : n.Serves g := (hm.register hleft).congr rfl rfl rfl
  have hproduce : t.produce p (p.runAt depth) (s.began c g t) =
      .ok (.cons m.nextTag (.cell head) (.cell m.cells.size)) n := Sequence.appendNode_of_cons hm.active hx
  obtain ⟨e, hforce, hserves, hother, hhistory⟩ := force_of_serves ha hc hproduce hn (Store.onlyCells_pair head m.cells.size)
  have hold : ∀ {d st}, m.state d = st → st ≠ .evaluated .null → st ≠ .inProgress t → e.state d = st := fun hd hst hne =>
    (hother _ (Store.ne_of_running hu hd hne)).trans
      ((Store.state_register_of_lt (Store.lt_of_state hd hst) g left).trans hd)
  have hq : e.state m.cells.size = left :=
    (hother _ (Nat.ne_of_gt (Store.lt_of_state hu (by simp)))).trans (Store.state_register_new m g left)
  exact ⟨_, _, e, hforce,
    ⟨force_ok_state hforce, ⟨tag, rest, hold hxm (by simp) (by simp), hq⟩, hold hy (by simp) (by simp), hserves⟩, hhistory⟩

/-- A lap of a list that comes to a node makes the first node of the lap. -/
theorem lap_of_serves (hnext : OnlyCells next.refs) (hs : e.Serves g)
    (hforce : force (p.runAt (depth + 1)) x m = .ok (.cons tag (.cell head) (.cell rest)) e) :
    ∃ mark q n, Cycle.lap (p.runAt (depth + 1)) (.cell x) next m = .ok (.cons mark (.cell head) (.cell q)) n ∧
      n.Serves g ∧ n.state q = .suspended (.appendNode (.cell rest) (.cell e.cells.size)) ∧
      n.state e.cells.size = .suspended next ∧ (∀ d < e.cells.size, n.state d = e.state d) ∧
      n.history = .returned (some (e.cells.size + 1)) (.cons mark (.cell head) (.cell q)) ::
        .began (some (e.cells.size + 1)) (some g) (.appendNode (.cell x) (.cell e.cells.size)) :: e.history := by
  let after := e.register g (.suspended next)
  let list := Thunk.appendNode (.cell x) (.cell e.cells.size)
  let made := after.register g (.suspended list)
  have hx := force_ok_state hforce
  have hxlt := Store.lt_of_state hx (by simp)
  have hafter : after.Serves g := hs.register hnext
  have hmade : made.Serves g := hafter.register (Store.onlyCells_pair x e.cells.size)
  have hsize : after.cells.size = e.cells.size + 1 := Store.size_register ..
  have hc : made.state (e.cells.size + 1) = .suspended list := hsize ▸ Store.state_register_new after g (.suspended list)
  let began := made.began (e.cells.size + 1) g list
  have hrunning : OnlyCells (CellState.inProgress list).refs := Store.onlyCells_pair x e.cells.size
  have hbegan : began.Serves g := (hmade.setState (e.cells.size + 1) hrunning).recorded _
  -- the list is evaluated by now, so the first node of the lap is made from it at once
  have hbx : began.state x = .evaluated (.cons tag (.cell head) (.cell rest)) := by
    rw [Store.state_began_of_ne made (Nat.ne_of_lt (Nat.lt_succ_of_lt hxlt)),
      Store.state_register_of_lt (hsize ▸ Nat.lt_succ_of_lt hxlt), Store.state_register_of_lt hxlt, hx]
  let left := CellState.suspended (.appendNode (.cell rest) (.cell e.cells.size))
  have hproduce : list.produce p (p.runAt depth) began =
      .ok (.cons began.nextTag (.cell head) (.cell began.cells.size)) (began.register g left).tagged :=
    Sequence.appendNode_of_cons hbegan.active (force_evaluated hbx (p.runAt depth))
  have hleft : OnlyCells left.refs := Store.onlyCells_pair rest e.cells.size
  have hlast : (began.register g left).tagged.Serves g := (hbegan.register hleft).congr rfl rfl rfl
  obtain ⟨n, hn, hserves, -, hhistory⟩ :=
    force_of_serves hmade.active hc hproduce hlast (Store.onlyCells_pair head began.cells.size)
  have hlap := Cycle.lap_of_cons hs.active hforce next
  obtain ⟨mark, q, hv, -, hwaits, hq, hold, -⟩ := Cycle.lap_carries (h := g) hforce hn
  cases hv
  exact ⟨_, _, n, hlap.trans hn, hserves, hq, hwaits, hold, hhistory⟩

/-- A cell whose thunk is a lap of a list that comes to a node, while the cell is in progress. -/
theorem force_lap_of_serves (ha : s.active = some g) (hc : s.state c = .suspended t) (hnext : OnlyCells next.refs)
    (hproduce : t.produce p (p.runAt (depth + 1)) (s.began c g t) = Cycle.lap (p.runAt (depth + 1)) (.cell x) next m)
    (hx : force (p.runAt (depth + 1)) x m = .ok (.cons tag (.cell head) (.cell rest)) e) (hs : e.Serves g)
    (hu : e.state c = .inProgress t) :
    ∃ mark q y e', force (p.runAt (depth + 2)) c s = .ok (.cons mark (.cell head) (.cell q)) e' ∧
      Joined g x c y next e' mark head q ∧ ∃ v w, e'.history = .returned (some c) v :: .returned (some (y + 1)) w ::
        .began (some (y + 1)) (some g) (.appendNode (.cell x) (.cell y)) :: e.history := by
  obtain ⟨mark, q, n, hlap, hn, hq, hy, hold, hhistory⟩ := lap_of_serves hnext hs hx
  obtain ⟨e', hforce, hserves, hother, hhistory'⟩ :=
    force_of_serves ha hc (hproduce.trans hlap) hn (Store.onlyCells_pair head q)
  have hxe := force_ok_state hx
  have hxn := (hold x (Store.lt_of_state hxe (by simp))).trans hxe
  have hun := (hold c (Store.lt_of_state hu (by simp))).trans hu
  have hkept : ∀ {d st}, n.state d = st → st ≠ .inProgress t → e'.state d = st := fun hd hst =>
    (hother _ (Store.ne_of_running hun hd hst)).trans hd
  rw [hhistory] at hhistory'
  exact ⟨mark, q, _, e', hforce,
    ⟨force_ok_state hforce, ⟨tag, rest, hkept hxn (by simp), hkept hq (by simp)⟩, hkept hy (by simp), hserves⟩, _, _, hhistory'⟩

end Nodes

/-! ## One lap -/

/-- How a force of a cell ends that begins a lap with a list: with a node that has the head of the list, and from there
the repetition goes on with the rest of the list and the next lap; or with an error, if the list is empty. -/
inductive Lapped (f : Function) (g : HeapId) (s : Store) (c x : CellId) : EStateM.Result Halt Store Value → Prop
  | node {e : Store} {head q y : CellId} {mark lap : Tag} (h : Joined g x c y (.freshLap lap (.function f)) e mark head q)
    (hcalls : e.callsOf f = s.callsOf f + 1) : Lapped f g s c x (.ok (.cons mark (.cell head) (.cell q)) e)
  | empty {e : Store} {z : FaultId} {tag : Tag} (hc : e.state c = .failed (.fault z))
    (hx : e.state x = .evaluated (.nil tag))
    (hfault : e.faults[z]? = some ⟨.emptyCycle (e.address x), [.cell x]⟩) (hcalls : e.callsOf f = s.callsOf f + 1) :
    Lapped f g s c x (.error (.raised z) e)

theorem Supply.suspended (h : Supply p f g depth s c x) :
    ∃ t, (∃ lap, t = .freshLap lap (.function f)) ∧ s.state c = .suspended t := by
  obtain ⟨-, hc⟩ := h
  exact ⟨_, ⟨_, rfl⟩, hc⟩

/-- **A lap that is supplied with a list begins with it, or fails if the list is empty.** -/
theorem Supply.lapped (hs : Moment.Sound ⟨s, k⟩) (h : Supply p f g depth s c x) :
    Lapped f g s c x (force (p.runAt depth) c s) := by
  obtain ⟨ha, hc, hcall, hcalled, hx, hv, hforced, hserves⟩ := h
  rename_i depth m e lap v
  let t := Thunk.freshLap lap (.function f)
  have hproduce : t.produce p (p.runAt (depth + 1)) (s.began c g t) = Cycle.lap (p.runAt (depth + 1)) (.cell x) t m :=
    Run.bind_ok hcall
  have hcalls : e.callsOf f = s.callsOf f + 1 := hforced.trans hcalled
  -- the cell of the lap is in progress all the while, so neither the producer nor the list gets at it
  have hu : e.state c = .inProgress t := by
    have hproducer := follows_run_none (p.follows_runAt (depth + 1)) (.call f []) (s.began c g t)
    have hlist := follows_force (p.follows_runAt (depth + 1)) x m
    rw [hcall] at hproducer
    rw [hx] at hlist
    exact running_of_runs hs hc (hproducer.trans hlist)
  have hxv := force_ok_state hx
  have hclt := Store.lt_of_state hu (by simp)
  cases hv with
  | node tag head next =>
    obtain ⟨mark, q, y, e', hforce, hjoined, v, w, hhistory⟩ :=
      force_lap_of_serves ha hc (fun v hv => absurd hv List.not_mem_nil) hproduce hx hserves hu
    rw [hforce]
    refine .node hjoined (.trans ?_ hcalls)
    let began := e.recorded (.began (some (y + 1)) (some g) (.appendNode (.cell x) (.cell y)))
    calc
      e'.callsOf f = (began.recorded (.returned (some (y + 1)) w)).callsOf f := Store.callsOf_cons hhistory rfl
      _ = began.callsOf f := began.callsOf_recorded rfl
      _ = e.callsOf f := e.callsOf_recorded rfl
  | done tag =>
    have hne : x ≠ c := Store.ne_of_running hu hxv (by simp)
    let failed : Store := { e with faults := e.faults.push ⟨.emptyCycle (e.address x), [.cell x]⟩ }
    rw [force_lap_of_nil ha hc hproduce hx]
    refine .empty (Store.state_setState_self (failed.recorded _) c _ hclt)
      ((Store.state_setState_of_ne (failed.recorded _) _ hne).trans hxv) ?_ ?_
    · refine Array.getElem?_push_size.trans ?_
      exact congrArg (fun a => some (Raised.mk (.emptyCycle a) [.cell x])) (Store.address_setState (failed.recorded _) c x _).symm
    · exact (failed.callsOf_recorded rfl).trans hcalls

/-- A concatenation whose first list is at its end ends as the lap after it. -/
theorem Lapped.append {tag : Tag} (hs : Moment.Sound ⟨s, k⟩) (ha : s.active = some g)
    (hc : s.state c = .suspended (.appendNode (.cell r) (.cell y)))
    (hr : force (p.runAt depth) r (s.began c g (.appendNode (.cell r) (.cell y))) = .ok (.nil tag) m)
    (hcalls : m.callsOf f = s.callsOf f) (h : Lapped f g m y x (force (p.runAt depth) y m)) :
    Lapped f g s c x (force (p.runAt (depth + 1)) c s) ∧
      (Run.finalStore (force (p.runAt (depth + 1)) c s)).state r = .evaluated (.nil tag) := by
  let t := Thunk.appendNode (.cell r) (.cell y)
  have hproduce : t.produce p (p.runAt depth) (s.began c g t) = force (p.runAt depth) y m :=
    Sequence.appendNode_of_nil hr
  have hfirst := follows_force (p.follows_runAt depth) r (s.began c g t)
  have hsecond := follows_force (p.follows_runAt depth) y m
  rw [hr] at hfirst
  have hm := (hs.force hc).leads (hfirst (.force c g :: k))
  have hrm := force_ok_state hr
  generalize force (p.runAt depth) y m = result at hproduce hsecond h
  cases h with
  | @node e head q y' mark lap hjoined hcalled =>
    have hu := running_of_runs hs hc (hfirst.trans hsecond)
    obtain ⟨e', hforce, hserves, hother, hhistory⟩ :=
      force_of_serves ha hc hproduce hjoined.serves (Store.onlyCells_pair head q)
    have hre := (hsecond (.force c g :: k)).evaluated hm hrm (by simp)
    rw [hforce]
    refine ⟨.node (hjoined.hand hu hserves hother (force_ok_state hforce)) ?_,
      (hother r (Store.ne_of_running hu hre (by simp))).trans hre⟩
    rw [Store.callsOf_cons hhistory rfl, hcalled, hcalls]
  | @empty e z tag hy hx hfault hcalled =>
    have hu := running_of_runs hs hc (hfirst.trans hsecond)
    have hother : ∀ {d v}, e.state d = .evaluated v → (e.aborted c z).state d = .evaluated v := fun hd =>
      (Store.state_setState_of_ne (e.recorded _) _ (Store.ne_of_running hu hd (by simp))).trans hd
    have hforce : force (p.runAt (depth + 1)) c s = .error (.raised z) (e.aborted c z) := by
      rw [force_of_suspended p depth ha hc, hproduce]
    rw [hforce]
    refine ⟨.empty (Store.state_setState_self (e.recorded _) c _ (Store.lt_of_state hu (by simp))) (hother hx) ?_ ?_,
      hother ((hsecond (.force c g :: k)).evaluated hm hrm (by simp))⟩
    · have haddress : (e.aborted c z).address x = e.address x := Store.address_setState (e.recorded _) c x _
      exact haddress ▸ hfault
    · exact ((e.callsOf_recorded rfl).trans hcalled).trans (congrArg (· + 1) hcalls)

/-! ## All laps -/

/-- The lists of the calls so far with the heads that were read of them, and the cell at which a repetition has come to
stand: it is its origin, before the first call; or the concatenation of what is left of the last list with the next lap;
or it has failed, as the last list was empty.  All lists before the last were read to their ends, and were not empty. -/
inductive Store.Laps (s : Store) (f : Function) (origin : CellId) : List CellId → List (List CellId) → CellId → Prop
  | fresh {lap : Tag} (hc : s.state origin = .suspended (.freshLap lap (.function f))) : Laps s f origin [] [] origin
  | within {xs l : List CellId} {ls : List (List CellId)} {x r c y : CellId} {lap : Tag}
    (hpast : List.Forall₂ s.Lists xs ls) (hpos : ∀ l ∈ ls, l ≠ []) (hx : s.Begins x l r) (hl : l ≠ [])
    (hspine : s.Begins origin (ls.flatten ++ l) c) (hc : s.state c = .suspended (.appendNode (.cell r) (.cell y)))
    (hy : s.state y = .suspended (.freshLap lap (.function f))) : Laps s f origin (xs ++ [x]) (ls ++ [l]) c
  | failed {xs : List CellId} {ls : List (List CellId)} {x c : CellId} {z : FaultId} (hpast : List.Forall₂ s.Lists xs ls)
    (hpos : ∀ l ∈ ls, l ≠ []) (hx : s.Lists x []) (hspine : s.Begins origin ls.flatten c)
    (hc : s.state c = .failed (.fault z)) (hz : s.faults[z]? = some ⟨.emptyCycle (s.address x), [.cell x]⟩) :
    Laps s f origin (xs ++ [x]) (ls ++ [[]]) c

namespace Store.Laps

theorem begins (h : s.Laps f origin xs ls c) : s.Begins origin ls.flatten c := by
  cases h with
  | fresh => exact .here origin
  | within _ _ _ _ hspine => simpa using hspine
  | failed _ _ _ hspine => simpa using hspine

theorem ends (h : s.Laps f origin xs ls c) : s.Ends c := by
  cases h with
  | fresh hc => exact ends_of_suspended hc
  | within _ _ _ _ _ hc => exact ends_of_suspended hc
  | failed _ _ _ _ hc => exact ends_of_failed hc

/-- What avoids a repetition leaves its laps as they are. -/
theorem avoided {m m' : Moment} (hm : m.Sound) (h : m.store.Laps f origin xs ls c) (hnext : Moment.Leads m m')
    (havoids : m.store.Avoids f origin m'.store) : m'.store.Laps f origin xs ls c := by
  have hlists : ∀ {xs ls}, List.Forall₂ m.store.Lists xs ls → List.Forall₂ m'.store.Lists xs ls := fun hpast =>
    hpast.imp fun _ _ hl => hnext.lists hm hl
  cases h with
  | fresh hc =>
    have hthunk := congrArg CellState.thunk? hc
    exact .fresh ((havoids.state origin (.here (.here origin) hthunk)).trans hc)
  | within hpast hpos hx hl hspine hc hy =>
    have hthunk := congrArg CellState.thunk? hc
    exact .within (hlists hpast) hpos (hnext.begins hm hx) hl (hnext.begins hm hspine)
      ((havoids.state c (.here hspine hthunk)).trans hc) ((havoids.state _ (.next hspine hthunk)).trans hy)
  | @failed _ _ x _ z hpast hpos hx hspine hc hz =>
    exact .failed (hlists hpast) hpos (hnext.lists hm hx) (hnext.begins hm hspine) (hnext.failed hm hc)
      (hnext.address hx.lt ▸ hnext.faults hz)

end Store.Laps

/-- What a force of a cell of a repetition comes to, with the lists that were returned for it: a node, or, if the list
that was returned is empty, an error that says so. -/
inductive Answer (new : List CellId) : EStateM.Result Halt Store Value → Prop
  | node {e : Store} {tag : Tag} {head next : CellId} (hnew : ∀ x ∈ new, ¬ e.Lists x []) :
    Answer new (.ok (.cons tag (.cell head) (.cell next)) e)
  | empty {e : Store} {x : CellId} {z : FaultId} (hnew : new = [x]) (hx : e.Lists x [])
    (hz : e.faults[z]? = some ⟨.emptyCycle (e.address x), [.cell x]⟩) : Answer new (.error (.raised z) e)

/-- What is so after a force of a cell of a repetition. -/
structure Demanded (f : Function) (origin : CellId) (s : Store) (xs new : List CellId)
    (result : EStateM.Result Halt Store Value) : Prop where
  laps : ∃ ls c, (Run.finalStore result).Laps f origin (xs ++ new) ls c
  calls : (Run.finalStore result).callsOf f = s.callsOf f + new.length
  answer : Answer new result

/-- A force that comes to an end makes a run. -/
theorem leads_of_force (hdeep : ∀ e, force (p.runAt depth) c s ≠ .error .tooDeep e) (k : List Frame) :
    Moment.Leads ⟨s, k⟩ ⟨Run.finalStore (force (p.runAt depth) c s), k⟩ :=
  (follows_force (p.follows_runAt depth) c s).runs hdeep k

/-- A lap that begins, after laps of lists that were read to their ends. -/
theorem Lapped.demanded {result : EStateM.Result Halt Store Value} (h : Lapped f g s c x result)
    (hpast : List.Forall₂ (Run.finalStore result).Lists xs ls) (hpos : ∀ l ∈ ls, l ≠ [])
    (hspine : (Run.finalStore result).Begins origin ls.flatten c) : Demanded f origin s xs [x] result := by
  cases h with
  | node hjoined hcalls =>
    obtain ⟨tag, r, hx, hq⟩ := hjoined.list
    refine ⟨⟨_, _, .within hpast hpos (.node hx (.here _)) (by simp) (hspine.snoc hjoined.node) hq hjoined.next⟩, hcalls,
      .node fun x' hx' => ?_⟩
    obtain rfl := List.mem_singleton.1 hx'
    rintro ⟨r, tag', hr, hnil⟩
    cases hr
    cases hx.symm.trans hnil
  | empty hc hx hfault hcalls =>
    have hempty := (⟨_, _, .here _, hx⟩ : Store.Lists _ _ [])
    exact ⟨⟨_, _, .failed hpast hpos hempty hspine hc hfault⟩, hcalls, .empty rfl hempty hfault⟩

namespace Demand
variable {new : List CellId} {c' : CellId}

theorem suspended (h : Demand p f depth s c new) : ∃ t, s.state c = .suspended t := by
  cases h with
  | lap h => exact h.suspended.imp fun _ hc => hc.2
  | within _ hc => exact ⟨_, hc⟩
  | boundary _ hc => exact ⟨_, hc⟩

/-- A force within a lap makes the node of the next element of the list. -/
theorem demanded_within {head next : CellId} {tag lap : Tag} (hs : Moment.Sound ⟨s, k⟩) (hpast : List.Forall₂ s.Lists xs ls)
    (hpos : ∀ l ∈ ls, l ≠ []) (hx : s.Begins x l r) (hspine : s.Begins origin (ls.flatten ++ l) c)
    (ha : s.active = some g) (hc : s.state c = .suspended (.appendNode (.cell r) (.cell y)))
    (hy : s.state y = .suspended (.freshLap lap (.function f)))
    (hr : force (p.runAt depth) r (s.began c g (.appendNode (.cell r) (.cell y))) =
      .ok (.cons tag (.cell head) (.cell next)) m)
    (hforced : m.callsOf f = s.callsOf f) (hsame : m.state y = s.state y) (hserves : m.Serves g) :
    Demanded f origin s (xs ++ [x]) [] (force (p.runAt (depth + 1)) c s) := by
  obtain ⟨mark, q, e, hforce, hjoined, hhistory⟩ := force_append_of_serves hs ha hc hr hserves (hsame.trans hy)
  have hleads := runs_of_force_ok hforce k
  obtain ⟨tag', next', hre, hq⟩ := hjoined.list
  have hspine' := (hleads.begins hs hspine).snoc hjoined.node
  rw [hforce]
  refine ⟨⟨ls ++ [l ++ [head]], q, ?_⟩, ?_, .node fun x hx => absurd hx List.not_mem_nil⟩
  · rw [List.append_assoc] at hspine'
    rw [List.append_nil]
    exact .within (hpast.imp fun _ _ hl => hleads.lists hs hl) hpos ((hleads.begins hs hx).snoc hre) (by simp) hspine' hq
      hjoined.next
  · exact (Store.callsOf_cons hhistory rfl).trans hforced

/-- A force at the end of a lap begins the next lap. -/
theorem demanded_boundary {x' : CellId} {tag : Tag} (hs : Moment.Sound ⟨s, k⟩) (hpast : List.Forall₂ s.Lists xs ls)
    (hpos : ∀ l ∈ ls, l ≠ []) (hx : s.Begins x l r) (hl : l ≠ []) (hspine : s.Begins origin (ls.flatten ++ l) c)
    (ha : s.active = some g) (hc : s.state c = .suspended (.appendNode (.cell r) (.cell y)))
    (hr : force (p.runAt depth) r (s.began c g (.appendNode (.cell r) (.cell y))) = .ok (.nil tag) m)
    (hforced : m.callsOf f = s.callsOf f) (hnext : Supply p f g depth m y x') :
    Demanded f origin s (xs ++ [x]) [x'] (force (p.runAt (depth + 1)) c s) := by
  have hfirst := follows_force (p.follows_runAt depth) r (s.began c g (.appendNode (.cell r) (.cell y)))
  rw [hr] at hfirst
  have hm := (hs.force hc).leads (hfirst (.force c g :: k))
  obtain ⟨hlapped, hre⟩ := (hnext.lapped hm).append hs ha hc hr hforced
  have hleads := leads_of_force (fun e he => by rw [he] at hlapped; cases hlapped) k
  have hlast : (Run.finalStore (force (p.runAt (depth + 1)) c s)).Lists x l := ⟨r, tag, hleads.begins hs hx, hre⟩
  have hall := List.rel_append (hpast.imp fun _ _ hl => hleads.lists hs hl) (.cons hlast .nil)
  refine hlapped.demanded hall (List.forall_mem_append.2 ⟨hpos, List.forall_mem_singleton.2 hl⟩) ?_
  rw [List.flatten_append, List.flatten_cons, List.flatten_nil, List.append_nil]
  exact hleads.begins hs hspine

/-- **A force of a cell of a repetition, in which all goes well with the producer and the lists, goes on with its laps**:
it comes to a node, or to the error of an empty list. -/
theorem demanded (hs : Moment.Sound ⟨s, k⟩) (hl : s.Laps f origin xs ls c') (hc : s.Begins origin l c)
    (h : Demand p f depth s c new) : Demanded f origin s xs new (force (p.runAt depth) c s) := by
  -- the cell is suspended, so it is the one at which the repetition has come to stand
  obtain ⟨t, ht⟩ := h.suspended
  obtain ⟨-, rfl⟩ := hl.begins.end_unique hl.ends hc (Store.ends_of_suspended ht)
  cases h with
  | lap hsupply =>
    obtain ⟨_, ⟨lap, rfl⟩, hlap⟩ := hsupply.suspended
    cases hl with
    | fresh =>
      have hnone : ∀ l ∈ ([] : List (List CellId)), l ≠ [] := fun _ h => absurd h List.not_mem_nil
      exact (hsupply.lapped hs).demanded .nil hnone (.here origin)
    | within _ _ _ _ _ hc' => cases hc'.symm.trans hlap
    | failed _ _ _ _ hc' => cases hc'.symm.trans hlap
  | within ha happend hr hforced hsame hserves =>
    cases hl with
    | fresh hc' => cases hc'.symm.trans happend
    | within hpast hpos hx hne hspine hc' hy =>
      cases hc'.symm.trans happend
      exact demanded_within hs hpast hpos hx hspine ha hc' hy hr hforced hsame hserves
    | failed _ _ _ _ hc' => cases hc'.symm.trans happend
  | boundary ha happend hr hforced hnext =>
    cases hl with
    | fresh hc' => cases hc'.symm.trans happend
    | within hpast hpos hx hne hspine hc' hy =>
      cases hc'.symm.trans happend
      exact demanded_boundary hs hpast hpos hx hne hspine ha hc' hr hforced hnext
    | failed _ _ _ _ hc' => cases hc'.symm.trans happend

end Demand

/-! ## What is done around a repetition -/

/-- **Whatever is done around a repetition goes on with its laps**, and the producer is called once for each list. -/
theorem Around.laps {a b : List CellId × Moment} (h : Around p f origin a b) (hm : a.2.Sound)
    (hl : a.2.store.Laps f origin a.1 ls c) : b.2.Sound ∧ (∃ ls c, b.2.store.Laps f origin b.1 ls c) ∧
      b.2.store.callsOf f + a.1.length = a.2.store.callsOf f + b.1.length := by
  cases h with
  | @demanded s k xs new _ c _ hc hd =>
    obtain ⟨hlaps, hcalls, hanswer⟩ := hd.demanded hm hl hc
    have hleads := leads_of_force (fun e he => by rw [he] at hanswer; cases hanswer) k
    refine ⟨hm.leads hleads, hlaps, ?_⟩
    rw [hcalls, List.length_append, Nat.add_assoc, Nat.add_comm new.length]
  | other hnext havoids =>
    refine ⟨hm.next hnext, ⟨_, _, hl.avoided hm (.single hnext) havoids⟩, ?_⟩
    rw [havoids.calls]

/-- What was done around a repetition since it was made, one thing after the other. -/
theorem laps_of_around {a b : List CellId × Moment} (h : Relation.ReflTransGen (Around p f origin) a b) (hm : a.2.Sound)
    (hl : a.2.store.Laps f origin a.1 ls c) : b.2.Sound ∧ (∃ ls c, b.2.store.Laps f origin b.1 ls c) ∧
      b.2.store.callsOf f + a.1.length = a.2.store.callsOf f + b.1.length := by
  induction h with
  | refl => exact ⟨hm, ⟨_, _, hl⟩, rfl⟩
  | tail _ hstep ih =>
    obtain ⟨hsound, ⟨ls, c, hlaps⟩, hcalls⟩ := ih
    obtain ⟨hsound', hlaps', hcalls'⟩ := hstep.laps hsound hlaps
    exact ⟨hsound', hlaps', by omega⟩

/-- Once a repetition has failed, nothing that is done around it changes that, or calls the producer. -/
theorem failed_of_around {a b : List CellId × Moment} {z : FaultId} (h : Relation.ReflTransGen (Around p f origin) a b)
    (hm : a.2.Sound) (hspine : a.2.store.Begins origin l c) (hc : a.2.store.state c = .failed (.fault z)) :
    b.1 = a.1 ∧ Moment.Leads a.2 b.2 ∧ b.2.store.callsOf f = a.2.store.callsOf f := by
  induction h with
  | refl => exact ⟨rfl, .refl, rfl⟩
  | tail _ hstep ih =>
    obtain ⟨hlists, hleads, hcalls⟩ := ih
    cases hstep with
    | demanded hc' hd =>
      -- no cell of the repetition is suspended any more
      obtain ⟨t, ht⟩ := hd.suspended
      have hfailed := hleads.failed hm hc
      obtain ⟨-, rfl⟩ := (hleads.begins hm hspine).end_unique (Store.ends_of_failed hfailed) hc' (Store.ends_of_suspended ht)
      cases hfailed.symm.trans ht
    | other hnext havoids => exact ⟨hlists, hleads.tail hnext, havoids.calls.trans hcalls⟩

namespace Store.Laps

/-- Every list was read as far as the repetition has come. -/
theorem read (h : s.Laps f origin xs ls c) : List.Forall₂ (fun x l => ∃ r, s.Begins x l r) xs ls := by
  have hread : ∀ {xs ls}, List.Forall₂ s.Lists xs ls → List.Forall₂ (fun x l => ∃ r, s.Begins x l r) xs ls := fun h =>
    h.imp fun x l ⟨r, _, hr, _⟩ => ⟨r, hr⟩
  cases h with
  | fresh => exact .nil
  | within hpast _ hx => exact List.rel_append (hread hpast) (.cons ⟨_, hx⟩ .nil)
  | failed hpast => exact List.rel_append (hread hpast) (.cons ⟨_, .here _⟩ .nil)

/-- The lists before the last were read to their ends, and were not empty. -/
theorem past (h : s.Laps f origin xs ls c) :
    List.Forall₂ s.Lists xs.dropLast ls.dropLast ∧ ∀ l ∈ ls.dropLast, l ≠ [] := by
  cases h with
  | fresh => exact ⟨.nil, fun l hl => absurd hl List.not_mem_nil⟩
  | within hpast hpos => simpa using ⟨hpast, hpos⟩
  | failed hpast hpos => simpa using ⟨hpast, hpos⟩

/-- The lists of the calls were needed for the positions that were read, and the last of them for the last position. -/
theorem least {n : Nat} (h : s.Laps f origin xs ls c) (hc : s.state c = .suspended t) (hn : ls.flatten.length = n + 1)
    (j : Nat) : n < (ls.take j).flatten.length ↔ xs.length ≤ j := by
  cases h with
  | fresh => cases hn
  | @within xs l ls _ _ _ _ _ hpast _ _ hl =>
    have hlength := hpast.length_eq
    have hpos := List.length_pos_iff.2 hl
    have hsum : (ls ++ [l]).flatten.length = ls.flatten.length + l.length := by simp
    rw [List.length_append, List.length_singleton]
    constructor
    · intro hlt
      -- the lists before the last were read to their ends, and the last position is in none of them
      refine Nat.lt_of_not_le fun hle => ?_
      rw [List.take_append_of_le_length (hlength ▸ hle)] at hlt
      have hall : (ls.take j).flatten.length + (ls.drop j).flatten.length = ls.flatten.length := by
        rw [← List.length_append, ← List.flatten_append, List.take_append_drop]
      omega
    · intro hle
      rw [List.take_of_length_le (by rw [List.length_append, List.length_singleton]; omega), hn]
      exact Nat.lt_succ_self n
  | failed _ _ _ _ hc' => cases hc'.symm.trans hc

end Store.Laps

/-- **A repetition that is built anew gives the elements of the lists that its producer returns, in order, and calls it
when the first element of the next list is needed.**  Take any function of any program, and anything that is done around
the repetition over it once it is made, in which the calls of the producer returned the lists `xs`, and nothing else
called it.  Then it was called once for each list.  The heads of the nodes that the repetition has come to are the heads
of these lists, one list after the other, all of them but the last read to their ends; a force of such a node again gives
what it gave before, and changes nothing.  A force of a further cell, for which all goes well with the producer and the
lists, comes to a node, or, if the list that it called for is empty, to the error that says so.  As long as no list was
empty, the producer was called no oftener than the positions that were read need it: if these are `0` to `n`, the calls
are the least number of lists with more than `n` elements in all, and none if no position was read.  Once a list was
empty, the cell at the position after all lists raises the same error whenever it is forced, whatever is done, and the
producer is never called again. -/
theorem laps_follow_calls (p : Program) {f : Function} {tag : Tag} {origin : CellId} {s₀ e₀ : Store} {k₀ : List Frame}
    (hreached : Moment.Leads ⟨{}, []⟩ ⟨s₀, k₀⟩) (hmade : Cycle.fresh tag (.function f) s₀ = .ok origin e₀)
    {xs : List CellId} {m : Moment} (h : Relation.ReflTransGen (Around p f origin) ([], ⟨e₀, k₀⟩) (xs, m)) :
    m.store.callsOf f = s₀.callsOf f + xs.length ∧ ∃ ls c,
      (List.Forall₂ (fun x l => ∃ r, m.store.Begins x l r) xs ls ∧ List.Forall₂ m.store.Lists xs.dropLast ls.dropLast ∧
        (∀ l ∈ ls.dropLast, l ≠ []) ∧ m.store.Begins origin ls.flatten c ∧
        ∀ l' c', m.store.Begins origin l' c' → l' <+: ls.flatten ∧
          (c' = c ∨ ∃ v, ∀ run, force run c' m.store = .ok v m.store)) ∧
      (∀ depth l' c' new, m.store.Begins origin l' c' → Demand p f depth m.store c' new →
        c' = c ∧ Answer new (force (p.runAt depth) c' m.store)) ∧
      ((∃ t, m.store.state c = .suspended t ∧ (ls.flatten = [] → xs = []) ∧
          ∀ n, ls.flatten.length = n + 1 → ∀ j, n < (ls.take j).flatten.length ↔ xs.length ≤ j) ∨
        ∃ x z, xs.getLast? = some x ∧ m.store.Lists x [] ∧ m.store.Begins origin ls.dropLast.flatten c ∧
          ∀ xs' m', Relation.ReflTransGen (Around p f origin) (xs, m) (xs', m') →
            xs' = xs ∧ m'.store.callsOf f = m.store.callsOf f ∧
            m'.store.faults[z]? = some ⟨.emptyCycle (m'.store.address x), [.cell x]⟩ ∧
            ∀ run active, force run c { m'.store with active } = .error (.raised z) { m'.store with active }) := by
  obtain ⟨g, ha, rfl, rfl⟩ := Run.suspend_ok hmade
  have hsound₀ : Moment.Sound ⟨s₀.register g (.suspended (.freshLap tag (.function f))), k₀⟩ :=
    (Moment.sound_start.leads hreached).change (.newCell s₀ g _ ha)
  have hfresh := Store.Laps.fresh (f := f) (Store.state_register_new s₀ g (.suspended (.freshLap tag (.function f))))
  obtain ⟨hsound, ⟨ls, c, hlaps⟩, hcalls⟩ := laps_of_around h hsound₀ hfresh
  obtain ⟨hpast, hpos⟩ := hlaps.past
  refine ⟨hcalls, ls, c, ⟨hlaps.read, hpast, hpos, hlaps.begins, fun l' c' hc' => ?_⟩, fun depth l' c' new hc' hd => ?_, ?_⟩
  · obtain ⟨more, hmore, hrest⟩ := hc'.rest hlaps.begins hlaps.ends
    refine ⟨⟨more, hmore.symm⟩, ?_⟩
    cases hrest with
    | here => exact .inl rfl
    | node hx => exact .inr ⟨_, force_evaluated hx⟩
  · obtain ⟨t, ht⟩ := hd.suspended
    exact ⟨(hlaps.begins.end_unique hlaps.ends hc' (Store.ends_of_suspended ht)).2.symm,
      (hd.demanded hsound hlaps hc').answer⟩
  · have hleast : ∀ {t}, m.store.state c = .suspended t → ∀ n, ls.flatten.length = n + 1 → ∀ j,
        n < (ls.take j).flatten.length ↔ xs.length ≤ j := fun hc n hn j => hlaps.least hc hn j
    cases hlaps with
    | fresh hc => exact .inl ⟨_, hc, fun _ => rfl, hleast hc⟩
    | within _ _ _ hl _ hc => exact .inl ⟨_, hc, fun hnone => absurd hnone (by simp [hl]), hleast hc⟩
    | @failed ys zs x _ z _ _ hx hspine hc hz =>
      refine .inr ⟨x, z, List.getLast?_concat, hx, by rwa [List.dropLast_concat], fun xs' m' hlater => ?_⟩
      obtain ⟨hsame, hleads, hcalls⟩ := failed_of_around hlater hsound hspine hc
      refine ⟨hsame, hcalls, hleads.address hx.lt ▸ hleads.faults hz, fun run active => ?_⟩
      exact force_failed (s := { m'.store with active }) (hleads.failed hsound hc) run

namespace Supplying
open Run

/-- The function that is called. -/
def producer : Function := .defined "f" false

/-- It returns the list from 7 to 7 when it is first called, and then the list from 8 to 7. -/
def program : Program := [("f", ⟨.apply (.value .seq) [
  .assign "list" (.apply (.list .makeGenerator) [.lookup "lo", .constant (.int 7)]), .assign "lo" (.constant (.int 8)),
  .lookup "list"], false⟩)]

/-- Opens a heap, and sets the variable of the function. -/
def opens : Run Unit := do
  enter (← newHeap {})
  assign "lo" (.int 7)

/-- A heap is open, -/
def opened : Store := finalStore (opens {})

/-- the repetition over the function is made, -/
def made : Store := finalStore (Cycle.fresh 0 (.function producer) opened)

/-- it is forced once, -/
def begun : Store := finalStore (force (program.runAt 2) 0 made)

/-- and once more. -/
def failed : Store := finalStore (force (program.runAt 3) 6 begun)

def cell? : EStateM.Result Halt Store Value → Option CellId
  | .ok (.cell c) _ => some c
  | _ => none

/-- Whether a result is the end of a list, if it is a node or the end of a list. -/
def ended? : EStateM.Result Halt Store Value → Option Bool
  | .ok (.cons _ (.cell _) (.cell _)) _ => some false
  | .ok (.nil _) _ => some true
  | _ => none

def append? : CellState → Option (CellId × CellId)
  | .suspended (.appendNode (.cell r) (.cell y)) => some (r, y)
  | _ => none

def node? : CellState → Option (CellId × CellId)
  | .evaluated (.cons _ (.cell head) (.cell next)) => some (head, next)
  | _ => none

def ended : CellState → Bool
  | .evaluated (.nil _) => true
  | _ => false

def lap? : CellState → Option (Tag × Function)
  | .suspended (.freshLap tag (.function f)) => some (tag, f)
  | _ => none

theorem eq_ok_of_cell? {r : EStateM.Result Halt Store Value} (h : cell? r = some c) : r = .ok (.cell c) (finalStore r) := by
  unfold cell? at h
  split at h
  · cases h; rfl
  · cases h

theorem eq_ok_of_ended? {r : EStateM.Result Halt Store Value} {b : Bool} (h : ended? r = some b) :
    ∃ v, r = .ok v (finalStore r) ∧ v.ListNode ∧ (b = true → ∃ tag, v = .nil tag) := by
  unfold ended? at h
  split at h
  · cases h; exact ⟨_, rfl, .node _ _ _, fun h => by cases h⟩
  · cases h; exact ⟨_, rfl, .done _, fun _ => ⟨_, rfl⟩⟩
  · cases h

theorem eq_of_append? {st : CellState} (h : append? st = some (r, y)) : st = .suspended (.appendNode (.cell r) (.cell y)) := by
  unfold append? at h
  split at h
  · cases h; rfl
  · cases h

theorem eq_of_node? {st : CellState} (h : node? st = some (x, y)) :
    ∃ tag, st = .evaluated (.cons tag (.cell x) (.cell y)) := by
  unfold node? at h
  split at h
  · cases h; exact ⟨_, rfl⟩
  · cases h

theorem eq_of_ended {st : CellState} (h : ended st = true) : ∃ tag, st = .evaluated (.nil tag) := by
  unfold ended at h
  split at h
  · exact ⟨_, rfl⟩
  · cases h

theorem eq_of_lap? {st : CellState} {tag : Tag} (h : lap? st = some (tag, f)) :
    st = .suspended (.freshLap tag (.function f)) := by
  unfold lap? at h
  split at h
  · cases h; rfl
  · cases h

/-- Whether a lap of the repetition is supplied with a list. -/
def supplied (s : Store) (c x : CellId) : Bool :=
  let called := program.runAt 1 none (.call producer []) (s.began c 0 (.freshLap 0 (.function producer)))
  let read := force (program.runAt 1) x (finalStore called)
  let e := finalStore read
  s.active == some 0 && lap? (s.state c) == some (0, producer) && cell? called == some x &&
    (finalStore called).callsOf producer == s.callsOf producer + 1 && (ended? read).isSome &&
    e.callsOf producer == (finalStore called).callsOf producer && e.active == some 0 && decide (0 < e.heaps.size) &&
    (e.heap 0).samplesForces.truth? == some false

theorem supply_of_supplied (h : supplied s c x = true) : Supply program producer 0 2 s c x := by
  unfold supplied at h
  simp only [Bool.and_eq_true, beq_iff_eq, decide_eq_true_eq] at h
  obtain ⟨⟨⟨⟨⟨⟨⟨⟨ha, hc⟩, hcall⟩, hcalled⟩, hread⟩, hforced⟩, hactive⟩, hvalid⟩, hquiet⟩ := h
  obtain ⟨b, hb⟩ := Option.isSome_iff_exists.1 hread
  obtain ⟨v, hv, hnode, -⟩ := eq_ok_of_ended? hb
  exact .mk ha (eq_of_lap? hc) (eq_ok_of_cell? hcall) hcalled hv hnode hforced
    ⟨hactive, hvalid, ⟨false, hquiet⟩, fun htrue => by rw [hquiet] at htrue; cases htrue⟩

theorem around_failed :
    Relation.ReflTransGen (Around program producer 0) ([], ⟨made, []⟩) ([1, 7], ⟨failed, []⟩) := by
  have hfirst : Demand program producer 2 made 0 [1] := .lap (supply_of_supplied (by decide +kernel))
  let atEnd := force (program.runAt 2) 3 (begun.began 6 0 (.appendNode (.cell 3) (.cell 4)))
  obtain ⟨v, hv, -, hend⟩ := eq_ok_of_ended? (r := atEnd) (b := true) (by decide +kernel)
  obtain ⟨tag, rfl⟩ := hend rfl
  have hsecond : Demand program producer 3 begun 6 [7] := by
    refine .boundary (by decide +kernel) (eq_of_append? (by decide +kernel)) hv (by decide +kernel) ?_
    exact supply_of_supplied (by decide +kernel)
  have hspine : node? (begun.state 0) = some (2, 6) := by decide +kernel
  obtain ⟨mark, hnode⟩ := eq_of_node? hspine
  exact .head (.demanded (.here 0) hfirst) (.single (.demanded (.node hnode (.here 6)) hsecond))

end Supplying

open Supplying in
/-- The second list is empty: the position after the first list has failed for good. -/
theorem laps_follow_calls_empty :
    Moment.Leads ⟨{}, []⟩ ⟨opened, []⟩ ∧ Cycle.fresh 0 (.function producer) opened = .ok 0 made ∧
    Relation.ReflTransGen (Around program producer 0) ([], ⟨made, []⟩) ([1, 7], ⟨failed, []⟩) ∧
    failed.callsOf producer = 2 ∧ failed.Begins 0 [2] 6 ∧
    ∃ z, ∀ run active, force run 6 { failed with active } = .error (.raised z) { failed with active } := by
  have hopens : Run.Follows opens :=
    Run.follows_bind (Run.follows_newHeap _ _ _) fun h => Run.follows_bind (Run.follows_enter h) fun _ => Run.follows_assign _ _
  have hreached : Moment.Leads ⟨{}, []⟩ ⟨opened, []⟩ := hopens {} []
  have hmade : Cycle.fresh 0 (.function producer) opened = .ok 0 made := rfl
  obtain ⟨hcalls, ls, c, ⟨-, -, -, -, hread⟩, -, hend⟩ := laps_follow_calls program hreached hmade around_failed
  dsimp only at hcalls hread hend
  have hfirst : node? (failed.state 0) = some (2, 6) := by decide +kernel
  obtain ⟨mark, hnode⟩ := eq_of_node? hfirst
  have hfailed : (failed.state 6).phase = .failed := by decide +kernel
  have hspine : failed.Begins 0 [2] 6 := .node hnode (.here 6)
  obtain hsame | ⟨v, hv⟩ := (hread [2] 6 hspine).2
  · subst hsame
    rcases hend with ⟨t, ht, -⟩ | ⟨x, z, -, -, -, hforever⟩
    · rw [show failed.state 6 = .suspended t from ht] at hfailed
      cases hfailed
    · exact ⟨hreached, hmade, around_failed, hcalls, hspine, z, (hforever _ _ .refl).2.2.2⟩
  · rw [force_ok_state (hv (program.runAt 0))] at hfailed
    cases hfailed

end Retention
