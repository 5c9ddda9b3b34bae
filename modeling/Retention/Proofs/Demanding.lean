import Retention.Proofs.Carrying
import Retention.Proofs.Memoization
/-!
# Demanding — a force of what is left of a shared repetition

What a force that succeeds must have done: a computation that only reads leaves the store as it was, a force of a
suspended cell ran its thunk, and a concatenation or a lap forced its list first (`Sequence.appendNode_ok`,
`Cycle.lap_ok`).  `Demands` says which forces of lists these are, and `Undisturbed` that they spare the repetition.

Then a force of a cell from which links lead to a lap comes to a node from whose tail they lead on
(`Store.Carries.force`).  The three ways to get there are a new lap, the first list of a concatenation, and its second
list once the first is at its end.  Only the last needs the statement itself, for a cell with one link less.
-/
namespace Retention

open Store (Leaves Spares Sustains)

variable {p : Program} {depth : Nat} {h g g' : HeapId} {origin source c x y : CellId} {t : Thunk} {v : Value}
  {s m e : Store}

/-- What a list comes to: a node, or the end of the list. -/
def Value.IsListNode : Value → Prop
  | .cons _ _ _ | .nil _ => True
  | _ => False

/-- If a force of a suspended cell comes to a value, its thunk gave that value, and then the force was noted. -/
theorem produced_of_force_ok (hc : s.state c = .suspended t) (hr : force (p.runAt depth) c s = .ok v e) :
    ∃ n g m, depth = n + 1 ∧ s.active = some g ∧ t.produce p (p.runAt n) (s.began c g t) = .ok v m ∧
      Run.noteForced g ((m.recorded (.returned (some c) v)).setState c (.evaluated v)) = .ok () e := by
  cases depth with
  | zero =>
    obtain ⟨g, m, -, hm, -⟩ := force_of_turn_eq_ok hc rfl hr
    cases hm
  | succ n =>
    obtain ⟨g, m, ha, hm, hnote⟩ := force_of_turn_eq_ok hc rfl hr
    exact ⟨n, g, m, rfl, ha, hm, hnote⟩

theorem force_ok_state (hr : force (p.runAt depth) c s = .ok v e) : e.state c = .evaluated v :=
  evaluated_of_force (p.follows_runAt depth) hr

/-- A force that gives a value of a suspended cell: its thunk gave that value. -/
theorem force_ok_of_suspended (hc : s.state c = .suspended t) (hr : force (p.runAt depth) c s = .ok v e) :
    ∃ n g m, depth = n + 1 ∧ s.active = some g ∧ t.produce p (p.runAt n) (s.began c g t) = .ok v m ∧
      (∀ d ≠ c, e.state d = m.state d) ∧ e.state c = .evaluated v ∧ ∀ h, m.Leaves h e := by
  obtain ⟨n, g, m, hdepth, ha, hm, hnote⟩ := produced_of_force_ok hc hr
  refine ⟨n, g, m, hdepth, ha, hm, fun d hd => ?_, force_ok_state hr, fun h => ?_⟩
  · rw [Store.state_of_cells (Run.noteForced_cells hnote)]
    exact Store.state_setState_of_ne _ _ hd
  · let settled := (m.recorded (.returned (some c) v)).setState c (.evaluated v)
    have hsettled : m.Leaves h settled := .of_eq rfl rfl
    have hcounted := hsettled.trans (.counted settled g)
    obtain rfl | ⟨live, rfl⟩ := Run.noteForced_ok hnote
    · exact hcounted
    · exact hcounted.trans (.noteLive _ g live)

theorem suspended_of_force_ok {run : Runner} (hc : (s.state c).thunk? = some t) (hr : force run c s = .ok v e) :
    s.state c = .suspended t := by
  obtain ⟨hv, -⟩ | ⟨u, hu⟩ := force_eq_ok hr
  · rw [hv] at hc
    cases hc
  · rw [hu] at hc
    cases hc
    exact hu

theorem Run.suspend_ok {r : CellId} (hr : Run.suspend t s = .ok r e) :
    ∃ g, s.active = some g ∧ r = s.cells.size ∧ e = s.register g (.suspended t) := by
  obtain ⟨g, m, hactive, hnew⟩ := Run.bind_eq_ok hr
  obtain ⟨ha, rfl⟩ := activeHeap_ok hactive
  cases hnew
  exact ⟨g, ha, rfl, rfl⟩

/-- What the first list of a concatenation comes to decides what the concatenation comes to. -/
theorem Sequence.appendNode_ok {run : Runner} {xs : Value} (hr : appendNode run xs (.cell y) s = .ok v e) :
    ∃ x w m, xs = .cell x ∧ force run x s = .ok w m ∧
      ((∃ tag head tail g, w = .cons tag head tail ∧ m.active = some g ∧
          v = .cons m.nextTag head (.cell m.cells.size) ∧
          e = (m.register g (.suspended (.appendNode tail (.cell y)))).tagged) ∨
        (∃ tag, w = .nil tag ∧ force run y m = .ok v e) ∨ ¬ w.IsListNode) := by
  obtain ⟨w, m, hforce, hrest⟩ := Run.bind_eq_ok hr
  obtain ⟨x, m', hcell, hx⟩ := Run.bind_eq_ok hforce
  obtain ⟨rfl, rfl⟩ : xs = .cell x ∧ m' = s := by
    cases xs with
    | cell d => cases hcell; exact ⟨rfl, rfl⟩
    | _ => cases hcell
  refine ⟨x, w, m, rfl, hx, ?_⟩
  cases w with
  | cons tag head tail =>
    obtain ⟨r, m', hsuspend, hcons⟩ := Run.bind_eq_ok hrest
    obtain ⟨g, ha, rfl, rfl⟩ := Run.suspend_ok hsuspend
    cases hcons
    exact .inl ⟨tag, head, tail, g, rfl, ha, rfl, rfl⟩
  | nil tag => exact .inr (.inl ⟨tag, rfl, hrest⟩)
  | _ => exact .inr (.inr id)

/-- A lap of a list that comes to a node: the first node of the lap is made at once. -/
theorem Cycle.lap_ok {run : Runner} {next : Thunk} (hr : lap run (.cell x) next s = .ok v e) :
    ∃ w m, force run x s = .ok w m ∧
      ((∃ tag head tail g, w = .cons tag head tail ∧ m.active = some g ∧
          force run (m.cells.size + 1) ((m.register g (.suspended next)).register g
            (.suspended (.appendNode (.cell x) (.cell m.cells.size)))) = .ok v e) ∨ ¬ w.IsListNode) := by
  cases hx : force run x s with
  | error halt m =>
    rw [Cycle.lap_of_error hx] at hr
    cases hr
  | ok w m =>
    refine ⟨w, m, rfl, ?_⟩
    cases w with
    | nil tag =>
      rw [Cycle.lap_of_nil hx] at hr
      cases hr
    | cons tag head tail =>
      cases ha : m.active with
      | some g => exact .inl ⟨tag, head, tail, g, rfl, rfl, (Cycle.lap_of_cons ha hx next).symm.trans hr⟩
      | none =>
        unfold lap at hr
        rw [Run.bind_ok (show Run.cellOf "state" (.cell x) s = .ok x s from rfl), Run.bind_ok hx,
          Run.bind_ok (show Run.truth (.cons tag head tail) m = .ok true m from rfl)] at hr
        obtain ⟨r, m', hsuspend, -⟩ := Run.bind_eq_ok hr
        obtain ⟨g, hg, -⟩ := Run.suspend_ok hsuspend
        cases ha.symm.trans hg
    | _ => exact .inr id

/-! ## What the repetition demands -/

/-- While what is left of a repetition is forced, a list is forced in its turn: the list that is repeated, at the start
of a lap, the first list of a concatenation, and, where that is at its end, what the force of the second list forces. -/
inductive Demands (p : Program) (origin source : CellId) : Nat → Store → CellId → Nat → Store → CellId → Prop
  | start {depth : Nat} {s : Store} {c : CellId} {g : HeapId} (ha : s.active = some g)
    (hc : s.state c = .suspended (.cycleStart origin (.cell source))) :
    Demands p origin source (depth + 1) s c depth (s.began c g (.cycleStart origin (.cell source))).tagged source
  | lap {depth : Nat} {s : Store} {c : CellId} {g : HeapId} {tag : Tag} (ha : s.active = some g)
    (hc : s.state c = .suspended (.sharedLap tag (.cell source) (.cell origin))) :
    Demands p origin source (depth + 1) s c depth (s.began c g (.sharedLap tag (.cell source) (.cell origin))) source
  | first {depth : Nat} {s : Store} {c x y : CellId} {g : HeapId} (ha : s.active = some g)
    (hc : s.state c = .suspended (.appendNode (.cell x) (.cell y))) :
    Demands p origin source (depth + 1) s c depth (s.began c g (.appendNode (.cell x) (.cell y))) x
  | second {depth n : Nat} {s m e : Store} {c x y z : CellId} {g : HeapId} {tag : Tag} (ha : s.active = some g)
    (hc : s.state c = .suspended (.appendNode (.cell x) (.cell y)))
    (hx : force (p.runAt depth) x (s.began c g (.appendNode (.cell x) (.cell y))) = .ok (.nil tag) m)
    (hy : Demands p origin source depth m y n e z) : Demands p origin source (depth + 1) s c n e z

/-- Whenever a force of what is left of the repetition forces a list, that comes to a list node, and spares the
repetition. -/
def Undisturbed (p : Program) (h : HeapId) (origin source : CellId) (depth : Nat) (s : Store) (c : CellId) : Prop :=
  ∀ n m x, Demands p origin source depth s c n m x → ∀ v e, force (p.runAt n) x m = .ok v e →
    v.IsListNode ∧ m.Spares h origin source e

/-! ## A force of what is left -/

/-- **The node of a lap** has as its tail a new concatenation, of the tail of the list and a new cell for the next lap. -/
theorem Cycle.lap_carries {next : Thunk} {tag : Tag} {head tail : Value}
    (hx : force (p.runAt depth) x s = .ok (.cons tag head tail) m)
    (hr : force (p.runAt depth) (m.cells.size + 1) ((m.register g (.suspended next)).register g
      (.suspended (.appendNode (.cell x) (.cell m.cells.size)))) = .ok v e) :
    ∃ tag r, v = .cons tag head (.cell r) ∧ m.cells.size ≤ r ∧ e.state m.cells.size = .suspended next ∧
      e.state r = .suspended (.appendNode tail (.cell m.cells.size)) ∧ (∀ d < m.cells.size, e.state d = m.state d) ∧
      m.Leaves h e := by
  have hv := force_ok_state hx
  have hxlt := Store.lt_of_state hv (by simp)
  let lapped := m.register g (.suspended next)
  let made := lapped.register g (.suspended (.appendNode (.cell x) (.cell m.cells.size)))
  have hlapped : lapped.cells.size = m.cells.size + 1 := Store.size_register ..
  have hmade : made.cells.size = m.cells.size + 2 := (Store.size_register ..).trans (congrArg (· + 1) hlapped)
  have hold : ∀ d < m.cells.size, made.state d = m.state d := fun d hd =>
    (Store.state_register_of_lt (hlapped ▸ Nat.lt_succ_of_lt hd) g _).trans (Store.state_register_of_lt hd g _)
  have hnext : made.state m.cells.size = .suspended next :=
    (Store.state_register_of_lt (hlapped ▸ Nat.lt_succ_self _) g _).trans (Store.state_register_new m g _)
  have hc : made.state (m.cells.size + 1) = .suspended (.appendNode (.cell x) (.cell m.cells.size)) :=
    hlapped ▸ Store.state_register_new lapped g _
  obtain ⟨n, g', m', rfl, -, hproduce, hother, -, hleaves⟩ := force_ok_of_suspended hc hr
  let began := made.began (m.cells.size + 1) g' (.appendNode (.cell x) (.cell m.cells.size))
  obtain ⟨x', w, b, hcell, hforce, hnode⟩ := Sequence.appendNode_ok (s := began) hproduce
  cases hcell
  -- the list is evaluated by now, so its second force changes nothing
  have hbx : began.state x = .evaluated (.cons tag head tail) :=
    (Store.state_began_of_ne made (Nat.ne_of_lt (Nat.lt_succ_of_lt hxlt)) g' _).trans ((hold x hxlt).trans hv)
  have hsize : began.cells.size = m.cells.size + 2 := (Store.size_setState ..).trans hmade
  rw [force_evaluated hbx] at hforce
  cases hforce
  obtain ⟨_, _, _, g'', hcons, -, rfl, rfl⟩ | ⟨_, hnil, -⟩ | hnone := hnode
  · cases hcons
    let rest := CellState.suspended (.appendNode tail (.cell m.cells.size))
    have hbelow : ∀ d < m.cells.size + 1, e.state d = made.state d := fun d hd => by
      have hlt : d < began.cells.size := hsize ▸ Nat.lt_succ_of_lt hd
      calc
        e.state d = (began.register g'' rest).state d := hother d (Nat.ne_of_lt hd)
        _ = began.state d := Store.state_register_of_lt hlt g'' rest
        _ = made.state d := Store.state_began_of_ne made (Nat.ne_of_lt hd) g' _
    have hne : began.cells.size ≠ m.cells.size + 1 := by rw [hsize]; exact Nat.succ_ne_self _
    refine ⟨_, began.cells.size, rfl, by omega, (hbelow _ (Nat.lt_succ_self _)).trans hnext, ?_,
      fun d hd => (hbelow d (Nat.lt_succ_of_lt hd)).trans (hold d hd), ?_⟩
    · exact (hother _ hne).trans (Store.state_register_new began g'' rest)
    · have hmade : m.Leaves h made := (Leaves.register m g _).trans (.register lapped g _)
      exact (((hmade.trans (.began ..)).trans (.register began g'' rest)).trans (.tagged _)).trans (hleaves h)
  · cases hnil
  · exact absurd trivial hnone

/-- A lap forces the list that is repeated, in a store that differs from that before the force in no cell that counts. -/
theorem Thunk.IsLapOf.produce (ht : t.IsLapOf origin source) (ha : s.active = some g) (hc : s.state c = .suspended t) :
    ∃ tag b, t.produce p (p.runAt depth) (s.began c g t) =
        Cycle.lap (p.runAt depth) (.cell source) (.sharedLap tag (.cell source) (.cell origin)) b ∧
      Demands p origin source (depth + 1) s c depth b source ∧ (s.began c g t).Spares h origin source b := by
  obtain rfl | ⟨tag, rfl⟩ := ht
  · exact ⟨_, _, rfl, .start ha hc, .of_eq rfl rfl, fun _ _ _ => rfl⟩
  · exact ⟨tag, _, rfl, .lap ha hc, .refl h _, fun _ _ _ => rfl⟩

/-- A force gave a node from whose tail links lead to a lap, and sustained the repetition. -/
def Unrolls (h : HeapId) (origin source : CellId) (s : Store) (v : Value) (e : Store) : Prop :=
  ∃ tag head r k, v = .cons tag head (.cell r) ∧ e.Carries origin source k r ∧ Sustains origin source s e ∧ s.Leaves h e

theorem Unrolls.of_run {r : CellId} {tag : Tag} {head : Value} {k : Nat} (ht : s.state c = .suspended t)
    (hrun : Sustains origin source (s.began c g t) m) (hkept : (s.began c g t).Leaves h m)
    (hother : ∀ d ≠ c, e.state d = m.state d) (hself : e.state c = .evaluated (.cons tag head (.cell r)))
    (hleaves : m.Leaves h e) (hr : e.Carries origin source k r) :
    Unrolls h origin source s (.cons tag head (.cell r)) e :=
  ⟨tag, head, r, k, rfl, hr, .forced ht hrun hother hself hr, ((Leaves.began ..).trans hkept).trans hleaves⟩

/-- The next lap: two new cells come to be, the concatenation and the lap after this one. -/
theorem force_lap_unrolls (hthunk : (s.state c).thunk? = some t) (ht : t.IsLapOf origin source)
    (hquiet : Undisturbed p h origin source depth s c) (hr : force (p.runAt depth) c s = .ok v e) :
    Unrolls h origin source s v e := by
  have hstate := suspended_of_force_ok hthunk hr
  obtain ⟨depth, g, m, rfl, ha, hproduce, hother, hself, hleaves⟩ := force_ok_of_suspended hstate hr
  obtain ⟨tag, b, hlap, hdemand, hbegan⟩ := ht.produce (h := h) ha hstate
  rw [hlap] at hproduce
  obtain ⟨w, m', hsource, hnode⟩ := Cycle.lap_ok hproduce
  obtain ⟨hlist, hspares⟩ := hquiet _ _ _ hdemand _ _ hsource
  obtain ⟨_, head, tail, g', rfl, -, hforce⟩ | hnone := hnode
  · obtain ⟨_, r, rfl, hle, hnext, hrest, hold, hkept⟩ := Cycle.lap_carries (h := h) hsource hforce
    have hsource := hbegan.sustains.trans hspares.sustains
    have hrun := hsource.trans (.of_state (e := m) fun _ d hd => hold d hd.lt)
    -- the two new cells come after the one that is forced
    obtain ⟨j, hj⟩ := hsource.carries 0 c ((Store.Carries.lap hthunk ht).began hstate g)
    have hnext' := (hother _ (Nat.ne_of_gt hj.lt)).trans hnext
    have hrest' := (hother _ (Nat.ne_of_gt (Nat.lt_of_lt_of_le hj.lt hle))).trans hrest
    have hcarries : e.Carries origin source 1 r :=
      .tail (by rw [hrest']; rfl) (.lap (by rw [hnext']; rfl) (.inr ⟨tag, rfl⟩))
    exact .of_run hstate hrun ((hbegan.toLeaves.trans hspares.toLeaves).trans hkept) hother hself (hleaves h) hcarries
  · exact absurd hlist hnone

/-- A concatenation whose first list comes to a node: what is left is its tail, and then the second list as before. -/
theorem force_first_unrolls {n : Nat} {tag : Tag} {head tail : Value} {b : Store} (ht : s.state c = .suspended t)
    (hspares : (s.began c g t).Spares h origin source b)
    (hc : b.Carries origin source (n + 1) c) (hy : b.Carries origin source n y)
    (hother : ∀ d ≠ c, e.state d = (b.register g' (.suspended (.appendNode tail (.cell y)))).tagged.state d)
    (hself : e.state c = .evaluated (.cons tag head (.cell b.cells.size)))
    (hleaves : (b.register g' (.suspended (.appendNode tail (.cell y)))).tagged.Leaves h e) :
    Unrolls h origin source s (.cons tag head (.cell b.cells.size)) e := by
  let rest := CellState.suspended (.appendNode tail (.cell y))
  have hold : ∀ k d, b.Carries origin source k d → (b.register g' rest).tagged.state d = b.state d := fun _ d hd =>
    Store.state_register_of_lt hd.lt g' rest
  have hrun := hspares.sustains.trans (.of_state hold)
  have hrest : e.state b.cells.size = rest := (hother _ (Nat.ne_of_gt hc.lt)).trans (Store.state_register_new b g' rest)
  have hy' := hy.congr_state fun k d _ hd => hold k d hd
  have hc' := hc.congr_state fun k d _ hd => hold k d hd
  have hcarries : e.Carries origin source (n + 1) b.cells.size :=
    .tail (by rw [hrest]; rfl) (hy'.before hc' (Nat.lt_succ_self n) hother)
  have hkept : b.Leaves h (b.register g' rest).tagged := (Leaves.register b g' rest).trans (.tagged _)
  exact .of_run ht hrun (hspares.toLeaves.trans hkept) hother hself hleaves hcarries

/-- **What is left of a repetition stays so when it is forced**: it comes to a node from whose tail links lead to a
lap. -/
theorem Store.Carries.force {n : Nat} (hc : s.Carries origin source n c)
    (hquiet : Undisturbed p h origin source depth s c) (hr : Retention.force (p.runAt depth) c s = .ok v e) :
    Unrolls h origin source s v e := by
  -- the second list of a concatenation has fewer links than the concatenation
  induction n generalizing depth s c v e with
  | zero =>
    obtain ⟨hthunk, ht⟩ := hc
    exact force_lap_unrolls hthunk ht hquiet hr
  | succ n ih =>
    cases hc with
    | node hstate hrest =>
      rw [force_evaluated hstate] at hr
      cases hr
      exact ⟨_, _, _, _, rfl, hrest, .of_state fun _ _ _ => rfl, .refl h s⟩
    | @tail _ _ y xs hthunk hy =>
      have hstate := suspended_of_force_ok hthunk hr
      obtain ⟨depth, g, m, rfl, ha, hproduce, hother, hself, hleaves⟩ := force_ok_of_suspended hstate hr
      obtain ⟨x, w, b, rfl, hx, hnode⟩ := Sequence.appendNode_ok hproduce
      obtain ⟨hlist, hspares⟩ := hquiet _ _ _ (.first ha hstate) _ _ hx
      have hyb := (hy.began hstate g).congr_state fun k d _ hd => hspares.state k d hd
      have hin := (Carries.tail hthunk hy).began hstate g
      have hcb := hin.congr_state fun k d _ hd => hspares.state k d hd
      obtain ⟨_, head, tail, g', rfl, -, rfl, rfl⟩ | ⟨tag, rfl, hsecond⟩ | hnone := hnode
      · exact force_first_unrolls hstate hspares hcb hyb hother hself (hleaves h)
      · have hsecondQuiet : Undisturbed p h origin source depth b y := fun n e z hdemand =>
          hquiet n e z (.second ha hstate hx hdemand)
        obtain ⟨_, head, r, k, rfl, hcarries, hsustains, hkept⟩ := ih hyb hsecondQuiet hsecond
        -- the second list has come to the node by now, so links lead on from the concatenation by it
        have hcm : m.Carries origin source (k + 2) c := by
          have hrunning : b.state c = .inProgress (.appendNode (.cell x) (.cell y)) :=
            (hspares.state _ c hin).trans (Store.state_setState_self s c _ (Store.lt_of_suspended hstate))
          have hsame := hsustains.settled _ c hcb fun t => by rw [hrunning]; simp
          exact .tail (by rw [hsame, hrunning]; rfl) (.node (force_ok_state hsecond) hcarries)
        exact .of_run hstate (hspares.sustains.trans hsustains) (hspares.toLeaves.trans hkept) hother hself (hleaves h)
          (hcarries.before hcm (by omega) hother)
      · exact absurd hlist hnone

end Retention
