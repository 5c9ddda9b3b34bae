import Retention.Proofs.Supplying
/-!
# Recurring — a shared repetition reads its list once

The laps of a shared repetition all go over one list.  The first lap reads it, node by node and no further than it is
asked to; the laps after it find the nodes as they were left, and make nodes of their own with the very same heads.  So
the head at a position is the head of the list at this position, counted round and round, and what was read of the list
is never read again.

Of the list it is asked that its producers come to nodes, force no other cell, and leave the active heap active
(`Reads`).  That is enough to know that the lap that waits is left alone: a cell that no longer waits was forced.
`Beside` is anything that can be done beside the repetition, be it by consumers of it, in any order, or by others; it
keeps account of the forces that the repetition made (`Store.Spent`).  `Store.Repeats` is the invariant: how many laps
were gone through, and how much of the next one.
-/
namespace Retention

/-- The cell that begins to be forced in a turn, and its thunk. -/
def Turn.begun? : Turn → Option (CellId × Thunk)
  | .began (some c) _ t => some (c, t)
  | _ => none

/-- The cells of which a force has begun, with their thunks, latest first. -/
def Store.begun (s : Store) : List (CellId × Thunk) := s.history.filterMap Turn.begun?

variable {p : Program} {origin source : CellId} {g : HeapId} {depth n : Nat} {s m e b : Store} {c d x r y : CellId}
  {l full : List CellId} {t : Thunk} {v : Value} {k : List Frame}

/-! ## Forces that have begun -/

theorem Turn.owner_of_begun? {turn : Turn} {z : CellId × Thunk} (h : turn.begun? = some z) : turn.owner = some z.1 := by
  unfold begun? at h
  split at h
  · cases h
    rfl
  · cases h

namespace Store

theorem begun_cons {turn : Turn} (h : e.history = turn :: s.history) (hturn : turn.begun? = none) : e.begun = s.begun := by
  unfold begun
  rw [h, List.filterMap_cons_none hturn]

theorem count_begun (s : Store) (c : CellId) :
    (s.begun.map Prod.fst).count c = ((s.turnsOf c).filterMap Turn.begun?).length := by
  unfold begun turnsOf
  rw [List.filterMap_reverse, List.length_reverse]
  induction s.history with
  | nil => rfl
  | cons turn turns ih =>
    rw [List.filter_cons]
    cases hbegun : turn.begun? with
    | none =>
      rw [List.filterMap_cons_none hbegun, ih]
      split
      · rw [List.filterMap_cons_none hbegun]
      · rfl
    | some z =>
      rw [List.filterMap_cons_some hbegun, List.map_cons, List.count_cons, ih, Turn.owner_of_begun? hbegun]
      by_cases hz : z.1 = c
      · simp [hz, hbegun]
      · simp [hz]

theorem not_mem_begun (hc : s.turnsOf c = []) : c ∉ s.begun.map Prod.fst := by
  refine List.count_eq_zero.1 ?_
  rw [count_begun, hc]
  rfl

end Store

namespace Moment
variable {a a' : Moment}

/-- **No cell is forced twice.** -/
theorem Sound.nodup_begun (ha : a.Sound) : (a.store.begun.map Prod.fst).Nodup := by
  refine List.nodup_iff_count_le_one.2 fun c => ?_
  rw [Store.count_begun]
  rcases Nat.lt_or_ge c a.store.cells.size with hlt | hge
  · obtain ⟨st, hst⟩ := Store.initial?_eq_some_of_lt hlt
    cases ha.lived c st hst with
    | unrun hturns => simp [hturns]
    | running hturns => simp [hturns, Turn.begun?]
    | evaluated hturns => simp [hturns, Turn.begun?]
    | failed hturns => simp [hturns, Turn.begun?]
  · simp [ha.unborn c hge]

/-- A cell that no longer waits was forced. -/
theorem Sound.mem_begun (ha : a.Sound) (hi : a.store.initial? c = some (.suspended t))
    (hc : a.store.state c ≠ .suspended t) : c ∈ a.store.begun.map Prod.fst := by
  refine List.count_pos_iff.1 ?_
  rw [Store.count_begun]
  cases ha.lived c _ hi with
  | unrun _ hstate => exact absurd hstate hc
  | running hturns => simp [hturns, Turn.begun?]
  | evaluated hturns => simp [hturns, Turn.begun?]
  | failed hturns => simp [hturns, Turn.begun?]

theorem Leads.begun (h : Leads a a') : a.store.begun <:+ a'.store.begun := h.history.filterMap _

end Moment

theorem mem_begun_of_force_ok (hs : Moment.Sound ⟨s, k⟩) (hc : s.state c = .suspended t)
    (hr : force (p.runAt depth) c s = .ok v e) : c ∈ e.begun.map Prod.fst := by
  have hleads := runs_of_force_ok hr k
  refine (hs.leads hleads).mem_begun (hleads.initial? (hs.of_suspended hc).1) ?_
  simp [force_ok_state hr]

/-- A force that gives a value of a suspended cell: all that its thunk did was done before. -/
theorem finished_of_force_ok (hc : s.state c = .suspended t) (hr : force (p.runAt depth) c s = .ok v e) :
    ∃ n g m, depth = n + 1 ∧ s.active = some g ∧ t.produce p (p.runAt n) (s.began c g t) = .ok v m ∧
      (m.finished c g v).Runs e := by
  obtain ⟨n, g, m, rfl, ha, hm, hnote⟩ := produced_of_force_ok hc hr
  have hfollows := Run.followsAt_noteForced g ((m.recorded (.returned (some c) v)).setState c (.evaluated v))
  rw [hnote] at hfollows
  exact ⟨n, g, m, rfl, ha, hm, hfollows⟩

/-! ## The list is read -/

/-- A cell of the list comes to a value, no other cell is forced for that, and the heap serves afterwards. -/
structure Reads (p : Program) (depth : Nat) (g : HeapId) (s : Store) (x : CellId) (v : Value) (m : Store) : Prop where
  force : force (p.runAt depth) x s = .ok v m
  alone : ∃ read, m.begun = read ++ s.begun ∧ ∀ z ∈ read, z.1 = x
  serves : m.Serves g

namespace Reads

/-- All other cells that wait go on waiting. -/
theorem waits (h : Reads p depth g s x v m) (hs : Moment.Sound ⟨s, k⟩) (hy : s.state y = .suspended t) (hne : y ≠ x) :
    m.state y = .suspended t := by
  by_contra hstate
  have hleads := runs_of_force_ok h.force k
  have hmem : y ∈ m.begun.map Prod.fst :=
    (hs.leads hleads).mem_begun (hleads.initial? (hs.of_suspended hy).1) hstate
  obtain ⟨read, hbegun, hread⟩ := h.alone
  rw [hbegun, List.map_append, List.mem_append] at hmem
  rcases hmem with hmem | hmem
  · obtain ⟨z, hz, rfl⟩ := List.mem_map.1 hmem
    exact hne (hread z hz)
  · exact Store.not_mem_begun (hs.of_suspended hy).2 hmem

/-- What is read is no lap, as a lap forces a cell of its own. -/
theorem ne_lap {lap tag : Tag} {head next : Value} (h : Reads p depth g s x v m) (hs : Moment.Sound ⟨s, k⟩)
    (hsource : s.state source = .evaluated (.cons tag head next))
    (hy : s.state y = .suspended (.sharedLap lap (.cell source) (.cell origin))) : y ≠ x := by
  rintro rfl
  obtain ⟨n, g₁, m₁, rfl, ha, hproduce, hfinished⟩ := finished_of_force_ok hy h.force
  let t := Thunk.sharedLap lap (.cell source) (.cell origin)
  let b := s.began y g₁ t
  have hsb : b.state source = .evaluated (.cons tag head next) := by
    refine (Store.state_began_of_ne s ?_ g₁ t).trans hsource
    rintro rfl
    cases hsource.symm.trans hy
  obtain ⟨w, m₂, hforce, hnode⟩ := Cycle.lap_ok (s := b) hproduce
  rw [force_evaluated hsb] at hforce
  cases hforce
  obtain ⟨_, _, _, g₂, -, ha₂, hnode⟩ | hnone := hnode
  · -- the concatenation that the lap makes is new, and forced at once
    let after := b.register g₂ (.suspended t)
    let list := Thunk.appendNode (.cell source) (.cell b.cells.size)
    let made := after.register g₂ (.suspended list)
    have hsize : after.cells.size = b.cells.size + 1 := Store.size_register ..
    have hmade : Moment.Sound ⟨made, .force y g₁ :: k⟩ :=
      ((hs.force hy).change (.newCell b g₂ _ ha₂)).change (.newCell after g₂ _ ha₂)
    have hc : made.state (b.cells.size + 1) = .suspended list :=
      hsize ▸ Store.state_register_new after g₂ (.suspended list)
    have hmem : b.cells.size + 1 ∈ m.begun.map Prod.fst := by
      have hlast : Moment.Leads ⟨m₁, .force y g₁ :: k⟩ ⟨m, k⟩ := .head (.finished m₁ k y g₁ v) (hfinished k)
      exact (hlast.begun.map Prod.fst).subset (mem_begun_of_force_ok hmade hc hnode)
    obtain ⟨read, hbegun, hread⟩ := h.alone
    rw [hbegun, List.map_append, List.mem_append] at hmem
    have hle : s.cells.size ≤ b.cells.size + 1 := Nat.le_succ_of_le (Nat.le_of_eq (Store.size_setState ..).symm)
    rcases hmem with hmem | hmem
    · obtain ⟨z, hz, heq⟩ := List.mem_map.1 hmem
      have hlt := Store.lt_of_suspended hy
      rw [← hread z hz, heq] at hlt
      exact absurd hlt (Nat.not_lt_of_le hle)
    · exact Store.not_mem_begun (hs.unborn _ hle) hmem
  · exact absurd trivial hnone

theorem evaluated (hx : s.state x = .evaluated v) (hs : s.Serves g) : Reads p depth g s x v s where
  force := force_evaluated hx _
  alone := ⟨[], rfl, fun _ hz => absurd hz List.not_mem_nil⟩
  serves := hs

end Reads

/-- A cell of a repetition is forced, and all goes well with the list as far as it is read for that. -/
inductive Served (p : Program) (origin source : CellId) : Nat → Store → CellId → Prop
  /-- The first lap begins, and the list is not empty. -/
  | start {depth : Nat} {s m : Store} {c head next : CellId} {g : HeapId} {tag : Tag} (ha : s.active = some g)
    (hc : s.state c = .suspended (.cycleStart origin (.cell source)))
    (hx : Reads p (depth + 1) g (s.began c g (.cycleStart origin (.cell source))).tagged source
      (.cons tag (.cell head) (.cell next)) m) : Served p origin source (depth + 2) s c
  /-- The list has another node. -/
  | within {depth : Nat} {s m : Store} {c r y head next : CellId} {g : HeapId} {tag : Tag} (ha : s.active = some g)
    (hc : s.state c = .suspended (.appendNode (.cell r) (.cell y)))
    (hr : Reads p depth g (s.began c g (.appendNode (.cell r) (.cell y))) r (.cons tag (.cell head) (.cell next)) m) :
    Served p origin source (depth + 1) s c
  /-- The list is at its end, so that it is gone over again. -/
  | boundary {depth : Nat} {s m : Store} {c r y : CellId} {g : HeapId} {tag : Tag} (ha : s.active = some g)
    (hc : s.state c = .suspended (.appendNode (.cell r) (.cell y)))
    (hr : Reads p (depth + 2) g (s.began c g (.appendNode (.cell r) (.cell y))) r (.nil tag) m) :
    Served p origin source (depth + 3) s c

theorem Served.suspended (h : Served p origin source depth s c) : ∃ t, s.state c = .suspended t := by
  cases h with
  | start _ hc | within _ hc | boundary _ hc => exact ⟨_, hc⟩

namespace Store

/-- The thunk of a cell that belongs to a repetition: a lap, or the concatenation of what is left of the list with a
lap. -/
inductive Part (s : Store) (origin source : CellId) : Thunk → Prop
  | lap {t : Thunk} (ht : t.IsLapOf origin source) : Part s origin source t
  | rest {l : List CellId} {r y : CellId} {t : Thunk} (hr : s.Begins source l r)
    (hy : s.initial? y = some (.suspended t)) (ht : t.IsLapOf origin source) :
    Part s origin source (.appendNode (.cell r) (.cell y))

/-- A repetition of which so many positions were read forces cells that belong to it, and cells of the list that come no
later. -/
def Spent (s : Store) (origin source : CellId) (n : Nat) (z : CellId × Thunk) : Prop :=
  s.Part origin source z.2 ∨ ∃ l, s.Begins source l z.1 ∧ l.length < n

/-- How far a repetition has been read, with the heads that were read and the cell at which it has come to stand: it is
its origin; or the list was gone through so many times, and read from its beginning on so far, and what is left of it is
to be concatenated with the next lap. -/
inductive Repeats (s : Store) (origin source : CellId) : List CellId → CellId → Prop
  | fresh (hc : s.state origin = .suspended (.cycleStart origin (.cell source))) : Repeats s origin source [] origin
  | within {full l : List CellId} {n : Nat} {r c y : CellId} {tag : Tag} (hx : s.Begins source l r) (hl : l ≠ [])
    (hfull : n ≠ 0 → s.Lists source full) (hspine : s.Begins origin ((List.replicate n full).flatten ++ l) c)
    (hc : s.state c = .suspended (.appendNode (.cell r) (.cell y)))
    (hy : s.state y = .suspended (.sharedLap tag (.cell source) (.cell origin))) :
    Repeats s origin source ((List.replicate n full).flatten ++ l) c

namespace Repeats

theorem begins (h : s.Repeats origin source l c) : s.Begins origin l c := by
  cases h with
  | fresh => exact .here origin
  | within _ _ _ hspine => exact hspine

theorem ends (h : s.Repeats origin source l c) : s.Ends c := by
  cases h with
  | fresh hc => exact ends_of_suspended hc
  | within _ _ _ _ hc => exact ends_of_suspended hc

theorem kept {a a' : Moment} (ha : a.Sound) (h : a.store.Repeats origin source l c) (hnext : Moment.Leads a a')
    (hsame : ∀ d, a.store.Outstanding origin d → a'.store.state d = a.store.state d) :
    a'.store.Repeats origin source l c := by
  cases h with
  | fresh hc =>
    have hthunk := congrArg CellState.thunk? hc
    exact .fresh ((hsame origin (.here (.here origin) hthunk)).trans hc)
  | within hx hl hfull hspine hc hy =>
    have hthunk := congrArg CellState.thunk? hc
    exact .within (hnext.begins ha hx) hl (fun hn => hnext.lists ha (hfull hn)) (hnext.begins ha hspine)
      ((hsame c (.here hspine hthunk)).trans hc) ((hsame _ (.next hspine hthunk)).trans hy)

end Repeats

theorem Part.leads {a a' : Moment} (h : a.store.Part origin source t) (ha : a.Sound) (hleads : Moment.Leads a a') :
    a'.store.Part origin source t := by
  cases h with
  | lap ht => exact .lap ht
  | rest hr hy ht => exact .rest (hleads.begins ha hr) (hleads.initial? hy) ht

theorem Spent.leads {a a' : Moment} {i j : Nat} {z : CellId × Thunk} (h : a.store.Spent origin source i z) (ha : a.Sound)
    (hleads : Moment.Leads a a') (hle : i ≤ j) : a'.store.Spent origin source j z := by
  obtain hpart | ⟨l, hl, hlt⟩ := h
  · exact .inl (hpart.leads ha hleads)
  · exact .inr ⟨l, hleads.begins ha hl, Nat.lt_of_lt_of_le hlt hle⟩

end Store

/-! ## A force of a cell of the repetition -/

/-- What is so after a force of a cell of a repetition, where these heads were read before: it came to a node, the
repetition goes on from its tail, and the forces that were made for it are accounted for. -/
structure Recurred (origin source : CellId) (s : Store) (l : List CellId) (result : EStateM.Result Halt Store Value) :
    Prop where
  node : ∃ tag head next e, result = .ok (.cons tag (.cell head) (.cell next)) e
  repeats : ∃ head c, (Run.finalStore result).Repeats origin source (l ++ [head]) c
  spent : ∃ new, (Run.finalStore result).begun = new ++ s.begun ∧
    ∀ z ∈ new, (Run.finalStore result).Spent origin source (l.length + 1) z

/-- A lap over a list that comes to a node. -/
theorem force_lap_of_reads {head next : CellId} {tag lap : Tag} (hs : Moment.Sound ⟨s, k⟩) (ha : s.active = some g)
    (hc : s.state c = .suspended t)
    (hproduce : t.produce p (p.runAt (depth + 1)) (s.began c g t) =
      Cycle.lap (p.runAt (depth + 1)) (.cell source) (.sharedLap lap (.cell source) (.cell origin)) b)
    (hb : (s.began c g t).Runs b) (hbegun : b.begun = (c, t) :: s.begun)
    (hx : Reads p (depth + 1) g b source (.cons tag (.cell head) (.cell next)) m) :
    ∃ mark q y e, force (p.runAt (depth + 2)) c s = .ok (.cons mark (.cell head) (.cell q)) e ∧
      Joined g source c y (.sharedLap lap (.cell source) (.cell origin)) e mark head q ∧
      ∃ read, e.begun = ((y + 1, .appendNode (.cell source) (.cell y)) :: (read ++ [(c, t)])) ++ s.begun ∧
        ∀ z ∈ read, z.1 = source := by
  have hu := running_of_runs hs hc (hb.trans (runs_of_force_ok hx.force))
  have hnext : Store.OnlyCells (Thunk.sharedLap lap (.cell source) (.cell origin)).refs :=
    Store.onlyCells_pair source origin
  obtain ⟨mark, q, y, e, hforce, hjoined, v, w, hhistory⟩ :=
    force_lap_of_serves ha hc hnext hproduce hx.force hx.serves hu
  obtain ⟨read, hm, hread⟩ := hx.alone
  refine ⟨mark, q, y, e, hforce, hjoined, read, ?_, hread⟩
  have he : e.begun = (y + 1, .appendNode (.cell source) (.cell y)) :: m.begun := by
    unfold Store.begun
    rw [hhistory]
    rfl
  rw [he, hm, hbegun]
  simp

/-- What a lap forces is accounted for. -/
theorem Joined.spent {head q : CellId} {mark lap : Tag} {read : List (CellId × Thunk)}
    (h : Joined g source c y (.sharedLap lap (.cell source) (.cell origin)) m mark head q) (hm : Moment.Sound ⟨m, k⟩)
    (hread : ∀ z ∈ read, z.1 = source) (ht : t.IsLapOf origin source) (hn : 0 < n) (d : CellId) :
    ∀ z ∈ (y + 1, .appendNode (.cell source) (.cell y)) :: (read ++ [(d, t)]), m.Spent origin source n z := by
  intro z hz
  rcases List.mem_cons.1 hz with rfl | hz
  · exact .inl (.rest (.here source) (hm.of_suspended h.next).1 (.inr ⟨lap, rfl⟩))
  · rcases List.mem_append.1 hz with hz | hz
    · exact .inr ⟨[], (hread z hz).symm ▸ .here source, hn⟩
    · obtain rfl := List.mem_singleton.1 hz
      exact .inl (.lap ht)

namespace Served

theorem recurred_start {head next : CellId} {tag : Tag} (hs : Moment.Sound ⟨s, k⟩) (ha : s.active = some g)
    (hc : s.state origin = .suspended (.cycleStart origin (.cell source)))
    (hx : Reads p (depth + 1) g (s.began origin g (.cycleStart origin (.cell source))).tagged source
      (.cons tag (.cell head) (.cell next)) m) :
    Recurred origin source s [] (force (p.runAt (depth + 2)) origin s) := by
  obtain ⟨mark, q, y, e, hforce, hjoined, read, hbegun, hread⟩ :=
    force_lap_of_reads hs ha hc rfl (.of_step (.freshTag _)) rfl hx
  obtain ⟨tag', r, hsource, hq⟩ := hjoined.list
  have he := hs.leads (runs_of_force_ok hforce k)
  have hspine : e.Begins origin ((List.replicate 0 []).flatten ++ [head]) q := .node hjoined.node (.here q)
  rw [hforce]
  refine ⟨⟨_, _, _, _, rfl⟩, ⟨head, q, ?_⟩, _, hbegun, hjoined.spent he hread (.inl rfl) (Nat.succ_pos _) origin⟩
  exact .within (.node hsource (.here r)) (by simp) (fun h => absurd rfl h) hspine hq hjoined.next

section Rest
variable {tag lap : Tag} (hs : Moment.Sound ⟨s, k⟩) (hx : s.Begins source l r) (hl : l ≠ [])
  (hfull : n ≠ 0 → s.Lists source full) (hspine : s.Begins origin ((List.replicate n full).flatten ++ l) c)
  (ha : s.active = some g) (hc : s.state c = .suspended (.appendNode (.cell r) (.cell y)))
  (hy : s.state y = .suspended (.sharedLap lap (.cell source) (.cell origin)))

include hx hl hc in
/-- The first node of the list was read before. -/
theorem source_began (t : Thunk) : ∃ tag head next,
    (s.began c g t).state source = .evaluated (.cons tag (.cell head) (.cell next)) := by
  cases hx with
  | here => exact absurd rfl hl
  | node hsource =>
    refine ⟨_, _, _, (Store.state_began_of_ne s ?_ g t).trans hsource⟩
    rintro rfl
    cases hsource.symm.trans hc

include hs hx hl hc hy in
/-- While the list is read further, the next lap waits. -/
theorem waits (hr : Reads p depth g (s.began c g (.appendNode (.cell r) (.cell y))) r v m) :
    m.state y = .suspended (.sharedLap lap (.cell source) (.cell origin)) := by
  have hyc : y ≠ c := by
    rintro rfl
    cases hy.symm.trans hc
  have hyb := (Store.state_began_of_ne s hyc g (.appendNode (.cell r) (.cell y))).trans hy
  obtain ⟨_, _, _, hsource⟩ := source_began (g := g) hx hl hc (.appendNode (.cell r) (.cell y))
  exact hr.waits (hs.force hc) hyb (hr.ne_lap (hs.force hc) hsource hyb)

include hs hx hy in
theorem spent_rest {read : List (CellId × Thunk)} (hleads : Moment.Leads ⟨s, k⟩ ⟨e, k⟩) (hread : ∀ z ∈ read, z.1 = r)
    (before : List CellId) (c : CellId) : ∀ z ∈ read ++ [(c, .appendNode (.cell r) (.cell y))],
      e.Spent origin source ((before ++ l).length + 1) z := by
  intro z hz
  have hxe := hleads.begins hs hx
  rcases List.mem_append.1 hz with hz | hz
  · refine .inr ⟨l, hread z hz ▸ hxe, ?_⟩
    rw [List.length_append]
    omega
  · obtain rfl := List.mem_singleton.1 hz
    exact .inl (.rest hxe (hleads.initial? (hs.of_suspended hy).1) (.inr ⟨lap, rfl⟩))

include hs hx hl hfull hspine ha hc hy

theorem recurred_within {head next : CellId}
    (hr : Reads p depth g (s.began c g (.appendNode (.cell r) (.cell y))) r (.cons tag (.cell head) (.cell next)) m) :
    Recurred origin source s ((List.replicate n full).flatten ++ l) (force (p.runAt (depth + 1)) c s) := by
  have hym := waits hs hx hl hc hy hr
  obtain ⟨mark, q, e, hforce, hjoined, hhistory⟩ := force_append_of_serves hs ha hc hr.force hr.serves hym
  obtain ⟨tag', next', hre, hq⟩ := hjoined.list
  have hleads := runs_of_force_ok hforce k
  obtain ⟨read, hbegun, hread⟩ := hr.alone
  have hspine' := (hleads.begins hs hspine).snoc hjoined.node
  rw [hforce]
  refine ⟨⟨_, _, _, _, rfl⟩, ⟨head, q, ?_⟩, read ++ [(c, .appendNode (.cell r) (.cell y))], ?_,
    spent_rest hs hx hy hleads hread _ c⟩
  · rw [List.append_assoc] at hspine' ⊢
    exact .within ((hleads.begins hs hx).snoc hre) (by simp) (fun hn => hleads.lists hs (hfull hn)) hspine' hq hjoined.next
  · rw [List.append_assoc]
    exact (Store.begun_cons hhistory rfl).trans hbegun

omit hfull hspine in
/-- At the end of the list the next lap finds its first node as it was left. -/
theorem force_boundary_of_reads
    (hr : Reads p (depth + 2) g (s.began c g (.appendNode (.cell r) (.cell y))) r (.nil tag) m) :
    ∃ mark head q y' e, force (p.runAt (depth + 3)) c s = .ok (.cons mark (.cell head) (.cell q)) e ∧
      Joined g source c y' (.sharedLap lap (.cell source) (.cell origin)) e mark head q ∧
      e.state r = .evaluated (.nil tag) ∧
      ∃ lapped, e.begun = lapped ++ m.begun ∧ ∀ i, 0 < i → ∀ z ∈ lapped, e.Spent origin source i z := by
  let u := Thunk.sharedLap lap (.cell source) (.cell origin)
  have hbegan := hs.force (h := g) hc
  have hfirst := runs_of_force_ok hr.force
  have hym : m.state y = .suspended u := waits hs hx hl hc hy hr
  obtain ⟨_, _, _, hsource⟩ := source_began (g := g) hx hl hc (.appendNode (.cell r) (.cell y))
  have hsm := (hfirst (.force c g :: k)).evaluated hbegan hsource (by simp)
  have hsy : source ≠ y := by
    rintro rfl
    cases hsm.symm.trans hym
  have hrefs : Store.OnlyCells (CellState.inProgress u).refs := Store.onlyCells_pair source origin
  have hserves : (m.began y g u).Serves g := (hr.serves.setState y hrefs).recorded _
  have hm := hbegan.leads (hfirst (.force c g :: k))
  obtain ⟨mark, q, y', e', hlap, hjoined, read, hbegun, hread⟩ := force_lap_of_reads hm hr.serves.active hym rfl
    (.refl _) rfl (.evaluated ((Store.state_began_of_ne m hsy g u).trans hsm) hserves)
  obtain ⟨e, hforce, hserves', hother, hhistory⟩ := force_of_serves ha hc
    ((Sequence.appendNode_of_nil hr.force).trans hlap) hjoined.serves (Store.onlyCells_pair _ q)
  have hsecond := runs_of_force_ok hlap
  have hu := running_of_runs hs hc (hfirst.trans hsecond)
  have hre := (hsecond (.force c g :: k)).evaluated hm (force_ok_state hr.force) (by simp)
  have hhanded := hjoined.hand hu hserves' hother (force_ok_state hforce)
  have he := hs.leads (runs_of_force_ok hforce k)
  exact ⟨mark, _, q, y', e, hforce, hhanded, (hother r (Store.ne_of_running hu hre (by simp))).trans hre, _,
    (Store.begun_cons hhistory rfl).trans hbegun, fun i hi => hhanded.spent he hread (.inr ⟨lap, rfl⟩) hi y⟩

theorem recurred_boundary
    (hr : Reads p (depth + 2) g (s.began c g (.appendNode (.cell r) (.cell y))) r (.nil tag) m) :
    Recurred origin source s ((List.replicate n full).flatten ++ l) (force (p.runAt (depth + 3)) c s) := by
  obtain ⟨mark, head, q, y', e, hforce, hjoined, hre, lapped, hbegun, hlapped⟩ :=
    force_boundary_of_reads hs hx hl ha hc hy hr
  have hleads := runs_of_force_ok hforce k
  have hlists : e.Lists source l := ⟨r, tag, hleads.begins hs hx, hre⟩
  have hrepeated : (List.replicate n full).flatten ++ l = (List.replicate (n + 1) l).flatten := by
    by_cases hn : n = 0
    · simp [hn]
    · rw [(hleads.lists hs (hfull hn)).unique hlists, List.replicate_succ', List.flatten_append]
      simp
  have hspine' := (hleads.begins hs hspine).snoc hjoined.node
  obtain ⟨read, hread, hrest⟩ := hr.alone
  obtain ⟨tag', r', hx', hq⟩ := hjoined.list
  rw [hforce]
  refine ⟨⟨_, _, _, _, rfl⟩, ⟨head, q, ?_⟩, lapped ++ (read ++ [(c, .appendNode (.cell r) (.cell y))]), ?_, fun z hz => ?_⟩
  · rw [hrepeated] at hspine' ⊢
    exact .within (.node hx' (.here r')) (by simp) (fun _ => hlists) hspine' hq hjoined.next
  · rw [List.append_assoc, List.append_assoc]
    exact hbegun.trans (congrArg (lapped ++ ·) hread)
  · rcases List.mem_append.1 hz with hz | hz
    · exact hlapped _ (Nat.succ_pos _) z hz
    · exact spent_rest hs hx hy hleads hrest _ c z hz

end Rest

/-- **A force of a cell of a repetition, in which all goes well with the list, reads one more position of it.** -/
theorem recurred (hs : Moment.Sound ⟨s, k⟩) (hl : s.Repeats origin source l d) {l' : List CellId} (hc : s.Begins origin l' c)
    (h : Served p origin source depth s c) : Recurred origin source s l (force (p.runAt depth) c s) := by
  -- the cell waits, so it is the one at which the repetition has come to stand
  obtain ⟨t, ht⟩ := h.suspended
  obtain ⟨-, rfl⟩ := hl.begins.end_unique hl.ends hc (Store.ends_of_suspended ht)
  cases h with
  | start ha hstart hx =>
    cases hl with
    | fresh => exact recurred_start hs ha hstart hx
    | within _ _ _ _ hc' => cases hc'.symm.trans hstart
  | within ha happend hr =>
    cases hl with
    | fresh hc' => cases hc'.symm.trans happend
    | within hx hne hfull hspine hc' hy =>
      cases hc'.symm.trans happend
      exact recurred_within hs hx hne hfull hspine ha hc' hy hr
  | boundary ha happend hr =>
    cases hl with
    | fresh hc' => cases hc'.symm.trans happend
    | within hx hne hfull hspine hc' hy =>
      cases hc'.symm.trans happend
      exact recurred_boundary hs hx hne hfull hspine ha hc' hy hr

end Served
/-! ## What is done beside a repetition -/

/-- What can be done beside a repetition, with the forces that it made so far, latest first: any of its cells is forced,
be it by a consumer, by a thunk that is running, or by anyone else; or anything else happens that leaves the cells alone
with which it goes on. -/
inductive Beside (p : Program) (origin source : CellId) :
    List (CellId × Thunk) × Moment → List (CellId × Thunk) × Moment → Prop
  | demanded {s : Store} {k : List Frame} {fs new : List (CellId × Thunk)} {l : List CellId} {c : CellId} {depth : Nat}
    (hc : s.Begins origin l c) (h : Served p origin source depth s c)
    (hnew : (Run.finalStore (force (p.runAt depth) c s)).begun = new ++ s.begun) :
    Beside p origin source (fs, ⟨s, k⟩) (new ++ fs, ⟨Run.finalStore (force (p.runAt depth) c s), k⟩)
  | other {m m' : Moment} {fs : List (CellId × Thunk)} (hnext : m.Next m')
    (hsame : ∀ d, m.store.Outstanding origin d → m'.store.state d = m.store.state d) :
    Beside p origin source (fs, m) (fs, m')

/-- What is known of a repetition at a moment, with the heads that were read of it and the forces that it made. -/
structure Known (origin source : CellId) (l : List CellId) (c : CellId) (a : List (CellId × Thunk) × Moment) : Prop where
  sound : a.2.Sound
  repeats : a.2.store.Repeats origin source l c
  begun : a.1.Sublist a.2.store.begun
  spent : ∀ z ∈ a.1, a.2.store.Spent origin source l.length z

theorem Beside.known {a a' : List (CellId × Thunk) × Moment} (h : Beside p origin source a a')
    (ha : Known origin source l c a) : ∃ l' c', Known origin source l' c' a' := by
  obtain ⟨hsound, hrepeats, hsub, hspent⟩ := ha
  cases h with
  | @demanded s k fs new _ c' depth hc h hnew =>
    obtain ⟨⟨_, _, _, e, hforce⟩, ⟨head, d, hrepeats'⟩, new', hbegun, hnew'⟩ := h.recurred hsound hrepeats hc
    obtain rfl := List.append_cancel_right (hnew.symm.trans hbegun)
    have hleads := runs_of_force_ok hforce k
    rw [hforce] at hrepeats' hnew hnew' ⊢
    refine ⟨_, d, hsound.leads hleads, hrepeats', ?_, fun z hz => ?_⟩
    · show (new ++ fs).Sublist e.begun
      rw [show e.begun = new ++ s.begun from hnew]
      exact hsub.append_left new
    · rw [List.length_append]
      rcases List.mem_append.1 hz with hz | hz
      · exact hnew' z hz
      · exact (hspent z hz).leads hsound hleads (Nat.le_succ _)
  | @other m m' fs hnext hsame =>
    have hleads : Moment.Leads m m' := .single hnext
    exact ⟨l, c, hsound.next hnext, hrepeats.kept hsound hleads hsame, hsub.trans hleads.begun.sublist,
      fun z hz => (hspent z hz).leads hsound hleads (Nat.le_refl _)⟩

theorem known_of_beside {a a' : List (CellId × Thunk) × Moment} (h : Relation.ReflTransGen (Beside p origin source) a a')
    (ha : Known origin source l c a) : ∃ l' c', Known origin source l' c' a' := by
  induction h with
  | refl => exact ⟨l, c, ha⟩
  | tail _ hstep ih =>
    obtain ⟨l', c', hknown⟩ := ih
    exact hstep.known hknown

/-- A list that goes through another one so many times, and then through its beginning. -/
theorem getElem?_laps {α : Type} {full l : List α} (hl : l <+: full) (n : Nat) {i : Nat}
    (hi : i < ((List.replicate n full).flatten ++ l).length) :
    ((List.replicate n full).flatten ++ l)[i]? = full[i % full.length]? := by
  induction n generalizing i with
  | zero =>
    obtain ⟨more, rfl⟩ := hl
    have hlt : i < l.length := by simpa using hi
    rw [Nat.mod_eq_of_lt (by rw [List.length_append]; omega), List.getElem?_append_left hlt]
    simp
  | succ n ih =>
    rw [List.replicate_succ, List.flatten_cons, List.append_assoc] at hi ⊢
    rcases Nat.lt_or_ge i full.length with hlt | hge
    · rw [List.getElem?_append_left hlt, Nat.mod_eq_of_lt hlt]
    · rw [List.length_append] at hi
      rw [List.getElem?_append_right hge, ih (by omega), Nat.mod_eq_sub_mod hge]

namespace Store.Repeats

theorem getElem? (h : s.Repeats origin source l c) (hfull : s.Lists source full) {i : Nat} (hi : i < l.length) :
    l[i]? = full[i % full.length]? := by
  cases h with
  | fresh => exact absurd hi (Nat.not_lt_zero i)
  | @within full' l n _ _ _ _ hx _ hfull' =>
    by_cases hn : n = 0
    · subst hn
      exact getElem?_laps (hfull.isPrefix hx) 0 hi
    · obtain rfl := hfull.unique (hfull' hn)
      exact getElem?_laps (hfull.isPrefix hx) n hi

/-- The first lap reads the list. -/
theorem read (h : s.Repeats origin source l c) : (∃ r, s.Begins source l r) ∨ ∃ full, s.Lists source full := by
  cases h with
  | fresh => exact .inl ⟨source, .here source⟩
  | @within full l n r _ _ _ hx _ hfull =>
    by_cases hn : n = 0
    · subst hn
      exact .inl ⟨r, hx⟩
    · exact .inr ⟨full, hfull hn⟩

end Store.Repeats

/-- **A shared repetition has the heads of its list, over and over, and evaluates the list once.**  Take the shared
repetition of any cell of any program, and anything that is done beside it once it is made: its cells are forced, in any
order and by whomever, where the list comes to nodes, forces nothing but its own cells, and leaves the heap active; or
anything else happens that leaves the cells alone with which the repetition goes on.  The forces that the repetition made
are `fs`.  Then no cell was forced twice.  The heads of the repetition, as far as it was read, are what was read of the
list, and once the list was read to its end, the head at position `i` is the very cell at position `i` modulo the length
of the list.  A node that was read is there for good, and the next force, if all goes well with the list, comes to a node.
What the repetition forced is its own cells and cells of the list, and of these, if `n` is the last position that was
read, none after position `n`, nor after the end of the list; so no head is forced for its own sake. -/
theorem laps_share_list (p : Program) {origin source : CellId} {s₀ e₀ : Store} {k₀ : List Frame}
    (hreached : Moment.Leads ⟨{}, []⟩ ⟨s₀, k₀⟩) (hmade : Cycle.shared (.cell source) s₀ = .ok origin e₀)
    {fs : List (CellId × Thunk)} {m : Moment}
    (h : Relation.ReflTransGen (Beside p origin source) ([], ⟨e₀, k₀⟩) (fs, m)) :
    fs.Sublist m.store.begun ∧ (m.store.begun.map Prod.fst).Nodup ∧ ∃ l c,
      (m.store.Begins origin l c ∧ ∀ l' c', m.store.Begins origin l' c' →
        l' <+: l ∧ (c' = c ∨ ∃ v, ∀ run, force run c' m.store = .ok v m.store)) ∧
      ((∃ r, m.store.Begins source l r) ∨ ∃ full, m.store.Lists source full) ∧
      (∀ full, m.store.Lists source full → ∀ i < l.length, l[i]? = full[i % full.length]?) ∧
      (∀ depth l' c', m.store.Begins origin l' c' → Served p origin source depth m.store c' →
        c' = c ∧ ∃ tag head next e, force (p.runAt depth) c' m.store = .ok (.cons tag (.cell head) (.cell next)) e) ∧
      ∀ d t, (d, t) ∈ fs → m.store.Part origin source t ∨ ∃ l', m.store.Begins source l' d ∧ l'.length < l.length ∧
        ∀ full, m.store.Lists source full → l'.length ≤ full.length := by
  obtain ⟨g, m₀, hactive, hnew⟩ := Run.bind_eq_ok hmade
  obtain ⟨ha, rfl⟩ := Run.activeHeap_ok hactive
  cases hnew
  have hfresh := Store.Repeats.fresh (Store.state_register_new m₀ g (.suspended (.cycleStart m₀.cells.size (.cell source))))
  have hsound : Moment.Sound ⟨m₀.register g (.suspended (.cycleStart m₀.cells.size (.cell source))), k₀⟩ :=
    (Moment.sound_start.leads hreached).change (.newCell m₀ g _ ha)
  obtain ⟨l, c, hsound, hrepeats, hsub, hspent⟩ :=
    known_of_beside h ⟨hsound, hfresh, List.nil_sublist _, fun _ hz => absurd hz List.not_mem_nil⟩
  refine ⟨hsub, hsound.nodup_begun, l, c, ⟨hrepeats.begins, fun l' c' hc' => ?_⟩, hrepeats.read,
    fun full hfull i hi => hrepeats.getElem? hfull hi, fun depth l' c' hc' hd => ?_, fun d t hz => ?_⟩
  · obtain ⟨more, hmore, hrest⟩ := hc'.rest hrepeats.begins hrepeats.ends
    refine ⟨⟨more, hmore.symm⟩, ?_⟩
    cases hrest with
    | here => exact .inl rfl
    | node hx => exact .inr ⟨_, force_evaluated hx⟩
  · obtain ⟨t, ht⟩ := hd.suspended
    exact ⟨(hrepeats.begins.end_unique hrepeats.ends hc' (Store.ends_of_suspended ht)).2.symm,
      (hd.recurred hsound hrepeats hc').node⟩
  · obtain hpart | ⟨l', hl', hlt⟩ := hspent _ hz
    · exact .inl hpart
    · exact .inr ⟨l', hl', hlt, fun full hfull => (hfull.isPrefix hl').length_le⟩

namespace Recurring
open Run Supplying

/-- Opens a heap, and makes a list of two integers on it. -/
def opens : Run CellId := do
  enter (← newHeap {})
  Sequence.between (.int 7) (.int 8)

/-- A heap with a list of two integers, -/
def opened : Store := finalStore (opens {})

/-- with the shared repetition of the list, -/
def made : Store := finalStore (Cycle.shared (.cell 0) opened)

/-- of which the first position is read, -/
def first : Store := finalStore (force (Program.runAt [] 2) 1 made)

/-- the second, -/
def second : Store := finalStore (force (Program.runAt [] 2) 6 first)

/-- and the third, which is the first of the next lap. -/
def third : Store := finalStore (force (Program.runAt [] 3) 9 second)

/-- The forces that have begun from one store to the other. -/
def since (s e : Store) : List (CellId × Thunk) := e.begun.take (e.begun.length - s.begun.length)

theorem begun_force (depth : Nat) (c : CellId) (s : Store) :
    (finalStore (force (Program.runAt [] depth) c s)).begun =
      since s (finalStore (force (Program.runAt [] depth) c s)) ++ s.begun := by
  obtain ⟨more, hleads⟩ := (follows_force (Program.follows_runAt [] depth) c s).reaches []
  exact (List.suffix_iff_eq_append.1 hleads.begun).symm

/-- Whether a cell is read alone, to the end of the list or not. -/
def reads (depth : Nat) (s : Store) (x : CellId) (atEnd : Bool) : Bool :=
  let read := force (Program.runAt [] depth) x s
  let e := finalStore read
  ended? read == some atEnd && (since s e).all (·.1 == x) && e.active == some 0 && decide (0 < e.heaps.size) &&
    (e.heap 0).samplesForces.truth? == some false

theorem reads_of_eq_true {atEnd : Bool} (h : reads depth s x atEnd = true) :
    ∃ v m, Reads [] depth 0 s x v m ∧ v.ListNode ∧ (atEnd = true ↔ ∃ tag, v = .nil tag) := by
  unfold reads at h
  simp only [Bool.and_eq_true, beq_iff_eq, decide_eq_true_eq, List.all_eq_true] at h
  obtain ⟨⟨⟨⟨hread, halone⟩, hactive⟩, hvalid⟩, hquiet⟩ := h
  obtain ⟨v, hv, hnode, hend⟩ := eq_ok_of_ended? hread
  refine ⟨v, _, ⟨hv, ⟨_, begun_force depth x s, halone⟩, hactive, hvalid, ⟨false, hquiet⟩, ?_⟩, hnode,
    hend, ?_⟩
  · rw [hquiet]
    exact fun h => by cases h
  · rintro ⟨tag, rfl⟩
    rw [hv] at hread
    cases hread
    rfl

theorem reads_node (h : reads depth s x false = true) :
    ∃ tag head next m, Reads [] depth 0 s x (.cons tag (.cell head) (.cell next)) m := by
  obtain ⟨v, m, hreads, hnode, hend⟩ := reads_of_eq_true h
  cases hnode with
  | node tag head next => exact ⟨tag, head, next, m, hreads⟩
  | done tag => cases hend.2 ⟨tag, rfl⟩

theorem reads_end (h : reads depth s x true = true) : ∃ tag m, Reads [] depth 0 s x (.nil tag) m := by
  obtain ⟨v, m, hreads, -, hend⟩ := reads_of_eq_true h
  obtain ⟨tag, rfl⟩ := hend.1 rfl
  exact ⟨tag, m, hreads⟩

theorem beside_third : ∃ fs, Relation.ReflTransGen (Beside [] 1 0) ([], ⟨made, []⟩) (fs, ⟨third, []⟩) := by
  have hfirst : Served [] 1 0 2 made 1 := by
    let b := (made.began 1 0 (.cycleStart 1 (.cell 0))).tagged
    obtain ⟨_, _, _, _, hx⟩ := reads_node (show reads 1 b 0 false = true by decide +kernel)
    exact .start (by decide +kernel) rfl hx
  have hsecond : Served [] 1 0 2 first 6 := by
    let b := first.began 6 0 (.appendNode (.cell 3) (.cell 4))
    obtain ⟨_, _, _, _, hr⟩ := reads_node (show reads 1 b 3 false = true by decide +kernel)
    exact .within (by decide +kernel) (eq_of_append? (by decide +kernel)) hr
  have hthird : Served [] 1 0 3 second 9 := by
    let b := second.began 9 0 (.appendNode (.cell 8) (.cell 4))
    obtain ⟨_, _, hr⟩ := reads_end (show reads 2 b 8 true = true by decide +kernel)
    exact .boundary (by decide +kernel) (eq_of_append? (by decide +kernel)) hr
  obtain ⟨_, hone⟩ := eq_of_node? (show node? (first.state 1) = some (2, 6) by decide +kernel)
  obtain ⟨_, hone'⟩ := eq_of_node? (show node? (second.state 1) = some (2, 6) by decide +kernel)
  obtain ⟨_, htwo⟩ := eq_of_node? (show node? (second.state 6) = some (7, 9) by decide +kernel)
  have hreadOne : Beside [] 1 0 ([], ⟨made, []⟩) (since made first ++ [], ⟨first, []⟩) :=
    .demanded (.here 1) hfirst (begun_force 2 1 made)
  have hreadTwo : ∀ fs, Beside [] 1 0 (fs, ⟨first, []⟩) (since first second ++ fs, ⟨second, []⟩) := fun _ =>
    .demanded (.node hone (.here 6)) hsecond (begun_force 2 6 first)
  have hreadThree : ∀ fs, Beside [] 1 0 (fs, ⟨second, []⟩) (since second third ++ fs, ⟨third, []⟩) := fun _ =>
    .demanded (.node hone' (.node htwo (.here 9))) hthird (begun_force 3 9 second)
  exact ⟨_, .head hreadOne (.head (hreadTwo _) (.single (hreadThree _)))⟩

end Recurring

open Recurring in
/-- The third position of a repetition of two elements has the first head. -/
theorem laps_share_list_two :
    Moment.Leads ⟨{}, []⟩ ⟨opened, []⟩ ∧ Cycle.shared (.cell 0) opened = .ok 1 made ∧ third.Lists 0 [2, 7] ∧
    ∃ fs, Relation.ReflTransGen (Beside [] 1 0) ([], ⟨made, []⟩) (fs, ⟨third, []⟩) ∧ (fs.map Prod.fst).Nodup ∧
      ∃ l c, third.Begins 1 l c ∧ 2 < l.length ∧ l[2]? = some 2 := by
  have hopens : Run.Follows opens :=
    Run.follows_bind (Run.follows_newHeap _ _ _) fun h => Run.follows_bind (Run.follows_enter h) fun _ =>
      Sequence.follows_between _ _
  have hreached : Moment.Leads ⟨{}, []⟩ ⟨opened, []⟩ := hopens {} []
  have hmade : Cycle.shared (.cell 0) opened = .ok 1 made := rfl
  obtain ⟨_, hzero⟩ := Supplying.eq_of_node? (show Supplying.node? (third.state 0) = some (2, 3) by decide +kernel)
  obtain ⟨_, hthree⟩ := Supplying.eq_of_node? (show Supplying.node? (third.state 3) = some (7, 8) by decide +kernel)
  obtain ⟨tag, hend⟩ := Supplying.eq_of_ended (show Supplying.ended (third.state 8) = true by decide +kernel)
  have hlists : third.Lists 0 [2, 7] := ⟨8, tag, .node hzero (.node hthree (.here 8)), hend⟩
  obtain ⟨_, hone⟩ := Supplying.eq_of_node? (show Supplying.node? (third.state 1) = some (2, 6) by decide +kernel)
  obtain ⟨_, hsix⟩ := Supplying.eq_of_node? (show Supplying.node? (third.state 6) = some (7, 9) by decide +kernel)
  obtain ⟨_, hnine⟩ := Supplying.eq_of_node? (show Supplying.node? (third.state 9) = some (2, 12) by decide +kernel)
  obtain ⟨fs, hbeside⟩ := beside_third
  obtain ⟨hsub, hnodup, l, c, ⟨hl, hread⟩, -, hheads, -⟩ := laps_share_list [] hreached hmade hbeside
  dsimp only at hsub hnodup hl hread hheads
  have hlt : 2 < l.length := (hread [2, 7, 2] 12 (.node hone (.node hsix (.node hnine (.here 12))))).1.length_le
  exact ⟨hreached, hmade, hlists, fs, hbeside, hnodup.sublist (hsub.map Prod.fst), l, c, hl, hlt, hheads [2, 7] hlists 2 hlt⟩

end Retention
