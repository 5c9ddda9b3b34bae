import Retention.Proofs.Memoization
/-!
# Reentrance — which cells are in progress

The history tells which runs of thunks have begun and not ended: a run that begins is put on a stack, and the end of a
run takes the latest off (`Turn.pending`).  The cells on that stack are those whose thunks are being run by a force
(`Store.forcing`).  `Moment.Leads.pending` compares the stack with the one that transitions carry along, so that all
that holds of a moment can be read off its store.

A cell that was made suspended is in progress only while a force of it is pending (`Moment.Owned`).  With the converse,
which every sound moment has, the cells in progress are those on the stack, but for the ones that were made in progress.
So a force is refused for being reentrant exactly if its cell is on the stack.
-/
namespace Retention

/-- The owners of the runs that have begun and not ended, latest first, by the turns that were taken, latest first. -/
def Turn.pending : List Turn → List (Option CellId)
  | [] => []
  | .began owner _ _ :: turns => owner :: pending turns
  | .returned _ _ :: turns => (pending turns).tail
  | .raised _ _ :: turns => (pending turns).tail

namespace Store

/-- The cells whose thunks are being run by a force, latest first. -/
def forcing (s : Store) : List CellId := (Turn.pending s.history).filterMap id

/-- A cell that was made in progress: no force put it there. -/
def MadeInProgress (s : Store) (c : CellId) : Prop := ∃ t, s.initial? c = some (.inProgress t)

/-- A force is refused for being reentrant: it raises an error of its own making that names the cell, and no thunk is
run. -/
def Refuses (s : Store) (run : Runner) (c : CellId) : Prop :=
  ∃ x e, force run c s = .error (.raised x) e ∧ s.faults.size ≤ x ∧
    e.raised x = ⟨.reentrantForce (s.address c), [.cell c]⟩ ∧ e.history = s.history

end Store

namespace Moment

/-! ## The stack of pending runs -/

/-- A transition does to the stack of the history what it does to the pending runs. -/
theorem Next.pending {m m' : Moment} (h : Next m m') {rest : List (Option CellId)}
    (hm : Turn.pending m.store.history = m.pending.map Frame.cell? ++ rest) :
    Turn.pending m'.store.history = m'.pending.map Frame.cell? ++ rest := by
  cases h with
  | change k hs => exact (congrArg Turn.pending hs.cells.1).trans hm
  | call s k t => exact congrArg (none :: ·) hm
  | returned s k v => exact congrArg List.tail hm
  | raised s k x => exact congrArg List.tail hm
  | force s k c h t => exact congrArg (some c :: ·) hm
  | finished s k c h v => exact congrArg List.tail hm
  | aborted s k c h x => exact congrArg List.tail hm

/-- **Runs put on the stack of the history what is pending of them, and leave the rest of it alone.** -/
theorem Leads.pending {s : Store} {m : Moment} (h : Leads ⟨s, []⟩ m) :
    Turn.pending m.store.history = m.pending.map Frame.cell? ++ Turn.pending s.history := by
  induction h with
  | refl => rfl
  | tail _ hnext ih => exact hnext.pending ih

theorem forcing_of_leads {m : Moment} (h : Leads ⟨{}, []⟩ m) :
    m.store.forcing = m.pending.filterMap Frame.cell? := by
  have hp : Turn.pending m.store.history = m.pending.map Frame.cell? := h.pending.trans (List.append_nil _)
  rw [Store.forcing, hp, List.filterMap_map]
  rfl

/-! ## Cells in progress -/

/-- A cell that was made suspended is in progress only while its force is pending. -/
def Owned (m : Moment) : Prop :=
  ∀ c t u, m.store.initial? c = some (.suspended t) → m.store.state c = .inProgress u → ∃ h, .force c h ∈ m.pending

theorem owned_start : Owned ⟨{}, []⟩ := fun _ _ _ h => absurd (Store.lt_of_initial? h) (Nat.not_lt_zero _)

theorem Owned.change {s e : Store} {k : List Frame} (hm : Owned ⟨s, k⟩) (h : s.Step e) : Owned ⟨e, k⟩ := by
  intro c t u hi hu
  rcases h.initial?_inv hi with hold | ⟨-, hnew⟩
  · exact hm c t u hold ((h.state (Store.lt_of_initial? hold)).symm.trans hu)
  · rw [hnew] at hu
    cases hu

/-- The end of the latest force takes its cell out of progress, and no other. -/
theorem Owned.ended {s e : Store} {k : List Frame} {c : CellId} {h : HeapId} {x : Turn} {st : CellState}
    (hm : Owned ⟨s, .force c h :: k⟩) (hmoved : s.Moved e c x st) (hst : st.phase ≠ .inProgress) : Owned ⟨e, k⟩ := by
  intro d t u hi hu
  by_cases hdc : d = c
  · subst hdc
    rw [hmoved.state] at hu
    exact absurd (congrArg CellState.phase hu) hst
  · obtain ⟨g, hg⟩ := hm d t u ((hmoved.initial d).symm.trans hi) ((hmoved.stateOther d hdc).symm.trans hu)
    refine ⟨g, (List.mem_cons.1 hg).resolve_left fun heq => ?_⟩
    cases heq
    exact hdc rfl

theorem Owned.next {m m' : Moment} (hs : m.Sound) (hm : m.Owned) (h : Next m m') : m'.Owned := by
  -- a run of no cell's thunk is no force
  have hcall : ∀ {k : List Frame} {c : CellId} {g : HeapId}, .force c g ∈ Frame.call :: k → Frame.force c g ∈ k :=
    fun hg => (List.mem_cons.1 hg).resolve_left fun heq => by cases heq
  cases h with
  | change k hstep => exact hm.change hstep
  | call s k t =>
    intro c u v hi hv
    obtain ⟨g, hg⟩ := hm c u v hi hv
    exact ⟨g, List.mem_cons_of_mem _ hg⟩
  | returned s k v =>
    intro c t u hi hu
    obtain ⟨g, hg⟩ := hm c t u hi hu
    exact ⟨g, hcall hg⟩
  | raised s k x =>
    intro c t u hi hu
    obtain ⟨g, hg⟩ := hm c t u hi hu
    exact ⟨g, hcall hg⟩
  | force s k c h t hsusp =>
    have hmoved := Store.moved_began (s := s) h t (Store.lt_of_suspended hsusp)
    intro d u v hi hv
    by_cases hdc : d = c
    · subst hdc
      exact ⟨h, List.mem_cons_self⟩
    · obtain ⟨g, hg⟩ := hm d u v ((hmoved.initial d).symm.trans hi) ((hmoved.stateOther d hdc).symm.trans hv)
      exact ⟨g, List.mem_cons_of_mem _ hg⟩
  | finished s k c h v =>
    obtain ⟨t, hi, -, -⟩ := hs.running c h List.mem_cons_self
    exact hm.ended (Store.moved_finished h v (Store.lt_of_initial? hi)) (by simp [CellState.phase])
  | aborted s k c h x =>
    obtain ⟨t, hi, -, -⟩ := hs.running c h List.mem_cons_self
    exact hm.ended (Store.moved_aborted x (Store.lt_of_initial? hi)) (by simp [CellState.phase])

theorem owned_of_leads {m : Moment} (h : Leads ⟨{}, []⟩ m) : m.Owned := by
  induction h with
  | refl => exact owned_start
  | tail hleads hnext ih => exact ih.next (sound_start.leads hleads) hnext

theorem mem_forcing_iff {m : Moment} (h : Leads ⟨{}, []⟩ m) (c : CellId) :
    c ∈ m.store.forcing ↔ ∃ g, .force c g ∈ m.pending := by
  rw [forcing_of_leads h, List.mem_filterMap]
  constructor
  · rintro ⟨f, hf, hc⟩
    cases f with
    | call => cases hc
    | force d g => cases hc; exact ⟨g, hf⟩
  · rintro ⟨g, hg⟩
    exact ⟨.force c g, hg, rfl⟩

/-- A cell on the stack was made suspended, and is in progress with its thunk. -/
theorem state_of_forcing {m : Moment} (h : Leads ⟨{}, []⟩ m) {c : CellId} (hc : c ∈ m.store.forcing) :
    ∃ t, m.store.initial? c = some (.suspended t) ∧ m.store.state c = .inProgress t := by
  obtain ⟨g, hg⟩ := (mem_forcing_iff h c).1 hc
  obtain ⟨t, hi, -, hs⟩ := (sound_start.leads h).running c g hg
  exact ⟨t, hi, hs⟩

/-- **At every moment, the cells in progress are those on the stack**, but for the ones that were made in progress. -/
theorem inProgress_iff {m : Moment} (h : Leads ⟨{}, []⟩ m) {c : CellId} (hc : ¬ m.store.MadeInProgress c) :
    (m.store.state c).phase = .inProgress ↔ c ∈ m.store.forcing := by
  constructor
  · intro hphase
    obtain ⟨u, hu⟩ : ∃ u, m.store.state c = .inProgress u := by
      cases hs : m.store.state c with
      | inProgress u => exact ⟨u, rfl⟩
      | suspended t => rw [hs] at hphase; cases hphase
      | evaluated v => rw [hs] at hphase; cases hphase
      | failed e => rw [hs] at hphase; cases hphase
    obtain ⟨st, hst⟩ := Store.initial?_eq_some_of_lt (Store.lt_of_state hu (by simp))
    -- a life that has come to be in progress began suspended or in progress
    cases (sound_start.leads h).lived c st hst with
    | unrun _ hstate =>
      rw [hu] at hstate
      exact absurd ⟨u, hstate ▸ hst⟩ hc
    | running _ _ => exact (mem_forcing_iff h c).2 (owned_of_leads h c _ u hst hu)
    | evaluated _ hstate => rw [hu] at hstate; cases hstate
    | failed _ hstate => rw [hu] at hstate; cases hstate
  · intro hmem
    obtain ⟨t, -, hs⟩ := state_of_forcing h hmem
    rw [hs]
    rfl

theorem forcing_nodup {m : Moment} (h : Leads ⟨{}, []⟩ m) : m.store.forcing.Nodup := by
  rw [forcing_of_leads h]
  exact (sound_start.leads h).distinct

end Moment

/-! ## Forces -/

open Run

/-- A run that is over leaves the stack as it found it. -/
theorem Store.Runs.forcing {s e : Store} (h : s.Runs e) : e.forcing = s.forcing :=
  congrArg (List.filterMap id) (h []).pending

/-- A force of a cell in progress is refused. -/
theorem force_inProgress {s : Store} {c : CellId} {t : Thunk} (h : s.state c = .inProgress t) (run : Runner) :
    force run c s = .error (.raised s.faults.size)
      { s with faults := s.faults.push ⟨.reentrantForce (s.address c), [.cell c]⟩ } := by
  rw [force_apply, h]
  rfl

theorem refuses_of_inProgress {s : Store} {c : CellId} {t : Thunk} (h : s.state c = .inProgress t) (run : Runner) :
    s.Refuses run c := by
  refine ⟨_, _, force_inProgress h run, Nat.le_refl _, ?_, rfl⟩
  simp [Store.raised]

/-- An error of which a store knows nothing is not one of a reentrant force. -/
theorem Store.raised_ne_of_size_le {s : Store} {x : FaultId} (h : s.faults.size ≤ x) (address : Nat)
    (context : List Value) : s.raised x ≠ ⟨.reentrantForce address, context⟩ := by
  rw [Store.raised, Array.getElem?_eq_none h]
  intro heq
  cases heq

/-- A force that runs a thunk leaves the beginning of that run in the history, if it raises an error. -/
theorem history_of_suspended {run : Runner} (hr : run.Follows) {s e : Store} {c : CellId} {t : Thunk} {x : FaultId}
    {h : HeapId} (hs : s.state c = .suspended t) (ha : s.active = some h)
    (hf : force run c s = .error (.raised x) e) : (s.began c h t).history <:+ e.history := by
  obtain ⟨body, hb, hbody⟩ := hr (some c) t
  have hrun := hb (s.began c h t)
  rw [force_of_turn hs ha hbody] at hf
  rcases hm : body (s.began c h t) with ⟨v, m⟩ | ⟨⟨y⟩ | -, m⟩
  all_goals rw [hm] at hrun hf
  · -- the thunk has returned, and the error is one of the sample that is taken after the force
    have hnote := followsAt_map (fun _ => v)
      (followsAt_noteForced h ((m.recorded (.returned (some c) v)).setState c (.evaluated v)))
    dsimp only at hf
    rw [hf] at hnote
    exact ((hrun []).history.trans (List.suffix_cons _ _)).trans (hnote []).history
  · cases hf
    exact (hrun []).history.trans (List.suffix_cons _ _)
  · cases hf

/-- Only a force of a cell in progress is refused. -/
theorem phase_of_refuses {run : Runner} (hr : run.Follows) {s : Store} {c : CellId} (h : s.Refuses run c) :
    (s.state c).phase = .inProgress := by
  obtain ⟨x, e, hf, hnew, hraised, hsame⟩ := h
  cases hs : s.state c with
  | inProgress t => rfl
  | evaluated v => rw [force_evaluated hs] at hf; cases hf
  | failed error =>
    simp only [force_apply, hs, raiseValue] at hf
    split at hf
    · cases hf
      exact absurd hraised (Store.raised_ne_of_size_le hnew _ _)
    · cases hf
      simp [Store.raised] at hraised
  | suspended t =>
    cases ha : s.active with
    | none =>
      rw [force_apply, hs, ha] at hf
      cases hf
      simp [Store.raised] at hraised
    | some h =>
      have hlong := (history_of_suspended hr hs ha hf).length_le
      rw [hsame] at hlong
      exact absurd hlong (Nat.not_succ_le_self _)

/-- **A force is refused exactly if its cell is being forced.**  Whatever expression is evaluated, in whatever program
and however deep, leads from moment to moment.  At every moment the cells in progress, but for those that were made so,
are the cells on the stack of the forces whose thunks are being run, and no cell is on it twice.  So a force raises an
error of its own that names the cell, and runs no thunk, exactly if the cell is on the stack.  A force that is over
leaves the stack as it was; after an outermost one, no cell is in progress that was not made so. -/
theorem reentrant_force_exact (p : Program) :
    (∀ (depth : Nat) (args : List Value) (e : Expr) (s : Store),
      s.Reaches (finalStore (e.eval p (p.runAt depth) args s))) ∧
    ∀ m, Moment.Leads ⟨{}, []⟩ m →
      m.store.forcing.Nodup ∧
      (∀ c, ¬ m.store.MadeInProgress c →
        ((m.store.state c).phase = .inProgress ↔ c ∈ m.store.forcing) ∧
        ∀ depth, m.store.Refuses (p.runAt depth) c ↔ c ∈ m.store.forcing) ∧
      ∀ depth c e, ((∃ v, force (p.runAt depth) c m.store = .ok v e) ∨
          ∃ x, force (p.runAt depth) c m.store = .error (.raised x) e) →
        e.forcing = m.store.forcing ∧
        (m.store.forcing = [] → ∀ d, ¬ e.MadeInProgress d → (e.state d).phase ≠ .inProgress) := by
  refine ⟨fun depth args e s => (e.follows_eval (p.follows_runAt depth) args s).reaches, fun m hm => ?_⟩
  refine ⟨Moment.forcing_nodup hm, fun c hc => ?_, fun depth c e hover => ?_⟩
  · have hstack := Moment.inProgress_iff hm hc
    refine ⟨hstack, fun depth => ⟨fun h => hstack.1 (phase_of_refuses (p.follows_runAt depth) h), fun hmem => ?_⟩⟩
    obtain ⟨t, -, hs⟩ := Moment.state_of_forcing hm hmem
    exact refuses_of_inProgress hs _
  · have hruns : m.store.Runs e := by
      have hf := follows_force (p.follows_runAt depth) c m.store
      rcases hover with ⟨v, hv⟩ | ⟨x, hx⟩
      · rw [hv] at hf; exact hf
      · rw [hx] at hf; exact hf
    have hsame := hruns.forcing
    refine ⟨hsame, fun hnone d hd hphase => ?_⟩
    have hmem := (Moment.inProgress_iff (m := ⟨e, m.pending⟩) (hm.trans (hruns m.pending)) hd).1 hphase
    rw [hsame, hnone] at hmem
    exact List.not_mem_nil hmem

theorem reentrant_force_exact_indirect :
    let p : Program := [("f", ⟨.apply (.cell .force) [.argument 1], false⟩)]
    let e : Expr := .apply (.value .seq) [.apply (.heap .openNew) [],
      .assign "d" (.apply (.cell .suspend) [.constant (.str "f"), .constant .null, .constant .null]),
      .apply (.cell .fix) [.constant (.str "f"), .lookup "d"]]
    let s := finalStore (e.eval p (p.runAt 0) [] {})
    let m := finalStore (force (p.runAt 1) 1 s)
    (m.forcing = [0, 1] ∧ ∀ depth, m.Refuses (p.runAt depth) 1) ∧
      s.forcing = [] ∧ ∀ d, ¬ (finalStore (force (p.runAt 2) 1 s)).MadeInProgress d →
        ((finalStore (force (p.runAt 2) 1 s)).state d).phase ≠ .inProgress := by
  intro p e s m
  obtain ⟨follows, moments⟩ := reentrant_force_exact p
  obtain ⟨k, hk⟩ := follows 0 [] e {} []
  obtain ⟨l, hl⟩ := (follows_force (p.follows_runAt 1) 1 s).reaches (k ++ [])
  have hmade : ¬ m.MadeInProgress 1 := fun ⟨t, ht⟩ => by cases ht
  obtain ⟨-, hstack, -⟩ := moments _ (hk.trans hl)
  obtain ⟨-, -, hover⟩ := moments _ hk
  refine ⟨⟨rfl, fun depth => ((hstack 1 hmade).2 depth).2 (.tail _ (.head _))⟩, rfl, ?_⟩
  exact (hover 2 1 _ (.inr ⟨_, rfl⟩)).2 rfl

end Retention
