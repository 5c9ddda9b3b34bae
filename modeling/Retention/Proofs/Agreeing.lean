import Retention.Proofs.Alike
/-!
# Agreeing — computations that differ only in what they observe

Two computations agree (`Run.Agrees`) if, from stores that are alike, the second ends as the first does, with a store
that is alike, unless the first is out of depth or leaves a store that is not tidy.  The first also makes a run, so
where its final store is tidy, every store that it passes through between two of its parts was so too; this is what
lets agreement be put together from parts (`Run.agrees_bind`).

What the flags decide is whether a sample is taken.  A sample of a tidy store changes nothing but the peak and the
samples, so a sampled force agrees with one that is not (`agrees_force`).
-/
namespace Retention

open Store (OnlyCells Runs Alike)

namespace Run
variable {α β : Type}

/-! ## Agreement -/

/-- How a computation ends, as long as it is not out of depth and leaves a tidy store, another ends as well: with a
value that is related, or the same error, and a store that is alike. -/
def EndsAs (q : α → α → Prop) (r r' : EStateM.Result Halt Store α) : Prop :=
  match r with
  | .ok a e => e.Tidy → ∃ a' e', r' = .ok a' e' ∧ q a a' ∧ e.Alike e'
  | .error (.raised x) e => e.Tidy → ∃ e', r' = .error (.raised x) e' ∧ e.Alike e'
  | .error .tooDeep _ => True

/-- From the given stores, the first computation makes a run, and if they are alike, the second ends as the first. -/
structure AgreesAt (q : α → α → Prop) (s s' : Store) (x x' : Run α) : Prop where
  follows : FollowsAt s (x s)
  ends : s.Reached → s.Alike s' → EndsAs q (x s) (x' s')

/-- From all stores that are the same when bare, the computations agree, with related values. -/
def AgreesIn (q : α → α → Prop) (x x' : Run α) : Prop := ∀ s s' : Store, s.bare = s'.bare → AgreesAt q s s' x x'

/-- From all stores that are the same when bare, the computations agree, with equal values. -/
def Agrees (x x' : Run α) : Prop := AgreesIn Eq x x'

variable {q : α → α → Prop} {r : β → β → Prop} {s s' : Store} {x x' : Run α}

theorem AgreesIn.follows (h : AgreesIn q x x') : Follows x := fun s => (h s s rfl).follows

theorem Agrees.follows (h : Agrees x x') : Follows x := AgreesIn.follows h

theorem Agrees.at (h : Agrees x x') (hs : s.bare = s'.bare) : AgreesAt Eq s s' x x' := h s s' hs

/-- The first store may be taken to be tidy: it is so if the final one is. -/
theorem EndsAs.of_tidy {t t' : EStateM.Result Halt Store α} (hs : s.Reached) (ht : FollowsAt s t)
    (h : s.Tidy → EndsAs q t t') : EndsAs q t t' := by
  match t, ht with
  | .ok a e, ht => exact fun he => h (he.before hs ht) he
  | .error (.raised x) e, ht => exact fun he => h (he.before hs ht) he
  | .error .tooDeep e, _ => trivial

theorem agreesAt_bindIn {f f' : α → Run β} (hx : AgreesAt q s s' x x')
    (hf : ∀ a m, x s = .ok a m → FollowsAt m (f a m))
    (hagree : ∀ a a' m m', s.Reached → x s = .ok a m → m.Reached → m.Tidy → q a a' → m.Alike m' →
      EndsAs r (f a m) (f' a' m')) :
    AgreesAt r s s' (x >>= f) (x' >>= f') where
  follows := followsAt_bind hx.follows hf
  ends hs halike := by
    have hfollows := hx.follows
    have hends := hx.ends hs halike
    rw [bind_apply, bind_apply]
    match hr : x s, hfollows, hends with
    | .ok a m, hruns, hends =>
      have hm : m.Reached := hs.after hruns.reaches
      refine EndsAs.of_tidy hm (hf a m hr) fun hmt => ?_
      obtain ⟨a', m', hr', hq, hm'⟩ := hends hmt
      rw [hr']
      exact hagree a a' m m' hs hr hm hmt hq hm'
    | .error (.raised e) m, _, hends =>
      intro hmt
      obtain ⟨m', hr', hm'⟩ := hends hmt
      exact ⟨m', by rw [hr'], hm'⟩
    | .error .tooDeep m, _, _ => trivial

theorem agreesAt_bindAt {f f' : α → Run β} (hx : AgreesAt Eq s s' x x')
    (hf : ∀ a m m', x s = .ok a m → m.bare = m'.bare → AgreesAt r m m' (f a) (f' a)) :
    AgreesAt r s s' (x >>= f) (x' >>= f') :=
  agreesAt_bindIn hx (fun a m hr => (hf a m m hr rfl).follows) fun a a' m m' _ hr hm _ hq halike => by
    subst hq
    exact (hf a m m' hr halike.bare).ends hm halike

theorem agreesAt_bind {f f' : α → Run β} (hx : AgreesAt Eq s s' x x') (hf : ∀ a, AgreesIn r (f a) (f' a)) :
    AgreesAt r s s' (x >>= f) (x' >>= f') := agreesAt_bindAt hx fun a m m' _ hm => hf a m m' hm

/-- A computation that would end well after its first part, and never does so, agrees with any that begins alike. -/
theorem agreesAt_bind_of_ne {f f' : α → Run β} (hx : AgreesAt q s s' x x') (hf : ∀ a, Follows (f a))
    (hok : ∀ a m, ∃ b e, f a m = .ok b e) (hne : ∀ b e, (x >>= f) s ≠ .ok b e) :
    AgreesAt r s s' (x >>= f) (x' >>= f') :=
  agreesAt_bindIn hx (fun a m _ => hf a m) fun a _ m _ _ hr _ _ _ _ => by
    obtain ⟨b, e, hb⟩ := hok a m
    exact absurd ((bind_ok hr).trans hb) (hne b e)

theorem agreesIn_bind {f f' : α → Run β} (hx : AgreesIn q x x') (hfollows : ∀ a, Follows (f a))
    (hf : ∀ a a', q a a' → AgreesIn r (f a) (f' a')) : AgreesIn r (x >>= f) (x' >>= f') := fun s s' hs =>
  agreesAt_bindIn (hx s s' hs) (fun a m _ => hfollows a m) fun a a' m m' _ _ hm _ hq halike =>
    (hf a a' hq m m' halike.bare).ends hm halike

theorem agrees_bindIn {f f' : α → Run β} (hx : Agrees x x') (hf : ∀ a, AgreesIn r (f a) (f' a)) :
    AgreesIn r (x >>= f) (x' >>= f') := fun s s' hs => agreesAt_bind (hx s s' hs) hf

@[grind ←] theorem agrees_bind {f f' : α → Run β} (hx : Agrees x x') (hf : ∀ a, Agrees (f a) (f' a)) :
    Agrees (x >>= f) (x' >>= f') := agrees_bindIn hx hf

theorem agreesIn_pure {a a' : α} (h : q a a') : AgreesIn q (pure a : Run α) (pure a') := fun s s' _ =>
  ⟨follows_pure a s, fun _ halike _ => ⟨a', s', rfl, h, halike⟩⟩

@[grind ←] theorem agrees_pure (a : α) : Agrees (pure a : Run α) (pure a) := agreesIn_pure rfl

theorem agreesIn_reraise (e : FaultId) : AgreesIn q (reraise e : Run α) (reraise e) := fun s s' _ =>
  ⟨follows_reraise e s, fun _ halike _ => ⟨s', rfl, halike⟩⟩

@[grind ←] theorem agrees_reraise (e : FaultId) : Agrees (reraise e : Run α) (reraise e) := agreesIn_reraise e

theorem agrees_tooDeep : Agrees (throw .tooDeep : Run α) x' := fun s _ _ =>
  ⟨follows_tooDeep s, fun _ _ => trivial⟩

@[grind ←] theorem agrees_discard (hx : Agrees x x') : Agrees (discard x) (discard x') :=
  agrees_bind hx fun _ => agrees_pure _

@[grind ←] theorem agrees_mapM {γ : Type} {f f' : γ → Run β} (hf : ∀ a, Agrees (f a) (f' a)) (xs : List γ) :
    Agrees (xs.mapM f) (xs.mapM f') := by
  induction xs with
  | nil => exact agrees_pure []
  | cons y ys ih =>
    rw [List.mapM_cons, List.mapM_cons]
    exact agrees_bind (hf y) fun b => agrees_bind ih fun bs => agrees_pure _

/-- Outcomes that are both errors, the same ones, or both values, related ones. -/
def SameOutcome (q : α → α → Prop) : Except FaultId α → Except FaultId α → Prop
  | .ok a, .ok a' => q a a'
  | .error e, .error e' => e = e'
  | _, _ => False

theorem agreesIn_attempt (hx : AgreesIn q x x') : AgreesIn (SameOutcome q) (attempt x) (attempt x') := fun s s' hs =>
  ⟨follows_attempt hx.follows s, fun hreached halike => by
    have hends := (hx s s' hs).ends hreached halike
    rw [attempt_apply, attempt_apply]
    match hr : x s, hends with
    | .ok a m, hends =>
      intro hm
      obtain ⟨a', m', hr', hq, hm'⟩ := hends hm
      exact ⟨.ok a', m', by rw [hr'], hq, hm'⟩
    | .error (.raised e) m, hends =>
      intro hm
      obtain ⟨m', hr', hm'⟩ := hends hm
      exact ⟨.error e, m', by rw [hr'], rfl, hm'⟩
    | .error .tooDeep m, _ => trivial⟩

theorem EndsAs.mono {q' : α → α → Prop} {t t' : EStateM.Result Halt Store α} (h : EndsAs q t t')
    (hq : ∀ a a', q a a' → q' a a') : EndsAs q' t t' := by
  match t, h with
  | .ok a e, h =>
    intro he
    obtain ⟨a', e', hr, ha, halike⟩ := h he
    exact ⟨a', e', hr, hq a a' ha, halike⟩
  | .error (.raised x) e, h => exact h
  | .error .tooDeep e, _ => trivial

@[grind ←] theorem agrees_attempt (hx : Agrees x x') : Agrees (attempt x) (attempt x') := fun s s' hs =>
  ⟨follows_attempt hx.follows s, fun hreached halike =>
    ((agreesIn_attempt hx s s' hs).ends hreached halike).mono fun a a' h => by
      match a, a', h with
      | .ok _, .ok _, h => exact congrArg Except.ok h
      | .error _, .error _, h => exact congrArg Except.error h⟩

/-! ## Reading and changing the store -/

/-- What is done after a look at the store. -/
theorem agreesAt_get {f f' : Store → Run α} (h : AgreesAt q s s' (f s) (f' s')) :
    AgreesAt q s s' (get >>= f) (get >>= f') := ⟨h.follows, h.ends⟩

theorem agreesIn_get {f f' : Store → Run α} (h : ∀ s s' : Store, s.bare = s'.bare → AgreesAt q s s' (f s) (f' s')) :
    AgreesIn q (get >>= f) (get >>= f') := fun s s' hs => agreesAt_get (h s s' hs)

theorem agrees_get {f f' : Store → Run α} (h : ∀ s s' : Store, s.bare = s'.bare → Agrees (f s) (f' s')) :
    Agrees (get >>= f) (get >>= f') := agreesIn_get fun s s' hs => (h s s' hs).at hs

/-- A change that leaves a value. -/
theorem agrees_modifyGet {f f' : Store → α × Store} (hf : Follows (modifyGet f : Run α))
    (hvalue : ∀ s s' : Store, s.bare = s'.bare → (f s).1 = (f' s').1)
    (halike : ∀ s s' : Store, s.Alike s' → (f s).2.Alike (f' s').2) :
    Agrees (modifyGet f : Run α) (modifyGet f') := fun s s' hs =>
  ⟨hf s, fun _ h _ => ⟨(f' s').1, (f' s').2, rfl, hvalue s s' hs, halike s s' h⟩⟩

theorem agrees_modify {f f' : Store → Store} (hf : Follows (modify f : Run Unit))
    (halike : ∀ s s' : Store, s.Alike s' → (f s).Alike (f' s')) : Agrees (modify f : Run Unit) (modify f') :=
  fun s s' _ => ⟨hf s, fun _ h _ => ⟨(), f' s', rfl, rfl, halike s s' h⟩⟩

@[grind ←] theorem agrees_newFault (cause : Fault) (context : List Value) :
    Agrees (newFault cause context) (newFault cause context) :=
  agrees_modifyGet (follows_newFault cause context) (fun _ _ hs => by rw [Store.faults_of_bare hs]) fun _ _ h =>
    h.frame (f := fun s => { s with faults := s.faults.push ⟨cause, context⟩ }) (fun _ => rfl) (fun _ => rfl) fun _ => rfl

@[grind ←] theorem agrees_raiseIn (context : List Value) (cause : Fault) :
    Agrees (raiseIn context cause : Run α) (raiseIn context cause) :=
  agrees_bind (agrees_newFault cause context) agrees_reraise

@[grind ←] theorem agrees_raise (cause : Fault) : Agrees (raise cause : Run α) (raise cause) := agrees_raiseIn [] cause

@[grind ←] theorem agrees_raiseValue (v : Value) : Agrees (raiseValue v : Run α) (raiseValue v) := by
  unfold raiseValue
  split
  · exact agrees_reraise _
  · exact agrees_raise _

@[grind ←] theorem agrees_freshTag : Agrees freshTag freshTag :=
  agrees_modifyGet follows_freshTag (fun _ _ hs => (Store.nextTag_of_bare hs).symm) fun _ _ h =>
    h.frame (f := fun s => { s with nextTag := s.nextTag + 1 }) (fun _ => rfl) (fun _ => rfl) fun _ => rfl

/-- The log may tell different things. -/
@[grind ←] theorem agrees_note (e e' : Event) : Agrees (note e) (note e') :=
  agrees_modify (follows_note e) fun _ _ h => ⟨h.bare, h.rooted, h.flagged.congr rfl rfl, h.flagged'.congr rfl rfl⟩

/-- The first computation writes to the log what the second does not write. -/
theorem agrees_note_left (e : Event) (hx : Agrees x x') : Agrees (do note e; x) x' := fun s s' hs =>
  ⟨follows_bind (follows_note e) (fun _ => hx.follows) s, fun hreached halike =>
    (hx { s with events := e :: s.events } s' hs).ends (hreached.after (Runs.of_step (.logged s _)).reaches)
      ⟨hs, halike.rooted, halike.flagged.congr rfl rfl, halike.flagged'⟩⟩

/-- The second computation writes to the log what the first does not write. -/
theorem agrees_note_right (e : Event) (hx : Agrees x x') : Agrees x (do note e; x') := fun s s' hs =>
  ⟨hx.follows s, fun hreached halike => (hx s { s' with events := e :: s'.events } hs).ends hreached
    ⟨hs, halike.rooted, halike.flagged, halike.flagged'.congr rfl rfl⟩⟩

@[grind ←] theorem agrees_cons (head tail : Value) : Agrees (cons head tail) (cons head tail) := by unfold cons; grind

@[grind ←] theorem agrees_list (items : List Value) : Agrees (list items) (list items) := by unfold list; grind

@[grind ←] theorem agrees_tuple (items : List Value) : Agrees (tuple items) (tuple items) := by unfold tuple; grind

@[grind ←] theorem agrees_typeName (v : Value) : Agrees (typeName v) (typeName v) := by
  refine agrees_get fun s s' hs => ?_
  rw [Store.typeName_of_bare hs]
  exact agrees_pure _

@[grind ←] theorem agrees_lacks (v : Value) (attr : String) : Agrees (lacks v attr : Run α) (lacks v attr) := by
  unfold lacks; grind

theorem agreesAt_told {t : Store → Except Fault α} (hs : s.bare = s'.bare) (ht : t s' = t s) :
    AgreesAt Eq s s' (told t) (told t) := by
  refine agreesAt_get ?_
  simp only [ht]
  cases t s with
  | ok a => exact (agrees_pure a).at hs
  | error cause => exact (agrees_raise cause).at hs

theorem agrees_told {t : Store → Except Fault α} (ht : ∀ s s' : Store, s.bare = s'.bare → t s' = t s) :
    Agrees (told t) (told t) := fun s s' hs => agreesAt_told hs (ht s s' hs)

@[grind ←] theorem agrees_lengthBetween (lo hi : Value) : Agrees (lengthBetween lo hi) (lengthBetween lo hi) := by
  unfold lengthBetween; grind

@[grind ←] theorem agrees_truth (v : Value) : Agrees (truth v) (truth v) := by unfold truth; grind

@[grind ←] theorem agrees_cellOf (attr : String) (v : Value) : Agrees (cellOf attr v) (cellOf attr v) := by
  unfold cellOf; grind

/-! ## Heaps -/

@[grind ←] theorem agrees_activeHeap : Agrees activeHeap activeHeap := by
  refine agrees_get fun s s' hs => ?_
  rw [Store.active_of_bare hs]
  grind

theorem agrees_register {f : Store → α} {g : Store → CellState} (hf : ∀ s s' : Store, s.bare = s'.bare → f s' = f s)
    (hg : ∀ s s' : Store, s.bare = s'.bare → g s' = g s) :
    Agrees (do let h ← activeHeap; modifyGet fun s => (f s, s.register h (g s)))
      (do let h ← activeHeap; modifyGet fun s => (f s, s.register h (g s))) := fun s s' hs =>
  ⟨follows_register s, fun hreached halike => by
    rw [bind_apply, bind_apply, activeHeap_apply, activeHeap_apply, Store.active_of_bare hs]
    cases s.active with
    | none => exact ((agrees_raise (α := α) .noActiveHeap).at hs).ends hreached halike
    | some h =>
      intro _
      refine ⟨f s', s'.register h (g s'), rfl, (hf s s' hs).symm, ?_⟩
      rw [hg s s' hs]
      exact halike.register h (g s)⟩

@[grind ←] theorem agrees_newCell (st : CellState) : Agrees (newCell st) (newCell st) :=
  agrees_register (fun _ _ hs => by rw [Store.cells_of_bare hs]) fun _ _ _ => rfl

@[grind ←] theorem agrees_suspend (t : Thunk) : Agrees (suspend t) (suspend t) := agrees_newCell _

@[grind ←] theorem agrees_suspendSelf (thunk : CellId → Thunk) : Agrees (suspendSelf thunk) (suspendSelf thunk) :=
  agrees_register (fun _ _ hs => by rw [Store.cells_of_bare hs]) fun _ _ hs => by rw [Store.cells_of_bare hs]

@[grind ←] theorem agrees_ready (v : Value) : Agrees (ready v) (ready v) := agrees_newCell _

@[grind ←] theorem agrees_reachable (h : HeapId) : Agrees (reachable h) (reachable h) := by
  refine agrees_get fun s s' hs => ?_
  rw [Store.reachable_of_bare hs]
  grind

@[grind ←] theorem agrees_liveCount (h : HeapId) : Agrees (liveCount h) (liveCount h) := by unfold liveCount; grind

/-- A sample of a tidy store comes to a count, which is only observed. -/
theorem sample_of_tidy {s s' : Store} (halike : s.Alike s') (ht : s.Tidy) (h : HeapId) :
    ∃ found, s.reachable h = .ok found ∧ sample h s = .ok found.size (s.noteLive h found.size) ∧
      (s.noteLive h found.size).Alike s' := by
  obtain ⟨found, hfound⟩ := s.walk_of_cells ht.refs {} ((s.heap h).roots.map (·.2)).reverse fun v hv =>
    halike.rooted h v (List.mem_reverse.1 hv)
  obtain ⟨b, hb⟩ := halike.flagged.traces h
  exact ⟨found, hfound, sample_apply hfound (congrArg Value.truth? hb), halike.noteLive h found.size⟩

@[grind ←] theorem agrees_sample (h : HeapId) : Agrees (sample h) (sample h) := fun s s' hs =>
  ⟨follows_sample h s, fun hreached halike => EndsAs.of_tidy hreached (follows_sample h s) fun ht => by
    obtain ⟨found, hfound, hsample, hnoted⟩ := sample_of_tidy halike ht h
    obtain ⟨found', hfound', hsample', hnoted'⟩ := sample_of_tidy halike.symm (ht.of_bare hs) h
    rw [Store.reachable_of_bare hs, hfound] at hfound'
    cases hfound'
    rw [hsample, hsample']
    exact fun _ => ⟨found.size, s'.noteLive h found.size, rfl, rfl, hnoted.trans (halike.symm.trans hnoted'.symm)⟩⟩

/-- The first computation takes a sample that the second does not take. -/
theorem agrees_sample_left {h : HeapId} {f : Nat → Run α} (hf : ∀ live, Agrees (f live) x') :
    Agrees (sample h >>= f) x' := fun s s' _ => by
  have hfollows : Follows (sample h >>= f) := follows_bind (follows_sample h) fun live => (hf live).follows
  refine ⟨hfollows s, fun hreached halike => EndsAs.of_tidy hreached (hfollows s) fun ht => ?_⟩
  obtain ⟨found, -, hsample, hnoted⟩ := sample_of_tidy halike ht h
  have hruns := follows_sample h s
  rw [hsample] at hruns
  rw [bind_ok hsample]
  exact ((hf found.size).at hnoted.bare).ends (hreached.after (Runs.reaches hruns)) hnoted

/-- The second computation takes a sample that the first does not take. -/
theorem agrees_sample_right {h : HeapId} {f' : Nat → Run α} (hf : ∀ live, Agrees x (f' live)) :
    Agrees x (sample h >>= f') := fun s s' hs => by
  refine ⟨(hf 0).follows s, fun hreached halike => EndsAs.of_tidy hreached ((hf 0).follows s) fun ht => ?_⟩
  obtain ⟨found, -, hsample, hnoted⟩ := sample_of_tidy halike.symm (ht.of_bare hs) h
  rw [bind_ok hsample]
  exact ((hf found.size).at hnoted.symm.bare).ends hreached hnoted.symm

/-- A sample is taken or not, as the flags have it. -/
theorem agrees_ifFlag {h : HeapId} {flag flag' : Value} {f f' : Nat → Run α} (hflag : flag.IsFlag)
    (hflag' : flag'.IsFlag) (hf : ∀ live live', Agrees (f live) (f' live')) (hleft : ∀ live, Agrees (f live) x')
    (hright : ∀ live, Agrees x (f' live)) (hx : Agrees x x') :
    Agrees (do if ← truth flag then sample h >>= f else x) (do if ← truth flag' then sample h >>= f' else x') := by
  obtain ⟨b, rfl⟩ := hflag
  obtain ⟨b', rfl⟩ := hflag'
  cases b with
  | true =>
    cases b' with
    | true =>
      show Agrees (sample h >>= f) (sample h >>= f')
      exact agrees_bind (agrees_sample h) fun live => hf live live
    | false => exact agrees_sample_left hleft
  | false =>
    cases b' with
    | true => exact agrees_sample_right hright
    | false => exact hx

@[grind ←] theorem agrees_collect (h : HeapId) : Agrees (collect h) (collect h) := fun s s' hs =>
  ⟨follows_collect h s, fun hreached halike => by
    unfold collect
    rw [bind_apply, bind_apply, reachable_apply, reachable_apply, Store.reachable_of_bare hs]
    cases s.reachable h with
    | error v => exact ((agrees_lacks (α := Nat) v "address").at hs).ends hreached halike
    | ok found =>
      intro _
      have hkept := halike.keepOnly h found
      have htable : ∀ {t t' : Store}, t.Alike t' → (t'.heap h).table = (t.heap h).table := fun ht =>
        Store.field_of_bare ht.bare (fun _ => rfl) h
      refine ⟨_, _, rfl, ?_, hkept.bare, hkept.rooted, hkept.flagged.congr rfl rfl, hkept.flagged'.congr rfl rfl⟩
      rw [htable halike, htable hkept]⟩

/-- New heaps whose flags may differ. -/
theorem agrees_newHeap {traces samplesForces traces' samplesForces' : Value} (temporary : Bool) (ht : traces.IsFlag)
    (hf : samplesForces.IsFlag) (ht' : traces'.IsFlag) (hf' : samplesForces'.IsFlag) :
    Agrees (newHeap { traces, samplesForces, temporary })
      (newHeap { traces := traces', samplesForces := samplesForces', temporary }) :=
  agrees_modifyGet (follows_newHeap traces samplesForces temporary)
    (fun _ _ hs => (Store.heaps_size_of_bare hs).symm) fun _ _ h =>
      h.pushHeap rfl (fun _ hv => absurd hv List.not_mem_nil) ht hf ht' hf'

@[grind ←] theorem agrees_enter (h : HeapId) : Agrees (enter h) (enter h) :=
  agrees_bind (agrees_modify (follows_modify fun s => .entered s h) fun _ _ halike => halike.entered h)
    fun _ => agrees_note _ _

@[grind ←] theorem agrees_close (h : HeapId) : Agrees (close h) (close h) :=
  agrees_get fun _ _ _ => agrees_bind (agrees_note _ _) fun _ =>
    agrees_modify (follows_modify fun s => .closed s h) fun _ _ halike => halike.closed h

@[grind ←] theorem agrees_leave (h : HeapId) : Agrees (leave h) (leave h) := by
  refine agrees_bind (agrees_close h) fun _ => agreesIn_get fun s s' hs => ?_
  have hcontexts : (s'.heap h).contexts = (s.heap h).contexts := Store.field_of_bare hs (fun _ => rfl) h
  rw [hcontexts]
  cases hc : (s.heap h).contexts with
  | nil => exact (agrees_raise _).at hs
  | cons previous contexts =>
    exact ⟨.of_step (.left s h previous contexts hc), fun _ halike _ => ⟨(), _, rfl, rfl, halike.left h previous contexts⟩⟩

@[grind ←] theorem agrees_checkKey (k : Value) : Agrees (checkKey k) (checkKey k) := by
  refine agrees_get fun s s' hs => ?_
  rw [Store.unhashable?_of_bare hs]
  grind

/-- A cell is put under a root name. -/
theorem agrees_setRoot (h : HeapId) (name : Value) {v : Value} (hv : v.IsCell) :
    Agrees (setRoot h name v) (setRoot h name v) :=
  agrees_bind (agrees_checkKey name) fun _ =>
    agrees_modify (follows_modify fun s => .rooted s h name v) fun _ _ halike => halike.rootedCell h name hv

theorem agreesAt_setRoot_of_ne {s s' : Store} (hs : s.bare = s'.bare) {h : HeapId} {name v : Value}
    (hne : ∀ u e, setRoot h name v s ≠ .ok u e) : AgreesAt Eq s s' (setRoot h name v) (setRoot h name v) :=
  agreesAt_bind_of_ne ((agrees_checkKey name).at hs) (fun _ => follows_modify fun s => .rooted s h name v)
    (fun _ _ => ⟨_, _, rfl⟩) hne

@[grind ←] theorem agrees_root (h : HeapId) (name : Value) : Agrees (root h name) (root h name) := by
  refine agrees_bind (agrees_checkKey name) fun _ => agrees_get fun s s' hs => ?_
  rw [Store.equal_of_bare hs, Store.roots_of_bare hs]
  grind

@[grind ←] theorem agrees_removeRoot (h : HeapId) (name : Value) : Agrees (removeRoot h name) (removeRoot h name) :=
  agrees_bind (agrees_discard (agrees_root h name)) fun _ =>
    agrees_modify (follows_modify fun s => .unrooted s h name) fun _ _ halike => halike.unrooted h name

end Run

/-! ## Forcing -/

open Run

/-- Two runners make turns of agreeing runs of every thunk. -/
def Runner.Agrees (run run' : Runner) : Prop :=
  ∀ owner t, ∃ body body', Run.Agrees body body' ∧ run owner t = Run.turn owner t body ∧
    run' owner t = Run.turn owner t body'

variable {run run' : Runner}

theorem Runner.Agrees.follows (hr : run.Agrees run') : run.Follows := fun owner t => by
  obtain ⟨body, _, hb, hrun, -⟩ := hr owner t
  exact ⟨body, hb.follows, hrun⟩

namespace Store.Alike
variable {s s' : Store}

theorem recorded (h : s.Alike s') (x : Turn) : (s.recorded x).Alike (s'.recorded x) :=
  h.frame (f := fun s => s.recorded x) (fun _ => rfl) (fun _ => rfl) fun _ => rfl

theorem setState (h : s.Alike s') (c : CellId) (st : CellState) : (s.setState c st).Alike (s'.setState c st) :=
  h.frame (f := fun s => s.setState c st) (fun _ => rfl) (fun _ => rfl) fun _ => rfl

theorem began (h : s.Alike s') (c : CellId) (g : HeapId) (t : Thunk) : (s.began c g t).Alike (s'.began c g t) :=
  (h.setState c _).recorded _

end Store.Alike

/-- A thunk that is run for no cell. -/
theorem agrees_run_none (hr : run.Agrees run') (t : Thunk) : Run.Agrees (run none t) (run' none t) := by
  obtain ⟨body, body', hb, hbody, hbody'⟩ := hr none t
  intro s s' hs
  refine ⟨follows_run_none hr.follows t s, fun hreached halike => ?_⟩
  have hbegan : (s.recorded (.began none s.active t)).Reached := by
    obtain ⟨k, hk⟩ := hreached
    exact ⟨.call :: k, hk.tail (.call s k t)⟩
  have hrecorded := halike.recorded (.began none s.active t)
  have hends := (hb _ _ hrecorded.bare).ends hbegan hrecorded
  rw [hbody, hbody', turn_apply, turn_apply, Store.active_of_bare hs]
  match hm : body (s.recorded (.began none s.active t)), hends with
  | .ok v m, hends =>
    intro ht
    obtain ⟨v', m', hm', rfl, hma⟩ := hends (ht.of_cells rfl)
    exact ⟨v, m'.recorded (.returned none v), by rw [hm'], rfl, hma.recorded _⟩
  | .error (.raised x) m, hends =>
    intro ht
    obtain ⟨m', hm', hma⟩ := hends (ht.of_cells rfl)
    exact ⟨m'.recorded (.raised none x), by rw [hm'], hma.recorded _⟩
  | .error .tooDeep m, _ => trivial

/-- Whichever way the flag is set, counting a force of a tidy store succeeds, and a sample is only observed. -/
theorem noteForced_of_tidy {s s' : Store} (halike : s.Alike s') (ht : s.Tidy) (h : HeapId) :
    ∃ e, noteForced h s = .ok () e ∧ e.Alike (s'.counted h) := by
  have hcounted := halike.counted h
  obtain ⟨b, hb⟩ := hcounted.flagged.samplesForces h
  have hstart : noteForced h s = (if b then discard (sample h) else pure ()) (s.counted h) := by
    unfold noteForced
    rw [bind_ok (modify_apply _ s), bind_ok (get_apply _), bind_ok (truth_apply (congrArg Value.truth? hb) _)]
  cases b with
  | false => exact ⟨s.counted h, hstart, hcounted⟩
  | true =>
    obtain ⟨found, -, hsample, hnoted⟩ := sample_of_tidy hcounted (ht.of_cells rfl) h
    exact ⟨_, hstart.trans (bind_ok hsample), hnoted⟩

/-- **Forces agree**, whether samples are taken after them or not. -/
@[grind ←] theorem agrees_force (hr : run.Agrees run') (c : CellId) : Run.Agrees (force run c) (force run' c) := by
  intro s s' hs
  refine ⟨follows_force hr.follows c s, fun hreached halike => ?_⟩
  have hstate := Store.state_of_bare hs
  have hactive := Store.active_of_bare hs
  cases hc : s.state c with
  | evaluated v =>
    rw [force_evaluated hc, force_evaluated (hstate ▸ hc)]
    exact fun _ => ⟨v, s', rfl, rfl, halike⟩
  | failed error =>
    rw [force_apply, force_apply, hstate, hc]
    exact ((agrees_raiseValue error).at hs).ends hreached halike
  | inProgress t =>
    rw [force_apply, force_apply, hstate, hc, Store.address_of_bare hs]
    exact ((agrees_raiseIn _ _).at hs).ends hreached halike
  | suspended t =>
    cases ha : s.active with
    | none =>
      rw [force_apply, force_apply, hstate, hc, hactive, ha]
      exact ((agrees_raise _).at hs).ends hreached halike
    | some h =>
      obtain ⟨body, body', hb, hbody, hbody'⟩ := hr (some c) t
      obtain ⟨k, hk⟩ := hreached
      have hbegan : Moment.Leads ⟨{}, []⟩ ⟨s.began c h t, .force c h :: k⟩ := hk.tail (.force s k c h t hc ha)
      have hruns := hb.follows (s.began c h t)
      have hstart := halike.began c h t
      have hends := (hb _ _ hstart.bare).ends ⟨_, hbegan⟩ hstart
      rw [force_of_turn hc ha hbody, force_of_turn (hstate ▸ hc) (hactive.trans ha) hbody']
      rcases hm : body (s.began c h t) with ⟨v, m⟩ | ⟨⟨x⟩ | -, m⟩
      all_goals rw [hm] at hruns hends
      · -- the store in which the thunk ended was tidy, as the one after the sample is
        have hended : Moment.Leads ⟨{}, []⟩ ⟨m, .force c h :: k⟩ := hbegan.trans (hruns _)
        have hlast : Moment.Next ⟨m, .force c h :: k⟩ ⟨m.finished c h v, k⟩ := .finished m k c h v
        refine EndsAs.of_tidy ⟨k, hended.tail hlast⟩ (followsAt_map _ (followsAt_noteForced h _)) fun htidy => ?_
        have hmt : m.Tidy := Moment.Leads.tidy (Moment.sound_start.leads hended) (.single hlast) htidy
        obtain ⟨v', m', hm', rfl, hma⟩ := hends hmt
        have hset := (hma.recorded (.returned (some c) v)).setState c (.evaluated v)
        have hst : ((m.recorded (.returned (some c) v)).setState c (.evaluated v)).Tidy := htidy.of_cells rfl
        obtain ⟨e, he, hea⟩ := noteForced_of_tidy hset hst h
        obtain ⟨e', he', hea'⟩ := noteForced_of_tidy hset.symm (hst.of_bare hset.bare) h
        rw [hm']
        simp only [map_apply, he, he']
        exact fun _ => ⟨v, e', rfl, rfl, hea.trans ((hset.counted h).symm.trans hea'.symm)⟩
      · have hended : Moment.Leads ⟨{}, []⟩ ⟨m, .force c h :: k⟩ := hbegan.trans (hruns _)
        have hlast : Moment.Next ⟨m, .force c h :: k⟩ ⟨m.aborted c x, k⟩ := .aborted m k c h x
        intro htidy
        have hmt : m.Tidy := Moment.Leads.tidy (Moment.sound_start.leads hended) (.single hlast) htidy
        obtain ⟨m', hm', hma⟩ := hends hmt
        exact ⟨m'.aborted c x, by rw [hm'], (hma.recorded (.raised (some c) x)).setState c _⟩
      · trivial

@[grind ←] theorem agrees_forceValue (hr : run.Agrees run') (v : Value) :
    Run.Agrees (forceValue run v) (forceValue run' v) :=
  agrees_bind (agrees_cellOf "state" v) fun c => agrees_force hr c

end Retention
