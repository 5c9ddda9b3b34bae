import Retention.Proofs.Alike
import Retention.Proofs.Course
import Retention.Proofs.Nesting
import Retention.Proofs.Unrolling
/-!
# Confinement — a heap of its own keeps everything else as it is

A heap is private (`Store.Private`) if it is active and what can be got at from it is its own: from some cell on, every
cell holds only lists over integers that lie among these cells, and so do the roots of the heap.  What the library does
with such lists stays among them, so no other cell and no other heap is touched (`Store.Apart`), however it ends.

Most of the argument is one lemma for each operation (`Run.Confined`).  Thunks that nest are followed by the depth to
which they may: `Run.confined_force` is told by how thunks run, and `Program.confined_runAt` ties the knot.
-/
namespace Retention

/-! ## What lies on a heap of its own -/

/-- A value that a confined computation hands on: what it refers to lies among the cells from `base` on. -/
inductive Value.Own (base : Nat) : Value → Prop
  | null : Own base .null
  | int (n : Int) : Own base (.int n)
  | nil (tag : Tag) : Own base (.nil tag)
  | cell {c : CellId} (hc : base ≤ c) : Own base (.cell c)
  | cons (tag : Tag) {head tail : Value} (hhead : head.Own base) (htail : tail.Own base) : Own base (.cons tag head tail)

/-- A thunk of a list over integers, of a concatenation or of a repetition of such lists, that are all own. -/
inductive Thunk.Own (base : Nat) : Thunk → Prop
  | intervalNode (tag : Tag) (lo hi : Int) : Own base (.intervalNode tag (.int lo) (.int hi))
  | intervalHead (tag : Tag) (lo hi : Int) : Own base (.intervalHead tag (.int lo) (.int hi))
  | appendNode {xs ys : Value} (hx : xs.Own base) (hy : ys.Own base) : Own base (.appendNode xs ys)
  | cycleStart {origin : CellId} {source : Value} (ho : base ≤ origin) (hs : source.Own base) :
      Own base (.cycleStart origin source)
  | sharedLap (tag : Tag) {source origin : Value} (hs : source.Own base) (ho : origin.Own base) :
      Own base (.sharedLap tag source origin)
  | freshLap (tag : Tag) (lo hi : Int) : Own base (.freshLap tag (.interval (.int lo) (.int hi)))

/-- A state that holds only what is own. -/
def CellState.Own (base : Nat) : CellState → Prop
  | .suspended t | .inProgress t => t.Own base
  | .evaluated v => v.Own base
  | .failed _ => True

namespace Store
variable {base : Nat} {h : HeapId} {s m e : Store}

/-- A heap is active, and from the cell `base` on everything is its own. -/
structure Private (s : Store) (base : Nat) (h : HeapId) : Prop where
  active : s.active = some h
  size : base ≤ s.cells.size
  state : ∀ c, base ≤ c → (s.state c).Own base
  roots : ∀ entry ∈ (s.heap h).roots, entry.2.Own base

/-- Cells below `base` and heaps other than a private one are as they were, and the private one is still that. -/
structure Apart (base : Nat) (h : HeapId) (s e : Store) : Prop where
  active : e.active = s.active
  cells : ∀ c < base, e.cells[c]? = s.cells[c]?
  others : ∀ g ≠ h, e.heaps[g]? = s.heaps[g]?
  size : e.heaps.size = s.heaps.size
  contexts : (e.heap h).contexts = (s.heap h).contexts
  consumers : ∀ (d : ConsumerId) (x : Consumer), s.consumers[d]? = some x →
    ∃ y : Consumer, e.consumers[d]? = some y ∧ y.heap = x.heap
  kept : e.Private base h

/-- Neither a cell, a heap nor a consumer differs, nor which heap is active. -/
structure Unmoved (s e : Store) : Prop where
  active : e.active = s.active
  cells : e.cells = s.cells
  heaps : e.heaps = s.heaps
  consumers : e.consumers = s.consumers

theorem Unmoved.refl (s : Store) : Unmoved s s := ⟨rfl, rfl, rfl, rfl⟩

theorem Unmoved.trans (hm : Unmoved s m) (he : Unmoved m e) : Unmoved s e :=
  ⟨he.active.trans hm.active, he.cells.trans hm.cells, he.heaps.trans hm.heaps, he.consumers.trans hm.consumers⟩

namespace Apart

theorem of_unmoved (hs : s.Private base h) (he : Unmoved s e) : Apart base h s e := by
  have hheap : e.heap h = s.heap h := by rw [heap, heap, he.heaps]
  refine ⟨he.active, fun c _ => by rw [he.cells], fun g _ => by rw [he.heaps], by rw [he.heaps], by rw [hheap],
    fun d x hx => ⟨x, he.consumers.symm ▸ hx, rfl⟩, he.active.trans hs.active, he.cells.symm ▸ hs.size, fun c hc => ?_, ?_⟩
  · rw [state_of_cells he.cells]
    exact hs.state c hc
  · rw [hheap]
    exact hs.roots

theorem refl (hs : s.Private base h) : Apart base h s s := of_unmoved hs (.refl s)

theorem trans (hm : Apart base h s m) (he : Apart base h m e) : Apart base h s e where
  active := he.active.trans hm.active
  cells c hc := (he.cells c hc).trans (hm.cells c hc)
  others g hg := (he.others g hg).trans (hm.others g hg)
  size := he.size.trans hm.size
  contexts := he.contexts.trans hm.contexts
  consumers d x hx := by
    obtain ⟨y, hy, hxy⟩ := hm.consumers d x hx
    obtain ⟨z, hz, hyz⟩ := he.consumers d y hy
    exact ⟨z, hz, hyz.trans hxy⟩
  kept := he.kept

/-- A change to the private heap that puts nothing foreign among its roots. -/
theorem updateHeap (hs : s.Private base h) {f : Heap → Heap} (hcontexts : ∀ x, (f x).contexts = x.contexts)
    (hroots : ∀ entry ∈ (f (s.heap h)).roots, entry.2.Own base) : Apart base h s (s.updateHeap h f) := by
  refine ⟨rfl, fun _ _ => rfl, fun g hg => ?_, size_updateHeap s h f, field_updateHeap hcontexts s h h,
    fun d x hx => ⟨x, hx, rfl⟩, hs.active, hs.size, hs.state, ?_⟩
  · unfold Store.updateHeap
    rw [Array.getElem?_modify, if_neg (Ne.symm hg)]
  · by_cases hh : h < s.heaps.size
    · rw [heap_updateHeap hh]
      exact hroots
    · have hnone : (s.updateHeap h f).heaps[h]? = none :=
        Array.getElem?_eq_none ((size_updateHeap s h f).symm ▸ Nat.not_lt.1 hh)
      rw [heap, hnone]
      exact fun entry hentry => absurd hentry List.not_mem_nil

theorem register (hs : s.Private base h) {st : CellState} (hst : st.Own base) :
    Apart base h s (s.register h st) := by
  let made : Store := { s with cells := s.cells.push ⟨h, (s.heap h).created + 1, st, st⟩ }
  have hmade : Apart base h s made := by
    refine ⟨rfl, fun c hc => ?_, fun _ _ => rfl, rfl, rfl, fun d x hx => ⟨x, hx, rfl⟩, hs.active, ?_, fun c hc => ?_, hs.roots⟩
    · exact Array.getElem?_push_lt (Nat.lt_of_lt_of_le hc hs.size) |>.trans (Array.getElem?_eq_getElem _).symm
    · exact Nat.le_trans hs.size (Array.size_push .. ▸ Nat.le_succ _)
    · rcases Nat.lt_trichotomy c s.cells.size with hlt | rfl | hgt
      · rw [show made.state c = s.state c from state_register_of_lt hlt h st]
        exact hs.state c hc
      · rw [show made.state s.cells.size = st from state_register_new s h st]
        exact hst
      · rw [state_of_size_le (s := made) (Array.size_push .. ▸ hgt)]
        exact .null
  refine hmade.trans (updateHeap hmade.kept ?_ hmade.kept.roots)
  exact fun _ => rfl

theorem setState (hs : s.Private base h) {c : CellId} (hc : base ≤ c) {st : CellState} (hst : st.Own base) :
    Apart base h s (s.setState c st) := by
  refine ⟨rfl, fun d hd => ?_, fun _ _ => rfl, rfl, rfl, fun d x hx => ⟨x, hx, rfl⟩, hs.active, ?_, fun d hd => ?_, hs.roots⟩
  · exact (Array.getElem?_modify ..).trans (if_neg (Nat.ne_of_gt (Nat.lt_of_lt_of_le hd hc)))
  · exact (size_setState s c st).symm ▸ hs.size
  · by_cases hdc : d = c
    · subst hdc
      rcases Nat.lt_or_ge d s.cells.size with hlt | hge
      · rw [state_setState_self s d st hlt]
        exact hst
      · rw [state_of_size_le ((size_setState s d st).symm ▸ hge)]
        exact .null
    · rw [state_setState_of_ne s st hdc]
      exact hs.state d hd

end Apart
end Store

open Store (Apart Private Unmoved)

/-! ## Idle and confined computations -/

namespace Run
variable {α β : Type} {base : Nat} {h : HeapId}

/-- A computation that changes neither a cell, a heap nor a consumer, nor which heap is active. -/
def Idle (x : Run α) : Prop := ∀ s, Unmoved s (finalStore (x s))

@[grind ←] theorem idle_pure (a : α) : Idle (pure a : Run α) := fun s => .refl s

@[grind ←] theorem idle_get : Idle (get : Run Store) := fun s => .refl s

@[grind ←] theorem idle_reraise (e : FaultId) : Idle (reraise e : Run α) := fun s => .refl s

@[grind ←] theorem idle_bind {x : Run α} {f : α → Run β} (hx : Idle x) (hf : ∀ a, Idle (f a)) : Idle (x >>= f) := by
  intro s
  have hm := hx s
  rw [bind_apply]
  match x s, hm with
  | .ok a m, hm => exact hm.trans (hf a m)
  | .error _ _, hm => exact hm

@[grind ←] theorem idle_discard {x : Run α} (hx : Idle x) : Idle (discard x) := idle_bind hx fun _ => idle_pure _

@[grind ←] theorem idle_newFault (cause : Fault) (context : List Value) : Idle (newFault cause context) :=
  fun _ => ⟨rfl, rfl, rfl, rfl⟩

@[grind ←] theorem idle_freshTag : Idle freshTag := fun _ => ⟨rfl, rfl, rfl, rfl⟩

@[grind ←] theorem idle_note (e : Event) : Idle (note e) := fun _ => ⟨rfl, rfl, rfl, rfl⟩

@[grind ←] theorem idle_raiseIn (context : List Value) (cause : Fault) : Idle (raiseIn context cause : Run α) :=
  idle_bind (idle_newFault cause context) idle_reraise

@[grind ←] theorem idle_raise (cause : Fault) : Idle (raise cause : Run α) := idle_raiseIn [] cause

@[grind ←] theorem idle_raiseValue (v : Value) : Idle (raiseValue v : Run α) := by unfold raiseValue; grind

@[grind ←] theorem idle_typeName (v : Value) : Idle (typeName v) := by unfold typeName; grind

@[grind ←] theorem idle_lacks (v : Value) (attr : String) : Idle (lacks v attr : Run α) := by unfold lacks; grind

@[grind ←] theorem idle_told (x : Store → Except Fault α) : Idle (told x) := by unfold told; grind

@[grind ←] theorem idle_written (v : Value) : Idle (written v) := idle_told _

@[grind ←] theorem idle_lengthBetween (lo hi : Value) : Idle (lengthBetween lo hi) := by unfold lengthBetween; grind

@[grind ←] theorem idle_truth (v : Value) : Idle (truth v) := by unfold truth; grind

@[grind ←] theorem idle_checkKey (v : Value) : Idle (checkKey v) := by unfold checkKey; grind

@[grind ←] theorem idle_liveCount (h : HeapId) : Idle (liveCount h) := by unfold liveCount reachable; grind

/-- What a computation did from a store on stays apart; its value, if it has one, is like this. -/
def ConfinedAt (base : Nat) (h : HeapId) (q : α → Prop) (s : Store) : EStateM.Result Halt Store α → Prop
  | .ok a e => Apart base h s e ∧ q a
  | .error _ e => Apart base h s e

/-- On every private heap a computation stays apart; its values are like this. -/
def Confined (base : Nat) (h : HeapId) (q : α → Prop) (x : Run α) : Prop :=
  ∀ s : Store, s.Private base h → ConfinedAt base h q s (x s)

theorem ConfinedAt.apart {q : α → Prop} {s : Store} {r : EStateM.Result Halt Store α} (hr : ConfinedAt base h q s r) :
    Apart base h s (finalStore r) := by
  match r, hr with
  | .ok _ _, hr => exact hr.1
  | .error _ _, hr => exact hr

theorem ConfinedAt.after {q : α → Prop} {s m : Store} {r : EStateM.Result Halt Store α} (hm : Apart base h s m)
    (hr : ConfinedAt base h q m r) : ConfinedAt base h q s r := by
  match r, hr with
  | .ok _ _, hr => exact ⟨hm.trans hr.1, hr.2⟩
  | .error _ _, hr => exact hm.trans hr

theorem confinedAt_bind {q : α → Prop} {r : β → Prop} {x : Run α} {f : α → Run β} {s : Store}
    (hx : ConfinedAt base h q s (x s)) (hf : ∀ a m, Apart base h s m → q a → ConfinedAt base h r m (f a m)) :
    ConfinedAt base h r s ((x >>= f) s) := by
  rw [bind_apply]
  match x s, hx with
  | .ok a m, hx => exact .after hx.1 (hf a m hx.1 hx.2)
  | .error _ _, hx => exact hx

theorem confined_bind {q : α → Prop} {r : β → Prop} {x : Run α} {f : α → Run β} (hx : Confined base h q x)
    (hf : ∀ a, q a → Confined base h r (f a)) : Confined base h r (x >>= f) :=
  fun s hs => confinedAt_bind (hx s hs) fun a m hm ha => hf a ha m hm.kept

theorem confined_pure {q : α → Prop} {a : α} (ha : q a) : Confined base h q (pure a : Run α) :=
  fun _ hs => ⟨.refl hs, ha⟩

theorem confined_idle {x : Run α} (hx : Idle x) : Confined base h (fun _ => True) x := by
  intro s hs
  have he := Apart.of_unmoved hs (hx s)
  match x s, he with
  | .ok _ _, he => exact ⟨he, trivial⟩
  | .error _ _, he => exact he

theorem confined_raiseIn (q : α → Prop) (context : List Value) (cause : Fault) :
    Confined base h q (raiseIn context cause) :=
  fun s hs => Apart.of_unmoved hs (idle_raiseIn (α := α) context cause s)

theorem confined_raise (q : α → Prop) (cause : Fault) : Confined base h q (raise cause) := confined_raiseIn q [] cause

theorem confined_raiseValue (q : α → Prop) (v : Value) : Confined base h q (raiseValue v : Run α) := by
  intro s hs
  have hm := Apart.of_unmoved hs (idle_raiseValue (α := α) v s)
  cases v <;> exact hm

theorem confined_lacks (q : α → Prop) (v : Value) (attr : String) : Confined base h q (lacks v attr : Run α) :=
  confined_bind (confined_idle (idle_typeName v)) fun _ _ => confined_raise q _

theorem confined_cellOf {v : Value} (hv : v.Own base) (attr : String) :
    Confined base h (fun c => base ≤ c) (cellOf attr v) := by
  cases hv with
  | cell hc => exact confined_pure hc
  | _ => exact confined_lacks _ _ attr

theorem confined_cons {head tail : Value} (hhead : head.Own base) (htail : tail.Own base) :
    Confined base h (Value.Own base) (cons head tail) :=
  confined_bind (confined_idle idle_freshTag) fun tag _ => confined_pure (.cons tag hhead htail)

/-! ## Cells, samples and forces -/

theorem confined_suspend {t : Thunk} (ht : t.Own base) : Confined base h (fun c => base ≤ c) (suspend t) := by
  intro s hs
  rw [suspend_apply hs.active]
  exact ⟨.register hs ht, hs.size⟩

theorem confined_suspendSelf {thunk : CellId → Thunk} (ht : ∀ c, base ≤ c → (thunk c).Own base) :
    Confined base h (fun c => base ≤ c) (suspendSelf thunk) := by
  intro s hs
  rw [suspendSelf_apply hs.active]
  exact ⟨.register hs (ht _ hs.size), hs.size⟩

theorem confined_updateHeap {f : Heap → Heap} (hcontexts : ∀ x, (f x).contexts = x.contexts)
    (hroots : ∀ x, (f x).roots = x.roots) :
    Confined base h (fun _ => True) (modify fun s => s.updateHeap h f : Run Unit) := fun s hs =>
  ⟨.updateHeap hs hcontexts (hroots (s.heap h) ▸ hs.roots), trivial⟩

theorem confined_sample : Confined base h (fun _ => True) (sample h) := by
  refine confined_bind (confined_idle (idle_liveCount h)) fun live _ => ?_
  have hnote : Confined base h (fun _ => True) (modify fun s => s.noteLive h live : Run Unit) := by
    refine confined_updateHeap ?_ ?_
    all_goals exact fun _ => rfl
  refine confined_bind hnote fun _ _ => confined_bind (confined_idle idle_get) fun m _ => ?_
  exact confined_idle (idle_bind (idle_discard (idle_truth _)) fun _ => idle_pure live)

theorem confined_noteForced : Confined base h (fun _ => True) (noteForced h) := by
  have hcount : Confined base h (fun _ => True) (modify fun s => s.counted h : Run Unit) := by
    refine confined_updateHeap ?_ ?_
    all_goals exact fun _ => rfl
  refine confined_bind hcount fun _ _ => confined_bind (confined_idle idle_get) fun m _ => ?_
  refine confined_bind (confined_idle (idle_truth _)) fun b _ => ?_
  cases b with
  | false => exact confined_pure trivial
  | true => exact confined_bind confined_sample fun _ _ => confined_pure trivial

theorem confined_turn {q : Value → Prop} {body : Run Value} (hb : Confined base h q body) (owner : Option CellId)
    (t : Thunk) : Confined base h q (turn owner t body) := by
  intro s hs
  have hbegan : Apart base h s (s.recorded (.began owner s.active t)) := .of_unmoved hs ⟨rfl, rfl, rfl, rfl⟩
  have hrun := hb _ hbegan.kept
  rw [turn_apply]
  match body (s.recorded (.began owner s.active t)), hrun with
  | .ok v e, hrun =>
    exact ⟨(hbegan.trans hrun.1).trans (.of_unmoved hrun.1.kept ⟨rfl, rfl, rfl, rfl⟩), hrun.2⟩
  | .error (.raised x) e, hrun =>
    exact (hbegan.trans hrun).trans (.of_unmoved (Apart.kept hrun) ⟨rfl, rfl, rfl, rfl⟩)
  | .error .tooDeep e, hrun => exact hbegan.trans hrun

/-- **A force stays apart if the own thunks do.** -/
theorem confined_force {run : Runner}
    (hrun : ∀ owner t, t.Own base → Confined base h (Value.Own base) (run owner t)) {c : CellId} (hc : base ≤ c) :
    Confined base h (Value.Own base) (force run c) := by
  intro s hs
  have hstate := hs.state c hc
  rw [force_apply]
  cases hc' : s.state c with
  | evaluated v => exact ⟨.refl hs, by rwa [hc'] at hstate⟩
  | failed error => exact confined_raiseValue _ error s hs
  | inProgress t => exact confined_raiseIn _ _ _ s hs
  | suspended t =>
    rw [hc'] at hstate
    have hmarked : Apart base h s (s.setState c (.inProgress t)) := .setState hs hc hstate
    have hbody := hrun (some c) t hstate _ hmarked.kept
    rw [hs.active]
    dsimp only
    match run (some c) t (s.setState c (.inProgress t)), hbody with
    | .ok v e, hbody =>
      have hvalued : Apart base h e (e.setState c (.evaluated v)) := .setState hbody.1.kept hc hbody.2
      have hnote := (confined_noteForced _ hvalued.kept).apart
      have hall : ConfinedAt base h (Value.Own base) (e.setState c (.evaluated v))
          (((fun _ => v) <$> noteForced h) (e.setState c (.evaluated v))) := by
        rw [map_apply]
        match noteForced h (e.setState c (.evaluated v)), hnote with
        | .ok _ _, hnote => exact ⟨hnote, hbody.2⟩
        | .error _ _, hnote => exact hnote
      exact .after ((hmarked.trans hbody.1).trans hvalued) hall
    | .error (.raised x) e, hbody => exact (hmarked.trans hbody).trans (.setState (Apart.kept hbody) hc trivial)
    | .error .tooDeep e, hbody => exact hmarked.trans hbody

end Run

open Run (Confined ConfinedAt confined_bind confined_pure confined_idle)

/-! ## Lists and their repetitions -/

section
variable {run : Runner} {base : Nat} {h : HeapId}

/-- A runner that stays apart with own thunks. -/
def Runner.Confined (run : Runner) (base : Nat) (h : HeapId) : Prop :=
  ∀ owner t, t.Own base → Run.Confined base h (Value.Own base) (run owner t)

theorem confined_forceValue (hrun : run.Confined base h) {v : Value} (hv : v.Own base) :
    Confined base h (Value.Own base) (forceValue run v) :=
  confined_bind (Run.confined_cellOf hv "state") fun _ hc => Run.confined_force hrun hc

namespace Sequence

theorem confined_between (lo hi : Int) : Confined base h (fun c => base ≤ c) (between (.int lo) (.int hi)) :=
  confined_bind (confined_idle Run.idle_freshTag) fun tag _ => Run.confined_suspend (.intervalNode tag lo hi)

theorem confined_intervalNode (tag : Tag) (lo hi : Int) :
    Confined base h (Value.Own base) (intervalNode tag (.int lo) (.int hi)) := by
  refine confined_bind (confined_idle (Run.idle_lengthBetween _ _)) fun length _ => ?_
  split
  · exact confined_pure (.nil 0)
  · refine confined_bind (Run.confined_suspend (.intervalHead tag lo hi)) fun head hhead => ?_
    refine confined_bind (confined_pure (q := fun v => v = .int (lo + 1)) rfl) fun next hnext => ?_
    subst hnext
    refine confined_bind (confined_between (lo + 1) hi) fun tail htail => ?_
    exact Run.confined_cons (.cell hhead) (.cell htail)

theorem confined_noElement (q : Value → Prop) (tag : Tag) (lo hi i : Value) :
    Confined base h q (noElement tag lo hi i) :=
  confined_bind (confined_idle (Run.idle_written _)) fun _ _ =>
    confined_bind (confined_idle (Run.idle_told _)) fun _ _ => Run.confined_raise q _

theorem confined_element (tag : Tag) (lo hi i : Int) :
    Confined base h (Value.Own base) (element tag (.int lo) (.int hi) (.int i)) := by
  show Confined base h (Value.Own base) (if i < 0 then _ else _)
  split
  · exact confined_noElement _ _ _ _ _
  · refine confined_bind (confined_idle (Run.idle_lengthBetween _ _)) fun length _ => ?_
    split
    · exact confined_pure (.int (lo + i))
    · exact confined_noElement _ _ _ _ _

theorem confined_append {xs ys : Value} (hx : xs.Own base) (hy : ys.Own base) :
    Confined base h (fun c => base ≤ c) (append xs ys) := Run.confined_suspend (.appendNode hx hy)

theorem confined_appendNode (hrun : run.Confined base h) {xs ys : Value} (hx : xs.Own base) (hy : ys.Own base) :
    Confined base h (Value.Own base) (appendNode run xs ys) := by
  refine confined_bind (confined_forceValue hrun hx) fun node hnode => ?_
  cases hnode with
  | nil tag => exact confined_forceValue hrun hy
  | cons tag hhead htail =>
    exact confined_bind (confined_append htail hy) fun rest hrest => Run.confined_cons hhead (.cell hrest)
  | _ => exact confined_pure .null

theorem confined_dropSteps (hrun : run.Confined base h) (n : Nat) {xs : Value} (hx : xs.Own base) :
    Confined base h (Value.Own base) (dropSteps run n xs) := by
  induction n generalizing xs with
  | zero => exact confined_pure hx
  | succ n ih =>
    refine confined_bind (confined_forceValue hrun hx) fun node hnode => ?_
    cases hnode with
    | cons tag hhead htail => exact ih htail
    | _ => exact confined_pure hx

theorem confined_head (hrun : run.Confined base h) {xs : Value} (hx : xs.Own base) :
    Confined base h (Value.Own base) (head run xs) := by
  refine confined_bind (Run.confined_cellOf hx "state") fun c hc => ?_
  refine confined_bind (Run.confined_force hrun hc) fun node hnode => ?_
  cases hnode with
  | nil tag => exact confined_bind (confined_idle Run.idle_get) fun _ _ => Run.confined_raiseIn _ _ _
  | cons tag hhead htail => exact confined_pure hhead
  | _ => exact confined_pure .null

end Sequence

namespace Cycle

theorem confined_lap (hrun : run.Confined base h) {source : Value} (hs : source.Own base) {next : Thunk}
    (hnext : next.Own base) : Confined base h (Value.Own base) (lap run source next) := by
  refine confined_bind (Run.confined_cellOf hs "state") fun c hc => ?_
  refine confined_bind (Run.confined_force hrun hc) fun node _ => ?_
  refine confined_bind (confined_idle (Run.idle_truth node)) fun b _ => ?_
  have hrest : Confined base h (Value.Own base) (do
      let rest ← Run.suspend next
      force run (← Sequence.append source (.cell rest))) := by
    refine confined_bind (Run.confined_suspend hnext) fun rest hrest => ?_
    exact confined_bind (Sequence.confined_append hs (.cell hrest)) fun _ hc => Run.confined_force hrun hc
  cases b with
  | true => exact hrest
  | false =>
    refine confined_bind (confined_idle Run.idle_get) fun m _ => ?_
    exact confined_bind (Run.confined_raiseIn (fun _ => True) _ _) fun _ _ => hrest

end Cycle

/-- What an own thunk does stays apart, if that is so of the thunks it runs. -/
theorem Thunk.confined_produce (p : Program) (hrun : run.Confined base h) {t : Thunk} (ht : t.Own base) :
    Confined base h (Value.Own base) (t.produce p run) := by
  cases ht with
  | intervalNode tag lo hi => exact Sequence.confined_intervalNode tag lo hi
  | intervalHead tag lo hi => exact Sequence.confined_element tag lo hi 0
  | appendNode hx hy => exact Sequence.confined_appendNode hrun hx hy
  | cycleStart ho hs =>
    refine confined_bind (confined_idle Run.idle_freshTag) fun tag _ => ?_
    exact Cycle.confined_lap hrun hs (.sharedLap tag hs (.cell ho))
  | sharedLap tag hs ho => exact Cycle.confined_lap hrun hs (.sharedLap tag hs ho)
  | freshLap tag lo hi =>
    have hmake : Confined base h (Value.Own base) (Cycle.make run (.interval (.int lo) (.int hi))) :=
      confined_bind (Sequence.confined_between lo hi) fun _ hc => confined_pure (.cell hc)
    exact confined_bind hmake fun source hs => Cycle.confined_lap hrun hs (.freshLap tag lo hi)

/-- **Own thunks stay apart, however deep they nest.** -/
theorem Program.confined_runAt (p : Program) (base : Nat) (h : HeapId) (depth : Nat) :
    (p.runAt depth).Confined base h := by
  induction depth with
  | zero =>
    have hdeep : Confined base h (Value.Own base) (throw .tooDeep) := fun s hs => Apart.refl hs
    exact fun owner t _ => Run.confined_turn hdeep owner t
  | succ depth ih => exact fun owner t ht => Run.confined_turn (t.confined_produce p ih ht) owner t

end

namespace Discipline
variable {base : Nat} {h : HeapId}

theorem confined_cycle (d : Discipline) (lo hi : Int) :
    Confined base h (fun c => base ≤ c) (d.cycle (.int lo) (.int hi)) := by
  cases d with
  | need =>
    refine confined_bind (Sequence.confined_between lo hi) fun source hs => ?_
    exact Run.confined_suspendSelf fun origin ho => .cycleStart ho (.cell hs)
  | name => exact confined_bind (confined_idle Run.idle_freshTag) fun tag _ => Run.confined_suspend (.freshLap tag lo hi)

end Discipline

/-! ## Consumers -/

namespace Run
variable {base : Nat} {h : HeapId}

theorem confined_setRoot {v : Value} (hv : v.Own base) (name : Value) :
    Confined base h (fun _ => True) (setRoot h name v) := by
  refine confined_bind (confined_idle (idle_checkKey name)) fun _ _ s hs => ⟨.updateHeap hs ?_ fun entry hentry => ?_, trivial⟩
  · exact fun _ => rfl
  · rcases Entries.mem_put hentry with ⟨old, hold, heq⟩ | hnew
    · exact heq ▸ hs.roots old hold
    · exact hnew.symm ▸ hv

theorem confined_root (name : Value) : Confined base h (Value.Own base) (root h name) := by
  refine confined_bind (confined_idle (idle_checkKey name)) fun _ _ s hs => ?_
  rw [bind_ok (get_apply s)]
  cases hget : Entries.get? s.equal (s.heap h).roots name with
  | none => exact confined_raise _ _ s hs
  | some v =>
    obtain ⟨entry, hentry, rfl⟩ := Option.map_eq_some_iff.1 hget
    exact ⟨.refl hs, hs.roots entry (List.mem_of_find?_eq_some hentry)⟩

end Run

namespace Consumer
variable {run : Runner} {base : Nat} {h : HeapId} {s e : Store} {d : ConsumerId}

/-- A consumer of a list on a heap. -/
def Walks (s : Store) (d : ConsumerId) (h : HeapId) : Prop := ∃ x, find d s = .ok x s ∧ s.consumers[d]? = some x ∧ x.heap = h

theorem walks_of_get {x : Consumer} (hx : s.consumers[d]? = some x) : Walks s d x.heap := ⟨x, find_apply hx, hx, rfl⟩

theorem Walks.apart (hd : Walks s d h) (he : Apart base h s e) : Walks e d h := by
  obtain ⟨x, -, hx, rfl⟩ := hd
  obtain ⟨y, hy, hxy⟩ := he.consumers d x hx
  exact hxy ▸ walks_of_get hy

theorem confined_new {xs : Value} (hx : xs.Own base) (samples : Value) :
    Confined base h (fun _ => True) (new h samples xs) := by
  have hpush : Confined base h (fun _ => True)
      (modifyGet fun s => (s.consumers.size, { s with consumers := s.consumers.push ⟨h, samples, 0⟩ })) := by
    refine fun s hs => ⟨⟨rfl, fun _ _ => rfl, fun _ _ => rfl, rfl, rfl, fun d x hd => ⟨x, ?_, rfl⟩, { hs with }⟩, trivial⟩
    obtain ⟨hlt, hget⟩ := Array.getElem?_eq_some_iff.1 hd
    exact (Array.getElem?_push_lt hlt).trans (congrArg some hget)
  refine confined_bind (Run.confined_setRoot hx rootName) fun _ _ => ?_
  refine confined_bind (confined_idle (Run.idle_truth samples)) fun b _ => ?_
  cases b with
  | false => exact hpush
  | true =>
    have hsample : Confined base h (fun _ => True) (discard (Run.sample h)) :=
      confined_bind Run.confined_sample fun _ _ => confined_pure trivial
    exact confined_bind hsample fun _ _ => hpush

theorem walks_of_new {samples xs : Value} (hnew : new h samples xs s = .ok d e) : Walks e d h := by
  have hlast : ∀ m : Store, (modifyGet (fun s : Store =>
      (s.consumers.size, { s with consumers := s.consumers.push ⟨h, samples, 0⟩ })) : Run ConsumerId) m = .ok d e →
      Walks e d h := fun m hm => by
    cases hm
    exact walks_of_get (x := ⟨h, samples, 0⟩) Array.getElem?_push_size
  obtain ⟨_, m, -, hrest⟩ := Run.bind_eq_ok hnew
  obtain ⟨b, m', -, hrest⟩ := Run.bind_eq_ok hrest
  cases b with
  | false => exact hlast m' hrest
  | true =>
    obtain ⟨_, m'', -, hrest⟩ := Run.bind_eq_ok hrest
    exact hlast m'' hrest

theorem confinedAt_remaining (hs : s.Private base h) (hd : Walks s d h) :
    ConfinedAt base h (Value.Own base) s (remaining d s) := by
  obtain ⟨x, hfind, -, rfl⟩ := hd
  unfold remaining
  rw [Run.bind_ok hfind]
  exact Run.confined_root rootName s hs

theorem confinedAt_step (hrun : run.Confined base h) (hs : s.Private base h) (hd : Walks s d h) :
    ConfinedAt base h (fun _ => True) s (step run d s) := by
  refine Run.confinedAt_bind (confinedAt_remaining hs hd) fun current m hm hcurrent => ?_
  refine Run.confinedAt_bind (Sequence.confined_dropSteps hrun 1 hcurrent m hm.kept) fun rest m' hm' hrest => ?_
  obtain ⟨x, hfind, -, rfl⟩ := (hd.apart hm).apart hm'
  rw [Run.bind_ok hfind]
  split
  · exact confined_idle (Run.idle_bind (Run.idle_note _) fun _ => Run.idle_pure false) m' hm'.kept
  · have hcount : Confined base x.heap (fun _ => True) (modify fun s =>
        { s with consumers := s.consumers.modify d fun y => { y with steps := x.steps + 1 } } : Run Unit) := by
      refine fun s hs => ⟨⟨rfl, fun _ _ => rfl, fun _ _ => rfl, rfl, rfl, fun c y hy => ?_, { hs with }⟩, trivial⟩
      refine ⟨if d = c then { y with steps := x.steps + 1 } else y, ?_, by split <;> rfl⟩
      refine (Array.getElem?_modify ..).trans ?_
      rw [hy]
      split <;> rfl
    refine confined_bind (Run.confined_setRoot hrest rootName) (fun _ _ => confined_bind hcount fun _ _ => ?_) m' hm'.kept
    refine confined_bind (confined_idle (Run.idle_truth _)) fun b _ => ?_
    cases b with
    | false => exact confined_pure trivial
    | true =>
      refine confined_bind Run.confined_sample fun live _ => ?_
      exact confined_idle (Run.idle_bind (Run.idle_note _) fun _ => Run.idle_pure true)

theorem confinedAt_advance (hrun : run.Confined base h) (n : Nat) (hs : s.Private base h) (hd : Walks s d h) :
    ConfinedAt base h (fun _ => True) s (advance run d n s) := by
  induction n generalizing s with
  | zero => exact ⟨.refl hs, trivial⟩
  | succ n ih =>
    refine Run.confinedAt_bind (confinedAt_step hrun hs hd) fun b m hm _ => ?_
    cases b with
    | false => exact ⟨.refl hm.kept, trivial⟩
    | true => exact ih hm.kept (hd.apart hm)

theorem confinedAt_drop (hrun : run.Confined base h) (n : Int) (hs : s.Private base h) (hd : Walks s d h) :
    ConfinedAt base h (Value.Own base) s (drop run d n s) :=
  Run.confinedAt_bind (confinedAt_advance hrun n.toNat hs hd) fun _ _ hm _ => confinedAt_remaining hm.kept (hd.apart hm)

theorem confinedAt_headValue (hrun : run.Confined base h) (hs : s.Private base h) (hd : Walks s d h) :
    ConfinedAt base h (Value.Own base) s (headValue run d s) := by
  have hhead : ConfinedAt base h (Value.Own base) s (head run d s) :=
    Run.confinedAt_bind (confinedAt_remaining hs hd) fun xs m hm hxs => Sequence.confined_head hrun hxs m hm.kept
  exact Run.confinedAt_bind hhead fun v m hm hv => confined_forceValue hrun hv m hm.kept

end Consumer

/-! ## Scenarios -/

namespace Scenario
variable {s : Store}

theorem confined_measure {run : Runner} {base : Nat} {h : HeapId} (hrun : run.Confined base h) (d : Discipline)
    (lo hi drop : Int) (traces samples : Value) :
    Confined base h (fun _ => True) (measure run ⟨.int lo, .int hi, .int drop, traces, samples⟩ d h) := by
  refine confined_bind (confined_idle (Run.idle_note _)) fun _ _ => ?_
  refine confined_bind (d.confined_cycle lo hi) fun c hc s hs => ?_
  cases hnew : Consumer.new h samples (.cell c) s with
  | error x e =>
    have herror := Consumer.confined_new (.cell hc) samples s hs
    rw [hnew] at herror
    rw [Run.bind_error hnew]
    exact herror
  | ok w m =>
    have hm := Consumer.confined_new (.cell hc) samples s hs
    rw [hnew] at hm
    have hw := Consumer.walks_of_new hnew
    rw [Run.bind_ok hnew]
    refine .after hm.1 ?_
    have hdrop : ConfinedAt base h (fun _ => True) m (discard (Consumer.drop run w drop) m) :=
      Run.confinedAt_bind (Consumer.confinedAt_drop hrun drop hm.1.kept hw) fun _ _ he _ => ⟨.refl he.kept, trivial⟩
    rw [Run.bind_ok (show Run.integerOf (.int drop) m = .ok drop m from rfl)]
    refine Run.confinedAt_bind hdrop fun _ m' hm' _ => ?_
    refine Run.confinedAt_bind (Consumer.confinedAt_headValue hrun hm'.kept (hw.apart hm')) fun v m'' hm'' _ => ?_
    refine confined_bind Run.confined_sample (fun live _ => ?_) m'' hm''.kept
    exact confined_idle (Run.idle_bind Run.idle_get fun _ => Run.idle_pure _)

/-- The store in which a scenario measures: its heap is made and entered. -/
def started (s : Store) (traces : Value) : Store :=
  ({ s with heaps := s.heaps.push { traces := traces, temporary := true } } : Store).opened s.heaps.size

theorem heap_started (s : Store) (traces : Value) :
    (started s traces).heap s.heaps.size = { traces := traces, temporary := true, contexts := [s.active] } := by
  let made : Store := { s with heaps := s.heaps.push { traces := traces, temporary := true } }
  have hlt : s.heaps.size < made.heaps.size := Array.size_push .. ▸ Nat.lt_succ_self _
  have hmade : made.heap s.heaps.size = { traces := traces, temporary := true } := by
    unfold Store.heap
    rw [Array.getElem?_push_size]
    rfl
  exact (Store.heap_entered hlt).trans (by rw [hmade])

theorem size_started (s : Store) (traces : Value) : (started s traces).heaps.size = s.heaps.size + 1 :=
  (Store.size_updateHeap ..).trans (Array.size_push ..)

theorem opened_started (s : Store) (traces : Bool) : Opened s traces (started s (.bool traces)) := by
  have hheap := heap_started s (.bool traces)
  refine ⟨rfl, ⟨rfl, ?_, congrArg Heap.samplesForces hheap⟩, hheap⟩
  exact size_started s _ ▸ Nat.lt_succ_self _

theorem private_started (s : Store) (traces : Value) : (started s traces).Private s.cells.size s.heaps.size := by
  refine ⟨rfl, Nat.le_refl _, fun c hc => ?_, fun entry hentry => ?_⟩
  · rw [Store.state_of_size_le (s := started s traces) hc]
    exact .null
  · rw [heap_started] at hentry
    exact absurd hentry List.not_mem_nil

/-- What a scenario leaves of the store that it began in: all of it, with one more heap that has neither roots nor a
table. -/
structure Isolated (s f : Store) : Prop where
  active : f.active = s.active
  cells : ∀ c < s.cells.size, f.cells[c]? = s.cells[c]?
  heaps : ∀ h < s.heaps.size, f.heaps[h]? = s.heaps[h]?
  size : f.heaps.size = s.heaps.size + 1
  roots : (f.heap s.heaps.size).roots = []
  table : (f.heap s.heaps.size).table = #[]

/-- The heap of a scenario can be left after what stays apart, and then the scenario has left everything as it was. -/
theorem leave_of_apart {e : Store} {traces : Value} (he : Apart s.cells.size s.heaps.size (started s traces) e) :
    ∃ f, Run.leave s.heaps.size e = .ok () f ∧ Isolated s f ∧ f.faults = e.faults ∧ f.cells = e.cells := by
  have hcontexts : (e.heap s.heaps.size).contexts = [s.active] := by rw [he.contexts, heap_started]
  have hlt := Store.lt_of_contexts hcontexts
  have hheap := Store.heap_exited hlt s.active []
  refine ⟨_, Store.leave_apply hcontexts, ⟨rfl, fun c hc => he.cells c hc, fun g hg => ?_, ?_, ?_, ?_⟩, rfl, rfl⟩
  · have hne : s.heaps.size ≠ g := Nat.ne_of_gt hg
    refine Eq.trans ?_ ((he.others g hne.symm).trans ?_)
    · refine (Array.getElem?_modify ..).trans ((if_neg hne).trans ?_)
      exact (Array.getElem?_modify ..).trans (if_neg hne)
    · refine (Array.getElem?_modify ..).trans ((if_neg hne).trans ?_)
      exact (Array.getElem?_push_lt hg).trans (Array.getElem?_eq_getElem hg).symm
  · rw [Store.size_exited, he.size, size_started]
  · rw [hheap]
  · rw [hheap]

/-- A scenario reports what it measures, and leaves everything as it was. -/
theorem report_ok {p : Program} {depth : Nat} {d : Discipline} {lo hi drop : Int} {traces samples : Value} {r : Report}
    {e : Store} (hmeasure : measure (p.runAt depth) ⟨.int lo, .int hi, .int drop, traces, samples⟩ d s.heaps.size
      (started s traces) = .ok r e) : ∃ f,
    report (p.runAt depth) ⟨.int lo, .int hi, .int drop, traces, samples⟩ d s = .ok r f ∧ Isolated s f := by
  have he := confined_measure (p.confined_runAt _ _ depth) d lo hi drop traces samples _ (private_started s traces)
  rw [hmeasure] at he
  obtain ⟨f, hleave, hf, -, -⟩ := leave_of_apart he.1
  refine ⟨f, ?_, hf⟩
  unfold report
  rw [within_eq]
  exact Run.inside_ok hmeasure hleave

/-- A scenario raises the error that its measuring raises, and leaves everything as it was. -/
theorem report_raised {p : Program} {depth : Nat} {d : Discipline} {lo hi drop : Int} {traces samples : Value}
    {x : FaultId} {e : Store} (hmeasure : measure (p.runAt depth) ⟨.int lo, .int hi, .int drop, traces, samples⟩ d
      s.heaps.size (started s traces) = .error (.raised x) e) : ∃ f,
    report (p.runAt depth) ⟨.int lo, .int hi, .int drop, traces, samples⟩ d s = .error (.raised x) f ∧ Isolated s f ∧
      f.faults = e.faults ∧ f.cells = e.cells := by
  have he := confined_measure (p.confined_runAt _ _ depth) d lo hi drop traces samples _ (private_started s traces)
  rw [hmeasure] at he
  obtain ⟨f, hleave, hf, hfaults, hcells⟩ := leave_of_apart he
  refine ⟨f, ?_, hf, hfaults, hcells⟩
  unfold report
  rw [within_eq]
  exact Run.inside_raised hmeasure hleave

end Scenario
end Retention
