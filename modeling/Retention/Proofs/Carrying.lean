import Retention.Proofs.Sampling
import Retention.Proofs.Unrolling
/-!
# Carrying — what is left of a shared repetition carries its origin

Each step along a shared repetition forgets the cell it came from, so nothing refers to the origin but a lap that was
not looked at yet.  `Store.Carries` says that links lead from a cell to such a lap, and counts them.  The count tells
cells apart: what has fewer links does not lead by what has more (`Carries.before`).

A change of the store spares the repetition (`Store.Spares`) if it leaves all these cells as they are.  It sustains the
repetition (`Store.Sustains`) if they change only from suspended to something else, and links lead to a lap from each
of them afterwards.
-/
namespace Retention

/-- A thunk for a lap of the shared repetition of a list that has the given origin. -/
def Thunk.IsLapOf (origin source : CellId) (t : Thunk) : Prop :=
  t = .cycleStart origin (.cell source) ∨ ∃ tag, t = .sharedLap tag (.cell source) (.cell origin)

namespace Store

/-- From a cell, so many links lead to a lap that waits or runs: by the tails of nodes that are evaluated, and from a
concatenation that waits or runs to its second list. -/
inductive Carries (s : Store) (origin source : CellId) : Nat → CellId → Prop
  | lap {c : CellId} {t : Thunk} (hc : (s.state c).thunk? = some t) (ht : t.IsLapOf origin source) :
    Carries s origin source 0 c
  | tail {n : Nat} {c y : CellId} {xs : Value} (hc : (s.state c).thunk? = some (.appendNode xs (.cell y)))
    (hy : Carries s origin source n y) : Carries s origin source (n + 1) c
  | node {n : Nat} {c r : CellId} {tag : Tag} {head : Value} (hc : s.state c = .evaluated (.cons tag head (.cell r)))
    (hr : Carries s origin source n r) : Carries s origin source (n + 1) c

namespace Carries
variable {s e : Store} {origin source c b r : CellId} {n m : Nat}

theorem unique (h : s.Carries origin source n c) (h' : s.Carries origin source m c) : n = m := by
  induction h generalizing m with
  | lap hc ht =>
    cases h' with
    | lap => rfl
    | tail hc' =>
      cases hc.symm.trans hc'
      obtain ht | ⟨_, ht⟩ := ht <;> cases ht
    | node hc' =>
      rw [hc'] at hc
      cases hc
  | tail hc hy ih =>
    cases h' with
    | lap hc' ht =>
      cases hc.symm.trans hc'
      obtain ht | ⟨_, ht⟩ := ht <;> cases ht
    | tail hc' hy' =>
      cases hc.symm.trans hc'
      rw [ih hy']
    | node hc' =>
      rw [hc'] at hc
      cases hc
  | node hc hr ih =>
    cases h' with
    | lap hc' | tail hc' =>
      rw [hc] at hc'
      cases hc'
    | node hc' hr' =>
      cases hc.symm.trans hc'
      rw [ih hr']

theorem lt (h : s.Carries origin source n c) : c < s.cells.size := by
  cases h with
  | lap hc | tail hc =>
    refine lt_of_state rfl fun heq => ?_
    rw [heq] at hc
    cases hc
  | node hc => exact lt_of_state hc (by simp)

/-- Links stay as long as no state on the way changes, but for a thunk that begins to run. -/
theorem congr (h : s.Carries origin source n c)
    (hsame : ∀ k b, k ≤ n → s.Carries origin source k b → (e.state b).thunk? = (s.state b).thunk? ∧
      ∀ v, s.state b = .evaluated v → e.state b = .evaluated v) : e.Carries origin source n c := by
  induction h with
  | lap hc ht => exact .lap ((hsame 0 _ (Nat.le_refl 0) (.lap hc ht)).1.trans hc) ht
  | @tail n c y xs hc hy ih =>
    refine .tail ((hsame _ c (Nat.le_refl _) (.tail hc hy)).1.trans hc) (ih fun k b hk hb => ?_)
    exact hsame k b (Nat.le_succ_of_le hk) hb
  | @node n c r tag head hc hr ih =>
    refine .node ((hsame _ c (Nat.le_refl _) (.node hc hr)).2 _ hc) (ih fun k b hk hb => ?_)
    exact hsame k b (Nat.le_succ_of_le hk) hb

theorem congr_state (h : s.Carries origin source n c)
    (hsame : ∀ k b, k ≤ n → s.Carries origin source k b → e.state b = s.state b) : e.Carries origin source n c :=
  h.congr fun k b hk hb => by
    have heq := hsame k b hk hb
    exact ⟨by rw [heq], fun v hv => heq.trans hv⟩

/-- What has fewer links than a cell does not lead by that cell, so a change of that cell does not concern it. -/
theorem before (hb : s.Carries origin source n b) (hc : s.Carries origin source m c) (hlt : n < m)
    (hsame : ∀ d ≠ c, e.state d = s.state d) : e.Carries origin source n b :=
  hb.congr_state fun k d hk hd => hsame d fun heq => by
    cases heq
    exact Nat.not_le_of_lt hlt (hd.unique hc ▸ hk)

theorem began {t : Thunk} (hb : s.Carries origin source n b) (hc : s.state c = .suspended t) (g : HeapId) :
    (s.began c g t).Carries origin source n b := by
  refine hb.congr fun k d _ _ => ?_
  by_cases hdc : d = c
  · subst hdc
    rw [show (s.began d g t).state d = .inProgress t from state_setState_self s d _ (lt_of_suspended hc), hc]
    exact ⟨rfl, fun v hv => by cases hv⟩
  · rw [state_began_of_ne s hdc]
    exact ⟨rfl, fun v hv => hv⟩

/-- A cell that gets a node from whose tail links lead on breaks no links. -/
theorem finish {tag : Tag} {head : Value} (hb : s.Carries origin source n b) (hsame : ∀ d ≠ c, e.state d = s.state d)
    (hc : e.state c = .evaluated (.cons tag head (.cell r))) (hr : e.Carries origin source m r) :
    ∃ k, e.Carries origin source k b := by
  induction hb with
  | @lap d t hd ht =>
    by_cases heq : d = c
    · exact ⟨_, .node (heq ▸ hc) hr⟩
    · exact ⟨0, .lap (by rw [hsame d heq, hd]) ht⟩
  | @tail n d y xs hd _ ih =>
    obtain ⟨k, hk⟩ := ih
    by_cases heq : d = c
    · exact ⟨_, .node (heq ▸ hc) hr⟩
    · exact ⟨k + 1, .tail (by rw [hsame d heq, hd]) hk⟩
  | @node n d r' tag' head' hd _ ih =>
    obtain ⟨k, hk⟩ := ih
    by_cases heq : d = c
    · exact ⟨_, .node (heq ▸ hc) hr⟩
    · exact ⟨k + 1, .node ((hsame d heq).trans hd) hk⟩

/-- References lead to the origin and to the list. -/
theorem path (h : s.Carries origin source n c) : s.Path c origin ∧ s.Path c source := by
  have hrefs : ∀ {d : CellId} {t : Thunk}, (s.state d).thunk? = some t → s.refs d = t.refs := fun {d t} hd => by
    unfold refs
    cases hstate : s.state d with
    | suspended u | inProgress u =>
      rw [hstate] at hd
      cases hd
      rfl
    | evaluated v | failed v =>
      rw [hstate] at hd
      cases hd
  induction h with
  | @lap c t hc ht =>
    have hmem : .cell origin ∈ s.refs c ∧ .cell source ∈ s.refs c := by
      rw [hrefs hc]
      obtain rfl | ⟨tag, rfl⟩ := ht
      · exact ⟨List.mem_cons_self, List.mem_cons_of_mem _ List.mem_cons_self⟩
      · exact ⟨List.mem_cons_of_mem _ List.mem_cons_self, List.mem_cons_self⟩
    exact ⟨.step hmem.1 (.refl _), .step hmem.2 (.refl _)⟩
  | @tail n c y xs hc _ ih =>
    have hmem : .cell y ∈ s.refs c := by
      rw [hrefs hc]
      show .cell y ∈ Value.refsOfAll [xs, .cell y]
      simp [Value.refsOfAll, Value.refs]
    exact ⟨.step hmem ih.1, .step hmem ih.2⟩
  | @node n c r tag head hc _ ih =>
    have hmem : .cell r ∈ s.refs c := by
      rw [refs_of_state hc]
      exact List.mem_cons_of_mem _ List.mem_cons_self
    exact ⟨.step hmem ih.1, .step hmem ih.2⟩

end Carries

/-! ## What leaves links in place -/

/-- The roots of a heap stay, and every consumer stays on its heap. -/
structure Leaves (h : HeapId) (s e : Store) : Prop where
  roots : (e.heap h).roots = (s.heap h).roots
  consumers : ∀ (d : ConsumerId) x, s.consumers[d]? = some x → ∃ y, e.consumers[d]? = some y ∧ y.heap = x.heap

/-- Nothing changes for a cell from which links lead to a lap, nor for the roots of the heap. -/
structure Spares (h : HeapId) (origin source : CellId) (s e : Store) : Prop extends Leaves h s e where
  state : ∀ n c, s.Carries origin source n c → e.state c = s.state c

/-- Where links led to a lap they still do, and of the cells they lead from only suspended ones changed. -/
structure Sustains (origin source : CellId) (s e : Store) : Prop where
  carries : ∀ n c, s.Carries origin source n c → ∃ m, e.Carries origin source m c
  settled : ∀ n c, s.Carries origin source n c → (∀ t, s.state c ≠ .suspended t) → e.state c = s.state c

variable {h : HeapId} {origin source : CellId} {s m e : Store}

namespace Leaves

theorem refl (h : HeapId) (s : Store) : s.Leaves h s := ⟨rfl, fun _ x hx => ⟨x, hx, rfl⟩⟩

theorem trans (hl : s.Leaves h m) (hl' : m.Leaves h e) : s.Leaves h e := by
  refine ⟨hl'.roots.trans hl.roots, fun d x hx => ?_⟩
  obtain ⟨y, hy, hyx⟩ := hl.consumers d x hx
  obtain ⟨z, hz, hzy⟩ := hl'.consumers d y hy
  exact ⟨z, hz, hzy.trans hyx⟩

theorem of_eq (hr : (e.heap h).roots = (s.heap h).roots) (hc : e.consumers = s.consumers) : s.Leaves h e :=
  ⟨hr, fun _ x hx => ⟨x, hc ▸ hx, rfl⟩⟩

theorem updateHeap {f : Heap → Heap} (hf : ∀ x, (f x).roots = x.roots) (s : Store) (g : HeapId) :
    s.Leaves h (s.updateHeap g f) := .of_eq (field_updateHeap hf s g h) rfl

theorem counted (s : Store) (g : HeapId) : s.Leaves h (s.counted g) := by
  refine .updateHeap ?_ s g
  exact fun _ => rfl

theorem noteLive (s : Store) (g : HeapId) (live : Nat) : s.Leaves h (s.noteLive g live) := by
  refine .updateHeap ?_ s g
  exact fun _ => rfl

theorem register (s : Store) (g : HeapId) (st : CellState) : s.Leaves h (s.register g st) := by
  refine .of_eq ?_ rfl
  refine field_updateHeap (r := Heap.roots) ?_ { s with cells := s.cells.push _ } g h
  exact fun _ => rfl

theorem began (s : Store) (c : CellId) (g : HeapId) (t : Thunk) : s.Leaves h (s.began c g t) := .of_eq rfl rfl

theorem tagged (s : Store) : s.Leaves h s.tagged := .of_eq rfl rfl

end Leaves

namespace Sustains

theorem of_state (h : ∀ n c, s.Carries origin source n c → e.state c = s.state c) : Sustains origin source s e where
  carries n _ hc := ⟨n, hc.congr_state fun k b _ hb => h k b hb⟩
  settled n c hc _ := h n c hc

theorem trans (hs : Sustains origin source s m) (hm : Sustains origin source m e) : Sustains origin source s e where
  carries n c hc := by
    obtain ⟨k, hk⟩ := hs.carries n c hc
    exact hm.carries k c hk
  settled n c hc ht := by
    obtain ⟨k, hk⟩ := hs.carries n c hc
    have heq := hs.settled n c hc ht
    exact (hm.settled k c hk fun t => by rw [heq]; exact ht t).trans heq

/-- **A force of a cell sustains the repetition**, if the run of the thunk did, and the node it gives has a tail from
which links lead to a lap. -/
theorem forced {c r : CellId} {g : HeapId} {t : Thunk} {tag : Tag} {head : Value} {k : Nat}
    (ht : s.state c = .suspended t) (hrun : Sustains origin source (s.began c g t) m)
    (hsame : ∀ b ≠ c, e.state b = m.state b) (hc : e.state c = .evaluated (.cons tag head (.cell r)))
    (hr : e.Carries origin source k r) : Sustains origin source s e := by
  refine ⟨fun n b hb => ?_, fun n b hb hsettled => ?_⟩
  · obtain ⟨i, hi⟩ := hrun.carries n b (hb.began ht g)
    exact hi.finish hsame hc hr
  · have hbc : b ≠ c := fun heq => hsettled t (heq ▸ ht)
    have hstate := state_began_of_ne s hbc g t
    exact (hsame b hbc).trans ((hrun.settled n b (hb.began ht g) (hstate ▸ hsettled)).trans hstate)

end Sustains

theorem Spares.sustains (hs : s.Spares h origin source e) : Sustains origin source s e := .of_state hs.state

end Store
end Retention
