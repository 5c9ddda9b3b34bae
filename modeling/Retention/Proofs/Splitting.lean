import Mathlib.Data.ENat.Lattice
import Retention.Proofs.Spanning
/-!
# Splitting — steps along a list, all at once or in parts

Steps along a list force its cells, one for each step, and where they cannot go on they stay.  A cell that was forced is
what it is for good, so steps that were taken in parts are the steps that are taken at once, on whichever list: nothing
is forced in between that would not have been forced anyway, and nothing is left out where the parts meet.

Which forces these are is told for a list that was not read before and whose cells force nothing else
(`Sequence.Unread`): those of the cells of the list, down to its end, and of none of its elements.
-/
namespace Retention

variable {p : Program} {depth a b n : Nat} {run : Runner} {s m e : Store} {c d x : CellId} {v : Value} {k : List Frame}
  {spine : List CellId}

namespace Sequence

/-! ## In parts -/

/-- At a cell that is no node, steps stay where they are. -/
theorem dropSteps_stays (hc : s.state c = .evaluated v) (hv : ∀ tag head tail, v ≠ .cons tag head tail) (run : Runner) (n : Nat) :
    dropSteps run n (.cell c) s = .ok (.cell c) s := by
  cases n with
  | zero => rfl
  | succ n =>
    unfold dropSteps
    rw [Run.bind_ok (show forceValue run (.cell c) s = _ from force_evaluated hc run)]
    cases v with
    | cons tag head tail => exact absurd rfl (hv tag head tail)
    | _ => rfl

/-- Only a cell is forced, and it has the value then. -/
theorem forceValue_ok {xs : Value} (h : forceValue (p.runAt depth) xs s = .ok v m) :
    ∃ c, xs = .cell c ∧ m.state c = .evaluated v := by
  cases xs with
  | cell c => exact ⟨c, rfl, force_ok_state (show force (p.runAt depth) c s = _ from h)⟩
  | _ => cases h

/-- **Steps in two parts are the steps at once**: the same value or the same error, in the same store. -/
theorem dropSteps_bind (p : Program) (depth a b : Nat) (xs : Value) :
    (dropSteps (p.runAt depth) a xs >>= dropSteps (p.runAt depth) b) = dropSteps (p.runAt depth) (a + b) xs := by
  -- on the steps of the first part, from whichever list they have come to
  induction a generalizing xs with
  | zero =>
    rw [Nat.zero_add]
    rfl
  | succ a ih =>
    funext s
    rw [Nat.add_right_comm]
    unfold dropSteps
    rw [bind_assoc]
    cases hforce : forceValue (p.runAt depth) xs s with
    | error halt m => rw [Run.bind_error hforce, Run.bind_error hforce]
    | ok v m =>
      rw [Run.bind_ok hforce, Run.bind_ok hforce]
      obtain ⟨c, rfl, hc⟩ := forceValue_ok hforce
      cases v with
      | cons tag head tail => exact congrFun (ih tail) m
      | _ => exact dropSteps_stays hc (by simp) _ b

/-! ## A list that was not read -/

/-- A cell that waits for this value: its thunk forces no cell itself, and its force gives the value. -/
structure Awaits (p : Program) (depth : Nat) (c : CellId) (s : Store) (v : Value) (m : Store) : Prop where
  waits : ∃ t, s.state c = .suspended t ∧ ∀ g w e, s.active = some g →
    t.produce p (p.runAt depth) (s.began c g t) = .ok w e → (s.began c g t).Forced [] e
  gives : force (p.runAt (depth + 1)) c s = .ok v m

/-- The force of such a cell is the only one that begins. -/
theorem Awaits.forced (h : Awaits p depth c s v m) : s.Forced [c] m := by
  obtain ⟨t, hc, hquiet⟩ := h.waits
  obtain ⟨_, g, _, -, hactive, -⟩ := force_ok_of_suspended hc h.gives
  have hsettles := force_settles p depth hactive hc
  rw [h.gives] at hsettles
  cases hsettles with
  | valued hproduce hstore =>
    obtain rfl := hstore
    exact ((Store.Forced.began s c g t).trans (hquiet g _ _ hactive hproduce)).returned rfl

/-- From a cell, nodes lead to another, each of which is given by a cell that waited for it. -/
inductive Nodes (p : Program) (depth : Nat) : CellId → Store → List CellId → CellId → Store → Prop
  | here (c : CellId) (s : Store) : Nodes p depth c s [] c s
  | next {c head next d : CellId} {s m e : Store} {tag : Tag} {spine : List CellId}
    (hnode : Awaits p depth c s (.cons tag (.cell head) (.cell next)) m) (hrest : Nodes p depth next m spine d e) :
    Nodes p depth c s (c :: spine) d e

/-- A list of so many elements, finite or not, that was not read before: there are as many nodes, and after the nodes of
a finite list there is a cell that waits for the end. -/
structure Unread (p : Program) (depth : Nat) (c : CellId) (s : Store) (length : ℕ∞) : Prop where
  nodes : ∀ k : Nat, k ≤ length → ∃ spine d e, Nodes p depth c s spine d e ∧ spine.length = k
  ending : ∀ l : Nat, length = l → ∃ spine d e, Nodes p depth c s spine d e ∧ spine.length = l ∧
    ∃ tag m, Awaits p depth d e (.nil tag) m

namespace Nodes

theorem forced (h : Nodes p depth c s spine d e) : s.Forced spine e := by
  induction h with
  | here c s => exact .refl s
  | next hnode _ ih => exact hnode.forced.trans ih

theorem runs (h : Nodes p depth c s spine d e) : s.Runs e := by
  induction h with
  | here c s => exact .refl s
  | next hnode _ ih => exact (runs_of_force_ok hnode.gives).trans ih

/-- Steps go from node to node, and then on. -/
theorem dropSteps (h : Nodes p depth c s spine d e) (n : Nat) :
    dropSteps (p.runAt (depth + 1)) (spine.length + n) (.cell c) s = dropSteps (p.runAt (depth + 1)) n (.cell d) e := by
  induction h with
  | here => rw [List.length_nil, Nat.zero_add]
  | next hnode _ ih => rw [List.length_cons, Nat.add_right_comm, dropSteps_cons hnode.gives, ih]

/-- The cells of the nodes stand at the positions of the list, and after them the cell to which they lead. -/
theorem spineAt (hs : Moment.Sound ⟨s, k⟩) (h : Nodes p depth c s spine d e) {i : Nat}
    (hd : (spine ++ [d])[i]? = some x) : e.SpineAt c i x := by
  induction h generalizing i with
  | here =>
    cases i with
    | zero => cases hd; exact .first
    | succ i => cases hd
  | @next c head next d s m e tag spine hnode hrest ih =>
    cases i with
    | zero => cases hd; exact .first
    | succ i =>
      have hm := hs.leads (runs_of_force_ok hnode.gives k)
      have hlater : Moment.Leads ⟨m, k⟩ ⟨e, k⟩ := hrest.runs k
      exact (ih hm hd).cons (hlater.evaluated hm (force_ok_state hnode.gives) (by simp))

end Nodes

/-- **Steps along a list that was not read** force its cells from the first one on, one for each step, or all of them if
there are not so many. -/
theorem Unread.dropSteps {length : ℕ∞} (hs : Moment.Sound ⟨s, k⟩) (h : Unread p depth c s length) (n : Nat) :
    ∃ spine d e, dropSteps (p.runAt (depth + 1)) n (.cell c) s = .ok (.cell d) e ∧ s.Forced spine e ∧ s.Runs e ∧
      (spine.length : ℕ∞) = min (n : ℕ∞) (length + 1) ∧ (∀ i x, spine[i]? = some x → e.SpineAt c i x) ∧
      ∀ l : Nat, length = l → l ≤ n → e.SpineAt c l d ∧ ∃ tag f, force (p.runAt (depth + 1)) d e = .ok (.nil tag) f ∧
        (l < n → f = e) := by
  rcases lt_or_ge (n : ℕ∞) length with hlt | hge
  · obtain ⟨spine, d, e, hnodes, rfl⟩ := h.nodes n hlt.le
    refine ⟨spine, d, e, hnodes.dropSteps 0, hnodes.forced, hnodes.runs, ?_, fun i x hx => ?_, fun l hl hle => ?_⟩
    · exact (min_eq_left (hlt.le.trans le_self_add)).symm
    · exact hnodes.spineAt hs ((List.getElem?_append_left (List.getElem?_eq_some_iff.1 hx).1).trans hx)
    · exact absurd (hl ▸ hlt) (not_lt.2 (ENat.natCast_le_natCast.2 hle))
  · obtain ⟨l, rfl⟩ := ENat.ne_top_iff_exists.1 (ne_top_of_le_ne_top (ENat.natCast_ne_top n) hge)
    obtain ⟨rest, rfl⟩ := Nat.exists_eq_add_of_le (ENat.natCast_le_natCast.1 hge)
    obtain ⟨spine, d, e, hnodes, rfl, tag, m, hend⟩ := h.ending l rfl
    have hd : e.SpineAt c spine.length d := hnodes.spineAt hs List.getElem?_concat_length
    cases rest with
    | zero =>
      refine ⟨spine, d, e, hnodes.dropSteps 0, hnodes.forced, hnodes.runs, ?_, fun i x hx => ?_, fun l hl hle => ?_⟩
      · exact (min_eq_left le_self_add).symm
      · exact hnodes.spineAt hs ((List.getElem?_append_left (List.getElem?_eq_some_iff.1 hx).1).trans hx)
      · obtain rfl := ENat.natCast_inj.1 hl
        exact ⟨hd, tag, m, hend.gives, fun hlt => absurd hlt (lt_irrefl _)⟩
    | succ rest =>
      have he := hs.leads (hnodes.runs k)
      have hruns := runs_of_force_ok hend.gives
      refine ⟨spine ++ [d], d, m, (hnodes.dropSteps (rest + 1)).trans (dropSteps_nil hend.gives rest),
        hnodes.forced.trans hend.forced, hnodes.runs.trans hruns, ?_, fun i x hx => ?_, fun l hl _ => ?_⟩
      · rw [List.length_append, List.length_singleton, min_eq_right]
        · norm_cast
        · norm_cast
          omega
      · exact Moment.Leads.spineAt he (hruns k) (hnodes.spineAt hs hx)
      · obtain rfl := ENat.natCast_inj.1 hl
        exact ⟨Moment.Leads.spineAt he (hruns k) hd, tag, m, force_evaluated (force_ok_state hend.gives) _, fun _ => rfl⟩

/-! ## A negative number of steps -/

/-- Fewer than no elements cannot be dropped, whatever the list: the error is new, and nothing else changes. -/
theorem drop_negative {n : Int} (hn : n < 0) (run : Runner) (xs : Value) (s : Store) : ∃ cause : Fault, cause.kind = .value ∧
    (∀ text, integerText n = .ok text → cause = .negativeDrop text) ∧
    drop run n xs s = .error (.raised s.faults.size) { s with faults := s.faults.push ⟨cause, []⟩ } := by
  have hdrop : drop run n xs s = match integerText n with
      | .ok text => Run.raise (.negativeDrop text) s
      | .error cause => Run.raise cause s := by
    unfold drop Run.told
    rw [if_pos hn, bind_assoc, Run.bind_ok (Run.get_apply s)]
    cases integerText n <;> rfl
  cases htext : integerText n with
  | ok text =>
    rw [htext] at hdrop
    exact ⟨.negativeDrop text, rfl, fun _ h => by cases h; rfl, hdrop⟩
  | error cause =>
    rw [htext] at hdrop
    obtain rfl : cause = .unwritable := by
      unfold integerText at htext
      split at htext <;> cases htext
      rfl
    exact ⟨.unwritable, rfl, (by simp), hdrop⟩

/-! ## Lists over intervals -/

section Intervals
variable {g : HeapId} {r : Interval}

/-- A cell that waits for the list over an interval awaits its node, and the node leads to the list over the rest. -/
theorem awaits_of_spans (p : Program) (depth : Nat) (hs : s.Serves g) (hc : s.Spans r c) (hne : r.lo ≤ r.hi)
    (hr : r.length ≤ sizeLimit) : ∃ tag head next m, Awaits p depth c s (.cons tag (.cell head) (.cell next)) m ∧
      m.Serves g ∧ m.Spans r.rest next := by
  obtain ⟨tag, head, next, m, hforce, hserves, -, -, -, -, -, -, hnext, -⟩ := force_spans p depth hs hc hne hr
  obtain ⟨t, hc⟩ := hc
  refine ⟨tag, head, next, m, ⟨⟨_, hc, fun h w e ha hproduce => ?_⟩, hforce⟩, hserves, hnext⟩
  cases (intervalNode_apply (s := s.began c h _) ha hne hr t).symm.trans hproduce
  rfl

theorem awaits_of_spans_empty (p : Program) (depth : Nat) (hs : s.Serves g) (hc : s.Spans r c) (hempty : r.hi < r.lo) :
    ∃ m, Awaits p depth c s .listEnd m := by
  obtain ⟨m, hforce, -⟩ := force_spans_empty p depth hs hc hempty
  obtain ⟨t, hc⟩ := hc
  refine ⟨m, ⟨_, hc, fun h w e ha hproduce => ?_⟩, hforce⟩
  cases (intervalNode_of_empty hempty t (s.began c h _)).symm.trans hproduce
  rfl

theorem nodes_of_spans (p : Program) (depth : Nat) (hs : s.Serves g) (hc : s.Spans r c) (hr : r.length ≤ sizeLimit) {n : Nat}
    (hn : n ≤ r.length) : ∃ spine d e, Nodes p depth c s spine d e ∧ spine.length = n ∧
      (r.length = n → ∃ m, Awaits p depth d e .listEnd m) := by
  induction n generalizing s c r with
  | zero =>
    exact ⟨[], c, s, .here c s, rfl, fun hzero => awaits_of_spans_empty p depth hs hc ((r.length_eq_zero_iff).1 hzero)⟩
  | succ n ih =>
    have hne : r.lo ≤ r.hi := Int.not_lt.1 fun hempty => by
      rw [(r.length_eq_zero_iff).2 hempty] at hn
      cases hn
    have hrest := r.length_rest
    obtain ⟨tag, head, next, m, hawaits, hserves, hnext⟩ := awaits_of_spans p depth hs hc hne hr
    obtain ⟨spine, d, e, hnodes, hlength, hend⟩ := ih hserves hnext (by omega) (by omega)
    exact ⟨c :: spine, d, e, .next hawaits hnodes, congrArg (· + 1) hlength, fun h => hend (by omega)⟩

/-- **The list over an interval whose length can be taken was not read** as long as it waits. -/
theorem unread_of_spans (p : Program) (depth : Nat) (hs : s.Serves g) (hc : s.Spans r c) (hr : r.length ≤ sizeLimit) :
    Unread p depth c s r.length where
  nodes k hk := by
    obtain ⟨spine, d, e, hnodes, hlength, -⟩ := nodes_of_spans p depth hs hc hr (ENat.natCast_le_natCast.1 hk)
    exact ⟨spine, d, e, hnodes, hlength⟩
  ending l hl := by
    obtain rfl := ENat.natCast_inj.1 hl
    obtain ⟨spine, d, e, hnodes, hlength, hend⟩ := nodes_of_spans p depth hs hc hr le_rfl
    exact ⟨spine, d, e, hnodes, hlength, _, hend rfl⟩

end Intervals

end Sequence

open Sequence (Unread)
open Run (dropValue)

/-- **Dropping in parts is dropping at once, and touches only the spine.**  Take any program, and any depth to which
computations may nest.  To drop no element is to do nothing; and to drop `a` elements of any value, and then `b` of what is
left, is to drop `a + b`: in every store, both come to the same value or raise the same error, and leave the same store,
with the same turns in its history.

Take the first cell of a list that was not read before and whose cells force nothing else, of so many elements, finite or
not.  To drop `n` of them begins the forces of the first `n` cells of the list, or of all of them with the end, in
their order, and of no other cell: whatever waits besides goes on waiting.  If there are no more than `n` elements, what is
left is the cell at the position after them, whose value is the end of the list.

To drop fewer than no elements raises an error of a value, and changes nothing but that the store has this error. -/
theorem drops_add_up (p : Program) (depth : Nat) :
    (∀ xs, dropValue (p.runAt depth) (.int 0) xs = pure xs) ∧
    (∀ (a b : Nat) (xs : Value),
      (do dropValue (p.runAt depth) (.int b) (← dropValue (p.runAt depth) (.int a) xs)) =
        dropValue (p.runAt depth) (.int (a + b)) xs) ∧
    (∀ s k, Moment.Sound ⟨s, k⟩ → ∀ c length, Unread p depth c s length → ∀ n : Nat, ∃ spine d e,
      dropValue (p.runAt (depth + 1)) (.int n) (.cell c) s = .ok (.cell d) e ∧ s.Forced spine e ∧
      (spine.length : ℕ∞) = min (n : ℕ∞) (length + 1) ∧ (∀ i x, spine[i]? = some x → e.SpineAt c i x) ∧
      (∀ x t, e.initial? x = some (.suspended t) → x ∉ s.begun.map Prod.fst → x ∉ spine → e.state x = .suspended t) ∧
      ∀ l : Nat, length = l → l ≤ n → e.SpineAt c l d ∧ ∃ tag f, force (p.runAt (depth + 1)) d e = .ok (.nil tag) f ∧
        (l < n → f = e)) ∧
    ∀ n : Int, n < 0 → ∀ xs s, ∃ cause : Fault, cause.kind = .value ∧
      (∀ text, integerText n = .ok text → cause = .negativeDrop text) ∧
      dropValue (p.runAt depth) (.int n) xs s =
        .error (.raised s.faults.size) { s with faults := s.faults.push ⟨cause, []⟩ } := by
  refine ⟨fun xs => Sequence.drop_natCast _ 0 xs, fun a b xs => ?_, fun s k hs c length hunread n => ?_, fun n hn xs s =>
    Sequence.drop_negative hn _ xs s⟩
  · have hdrop (i : Nat) : dropValue (p.runAt depth) (.int i) = Sequence.dropSteps (p.runAt depth) i :=
      funext (Sequence.drop_natCast _ i)
    rw [hdrop, hdrop, ← Nat.cast_add, hdrop]
    exact Sequence.dropSteps_bind p depth a b xs
  · obtain ⟨spine, d, e, hdrop, hforced, hruns, hlength, hspine, hend⟩ := hunread.dropSteps hs n
    refine ⟨spine, d, e, (congrFun (Sequence.drop_natCast _ n _) s).trans hdrop, hforced, hlength, hspine,
      fun x t hx hbegun hnot => ?_, hend⟩
    by_contra hstate
    have hmem := (hs.leads (hruns k)).mem_begun hx hstate
    rw [show e.begun.map Prod.fst = _ from hforced, List.mem_append, List.mem_reverse] at hmem
    exact hmem.elim hnot hbegun

/-- A list over an interval that was made on a heap that was opened for it. -/
theorem Spanning.sound_listed (lo hi : Int) : Moment.Sound ⟨listed lo hi, []⟩ := by
  have hmade : Run.Follows (do let h ← Run.newHeap {}; Run.enter h; Sequence.between (.int lo) (.int hi)) :=
    Run.follows_bind (Run.follows_newHeap _ _ _) fun h => Run.follows_bind (Run.follows_enter h) fun _ =>
      Sequence.follows_between _ _
  exact Moment.sound_start.leads (hmade {} [])

open Spanning in
/-- Of a list of two elements that was not read, three are dropped: the first two cells and the end are forced. -/
theorem drops_add_up_past_end : Moment.Sound ⟨listed 7 8, []⟩ ∧ Unread [] 0 0 (listed 7 8) (2 : Nat) ∧
    ∃ spine d e, dropValue (Program.runAt [] 1) (.int 3) (.cell 0) (listed 7 8) = .ok (.cell d) e ∧
      (listed 7 8).Forced spine e ∧ spine.length = 3 ∧ e.SpineAt 0 2 d ∧
      (do dropValue (Program.runAt [] 1) (.int 1) (← dropValue (Program.runAt [] 1) (.int 2) (.cell 0))) (listed 7 8) =
        .ok (.cell d) e := by
  have hsound := sound_listed 7 8
  have hunread : Unread [] 0 0 (listed 7 8) (2 : Nat) :=
    Sequence.unread_of_spans [] 0 (r := ⟨7, 8⟩) (serves_listed 7 8) ⟨1, rfl⟩ (by decide)
  obtain ⟨-, -, hdrops, -⟩ := drops_add_up [] 0
  obtain ⟨-, hparts, -⟩ := drops_add_up [] 1
  obtain ⟨spine, d, e, hdrop, hforced, hlength, -, -, hend⟩ := hdrops _ _ hsound 0 2 hunread 3
  exact ⟨hsound, hunread, spine, d, e, hdrop, hforced, ENat.natCast_inj.1 hlength, (hend 2 rfl (by decide)).1,
    (congrFun (hparts 2 1 (.cell 0)) _).trans hdrop⟩

end Retention
