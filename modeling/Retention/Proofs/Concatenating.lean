import Retention.Proofs.Reading
/-!
# Concatenating — a concatenation is made of its two lists

A concatenation makes a node of its own for each node of the first list, with the very same head.  At the end of the
first list it has the value of the second one, the same node or the same end, and all that comes after is the second list
itself.  `Store.Concatenates` says so, by recursion along the first list.

A force of a cell of the concatenation asks the first list for one node, and once that is at its end the second list for
its first.  `Amid` is anything that can be done around a concatenation, as long as its lists come to list nodes when they
come to anything; `Attends` is that they do come to one, and on a heap that serves, so that the concatenation goes on.
-/
namespace Retention

open Store (OnlyCells)

variable {p : Program} {depth : Nat} {g : HeapId} {s m e : Store} {c d r x y z : CellId} {l l' : List CellId} {v w : Value}
  {K : List Frame}

namespace Store

/-- A cell is the concatenation of two lists, as far as it was read: it waits; it is a node with the head of the first
list, before the concatenation of the rest; the first list is at its end, and it has the value of the second one; or it
has failed. -/
inductive Concatenates (s : Store) : CellId → CellId → CellId → Prop
  | waits {x y z : CellId} (hz : s.state z = .suspended (.appendNode (.cell x) (.cell y))) : Concatenates s x y z
  | node {x y z r c head : CellId} {tag mark : Tag} (hx : s.state x = .evaluated (.cons tag (.cell head) (.cell r)))
    (hz : s.state z = .evaluated (.cons mark (.cell head) (.cell c))) (hrest : Concatenates s r y c) : Concatenates s x y z
  | joined {x y z : CellId} {tag : Tag} {v : Value} (hx : s.state x = .evaluated (.nil tag))
    (hy : s.state y = .evaluated v) (hz : s.state z = .evaluated v) (hv : v.ListNode) : Concatenates s x y z
  | failed {x y z : CellId} {w : Value} (hz : s.state z = .failed w) : Concatenates s x y z

/-- The first `k` cells of a list, or all of them if there are fewer, hold list nodes. -/
def ReadTo (s : Store) (x : CellId) (k : Nat) : Prop :=
  ∀ i < k, ∀ b, s.SpineAt x i b → ∃ v, s.state b = .evaluated v ∧ v.ListNode

/-- The concatenation has come to stand at a cell, which waits for the concatenation of what is left of the first list. -/
def Awaits (s : Store) (x y z r c : CellId) : Prop :=
  ∃ l, s.Begins x l r ∧ s.Begins z l c ∧ s.state c = .suspended (.appendNode (.cell r) (.cell y))

namespace ReadTo
variable {k : Nat} {tag : Tag} {head : Value}

theorem zero (s : Store) (x : CellId) : s.ReadTo x 0 := fun i hi => absurd hi (Nat.not_lt_zero i)

theorem first (h : s.ReadTo x (k + 1)) : ∃ v, s.state x = .evaluated v ∧ v.ListNode := h 0 (Nat.succ_pos k) x .first

theorem tail (h : s.ReadTo x (k + 1)) (hx : s.state x = .evaluated (.cons tag head (.cell r))) : s.ReadTo r k :=
  fun i hi b hb => h (i + 1) (Nat.succ_lt_succ hi) b (hb.cons hx)

theorem nil (hx : s.state x = .evaluated (.nil tag)) (k : Nat) : s.ReadTo x k := fun i _ b hb => by
  cases i with
  | zero =>
    cases hb
    exact ⟨_, hx, .done tag⟩
  | succ i =>
    obtain ⟨_, _, _, hnode, -⟩ := hb.tail
    cases hx.symm.trans hnode

theorem cons {head : CellId} (hx : s.state x = .evaluated (.cons tag (.cell head) (.cell r))) (h : s.ReadTo r k) :
    s.ReadTo x (k + 1) := fun i hi b hb => by
  cases i with
  | zero =>
    cases hb
    exact ⟨_, hx, .node tag head r⟩
  | succ i =>
    obtain ⟨_, _, _, hnode, hrest⟩ := hb.tail
    cases hx.symm.trans hnode
    exact h i (Nat.lt_of_succ_lt_succ hi) b hrest

/-- A cell that has the value of another one has the same list after it. -/
theorem congr (h : s.ReadTo z k) (heq : s.state y = s.state z) : s.ReadTo y k := fun i hi b hb => by
  cases i with
  | zero =>
    cases hb
    exact heq ▸ h 0 hi z .first
  | succ i =>
    obtain ⟨_, _, _, hnode, hrest⟩ := hb.tail
    exact h (i + 1) hi b (hrest.cons (heq ▸ hnode))

end ReadTo

namespace Concatenates

/-- **A concatenation has the heads of the first list, and then, if that was read to its end, those of the second.** -/
theorem heads (h : s.Concatenates x y z) (hl : s.Begins z l c) :
    (∃ r, s.Begins x l r) ∨ ∃ l₁ l₂ d, s.Lists x l₁ ∧ s.Begins y l₂ d ∧ l = l₁ ++ l₂ := by
  induction h generalizing l with
  | @waits x y z hz =>
    cases hl with
    | here => exact .inl ⟨x, .here x⟩
    | node hz' => cases hz.symm.trans hz'
  | @node x y z r b head tag mark hx hz _ ih =>
    cases hl with
    | here => exact .inl ⟨x, .here x⟩
    | node hz' hrest =>
      cases hz.symm.trans hz'
      obtain ⟨r', hr⟩ | ⟨l₁, l₂, d, ⟨r', tag', hr, hend⟩, hy, rfl⟩ := ih hrest
      · exact .inl ⟨r', .node hx hr⟩
      · exact .inr ⟨head :: l₁, l₂, d, ⟨r', tag', .node hx hr, hend⟩, hy, rfl⟩
  | @joined x y z tag v hx hy hz =>
    have hempty : s.Lists x [] := ⟨x, tag, .here x, hx⟩
    cases hl with
    | here => exact .inr ⟨[], [], y, hempty, .here y, rfl⟩
    | node hz' hrest =>
      cases hz.symm.trans hz'
      exact .inr ⟨[], _, _, hempty, .node hy hrest, rfl⟩
  | @failed x y z w hz =>
    cases hl with
    | here => exact .inl ⟨x, .here x⟩
    | node hz' => cases hz.symm.trans hz'

/-- A concatenation is at its end when both lists are. -/
theorem lists (h : s.Concatenates x y z) (hl : s.Lists z l) : ∃ l₁ l₂, s.Lists x l₁ ∧ s.Lists y l₂ ∧ l = l₁ ++ l₂ := by
  induction h generalizing l with
  | waits hz =>
    obtain ⟨c, tag, hl, hend⟩ := hl
    cases hl with
    | here => cases hz.symm.trans hend
    | node hz' => cases hz.symm.trans hz'
  | @node x y z r b head tag mark hx hz _ ih =>
    obtain ⟨c, tag', hl, hend⟩ := hl
    cases hl with
    | here => cases hz.symm.trans hend
    | node hz' hrest =>
      cases hz.symm.trans hz'
      obtain ⟨l₁, l₂, ⟨r', tag'', hr, hnil⟩, hy, rfl⟩ := ih ⟨c, tag', hrest, hend⟩
      exact ⟨head :: l₁, l₂, ⟨r', tag'', .node hx hr, hnil⟩, hy, rfl⟩
  | @joined x y z tag v hx hy hz =>
    obtain ⟨c, tag', hl, hend⟩ := hl
    refine ⟨[], l, ⟨x, tag, .here x, hx⟩, ?_, rfl⟩
    cases hl with
    | here =>
      cases hz.symm.trans hend
      exact ⟨y, tag', .here y, hy⟩
    | node hz' hrest =>
      cases hz.symm.trans hz'
      exact ⟨c, tag', .node hy hrest, hend⟩
  | failed hz =>
    obtain ⟨c, tag, hl, hend⟩ := hl
    cases hl with
    | here => cases hz.symm.trans hend
    | node hz' => cases hz.symm.trans hz'

/-- **At the end of the first list, the concatenation has the value of the second list.** -/
theorem joint (h : s.Concatenates x y z) (hx : s.Lists x l) (hc : s.Begins z l c) (hv : s.state c = .evaluated v) :
    s.state y = .evaluated v ∧ v.ListNode := by
  induction h generalizing l with
  | waits hz =>
    cases hc with
    | here => cases hz.symm.trans hv
    | node hz' => cases hz.symm.trans hz'
  | node hx' hz _ ih =>
    obtain ⟨r, tag, hl, hend⟩ := hx
    cases hl with
    | here => cases hx'.symm.trans hend
    | node hx'' hrest =>
      cases hx'.symm.trans hx''
      cases hc with
      | node hz' hc =>
        cases hz.symm.trans hz'
        exact ih ⟨r, tag, hrest, hend⟩ hc
  | joined hx' hy hz hnode =>
    obtain ⟨r, tag, hl, hend⟩ := hx
    cases hl with
    | here =>
      cases hc
      cases hz.symm.trans hv
      exact ⟨hy, hnode⟩
    | node hx'' => cases hx'.symm.trans hx''
  | failed hz =>
    cases hc with
    | here => cases hz.symm.trans hv
    | node hz' => cases hz.symm.trans hz'

/-- A concatenation that was read far enough has come to the end of the first list. -/
theorem reaches {k : Nat} (h : s.Concatenates x y z) (hx : s.Lists x l) (hread : s.ReadTo z k) (hlt : l.length < k) :
    ∃ c v, s.Begins z l c ∧ s.state c = .evaluated v := by
  obtain ⟨k, rfl⟩ := Nat.exists_eq_add_of_le' (Nat.zero_lt_of_lt hlt)
  induction h generalizing l k with
  | waits hz =>
    obtain ⟨v, hv, -⟩ := hread.first
    cases hz.symm.trans hv
  | node hx' hz _ ih =>
    obtain ⟨b, tag, hbegins, hend⟩ := hx
    cases hbegins with
    | here => cases hx'.symm.trans hend
    | node hx'' hrest =>
      cases hx'.symm.trans hx''
      obtain ⟨k, rfl⟩ : ∃ n, k = n + 1 := Nat.exists_eq_add_of_le' (by simp at hlt; omega)
      obtain ⟨c, v, hc, hv⟩ := ih ⟨b, tag, hrest, hend⟩ k (hread.tail hz) (Nat.lt_of_succ_lt_succ hlt)
      exact ⟨c, v, .node hz hc, hv⟩
  | joined hx' hy hz =>
    obtain rfl := hx.unique ⟨_, _, .here _, hx'⟩
    exact ⟨_, _, .here _, hz⟩
  | failed hz =>
    obtain ⟨v, hv, -⟩ := hread.first
    cases hz.symm.trans hv

/-- Where a concatenation was read, its lists were: the first one, and, after its end, the second one. -/
theorem readTo {k : Nat} (h : s.Concatenates x y z) (hread : s.ReadTo z k) :
    s.ReadTo x k ∧ ∀ l, s.Lists x l → s.ReadTo y (k - l.length) := by
  induction h generalizing k with
  | waits hz =>
    cases k with
    | zero => exact ⟨.zero s _, fun l _ => (Nat.zero_sub l.length).symm ▸ .zero s _⟩
    | succ k =>
      obtain ⟨v, hv, -⟩ := hread.first
      cases hz.symm.trans hv
  | node hx hz _ ih =>
    cases k with
    | zero => exact ⟨.zero s _, fun l _ => (Nat.zero_sub l.length).symm ▸ .zero s _⟩
    | succ k =>
      obtain ⟨hr, hy⟩ := ih (hread.tail hz)
      refine ⟨.cons hx hr, fun l hl => ?_⟩
      obtain ⟨b, tag, hbegins, hend⟩ := hl
      cases hbegins with
      | here => cases hx.symm.trans hend
      | node hx' hrest =>
        cases hx.symm.trans hx'
        rw [List.length_cons, Nat.add_sub_add_right]
        exact hy _ ⟨b, tag, hrest, hend⟩
  | joined hx hy hz =>
    refine ⟨.nil hx k, fun l hl => ?_⟩
    obtain rfl : l = [] := hl.unique ⟨_, _, .here _, hx⟩
    exact hread.congr (hy.trans hz.symm)
  | failed hz =>
    cases k with
    | zero => exact ⟨.zero s _, fun l _ => (Nat.zero_sub l.length).symm ▸ .zero s _⟩
    | succ k =>
      obtain ⟨v, hv, -⟩ := hread.first
      cases hz.symm.trans hv

end Concatenates

/-- After two cells with one value there are the same cells. -/
theorem SpineAt.of_state_eq {j : Nat} (h : s.SpineAt c (j + 1) d) (heq : s.state c = s.state y) : s.SpineAt y (j + 1) d := by
  obtain ⟨tag, head, next, hc, hrest⟩ := h.tail
  exact hrest.cons (heq ▸ hc)

/-! ## Lists one after the other -/

/-- These cells are heads of some lists, one list after the other, up to somewhere in one of them. -/
inductive Strung (s : Store) : List CellId → List CellId → Prop
  | none (xs : List CellId) : Strung s xs []
  | within {x r : CellId} {l : List CellId} (xs : List CellId) (hl : s.Begins x l r) : Strung s (x :: xs) l
  | past {x : CellId} {xs l l' : List CellId} (hl : s.Lists x l) (hrest : Strung s xs l') : Strung s (x :: xs) (l ++ l')

/-- What was read of a list is from these lists, one after the other, and if it was read to its end, so were they. -/
structure Spells (s : Store) (z : CellId) (xs : List CellId) : Prop where
  strung : ∀ l c, s.Begins z l c → s.Strung xs l
  whole : ∀ l, s.Lists z l → ∃ ls, List.Forall₂ s.Lists xs ls ∧ l = ls.flatten

/-- As far as two lists were read, they have the same heads: what was read of one begins what was read of the other, all
of it if that was read to its end. -/
structure SameHeads (s : Store) (x y : CellId) : Prop where
  read : ∀ l l' r r', s.Begins x l r → s.Begins y l' r' → l <+: l' ∨ l' <+: l
  left : ∀ l l' r', s.Lists x l → s.Begins y l' r' → l' <+: l
  right : ∀ l l' r, s.Begins x l r → s.Lists y l' → l <+: l'

variable {xs ys : List CellId} {ls : List (List CellId)}

theorem Begins.comparable (h : s.Begins x l r) (h' : s.Begins x l' c) : l <+: l' ∨ l' <+: l := by
  induction h generalizing l' with
  | here => exact .inl List.nil_prefix
  | node hx _ ih =>
    cases h' with
    | here => exact .inr List.nil_prefix
    | node hx' hrest =>
      cases hx.symm.trans hx'
      exact (ih hrest).imp (List.cons_prefix_cons.2 ⟨rfl, ·⟩) (List.cons_prefix_cons.2 ⟨rfl, ·⟩)

namespace Strung

theorem comparable (h : s.Strung xs l) (h' : s.Strung xs l') : l <+: l' ∨ l' <+: l := by
  induction h generalizing l' with
  | none => exact .inl List.nil_prefix
  | within xs hl =>
    cases h' with
    | none => exact .inr List.nil_prefix
    | within _ hl' => exact hl.comparable hl'
    | past hl' => exact .inl ((hl'.isPrefix hl).trans (List.prefix_append _ _))
  | past hl _ ih =>
    cases h' with
    | none => exact .inr List.nil_prefix
    | within _ hl' => exact .inr ((hl.isPrefix hl').trans (List.prefix_append _ _))
    | past hl' hrest =>
      cases hl.unique hl'
      exact (ih hrest).imp (List.prefix_append_right_inj _).2 (List.prefix_append_right_inj _).2

/-- Nothing comes after all of the lists. -/
theorem isPrefix (h : s.Strung xs l) (hls : List.Forall₂ s.Lists xs ls) : l <+: ls.flatten := by
  induction h generalizing ls with
  | none => exact List.nil_prefix
  | within _ hl =>
    cases hls with
    | cons hx => exact (hx.isPrefix hl).trans (List.prefix_append _ _)
  | past hl _ ih =>
    cases hls with
    | cons hx hrest =>
      cases hl.unique hx
      exact (List.prefix_append_right_inj _).2 (ih hrest)

theorem append (h : s.Strung xs l) (ys : List CellId) : s.Strung (xs ++ ys) l := by
  induction h with
  | none => exact .none _
  | within xs hl => exact .within (xs ++ ys) hl
  | past hl _ ih => exact .past hl ih

theorem after (hls : List.Forall₂ s.Lists xs ls) (h : s.Strung ys l) : s.Strung (xs ++ ys) (ls.flatten ++ l) := by
  induction hls with
  | nil => exact h
  | cons hl _ ih =>
    rw [List.flatten_cons, List.append_assoc]
    exact .past hl ih

end Strung

namespace Spells

theorem self (s : Store) (x : CellId) : s.Spells x [x] where
  strung _ _ hl := .within [] hl
  whole l hl := ⟨[l], .cons hl .nil, by simp⟩

theorem empty (hx : s.Lists x []) : s.Spells x [] where
  strung l _ hl := by
    obtain rfl := List.prefix_nil.1 (hx.isPrefix hl)
    exact .none []
  whole l hl := ⟨[], .nil, hl.unique hx⟩

theorem append (hx : s.Spells x xs) (hy : s.Spells y ys) (h : s.Concatenates x y z) : s.Spells z (xs ++ ys) where
  strung l c hl := by
    obtain ⟨r, hr⟩ | ⟨l₁, l₂, d, hl₁, hl₂, rfl⟩ := h.heads hl
    · exact (hx.strung l r hr).append ys
    · obtain ⟨ls, hls, rfl⟩ := hx.whole l₁ hl₁
      exact .after hls (hy.strung l₂ d hl₂)
  whole l hl := by
    obtain ⟨l₁, l₂, hl₁, hl₂, rfl⟩ := h.lists hl
    obtain ⟨ls₁, hls₁, rfl⟩ := hx.whole l₁ hl₁
    obtain ⟨ls₂, hls₂, rfl⟩ := hy.whole l₂ hl₂
    exact ⟨ls₁ ++ ls₂, List.rel_append hls₁ hls₂, List.flatten_append.symm⟩

/-- Lists that are read from the same lists have the same heads. -/
theorem sameHeads (hx : s.Spells x xs) (hy : s.Spells y xs) : s.SameHeads x y where
  read l l' r r' hl hl' := (hx.strung l r hl).comparable (hy.strung l' r' hl')
  left l l' r' hl hl' := by
    obtain ⟨ls, hls, rfl⟩ := hx.whole l hl
    exact (hy.strung l' r' hl').isPrefix hls
  right l l' r hl hl' := by
    obtain ⟨ls, hls, rfl⟩ := hy.whole l' hl'
    exact (hx.strung l r hl).isPrefix hls

end Spells
end Store

/-! ## A force -/

/-- A force of the cell of a concatenation finds lists: what its first list comes to, if it comes to a value, is a list
node, and if that is the end, so is what the second list comes to. -/
def FindsLists (p : Program) (s : Store) (depth : Nat) (c r y : CellId) : Prop :=
  ∀ n g v m, depth = n + 1 → s.active = some g →
    force (p.runAt n) r (s.began c g (.appendNode (.cell r) (.cell y))) = .ok v m →
    v.ListNode ∧ ∀ tag, v = .nil tag → ∀ w e, force (p.runAt n) y m = .ok w e → w.ListNode

/-- What its thunk came to makes a cell the concatenation that it waited for. -/
theorem concatenates_of_appendNode {n : Nat} (hs : Moment.Sound ⟨s, K⟩) (ha : s.active = some g)
    (hc : s.state c = .suspended (.appendNode (.cell r) (.cell y))) (hlists : FindsLists p s (n + 1) c r y)
    (hproduce : Sequence.appendNode (p.runAt n) (.cell r) (.cell y) (s.began c g (.appendNode (.cell r) (.cell y))) = .ok v m)
    (hself : e.state c = .evaluated v) (hother : ∀ d ≠ c, e.state d = m.state d) : e.Concatenates r y c := by
  obtain ⟨_, w, m₁, hcell, hr, hresult⟩ := Sequence.appendNode_ok hproduce
  cases hcell
  obtain ⟨hw, hnil⟩ := hlists n g w m₁ rfl ha hr
  have hfirst := runs_of_force_ok hr
  have hr₁ := force_ok_state hr
  obtain ⟨tag, head, tail, g', rfl, -, rfl, rfl⟩ | ⟨tag, rfl, hy⟩ | hnone := hresult
  · -- the cell of the rest is new
    cases hw with
    | node _ head next =>
      have hu := running_of_runs hs hc hfirst
      have hrest := Store.state_register_new m₁ g' (.suspended (.appendNode (.cell next) (.cell y)))
      have hre : e.state r = .evaluated (.cons tag (.cell head) (.cell next)) :=
        (hother r (Store.ne_of_running hu hr₁ (by simp))).trans
          ((Store.state_register_of_lt (Store.lt_of_state hr₁ (by simp)) g' _).trans hr₁)
      refine .node hre hself (.waits ((hother _ ?_).trans hrest))
      exact Nat.ne_of_gt (Store.lt_of_state hu (by simp))
  · have hsecond := runs_of_force_ok hy
    have hu := running_of_runs hs hc (hfirst.trans hsecond)
    have hsound := (hs.force hc).leads (hfirst (.force c g :: K))
    have hrm := (hsecond (.force c g :: K)).evaluated hsound hr₁ (by simp)
    have hym := force_ok_state hy
    exact .joined ((hother r (Store.ne_of_running hu hrm (by simp))).trans hrm)
      ((hother y (Store.ne_of_running hu hym (by simp))).trans hym) hself (hnil tag rfl v m hy)
  · cases hw <;> exact absurd trivial hnone

/-- **A force of a cell that waits for a concatenation makes it the concatenation that it waited for**, unless it leaves
it as it was. -/
theorem concatenates_of_force (hs : Moment.Sound ⟨s, K⟩) (hc : s.state c = .suspended (.appendNode (.cell r) (.cell y)))
    (hdeep : ∀ e, force (p.runAt depth) c s ≠ .error .tooDeep e) (hlists : FindsLists p s depth c r y) :
    (Run.finalStore (force (p.runAt depth) c s)).Concatenates r y c := by
  let t := Thunk.appendNode (.cell r) (.cell y)
  cases ha : s.active with
  | none =>
    rw [force_apply, hc, ha]
    exact .waits hc
  | some g =>
    cases depth with
    | zero =>
      have hzero : force (p.runAt 0) c s = _ := force_of_turn hc ha rfl
      exact absurd hzero (hdeep _)
    | succ n =>
      have hfollows := Sequence.follows_appendNode (p.follows_runAt n) (.cell r) (.cell y)
      have hsettles := force_settles p n ha hc
      generalize force (p.runAt (n + 1)) c s = result at hdeep hsettles
      cases hsettles with
      | tooDeep => exact absurd rfl (hdeep _)
      | @failed z m hproduce =>
        have hlt := Store.lt_of_state (running_of_runs hs hc (hfollows.runs_of_raised hproduce)) (by simp)
        exact .failed (Store.moved_aborted z hlt).state
      | @valued v m heaps faults _ hproduce hstore =>
        have hlt := Store.lt_of_state (running_of_runs hs hc (hfollows.runs_of_ok hproduce)) (by simp)
        rw [hstore]
        exact concatenates_of_appendNode hs ha hc hlists hproduce (Store.state_valued_self hlt v heaps)
          fun d hd => Store.state_valued_of_ne hd v heaps

/-! ## What is done around a concatenation -/

/-- What can be done around a concatenation: any of its cells is forced, be it by a consumer, by a thunk that is running,
or by anyone else, where the lists come to lists; or anything else happens that leaves the cell alone at which the
concatenation has come to stand. -/
inductive Amid (p : Program) (x y z : CellId) : Moment → Moment → Prop
  | demanded {s : Store} {K : List Frame} {l : List CellId} {c : CellId} {depth : Nat} (hc : s.Begins z l c)
    (hdeep : ∀ e, force (p.runAt depth) c s ≠ .error .tooDeep e)
    (hlists : ∀ r, s.Awaits x y z r c → FindsLists p s depth c r y) :
    Amid p x y z ⟨s, K⟩ ⟨Run.finalStore (force (p.runAt depth) c s), K⟩
  | other {m m' : Moment} (hleads : m.Leads m')
    (hsame : ∀ r c, m.store.Awaits x y z r c → m'.store.state c = m.store.state c) : Amid p x y z m m'

/-- A cell was made as the concatenation of two lists, and then things were done around it. -/
def Concatenated (p : Program) (x y z : CellId) (m : Moment) : Prop :=
  ∃ s e K, Moment.Leads ⟨{}, []⟩ ⟨s, K⟩ ∧ Sequence.append (.cell x) (.cell y) s = .ok z e ∧
    Relation.ReflTransGen (Amid p x y z) ⟨e, K⟩ m

section Moments
variable {a a' : Moment}

theorem Value.ListNode.ne_null (hv : v.ListNode) : v ≠ .null := by
  rintro rfl
  cases hv

theorem Value.ListNode.onlyCells (hv : v.ListNode) : OnlyCells v.refs := by
  cases hv with
  | node tag head next => exact Store.onlyCells_pair head next
  | done tag => exact fun _ hw => absurd hw List.not_mem_nil

theorem Store.Awaits.cons {b q head : CellId} {tag mark : Tag} (h : s.Awaits r y b q c)
    (hx : s.state x = .evaluated (.cons tag (.cell head) (.cell r)))
    (hz : s.state z = .evaluated (.cons mark (.cell head) (.cell b))) : s.Awaits x y z q c := by
  obtain ⟨l, hq, hc, hwaits⟩ := h
  exact ⟨head :: l, .node hx hq, .node hz hc, hwaits⟩

/-- What becomes of the cell at which a concatenation has come to stand becomes of the concatenation. -/
theorem Store.Concatenates.leads (ha : a.Sound) (h : a.store.Concatenates x y z) (hleads : a.Leads a')
    (hawaits : ∀ r c, a.store.Awaits x y z r c → a'.store.Concatenates r y c) : a'.store.Concatenates x y z := by
  induction h with
  | waits hz => exact hawaits _ _ ⟨[], .here _, .here _, hz⟩
  | node hx hz _ ih =>
    exact .node (hleads.evaluated ha hx (by simp)) (hleads.evaluated ha hz (by simp)) (ih fun r c h => hawaits r c (h.cons hx hz))
  | joined hx hy hz hv =>
    exact .joined (hleads.evaluated ha hx (by simp)) (hleads.evaluated ha hy hv.ne_null) (hleads.evaluated ha hz hv.ne_null) hv
  | failed hz => exact .failed (hleads.failed ha hz)

/-- **Whatever is done around a concatenation, it goes on to be the concatenation of its lists.** -/
theorem Amid.concatenates (h : Amid p x y z a a') (ha : a.Sound) (hz : a.store.Concatenates x y z) :
    a.Leads a' ∧ a'.store.Concatenates x y z := by
  cases h with
  | @demanded s K l c depth hc hdeep hlists =>
    have hleads := leads_of_force hdeep K
    refine ⟨hleads, hz.leads ha hleads fun r b hawaits => ?_⟩
    -- the cell that is forced is the one that waits, or comes before it
    obtain ⟨l', hr, hb, hwaits⟩ := id hawaits
    obtain ⟨more, -, hrest⟩ := hc.rest hb (Store.ends_of_suspended hwaits)
    cases hrest with
    | here => exact concatenates_of_force ha hwaits hdeep (hlists r hawaits)
    | node hnode =>
      rw [force_evaluated hnode]
      exact .waits hwaits
  | other hleads hsame =>
    refine ⟨hleads, hz.leads ha hleads fun r c hawaits => ?_⟩
    obtain ⟨l, -, -, hwaits⟩ := id hawaits
    exact .waits ((hsame r c hawaits).trans hwaits)

theorem concatenates_of_amid (h : Relation.ReflTransGen (Amid p x y z) a a') (ha : a.Sound)
    (hz : a.store.Concatenates x y z) : a.Leads a' ∧ a'.store.Concatenates x y z := by
  induction h with
  | refl => exact ⟨.refl, hz⟩
  | tail _ hstep ih =>
    obtain ⟨hleads, hz⟩ := ih
    obtain ⟨hnext, hz⟩ := hstep.concatenates (ha.leads hleads) hz
    exact ⟨Relation.ReflTransGen.trans hleads hnext, hz⟩

namespace Concatenated

theorem known (h : Concatenated p x y z a) : a.Sound ∧ a.store.Concatenates x y z := by
  obtain ⟨s, e, K, hreached, hmade, hcourse⟩ := h
  obtain ⟨g, ha, rfl, rfl⟩ := Run.suspend_ok hmade
  let waits := CellState.suspended (.appendNode (.cell x) (.cell y))
  have hsound := (Moment.sound_start.leads hreached).change (.newCell s g waits ha)
  obtain ⟨hleads, hz⟩ := concatenates_of_amid hcourse hsound (.waits (Store.state_register_new s g waits))
  exact ⟨hsound.leads hleads, hz⟩

theorem trans (h : Concatenated p x y z a) (h' : Relation.ReflTransGen (Amid p x y z) a a') : Concatenated p x y z a' := by
  obtain ⟨s, e, K, hreached, hmade, hcourse⟩ := h
  exact ⟨s, e, K, hreached, hmade, hcourse.trans h'⟩

end Concatenated
end Moments

/-- A change that runs no thunk can be made around any concatenation. -/
theorem Amid.of_step (h : s.Step e) : Amid p x y z ⟨s, K⟩ ⟨e, K⟩ := .other (.single (.change K h)) fun _ _ hawaits => by
  obtain ⟨-, -, -, hwaits⟩ := hawaits
  exact h.state (Store.lt_of_suspended hwaits)

theorem Store.Awaits.eq_of_suspended {b : CellId} {t : Thunk} (h : s.Awaits x y z r c) (hl : s.Begins z l b)
    (hb : s.state b = .suspended t) : c = b := by
  obtain ⟨l', -, hc, hwaits⟩ := h
  exact (hc.end_unique (Store.ends_of_suspended hwaits) hl (Store.ends_of_suspended hb)).2

/-- **A force of the concatenation of a concatenation with a third list is something that can be done around the inner
one**: it forces the cell of the inner one, and then leaves it alone. -/
theorem amid_of_outer {b w : CellId} (hs : Moment.Sound ⟨s, K⟩) (hl : s.Begins z l c)
    (hb : s.state b = .suspended (.appendNode (.cell c) (.cell w))) (houter : ∀ r, ¬ s.Awaits x y z r b)
    (hforce : force (p.runAt (depth + 1)) b s = .ok v e)
    (hlists : ∀ g, s.active = some g → let began := s.began b g (.appendNode (.cell c) (.cell w))
      (∀ u m, force (p.runAt depth) c began = .ok u m → u.ListNode) ∧
      ∀ r, began.Awaits x y z r c → FindsLists p began depth c r y) :
    Relation.ReflTransGen (Amid p x y z) ⟨s, K⟩ ⟨e, K⟩ := by
  obtain ⟨n, g, m, hn, ha, hproduce, hfinished⟩ := finished_of_force_ok hb hforce
  obtain ⟨n', g', m', hn', ha', hproduce', hother, -⟩ := force_ok_of_suspended hb hforce
  cases hn
  cases hn'
  cases ha.symm.trans ha'
  cases hproduce.symm.trans hproduce'
  let t := Thunk.appendNode (.cell c) (.cell w)
  obtain ⟨hnode, hlists⟩ := hlists g ha
  obtain ⟨_, u, m₁, hcell, hc, hresult⟩ := Sequence.appendNode_ok hproduce
  cases hcell
  have hbegan := Moment.Next.force s K b g t hb ha
  have hbefore : Amid p x y z ⟨s, K⟩ ⟨s.began b g t, .force b g :: K⟩ := .other (.single hbegan) fun r q hq => by
    refine Store.state_began_of_ne s ?_ g t
    rintro rfl
    exact houter r hq
  have hlb := Moment.Leads.begins hs (.single hbegan) hl
  have hinner : Amid p x y z ⟨s.began b g t, .force b g :: K⟩ ⟨m₁, .force b g :: K⟩ := by
    have hdemanded := Amid.demanded (K := .force b g :: K) hlb (fun e he => by cases hc.symm.trans he) hlists
    rwa [hc] at hdemanded
  have hlast : Moment.Leads ⟨m, .force b g :: K⟩ ⟨e, K⟩ := .head (.finished m K b g v) (hfinished K)
  have hafter : Amid p x y z ⟨m₁, .force b g :: K⟩ ⟨e, K⟩ := by
    obtain ⟨tag, head, tail, g', rfl, hg, rfl, rfl⟩ | ⟨tag, rfl, hw⟩ | hnone := hresult
    · refine .other (.head (.change _ (.newCell m₁ g' _ hg)) (.head (.change _ (.freshTag _)) hlast)) fun r q hq => ?_
      obtain ⟨-, -, -, hwaits⟩ := hq
      have hrunning := running_of_runs hs hb (runs_of_force_ok hc)
      exact (hother q (Store.ne_of_running hrunning hwaits (by simp))).trans
        (Store.state_register_of_lt (Store.lt_of_suspended hwaits) g' _)
    · refine .other (Relation.ReflTransGen.trans (runs_of_force_ok hw _) hlast) fun r q hq => ?_
      -- the inner concatenation is at its end, and waits for nothing
      obtain ⟨l', -, hq, hwaits⟩ := hq
      have hend : m₁.Ends c := fun _ _ _ h => by cases (force_ok_state hc).symm.trans h
      have hlm := (runs_of_force_ok hc (.force b g :: K)).begins (hs.force hb) hlb
      obtain ⟨-, rfl⟩ := hlm.end_unique hend hq (Store.ends_of_suspended hwaits)
      cases (force_ok_state hc).symm.trans hwaits
    · cases hnode u m₁ hc <;> exact absurd trivial hnone
  exact .head hbefore (.head hinner (.single hafter))

/-! ## Reading on -/

/-- A cell of a list is forced, and all goes well: it comes to a list node, and the heap serves afterwards.  Of a frugal
list we ask that no other cell be forced for that. -/
structure Comes (frugal : Prop) (p : Program) (depth : Nat) (g : HeapId) (s : Store) (x : CellId) (v : Value) (m : Store) :
    Prop where
  force : force (p.runAt depth) x s = .ok v m
  node : v.ListNode
  serves : m.Serves g
  alone : frugal → ∃ cs, s.Forced cs m ∧ ∀ b ∈ cs, b = x

/-- A cell that is read alone is one of a frugal list. -/
theorem Reads.comes {frugal : Prop} (h : Reads p depth g s x v m) (hv : v.ListNode) : Comes frugal p depth g s x v m where
  force := h.force
  node := hv
  serves := h.serves
  alone _ := by
    obtain ⟨read, hbegun, hread⟩ := h.alone
    refine ⟨(read.map Prod.fst).reverse, ?_, fun b hb => ?_⟩
    · unfold Store.Forced
      rw [hbegun, List.map_append, List.reverse_reverse]
    · obtain ⟨z, hz, rfl⟩ := List.mem_map.1 (List.mem_reverse.1 hb)
      exact hread z hz

/-- A cell of a concatenation is forced, and all goes well with the lists, as far as they are read for that. -/
inductive Attends (frugal : Prop) (p : Program) (x y z : CellId) : Nat → Store → CellId → Prop
  /-- The first list has another node. -/
  | within {depth : Nat} {s m : Store} {c r head next : CellId} {g : HeapId} {tag : Tag} (ha : s.active = some g)
    (hc : s.Awaits x y z r c)
    (hr : Comes frugal p depth g (s.began c g (.appendNode (.cell r) (.cell y))) r (.cons tag (.cell head) (.cell next)) m) :
    Attends frugal p x y z (depth + 1) s c
  /-- The first list is at its end, and the second one begins. -/
  | joint {depth : Nat} {s m e : Store} {c r : CellId} {g : HeapId} {tag : Tag} {v : Value} (ha : s.active = some g)
    (hc : s.Awaits x y z r c)
    (hr : Comes frugal p depth g (s.began c g (.appendNode (.cell r) (.cell y))) r (.nil tag) m)
    (hy : Comes frugal p depth g m y v e) : Attends frugal p x y z (depth + 1) s c
  /-- The second list has begun. -/
  | beyond {depth : Nat} {s e : Store} {l more : List CellId} {c head : CellId} {g : HeapId} {v : Value}
    (hx : s.Lists x l) (hc : s.Begins z (l ++ head :: more) c) (h : Comes frugal p depth g s c v e) :
    Attends frugal p x y z depth s c
  /-- The cell was forced before. -/
  | again {depth : Nat} {s : Store} {c : CellId} {v : Value} (hc : s.state c = .evaluated v) (hv : v.ListNode) :
    Attends frugal p x y z depth s c

/-- So many cells of a concatenation are forced, one after the other or up to the end, and all goes well with the lists. -/
def Attended (frugal : Prop) (p : Program) (x y z : CellId) (depth : Nat) : Nat → Store → CellId → Prop
  | 0, _, _ => True
  | k + 1, s, c => Attends frugal p x y z depth s c ∧ ∀ tag head next e,
    force (p.runAt depth) c s = .ok (.cons tag head (.cell next)) e → Attended frugal p x y z depth k e next

/-- One of the first `k` cells of a concatenation, of the first `k` cells of the first list, or of those cells of the
second list that are at a position below `k` once the first list is before them. -/
def Store.Due (s : Store) (x y z : CellId) (k : Nat) (b : CellId) : Prop :=
  (∃ i < k, s.SpineAt z i b) ∨ (∃ i < k, s.SpineAt x i b) ∨ ∃ l i, s.Lists x l ∧ s.SpineAt y i b ∧ l.length + i < k

variable {frugal : Prop} {k n : Nat}

theorem Store.Due.leads {a a' : Moment} {b : CellId} (h : a.store.Due x y z k b) (ha : a.Sound) (hleads : a.Leads a')
    (hle : k ≤ n) : a'.store.Due x y z n b := by
  obtain ⟨i, hi, hb⟩ | ⟨i, hi, hb⟩ | ⟨l, i, hl, hb, hi⟩ := h
  · exact .inl ⟨i, Nat.lt_of_lt_of_le hi hle, hleads.spineAt ha hb⟩
  · exact .inr (.inl ⟨i, Nat.lt_of_lt_of_le hi hle, hleads.spineAt ha hb⟩)
  · exact .inr (.inr ⟨l, i, hleads.lists ha hl, hleads.spineAt ha hb, Nat.lt_of_lt_of_le hi hle⟩)

/-- What a force of a cell of a concatenation does if all goes well with the lists: it comes to a list node, and forces
the cell, and the cells of the lists at this position and no others if they are frugal. -/
structure Given (frugal : Prop) (p : Program) (x y z : CellId) (depth n : Nat) (s : Store) (c : CellId) (v : Value)
    (e : Store) : Prop where
  force : force (p.runAt depth) c s = .ok v e
  node : v.ListNode
  lists : ∀ r, s.Awaits x y z r c → FindsLists p s depth c r y
  forced : frugal → ∃ cs, s.Forced cs e ∧ ∀ b ∈ cs, e.Due x y z (n + 1) b

theorem Store.Awaits.begins_unique (h : s.Awaits x y z r c) (hl : s.Begins z l c) : s.Begins x l r := by
  obtain ⟨l', hr, hc, hwaits⟩ := h
  obtain ⟨rfl, -⟩ := hl.end_unique (Store.ends_of_suspended hwaits) hc (Store.ends_of_suspended hwaits)
  exact hr

/-- What the first list came to decides what is asked of a force of a cell of the concatenation. -/
theorem Comes.findsLists (h : Comes frugal p depth g (s.began c g (.appendNode (.cell r) (.cell y))) r w m)
    (ha : s.active = some g) (hc : s.Awaits x y z r c)
    (hnil : ∀ tag, w = .nil tag → ∀ v e, Retention.force (p.runAt depth) y m = .ok v e → v.ListNode) (q : CellId)
    (hq : s.Awaits x y z q c) : FindsLists p s (depth + 1) c q y := by
  obtain ⟨-, -, -, hwaits⟩ := hc
  obtain ⟨-, -, -, hwaits'⟩ := hq
  cases hwaits.symm.trans hwaits'
  intro n g' v e hn hg hforce
  cases hn
  cases ha.symm.trans hg
  cases h.force.symm.trans hforce
  exact ⟨h.node, hnil⟩

namespace Attends

theorem given_within {head next : CellId} {tag : Tag} (hs : Moment.Sound ⟨s, K⟩) (hl : s.Begins z l c)
    (ha : s.active = some g) (hc : s.Awaits x y z r c)
    (hr : Comes frugal p n g (s.began c g (.appendNode (.cell r) (.cell y))) r (.cons tag (.cell head) (.cell next)) m) :
    ∃ v e, Given frugal p x y z (n + 1) l.length s c v e := by
  have hx := hc.begins_unique hl
  obtain ⟨-, -, -, hwaits⟩ := id hc
  let left := CellState.suspended (.appendNode (.cell next) (.cell y))
  have hleft : OnlyCells left.refs := Store.onlyCells_pair next y
  have hm : (m.register g left).tagged.Serves g := (hr.serves.register hleft).congr rfl rfl rfl
  have hproduce : (Thunk.appendNode (.cell r) (.cell y)).produce p (p.runAt n) (s.began c g _) =
      .ok (.cons m.nextTag (.cell head) (.cell m.cells.size)) (m.register g left).tagged :=
    Sequence.appendNode_of_cons hr.serves.active hr.force
  obtain ⟨heaps, hforce, -⟩ := force_valued p n ha hwaits hproduce hm (Store.onlyCells_pair _ _)
  have hleads := runs_of_force_ok hforce K
  refine ⟨_, _, hforce, .node _ _ _, hr.findsLists ha hc fun tag h => (by cases h), fun hf => ?_⟩
  obtain ⟨cs, hcs, hread⟩ := hr.alone hf
  refine ⟨[c] ++ cs, ((Store.Forced.began s c g _).trans hcs).returned rfl, fun b hb => ?_⟩
  rcases List.mem_append.1 hb with hb | hb
  · obtain rfl := List.mem_singleton.1 hb
    exact .inl ⟨_, Nat.lt_succ_self _, (hleads.begins hs hl).spineAt⟩
  · obtain rfl := hread b hb
    exact .inr (.inl ⟨_, Nat.lt_succ_self _, (hleads.begins hs hx).spineAt⟩)

theorem given_joint {tag : Tag} (hs : Moment.Sound ⟨s, K⟩) (hl : s.Begins z l c) (ha : s.active = some g)
    (hc : s.Awaits x y z r c) (hr : Comes frugal p n g (s.began c g (.appendNode (.cell r) (.cell y))) r (.nil tag) m)
    (hy : Comes frugal p n g m y v e) : ∃ v e, Given frugal p x y z (n + 1) l.length s c v e := by
  have hx := hc.begins_unique hl
  obtain ⟨-, -, -, hwaits⟩ := id hc
  have hproduce : (Thunk.appendNode (.cell r) (.cell y)).produce p (p.runAt n) (s.began c g _) = .ok v e :=
    (Sequence.appendNode_of_nil hr.force).trans hy.force
  obtain ⟨heaps, hforce, -⟩ := force_valued p n ha hwaits hproduce hy.serves hy.node.onlyCells
  have hleads := runs_of_force_ok hforce K
  have hnode : ∀ tag', Value.nil tag = .nil tag' → ∀ v e, force (p.runAt n) y m = .ok v e → v.ListNode :=
    fun _ _ v' e' hforce' => by
      cases hy.force.symm.trans hforce'
      exact hy.node
  refine ⟨_, _, hforce, hy.node, hr.findsLists ha hc hnode, fun hf => ?_⟩
  obtain ⟨cs, hcs, hread⟩ := hr.alone hf
  obtain ⟨cs', hcs', hread'⟩ := hy.alone hf
  refine ⟨[c] ++ cs ++ cs', (((Store.Forced.began s c g _).trans hcs).trans hcs').returned rfl, fun b hb => ?_⟩
  rcases List.mem_append.1 hb with hb | hb
  · rcases List.mem_append.1 hb with hb | hb
    · obtain rfl := List.mem_singleton.1 hb
      exact .inl ⟨_, Nat.lt_succ_self _, (hleads.begins hs hl).spineAt⟩
    · obtain rfl := hread b hb
      exact .inr (.inl ⟨_, Nat.lt_succ_self _, (hleads.begins hs hx).spineAt⟩)
  · obtain rfl := hread' b hb
    have hend : (e.valued c v heaps).state r = .evaluated (.nil tag) := by
      have hsecond := runs_of_force_ok hy.force
      have hfirst := runs_of_force_ok hr.force
      have hu := running_of_runs hs hwaits (hfirst.trans hsecond)
      have hsound := (hs.force hwaits).leads (hfirst (.force c g :: K))
      have hre := (hsecond (.force c g :: K)).evaluated hsound (force_ok_state hr.force) (by simp)
      exact (Store.state_valued_of_ne (Store.ne_of_running hu hre (by simp)) v heaps).trans hre
    exact .inr (.inr ⟨l, 0, ⟨r, tag, hleads.begins hs hx, hend⟩, .first, Nat.lt_succ_self _⟩)

/-- **A force of a cell of a concatenation, in which all goes well with the lists, gives a list node.** -/
theorem given (hs : Moment.Sound ⟨s, K⟩) (hl : s.Begins z l c) (h : Attends frugal p x y z depth s c) :
    ∃ v e, Given frugal p x y z depth l.length s c v e := by
  cases h with
  | within ha hc hr => exact given_within hs hl ha hc hr
  | joint ha hc hr hy => exact given_joint hs hl ha hc hr hy
  | @beyond _ _ e l' more _ head g v hx hc h =>
    refine ⟨v, e, h.force, h.node, fun r hr => ?_, fun hf => ?_⟩
    · -- a cell that waits for the concatenation comes no later than the end of the first list
      have hlength := (hx.isPrefix (hr.begins_unique hc)).length_le
      simp at hlength
    · obtain ⟨cs, hcs, hread⟩ := h.alone hf
      refine ⟨cs, hcs, fun b hb => ?_⟩
      obtain rfl := hread b hb
      exact .inl ⟨_, Nat.lt_succ_self _, ((runs_of_force_ok h.force K).begins hs hl).spineAt⟩
  | again hc hv =>
    refine ⟨_, s, force_evaluated hc _, hv, fun r hr => ?_, fun _ => ⟨[], .refl s, fun b hb => absurd hb List.not_mem_nil⟩⟩
    obtain ⟨-, -, -, hwaits⟩ := hr
    cases hc.symm.trans hwaits

end Attends

/-- What steps along a concatenation from a cell at position `n` on do if all goes well with the lists. -/
structure Walked (frugal : Prop) (p : Program) (x y z : CellId) (depth k n : Nat) (c d : CellId) (a a' : Moment) : Prop where
  drop : Sequence.dropSteps (p.runAt depth) k (.cell c) a.store = .ok (.cell d) a'.store
  course : Relation.ReflTransGen (Amid p x y z) a a'
  read : a'.store.ReadTo c k
  stops : ∃ i ≤ k, a'.store.SpineAt c i d ∧ (i = k ∨ ∃ tag, a'.store.state d = .evaluated (.nil tag))
  forced : frugal → ∃ cs, a.store.Forced cs a'.store ∧ ∀ b ∈ cs, a'.store.Due x y z (n + k) b

/-- **Steps along a concatenation, in which all goes well with the lists.** -/
theorem walked (hs : Moment.Sound ⟨s, K⟩) (hz : s.Concatenates x y z) (hl : s.Begins z l c)
    (h : Attended frugal p x y z depth k s c) : ∃ d e, Walked frugal p x y z depth k l.length c d ⟨s, K⟩ ⟨e, K⟩ := by
  induction k generalizing s c l with
  | zero =>
    exact ⟨c, s, rfl, .refl, .zero s c, ⟨0, Nat.le_refl 0, .first, .inl rfl⟩,
      fun _ => ⟨[], .refl s, fun b hb => absurd hb List.not_mem_nil⟩⟩
  | succ k ih =>
    obtain ⟨hhere, hrest⟩ := h
    obtain ⟨v, m, hgiven⟩ := hhere.given hs hl
    have hleads := runs_of_force_ok hgiven.force K
    have hcm := force_ok_state hgiven.force
    have hm := hs.leads hleads
    have hstep : Amid p x y z ⟨s, K⟩ ⟨m, K⟩ := by
      have hdemanded := Amid.demanded (K := K) hl (fun e he => by cases hgiven.force.symm.trans he) hgiven.lists
      rwa [hgiven.force] at hdemanded
    obtain ⟨-, hzm⟩ := hstep.concatenates hs hz
    rcases hgiven with ⟨hforce, hnode, -, hforced⟩
    cases hnode with
    | node tag head next =>
      obtain ⟨d, e, hdrop, hcourse, hread, ⟨i, hi, hd, hend⟩, hforced'⟩ :=
        ih hm hzm ((hleads.begins hs hl).snoc hcm) (hrest tag _ next m hforce)
      have hlater : Moment.Leads ⟨m, K⟩ ⟨e, K⟩ := (concatenates_of_amid hcourse hm hzm).1
      have hce := hlater.evaluated hm hcm (by simp)
      refine ⟨d, e, (Sequence.dropSteps_cons hforce k).trans hdrop, .head hstep hcourse, .cons hce hread,
        ⟨i + 1, Nat.succ_le_succ hi, hd.cons hce, hend.imp_left (congrArg (· + 1))⟩, fun hf => ?_⟩
      obtain ⟨cs, hcs, hdue⟩ := hforced hf
      obtain ⟨cs', hcs', hdue'⟩ := hforced' hf
      rw [List.length_append, List.length_singleton, Nat.add_assoc, Nat.add_comm 1] at hdue'
      refine ⟨cs ++ cs', hcs.trans hcs', fun b hb => ?_⟩
      rcases List.mem_append.1 hb with hb | hb
      · exact (hdue b hb).leads hm hlater (by omega)
      · exact hdue' b hb
    | done tag =>
      refine ⟨c, m, Sequence.dropSteps_nil hforce k, .single hstep, .nil hcm _,
        ⟨0, Nat.zero_le _, .first, .inr ⟨tag, hcm⟩⟩, fun hf => ?_⟩
      obtain ⟨cs, hcs, hdue⟩ := hforced hf
      exact ⟨cs, hcs, fun b hb => (hdue b hb).leads hm .refl (by omega)⟩

/-! ## What a concatenation is -/

/-- What a store says of a concatenation, wherever it was read: it has the heads of the first list, and after its end
those of the second; and where the first list ends, it has the value of the second, so that, unless this is empty, the
cells after it are those of the second list, however they are come by. -/
structure Store.Joins (s : Store) (x y z : CellId) : Prop where
  heads : ∀ l c, s.Begins z l c → (∃ r, s.Begins x l r) ∨ ∃ l₁ l₂ d, s.Lists x l₁ ∧ s.Begins y l₂ d ∧ l = l₁ ++ l₂
  whole : ∀ l, s.Lists z l → ∃ l₁ l₂, s.Lists x l₁ ∧ s.Lists y l₂ ∧ l = l₁ ++ l₂
  value : ∀ l c v, s.Lists x l → s.Begins z l c → s.state c = .evaluated v → s.state y = .evaluated v
  cells : ∀ l c tag head next, s.Lists x l → s.Begins z l c → s.state c = .evaluated (.cons tag head next) → ∀ j, 1 ≤ j →
    (∀ d, s.SpineAt z (l.length + j) d ↔ s.SpineAt y j d) ∧
    ∀ run, Sequence.drop run (l.length + j : Nat) (.cell z) s = Sequence.drop run j (.cell y) s

theorem Store.Concatenates.joins (h : s.Concatenates x y z) : s.Joins x y z where
  heads _ _ hl := h.heads hl
  whole _ hl := h.lists hl
  value _ _ _ hx hc hv := (h.joint hx hc hv).1
  cells l c tag head next hx hc hv j hj := by
    obtain ⟨hy, -⟩ := h.joint hx hc hv
    have heq : s.state c = s.state y := hv.trans hy.symm
    have hspine := hc.spineAt
    obtain ⟨j, rfl⟩ := Nat.exists_eq_add_of_le' hj
    refine ⟨fun d => hspine.add_iff.trans ⟨fun hd => hd.of_state_eq heq, fun hd => hd.of_state_eq heq.symm⟩, fun run => ?_⟩
    rw [Sequence.drop_natCast, Sequence.drop_natCast, Sequence.dropSteps_add hspine,
      Sequence.dropSteps_cons (force_evaluated hv run), Sequence.dropSteps_cons (force_evaluated hy run)]

/-- **A concatenation is made of its two lists, by reference, and reads them as far as it is read.**  Take any two cells
of any program, the concatenation of the lists at them, and anything that was done around it since it was made, in any
order and by whomever: forces of its cells, in which the lists come to lists, and whatever leaves the cell alone at which
the concatenation has come to stand.  Then the store joins the two lists in it (`Store.Joins`).  If one of the lists is
empty it has the heads of the other one; and the concatenation of it with a third list has the heads of the concatenation
of the first list with that of the other two.  If all goes well with the lists, as far as they are read for that, up to `k`
steps along it succeed, from however far it was read before, and lead to position `k`, or to its end.  Then its first `k`
cells were read, and of the first list `k` cells as well, or all with the end, and of the second list as many as there are
steps beyond the end of the first; if these are `j`, and the second list is not empty, `j` steps along the second list lead
to the identical cell.  If the lists are frugal, the steps began forces of these cells only, so of no head for its own
sake. -/
theorem append_concatenates (p : Program) {x y z : CellId} {a : Moment} (h : Concatenated p x y z a) :
    a.store.Joins x y z ∧
    ((a.store.Lists x [] → a.store.SameHeads z y) ∧ (a.store.Lists y [] → a.store.SameHeads z x) ∧
      ∀ w zw yw xyw, Concatenated p z w zw a → Concatenated p y w yw a → Concatenated p x yw xyw a →
        a.store.SameHeads zw xyw) ∧
    ∀ frugal depth k, Attended frugal p x y z depth k a.store z → ∃ d e,
      Sequence.drop (p.runAt depth) k (.cell z) a.store = .ok (.cell d) e ∧ Concatenated p x y z ⟨e, a.pending⟩ ∧
      (∃ i ≤ k, e.SpineAt z i d ∧ (i = k ∨ ∃ tag, e.state d = .evaluated (.nil tag))) ∧
      (∀ l j tag head next, e.Lists x l → e.state y = .evaluated (.cons tag head next) → k = l.length + j → 1 ≤ j →
        Sequence.drop (p.runAt depth) j (.cell y) e = .ok (.cell d) e) ∧
      (e.ReadTo z k ∧ e.ReadTo x k ∧ ∀ l, e.Lists x l → e.ReadTo y (k - l.length)) ∧
      (frugal → ∃ cs, a.store.Forced cs e ∧ ∀ b ∈ cs, e.Due x y z k b) := by
  obtain ⟨hsound, hz⟩ := h.known
  refine ⟨hz.joins, ⟨fun hx => ?_, fun hy => ?_, fun w zw yw xyw hzw hyw hxyw => ?_⟩, fun frugal depth k hattended => ?_⟩
  · exact (Store.Spells.append (.empty hx) (.self _ y) hz).sameHeads (.self _ y)
  · exact (Store.Spells.append (.self _ x) (.empty hy) hz).sameHeads (.self _ x)
  · have hleft := Store.Spells.append (.append (.self _ x) (.self _ y) hz) (.self _ w) hzw.known.2
    have hright := Store.Spells.append (.self _ x) (.append (.self _ y) (.self _ w) hyw.known.2) hxyw.known.2
    exact hleft.sameHeads hright
  · obtain ⟨d, e, hdrop, hcourse, hread, hstops, hforced⟩ := walked hsound hz (.here z) hattended
    have hlater := h.trans hcourse
    have hze := hlater.known.2
    rw [List.length_nil, Nat.zero_add] at hforced
    refine ⟨d, e, ?_, hlater, hstops, fun l j tag head next hx hy hk hj => ?_, ⟨hread, hze.readTo hread⟩, hforced⟩
    · rw [Sequence.drop_natCast]
      exact hdrop
    · obtain ⟨c, v, hc, hv⟩ := hze.reaches hx hread (by omega)
      cases (hze.joint hx hc hv).1.symm.trans hy
      rw [← (hze.joins.cells l c tag head next hx hc hv j hj).2, ← hk, Sequence.drop_natCast]
      obtain ⟨i, hi, hd, hend⟩ := hstops
      exact Sequence.dropSteps_of_stops hd hi hend _

namespace Concatenating
open Run Supplying Recurring

/-- Opens a heap, and makes three lists of one integer each. -/
def opens : Run CellId := do
  enter (← newHeap {})
  discard (Sequence.between (.int 7) (.int 7))
  discard (Sequence.between (.int 8) (.int 8))
  Sequence.between (.int 9) (.int 9)

/-- Three lists, -/
def opened : Store := finalStore (opens {})

/-- with the concatenation of the first two, -/
def first : Store := finalStore (Sequence.append (.cell 0) (.cell 1) opened)

/-- the concatenation of this one with the third, -/
def left : Store := finalStore (Sequence.append (.cell 3) (.cell 2) first)

/-- the concatenation of the last two, -/
def last : Store := finalStore (Sequence.append (.cell 1) (.cell 2) left)

/-- and the concatenation of the first with this one. -/
def made : Store := finalStore (Sequence.append (.cell 0) (.cell 5) last)

/-- The first cell is read of the one concatenation of the three, -/
def readLeft : Store := finalStore (force (Program.runAt [] 3) 4 made)

/-- and of the other. -/
def readBoth : Store := finalStore (force (Program.runAt [] 3) 6 readLeft)

/-- Whether it is a node that a force comes to. -/
theorem force_node? (h : ended? (force (p.runAt depth) c s) = some false) :
    ∃ v, force (p.runAt depth) c s = .ok v (finalStore (force (p.runAt depth) c s)) ∧ v.ListNode ∧ ∀ tag, v ≠ .nil tag := by
  obtain ⟨v, hv, hnode, -⟩ := eq_ok_of_ended? h
  refine ⟨v, hv, hnode, ?_⟩
  rintro tag rfl
  rw [hv] at h
  cases h

theorem findsLists_of_node (ha : s.active = some g)
    (h : ended? (force (p.runAt depth) r (s.began c g (.appendNode (.cell r) (.cell y)))) = some false) :
    FindsLists p s (depth + 1) c r y := by
  obtain ⟨v, hv, hnode, hnil⟩ := force_node? h
  intro n g' v' m hn hg hforce
  cases hn
  cases ha.symm.trans hg
  cases hv.symm.trans hforce
  exact ⟨hnode, fun tag htag => absurd htag (hnil tag)⟩

theorem step_append {x y : CellId} (ha : s.active = some g) :
    s.Step (finalStore (Sequence.append (.cell x) (.cell y) s)) := by
  rw [show Sequence.append (.cell x) (.cell y) s = _ from suspend_apply ha _]
  exact .newCell s g _ ha

theorem reached_opened : Moment.Leads ⟨{}, []⟩ ⟨opened, []⟩ :=
  have hopens : Run.Follows opens :=
    follows_bind (follows_newHeap _ _ _) fun h => follows_bind (follows_enter h) fun _ =>
      follows_bind (follows_discard (Sequence.follows_between _ _)) fun _ =>
        follows_bind (follows_discard (Sequence.follows_between _ _)) fun _ => Sequence.follows_between _ _
  hopens {} []

theorem step_first : opened.Step first := step_append (g := 0) rfl

theorem step_left : first.Step left := step_append (g := 0) rfl

theorem step_last : left.Step last := step_append (g := 0) rfl

theorem step_made : last.Step made := step_append (g := 0) rfl

theorem reached_made : Moment.Leads ⟨{}, []⟩ ⟨made, []⟩ :=
  (((reached_opened.tail (.change [] step_first)).tail (.change [] step_left)).tail (.change [] step_last)).tail
    (.change [] step_made)

theorem force_left : ∃ v, force (Program.runAt [] 3) 4 made = .ok v readLeft := by
  obtain ⟨v, hv, -⟩ := force_node? (show ended? (force (Program.runAt [] 3) 4 made) = some false by decide +kernel)
  exact ⟨v, hv⟩

theorem force_right : ∃ v, force (Program.runAt [] 3) 6 readLeft = .ok v readBoth := by
  obtain ⟨v, hv, -⟩ := force_node? (show ended? (force (Program.runAt [] 3) 6 readLeft) = some false by decide +kernel)
  exact ⟨v, hv⟩

/-- A concatenation that waits before and after is left alone by a force. -/
theorem amid_beside {x y z q : CellId} (hforce : force (p.runAt depth) c s = .ok v e) (hl : s.Begins z l r)
    (hr : append? (s.state r) = some (q, y)) (he : append? (e.state r) = some (q, y)) : Amid p x y z ⟨s, K⟩ ⟨e, K⟩ :=
  .other (runs_of_force_ok hforce K) fun r' b hb => by
    obtain rfl := hb.eq_of_suspended hl (eq_of_append? hr)
    rw [eq_of_append? hr, eq_of_append? he]

/-- A concatenation whose first list comes to a node is forced. -/
theorem amid_demanded {x y z q : CellId} (hforce : force (p.runAt (depth + 1)) z s = .ok v e) (ha : s.active = some g)
    (hz : append? (s.state z) = some (q, y))
    (hq : ended? (force (p.runAt depth) q (s.began z g (.appendNode (.cell q) (.cell y)))) = some false) :
    Amid p x y z ⟨s, K⟩ ⟨e, K⟩ := by
  have hdemanded := Amid.demanded (p := p) (x := x) (y := y) (K := K) (.here z) (fun e he => by cases hforce.symm.trans he)
    fun r hr => by
      obtain ⟨-, -, -, hwaits⟩ := hr
      cases (eq_of_append? hz).symm.trans hwaits
      exact findsLists_of_node ha hq
  rwa [hforce] at hdemanded

/-- The concatenation of the first two lists, while both concatenations of all three are read. -/
theorem concatenated_first : Concatenated [] 0 1 3 ⟨readBoth, []⟩ := by
  obtain ⟨v, hforce⟩ := force_left
  obtain ⟨w, hforce'⟩ := force_right
  have hb : made.state 4 = .suspended (.appendNode (.cell 3) (.cell 2)) := eq_of_append? (by decide +kernel)
  have houter : Relation.ReflTransGen (Amid [] 0 1 3) ⟨made, []⟩ ⟨readLeft, []⟩ := by
    refine amid_of_outer (Moment.sound_start.leads reached_made) (.here 3) hb (fun r hr => ?_) hforce fun g hg => ?_
    · obtain ⟨-, -, -, hwaits⟩ := hr
      cases hb.symm.trans hwaits
    · cases (show made.active = some 0 by decide +kernel).symm.trans hg
      let began := made.began 4 0 (.appendNode (.cell 3) (.cell 2))
      obtain ⟨v, hv, hnode, -⟩ :=
        force_node? (show ended? (force (Program.runAt [] 2) 3 began) = some false by decide +kernel)
      refine ⟨fun u m hu => ?_, fun r hr => ?_⟩
      · cases hv.symm.trans hu
        exact hnode
      · obtain ⟨-, -, -, hwaits⟩ := hr
        cases (eq_of_append? (show append? (began.state 3) = some (0, 1) by decide +kernel)).symm.trans hwaits
        exact findsLists_of_node (show began.active = some 0 by decide +kernel) (by decide +kernel)
  obtain ⟨_, hthree⟩ := eq_of_node? (show node? (readLeft.state 3) = some (7, 9) by decide +kernel)
  have hbeside : Amid [] 0 1 3 ⟨readLeft, []⟩ ⟨readBoth, []⟩ :=
    amid_beside (q := 8) hforce' (.node hthree (.here 9)) (by decide +kernel) (by decide +kernel)
  exact ⟨opened, first, [], reached_opened, rfl,
    .tail (.trans (.head (.of_step step_left) (.head (.of_step step_last) (.single (.of_step step_made)))) houter) hbeside⟩

theorem concatenated_left : Concatenated [] 3 2 4 ⟨readBoth, []⟩ := by
  obtain ⟨v, hforce⟩ := force_left
  obtain ⟨w, hforce'⟩ := force_right
  have hdemanded : Amid [] 3 2 4 ⟨made, []⟩ ⟨readLeft, []⟩ :=
    amid_demanded (g := 0) (q := 3) hforce (by decide +kernel) (by decide +kernel) (by decide +kernel)
  obtain ⟨_, hfour⟩ := eq_of_node? (show node? (readLeft.state 4) = some (7, 10) by decide +kernel)
  have hbeside : Amid [] 3 2 4 ⟨readLeft, []⟩ ⟨readBoth, []⟩ :=
    amid_beside (q := 9) hforce' (.node hfour (.here 10)) (by decide +kernel) (by decide +kernel)
  exact ⟨first, left, [], reached_opened.tail (.change [] step_first), rfl,
    .head (.of_step step_last) (.head (.of_step step_made) (.head hdemanded (.single hbeside)))⟩

theorem concatenated_last : Concatenated [] 1 2 5 ⟨readBoth, []⟩ := by
  obtain ⟨v, hforce⟩ := force_left
  obtain ⟨w, hforce'⟩ := force_right
  have hleft : Amid [] 1 2 5 ⟨made, []⟩ ⟨readLeft, []⟩ :=
    amid_beside (q := 1) hforce (.here 5) (by decide +kernel) (by decide +kernel)
  have hright : Amid [] 1 2 5 ⟨readLeft, []⟩ ⟨readBoth, []⟩ :=
    amid_beside (q := 1) hforce' (.here 5) (by decide +kernel) (by decide +kernel)
  exact ⟨left, last, [], (reached_opened.tail (.change [] step_first)).tail (.change [] step_left), rfl,
    .head (.of_step step_made) (.head hleft (.single hright))⟩

theorem concatenated_right : Concatenated [] 0 5 6 ⟨readBoth, []⟩ := by
  obtain ⟨v, hforce⟩ := force_left
  obtain ⟨w, hforce'⟩ := force_right
  have hbeside : Amid [] 0 5 6 ⟨made, []⟩ ⟨readLeft, []⟩ :=
    amid_beside (q := 0) hforce (.here 6) (by decide +kernel) (by decide +kernel)
  have hdemanded : Amid [] 0 5 6 ⟨readLeft, []⟩ ⟨readBoth, []⟩ :=
    amid_demanded (g := 0) (q := 0) hforce' (by decide +kernel) (by decide +kernel) (by decide +kernel)
  exact ⟨last, made, [], ((reached_opened.tail (.change [] step_first)).tail (.change [] step_left)).tail
    (.change [] step_last), rfl, .head hbeside (.single hdemanded)⟩

/-- Two steps are made along the concatenation of the first two lists, of which one was made before. -/
def readOn : Store := finalStore (Sequence.drop (Program.runAt [] 2) (2 : Nat) (.cell 3) readBoth)

theorem attended_two : Attended True [] 0 1 3 2 2 readBoth 3 := by
  obtain ⟨_, hzero⟩ := eq_of_node? (show node? (readBoth.state 0) = some (7, 8) by decide +kernel)
  obtain ⟨_, hthree⟩ := eq_of_node? (show node? (readBoth.state 3) = some (7, 9) by decide +kernel)
  refine ⟨.again hthree (.node _ _ _), fun tag head next e hforce => ?_⟩
  cases (force_evaluated hthree _).symm.trans hforce
  refine ⟨?_, fun _ _ _ _ _ => trivial⟩
  have hwaits : readBoth.Awaits 0 1 3 8 9 :=
    ⟨[7], .node hzero (.here 8), .node hthree (.here 9), eq_of_append? (by decide +kernel)⟩
  let began := readBoth.began 9 0 (.appendNode (.cell 8) (.cell 1))
  obtain ⟨tag, m, hr⟩ := reads_end (show reads 1 began 8 true = true by decide +kernel)
  obtain rfl : m = finalStore (force (Program.runAt [] 1) 8 began) := (congrArg finalStore hr.force).symm
  obtain ⟨_, _, _, _, hy⟩ := reads_node (show reads 1 (finalStore (force (Program.runAt [] 1) 8 began)) 1 false = true by
    decide +kernel)
  exact .joint (by decide +kernel) hwaits (hr.comes (.done tag)) (hy.comes (.node _ _ _))

end Concatenating

open Concatenating Supplying in
/-- Two concatenations of three lists have the same heads, and the second step along the concatenation of the first two
leads into the second list. -/
theorem append_concatenates_two :
    Concatenated [] 0 1 3 ⟨readBoth, []⟩ ∧ readBoth.SameHeads 4 6 ∧ ∃ d cs,
      Sequence.drop (Program.runAt [] 2) (2 : Nat) (.cell 3) readBoth = .ok (.cell d) readOn ∧ readOn.ReadTo 0 2 ∧
      readOn.ReadTo 1 1 ∧ readBoth.Forced cs readOn ∧ ∀ b ∈ cs, readOn.Due 0 1 3 2 b := by
  obtain ⟨-, ⟨-, -, hassoc⟩, hsteps⟩ := append_concatenates [] concatenated_first
  obtain ⟨d, e, hdrop, -, -, -, ⟨-, hx, hy⟩, hforced⟩ := hsteps True 2 2 attended_two
  obtain ⟨cs, hcs, hdue⟩ := hforced trivial
  have he : readOn = e := congrArg Run.finalStore hdrop
  rw [← he] at hdrop hx hy hcs hdue
  obtain ⟨_, hzero⟩ := eq_of_node? (show node? (readOn.state 0) = some (7, 8) by decide +kernel)
  obtain ⟨tag, hend⟩ := eq_of_ended (show ended (readOn.state 8) = true by decide +kernel)
  have hlists : readOn.Lists 0 [7] := ⟨8, tag, .node hzero (.here 8), hend⟩
  exact ⟨concatenated_first, hassoc 2 4 5 6 concatenated_left concatenated_last concatenated_right, d, cs, hdrop, hx,
    hy [7] hlists, hcs, hdue⟩

end Retention
