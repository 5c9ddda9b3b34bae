import Retention.Proofs.Course
import Retention.Proofs.Layout
import Retention.Proofs.Unrolling
/-!
# ByNeed — a shared repetition keeps all that was read

Every lap of a shared repetition refers to the list and to the start of the repetition, so all cells that were consumed
stay live.  `ByNeed.Laid` tells the state of each cell that is in use after `k` steps, by its place in the `Layout`:
what is left refers to the rest of the list and to the lap that is to follow, and that lap leads back to the start.
The live cells are all those of the layout, from whatever cell of the repetition they are looked for.
-/
namespace Retention
namespace ByNeed

open Store (Hosts Grown Numbered)
open Layout

variable {s e : Store} {h : HeapId} {r : Interval} {base k q j : Nat}

/-- The shared repetition of an interval before its first step. -/
structure Start (r : Interval) (base : Nat) (h : HeapId) (s : Store) : Prop where
  numbered : s.Numbered base h
  created : (s.heap h).created = 2
  forced : (s.heap h).forced = 0
  source : ∃ tag, s.state base = .suspended (.intervalNode tag (.int r.lo) (.int r.hi))
  origin : s.state (base + 1) = .suspended (.cycleStart (base + 1) (.cell base))

/-- The shared repetition of an interval after `k` steps, `j` of them in the lap that follows `q` whole laps. -/
structure Laid (r : Interval) (base : Nat) (h : HeapId) (s : Store) (k q j : Nat) : Prop where
  steps : k = q * r.length + j
  pos : 0 < j
  le : j ≤ r.length
  numbered : s.Numbered base h
  created : (s.heap h).created = made r.length k
  forced : (s.heap h).forced = 2 + k + min (k - 1) r.length + 2 * q
  spines : ∀ i < k, ∃ tag, s.state (spine base r.length i) =
    .evaluated (.cons tag (.cell (head base r.length (i % r.length))) (.cell (spine base r.length (i + 1))))
  front : s.state (spine base r.length k) =
    .suspended (.appendNode (.cell (source base r.length j)) (.cell (lap base r.length q)))
  next : ∃ tag, s.state (lap base r.length q) =
    .suspended (.sharedLap tag (.cell (source base r.length 0)) (.cell (spine base r.length 0)))
  sources : ∀ i < min k r.length, ∃ tag, s.state (source base r.length i) =
    .evaluated (.cons tag (.cell (head base r.length i)) (.cell (source base r.length (i + 1))))
  heads : ∀ i < min k r.length, ∃ tag, s.state (head base r.length i) =
    .suspended (.intervalHead tag (.int (r.lo + i)) (.int r.hi))
  rest : k ≤ r.length → ∃ tag, s.state (source base r.length k) =
    .suspended (.intervalNode tag (.int (r.lo + k)) (.int r.hi))
  last : r.length < k → s.state (source base r.length r.length) = .evaluated .listEnd

namespace Laid

theorem size (hl : Laid r base h s k q j) : s.cells.size = base + made r.length k := by
  rw [hl.numbered.size, hl.created]

theorem length_pos (hl : Laid r base h s k q j) : 0 < r.length := Nat.lt_of_lt_of_le hl.pos hl.le

/-- One step further: a force that changes what is left, the rest of the list and the next lap at most, and of which the
states of the new cells are known. -/
theorem succ (hl : Laid r base h s k q j) {q' j' m f : Nat} {changed : List CellId} (hg : Grown h s e m f changed)
    (hc : ∀ b ∈ changed, b = spine base r.length k ∨ (k ≤ r.length ∧ b = source base r.length k) ∨
      b = lap base r.length q)
    (hsteps : k + 1 = q' * r.length + j') (hpos : 0 < j') (hle : j' ≤ r.length)
    (hmade : made r.length k + m = made r.length (k + 1))
    (hforced : min (k - 1) r.length + 2 * q + f = 1 + min k r.length + 2 * q')
    (hnode : ∃ tag, e.state (spine base r.length k) = .evaluated
      (.cons tag (.cell (head base r.length (k % r.length))) (.cell (spine base r.length (k + 1)))))
    (hfront : e.state (spine base r.length (k + 1)) =
      .suspended (.appendNode (.cell (source base r.length j')) (.cell (lap base r.length q'))))
    (hnext : ∃ tag, e.state (lap base r.length q') =
      .suspended (.sharedLap tag (.cell (source base r.length 0)) (.cell (spine base r.length 0))))
    (hsource : k < r.length → ∃ tag tag', e.state (source base r.length k) =
      .evaluated (.cons tag (.cell (head base r.length k)) (.cell (source base r.length (k + 1)))) ∧
      e.state (head base r.length k) = .suspended (.intervalHead tag' (.int (r.lo + k)) (.int r.hi)))
    (hrest : k + 1 ≤ r.length → ∃ tag, e.state (source base r.length (k + 1)) =
      .suspended (.intervalNode tag (.int (r.lo + (k + 1 : Nat))) (.int r.hi)))
    (hlast : r.length < k + 1 → e.state (source base r.length r.length) = .evaluated .listEnd) :
    Laid r base h e (k + 1) q' j' := by
  have hsize := hl.size
  have hlength := hl.length_pos
  refine ⟨hsteps, hpos, hle, hl.numbered.grown hg, ?_, ?_, fun i hi => ?_, hfront, hnext, fun i hi => ?_, fun i hi => ?_,
    hrest, hlast⟩
  · rw [hg.created, hl.created, hmade]
  · rw [hg.forces, hl.forced]
    have := hl.pos
    have := hl.steps
    omega
  · rcases Nat.lt_or_eq_of_le (Nat.le_of_lt_succ hi) with hlt | rfl
    · obtain ⟨tag, hi'⟩ := hl.spines i hlt
      refine ⟨tag, (hg.state _ (hsize ▸ spine_lt (Nat.le_of_lt hlt)) fun hmem => ?_).trans hi'⟩
      rcases hc _ hmem with heq | ⟨hk, heq⟩ | heq
      · exact absurd (spine_inj.1 heq) (Nat.ne_of_lt hlt)
      · exact spine_ne_source hk heq
      · exact lap_ne_spine hlength heq.symm
    · exact hnode
  · rcases Nat.lt_or_ge i k with hlt | hge
    · obtain ⟨tag, hi'⟩ := hl.sources i (by omega)
      refine ⟨tag, (hg.state _ (hsize ▸ source_lt (by omega) (Nat.le_of_lt hlt)) fun hmem => ?_).trans hi'⟩
      rcases hc _ hmem with heq | ⟨-, heq⟩ | heq
      · exact spine_ne_source (by omega) heq.symm
      · exact absurd (source_inj.1 heq) (Nat.ne_of_lt hlt)
      · exact lap_ne_source hlength (by omega) heq.symm
    · obtain rfl : i = k := by omega
      obtain ⟨tag, -, hs, -⟩ := hsource (by omega)
      exact ⟨tag, hs⟩
  · rcases Nat.lt_or_ge i k with hlt | hge
    · obtain ⟨tag, hi'⟩ := hl.heads i (by omega)
      refine ⟨tag, (hg.state _ (hsize ▸ head_lt hlt) fun hmem => ?_).trans hi'⟩
      rcases hc _ hmem with heq | ⟨hk, heq⟩ | heq
      · exact spine_ne_head (by omega) heq.symm
      · exact source_ne_head hk heq.symm
      · exact lap_ne_head hlength (by omega) heq.symm
    · obtain rfl : i = k := by omega
      obtain ⟨-, tag, -, hs⟩ := hsource (by omega)
      exact ⟨tag, hs⟩

end Laid

/-- A force of what is left after `k` steps gives the next element and lays out one step more. -/
def Unrolls (p : Program) (depth : Nat) (r : Interval) (base : Nat) (h : HeapId) (s : Store) (k : Nat) : Prop :=
  ∃ tag e made forced changed q j,
    force (p.runAt depth) (spine base r.length k) s =
      .ok (.cons tag (.cell (head base r.length (k % r.length))) (.cell (spine base r.length (k + 1)))) e ∧
    Grown h s e made forced changed ∧ Laid r base h e (k + 1) q j

namespace Laid

/-- Inside the first lap, the list is evaluated as far as the repetition is. -/
theorem unrolls_first (p : Program) (depth : Nat) (hl : Laid r base h s k q j) (hs : s.Hosts h) (hk : k < r.length)
    (hr : r.length ≤ sizeLimit) : Unrolls p (depth + 3) r base h s k := by
  have hsteps := hl.steps
  obtain rfl : q = 0 := by
    cases q with
    | zero => rfl
    | succ q => have hsucc : (q + 1) * r.length = q * r.length + r.length := Nat.succ_mul q r.length; omega
  obtain rfl : j = k := by omega
  have hsize := hl.size
  obtain ⟨tag, hrest⟩ := hl.rest (Nat.le_of_lt hk)
  let part : Interval := ⟨r.lo + j, r.hi⟩
  obtain ⟨hpne, hpart⟩ := Interval.from_element hk
  have hne : source base r.length j ≠ spine base r.length j := (spine_ne_source hl.le).symm
  have hbegan := Grown.began h s (spine base r.length j)
    (.appendNode (.cell (source base r.length j)) (.cell (lap base r.length 0)))
  have hbsize := hbegan.size
  rw [Nat.add_zero] at hbsize
  have hxb := (Store.state_began_of_ne s hne h
    (.appendNode (.cell (source base r.length j)) (.cell (lap base r.length 0)))).trans hrest
  obtain ⟨next, rest, m, hm, hgm, hself, hhead, htail⟩ :=
    force_interval p (depth + 1) (r := part) (hbegan.hosts hs) hxb hpne (Nat.le_trans hpart hr)
  -- the new cells are where the layout has them
  have hhead' : base + made r.length j = head base r.length j := rfl
  have hsource' : base + made r.length j + 1 = source base r.length (j + 1) := rfl
  have hmsize : m.cells.size = spine base r.length (j + 1) := by
    rw [hgm.size, hbsize, hsize, spine, made_succ_of_lt hl.pos hk]; omega
  rw [hbsize, hsize, hsource', hhead'] at hm hself
  rw [hbsize, hsize, hhead'] at hhead
  rw [hbsize, hsize, hsource'] at htail
  obtain ⟨node, e, hforce, hg, hnode, hfront, hold⟩ := force_append hs hl.front hm hgm
  rw [hmsize] at hforce hnode hfront hold
  have hmod : j % r.length = j := Nat.mod_eq_of_lt hk
  have hnew : base + made r.length j + 2 = spine base r.length (j + 1) := by rw [← hmsize, hgm.size, hbsize, hsize]
  have hlaid : Laid r base h e (j + 1) 0 (j + 1) := by
    refine hl.succ hg (fun b hb => ?_) (by omega) (Nat.succ_pos j) hk (made_succ_of_lt hl.pos hk).symm
      (by have := hl.pos; omega) ⟨node, hmod.symm ▸ hnode⟩ hfront ?_ (fun _ => ⟨next, tag, ?_, ?_⟩)
      (fun _ => ⟨rest, ?_⟩) (fun h => absurd h (by omega))
    · rcases List.mem_cons.1 hb with heq | hb
      · exact .inl heq
      · exact .inr (.inl ⟨hl.le, List.mem_singleton.1 hb⟩)
    · obtain ⟨tag, hnext⟩ := hl.next
      have hlap : lap base r.length 0 < base + made r.length j := lap_lt (by have := hl.pos; omega)
      refine ⟨tag, (hg.state _ (hsize ▸ hlap) fun hmem => ?_).trans hnext⟩
      rcases List.mem_cons.1 hmem with heq | hmem
      · exact lap_ne_spine hl.length_pos heq
      · exact lap_ne_source hl.length_pos hl.le (List.mem_singleton.1 hmem)
    · have hlt : source base r.length j < base + made r.length j := source_lt hl.le (Nat.le_refl j)
      exact (hold _ (by omega) hne).trans hself
    · exact (hold _ (by omega) (spine_ne_head hk).symm).trans hhead
    · have hlt : source base r.length (j + 1) < spine base r.length (j + 1) := by rw [source_succ]; omega
      refine (hold _ hlt (spine_ne_source hk).symm).trans (htail.trans ?_)
      simp [Interval.rest, part, Int.add_assoc]
  exact ⟨node, e, _, _, _, 0, j + 1, hmod.symm ▸ hforce, hg, hlaid⟩

/-- In a later lap, the list is evaluated already. -/
theorem unrolls_later (p : Program) (depth : Nat) (hl : Laid r base h s k q j) (hs : s.Hosts h) (hk : r.length ≤ k)
    (hj : j < r.length) : Unrolls p (depth + 3) r base h s k := by
  have hsteps := hl.steps
  have hsize := hl.size
  have hlt : r.length < k := by
    cases q with
    | zero => omega
    | succ q =>
      have hsucc : (q + 1) * r.length = q * r.length + r.length := Nat.succ_mul q r.length
      have hpos := hl.pos
      omega
  obtain ⟨tag, hsource⟩ := hl.sources j (by omega)
  have hne : source base r.length j ≠ spine base r.length k := (spine_ne_source hl.le).symm
  have hbegan := Grown.began h s (spine base r.length k)
    (.appendNode (.cell (source base r.length j)) (.cell (lap base r.length q)))
  have hbsize := hbegan.size
  rw [Nat.add_zero] at hbsize
  have hxb := (Store.state_began_of_ne s hne h
    (.appendNode (.cell (source base r.length j)) (.cell (lap base r.length q)))).trans hsource
  obtain ⟨node, e, hforce, hg, hnode, hfront, -⟩ :=
    force_append hs hl.front (force_evaluated hxb (p.runAt (depth + 2))) (.refl h _)
  have hmade : made r.length (k + 1) = made r.length k + 1 := by
    cases q with
    | zero => omega
    | succ q => rw [hsteps]; exact made_succ_of_lap hl.pos hj q
  have hspine' : base + made r.length k = spine base r.length (k + 1) := by rw [spine, hmade]; rfl
  rw [hbsize, hsize, hspine'] at hforce hnode hfront
  have hmod : k % r.length = j := by rw [hsteps, Nat.mul_add_mod_self_right, Nat.mod_eq_of_lt hj]
  have hold : ∀ b < base + made r.length k, b ≠ spine base r.length k → e.state b = s.state b := fun b hb hbne =>
    hg.state b (hsize ▸ hb) fun hmem => hbne (List.mem_singleton.1 hmem)
  have hlaid : Laid r base h e (k + 1) q (j + 1) := by
    refine hl.succ hg (fun b hb => .inl (List.mem_singleton.1 hb)) (by omega) (Nat.succ_pos j) hj hmade.symm
      (by omega) ⟨node, hmod.symm ▸ hnode⟩ hfront ?_ (fun h => absurd h (by omega)) (fun h => absurd h (by omega))
      (fun _ => ?_)
    · obtain ⟨tag, hnext⟩ := hl.next
      have hlap : lap base r.length q < base + made r.length k := lap_lt (by have := hl.pos; omega)
      exact ⟨tag, (hold _ hlap (lap_ne_spine hl.length_pos)).trans hnext⟩
    · have hend : source base r.length r.length < base + made r.length k := source_lt (Nat.le_refl _) hk
      exact (hold _ hend (spine_ne_source (Nat.le_refl _)).symm).trans (hl.last hlt)
  exact ⟨node, e, _, _, _, q, j + 1, hmod.symm ▸ hforce, hg, hlaid⟩

/-- Where a lap ends, so does the list; it may be evaluated that far only now. -/
theorem force_last (p : Program) (depth : Nat) (hl : Laid r base h s k q r.length) {m : Store} (hm : m.Hosts h)
    (hsame : m.state (source base r.length r.length) = s.state (source base r.length r.length)) : ∃ e,
    force (p.runAt (depth + 1)) (source base r.length r.length) m = .ok .listEnd e ∧
    Grown h m e 0 (if q = 0 then 1 else 0) (if q = 0 then [source base r.length r.length] else []) ∧
    e.state (source base r.length r.length) = .evaluated .listEnd := by
  have hsteps := hl.steps
  cases q with
  | zero =>
    obtain rfl : k = r.length := by omega
    obtain ⟨tag, hrest⟩ := hl.rest (Nat.le_refl _)
    let part : Interval := ⟨r.lo + r.length, r.hi⟩
    exact force_interval_empty p depth (r := part) hm (hsame.trans hrest) r.hi_lt_end
  | succ q =>
    have hsucc : (q + 1) * r.length = q * r.length + r.length := Nat.succ_mul q r.length
    have hpos := hl.pos
    have hv := hsame.trans (hl.last (by omega))
    exact ⟨m, force_evaluated hv _, .refl h m, hv⟩

theorem made_boundary (hl : Laid r base h s k q r.length) : made r.length (k + 1) = made r.length k + 3 := by
  have hboundary := Layout.made_boundary hl.length_pos q
  rw [Nat.succ_mul, ← hl.steps] at hboundary
  exact hboundary

/-- Between two laps, the next one begins: its first node is made from that of the list. -/
theorem force_boundary (p : Program) (depth : Nat) (hl : Laid r base h s k q r.length) {m : Store} (hm : m.Hosts h)
    (hsize : m.cells.size = base + made r.length k)
    (hkept : ∀ b < base + made r.length k, b ≠ spine base r.length k → b ≠ source base r.length r.length →
      m.state b = s.state b) : ∃ node e,
    force (p.runAt (depth + 2)) (lap base r.length q) m =
      .ok (.cons node (.cell (head base r.length 0)) (.cell (spine base r.length (k + 1)))) e ∧
    Grown h m e 3 2 [lap base r.length q] ∧
    (∃ tag, e.state (lap base r.length (q + 1)) =
      .suspended (.sharedLap tag (.cell (source base r.length 0)) (.cell (spine base r.length 0)))) ∧
    e.state (spine base r.length (k + 1)) =
      .suspended (.appendNode (.cell (source base r.length 1)) (.cell (lap base r.length (q + 1)))) := by
  have hsteps := hl.steps
  have hlength := hl.length_pos
  obtain ⟨tag, hnext⟩ := hl.next
  obtain ⟨tag', hsource⟩ := hl.sources 0 (by have := hl.pos; omega)
  have hlap : lap base r.length q < base + made r.length k := lap_lt (by omega)
  have hfirst : source base r.length 0 < base + made r.length k := source_lt (Nat.zero_le _) (Nat.zero_le _)
  have hfirstne : source base r.length 0 ≠ source base r.length r.length := fun heq =>
    absurd (source_inj.1 heq) (Nat.ne_of_lt hlength)
  have hlapm := (hkept _ hlap (lap_ne_spine hlength) (lap_ne_source hlength (Nat.le_refl _))).trans hnext
  have hsourcem := (hkept _ hfirst (spine_ne_source (Nat.zero_le _)).symm hfirstne).trans hsource
  let next := Thunk.sharedLap tag (.cell (source base r.length 0)) (.cell (spine base r.length 0))
  have hx := (Store.state_began_of_ne m (lap_ne_source (q := q) hlength (Nat.zero_le _)).symm h next).trans hsourcem
  have hproduce : next.produce p (p.runAt (depth + 1)) (m.began (lap base r.length q) h next) =
      Cycle.lap (p.runAt (depth + 1)) (.cell (source base r.length 0)) next (m.began (lap base r.length q) h next) := rfl
  obtain ⟨node, e, hforce, hg, -, hlapnew, hrest, -⟩ := force_lap hm hlapm hproduce (.refl h _)
    (force_evaluated hx (p.runAt (depth + 1))) (.refl h _) hx
  -- the new cells are where the layout has them
  have hspine' : base + made r.length k + 2 = spine base r.length (k + 1) := by rw [spine, hl.made_boundary]; omega
  have hlap' : base + made r.length k = lap base r.length (q + 1) := by rw [lap_succ hlength, hsteps]
  rw [(Grown.began h m (lap base r.length q) next).size, hsize, Nat.add_zero] at hforce hlapnew hrest
  rw [hspine'] at hforce hrest
  rw [hlap'] at hlapnew hrest
  exact ⟨node, e, hforce, hg, ⟨tag, hlapnew⟩, hrest⟩

/-- Where a lap ends, the concatenation passes to the lap that is to follow. -/
theorem unrolls_boundary (p : Program) (depth : Nat) (hl : Laid r base h s k q r.length) (hs : s.Hosts h) :
    Unrolls p (depth + 3) r base h s k := by
  have hsteps := hl.steps
  have hsize := hl.size
  have hlength := hl.length_pos
  let append := Thunk.appendNode (.cell (source base r.length r.length)) (.cell (lap base r.length q))
  have hb := Grown.began h s (spine base r.length k) append
  obtain ⟨m, hm, hg₁, hend⟩ := hl.force_last p (depth + 1) (hb.hosts hs)
    (Store.state_began_of_ne s (spine_ne_source (Nat.le_refl _)).symm h append)
  have hbm := hb.trans hg₁
  obtain ⟨node, e, hforce, hg₂, hnext, hrest⟩ := hl.force_boundary p depth (hbm.hosts hs)
    (by rw [hg₁.size, hb.size, hsize]; rfl)
    fun b hlt hbk hbm' => hbm.state b (hsize ▸ hlt) (by split <;> simp [hbk, hbm'])
  obtain ⟨hall, hg⟩ := force_append_end hs hl.front hm hforce (hg₁.trans hg₂)
  let E := e.finished (spine base r.length k) h
    (.cons node (.cell (head base r.length 0)) (.cell (spine base r.length (k + 1))))
  have hfinished : ∀ b, b ≠ spine base r.length k → E.state b = e.state b := fun b hb =>
    Store.state_finished_of_ne _ hb h _
  have hmod : k % r.length = 0 := by rw [hsteps, Nat.mul_add_mod_self_right, Nat.mod_self]
  have hlaid : Laid r base h E (k + 1) (q + 1) 1 := by
    refine hl.succ hg (fun b hb => ?_) (by rw [Nat.succ_mul, ← hsteps]) Nat.one_pos hlength hl.made_boundary.symm ?_
      ⟨node, ?_⟩ ?_ ?_ (fun hk => absurd hk (by omega)) (fun hk => absurd hk (by omega)) (fun _ => ?_)
    · rcases List.mem_cons.1 hb with heq | hb
      · exact .inl heq
      rcases List.mem_append.1 hb with hb | hb
      · split at hb
        · next hq =>
          have hk : k = r.length := by rw [hsteps, hq]; omega
          exact .inr (.inl ⟨Nat.le_of_eq hk, hk.symm ▸ List.mem_singleton.1 hb⟩)
        · exact absurd hb List.not_mem_nil
      · exact .inr (.inr (List.mem_singleton.1 hb))
    · cases q with
      | zero => rw [if_pos rfl]; omega
      | succ q =>
        have hsucc : (q + 1) * r.length = q * r.length + r.length := Nat.succ_mul q r.length
        rw [if_neg (Nat.succ_ne_zero q)]
        omega
    · rw [hmod]
      have hsize' := (hbm.trans hg₂).size_le
      exact Store.state_finished_self (Nat.lt_of_lt_of_le (Store.lt_of_suspended hl.front) hsize') h _
    · exact (hfinished _ fun heq => absurd (spine_inj.1 heq) (Nat.succ_ne_self k)).trans hrest
    · obtain ⟨tag, hlapnew⟩ := hnext
      exact ⟨tag, (hfinished _ (lap_ne_spine hlength)).trans hlapnew⟩
    · have hlt : source base r.length r.length < base + made r.length k := source_lt (Nat.le_refl _) (by omega)
      have hne : source base r.length r.length ≠ lap base r.length q := (lap_ne_source hlength (Nat.le_refl _)).symm
      have hkept := hg₂.state _ (Nat.lt_of_lt_of_le (hsize ▸ hlt) hbm.size_le) fun hmem =>
        hne (List.mem_singleton.1 hmem)
      exact (hfinished _ (spine_ne_source (Nat.le_refl _)).symm).trans (hkept.trans hend)
  exact ⟨node, E, _, _, _, q + 1, 1, hmod.symm ▸ hall, hg, hlaid⟩

/-- **A force of what is left gives the next element and lays out one step more**, wherever in a lap it is. -/
theorem unrolls (p : Program) (depth : Nat) (hl : Laid r base h s k q j) (hs : s.Hosts h) (hr : r.length ≤ sizeLimit) :
    Unrolls p (depth + 3) r base h s k := by
  rcases Nat.lt_or_ge k r.length with hk | hk
  · exact hl.unrolls_first p depth hs hk hr
  · rcases Nat.lt_or_eq_of_le hl.le with hj | rfl
    · exact hl.unrolls_later p depth hs hk hj
    · exact hl.unrolls_boundary p depth hs

end Laid

/-- The first step: the first lap begins, and with it the list. -/
theorem Start.unrolls (p : Program) (depth : Nat) (hl : Start r base h s) (hs : s.Hosts h) (hne : r.lo ≤ r.hi)
    (hr : r.length ≤ sizeLimit) : Unrolls p (depth + 3) r base h s 0 := by
  have hlength := Interval.length_pos hne
  have hsize : s.cells.size = base + 2 := by rw [hl.numbered.size, hl.created]
  obtain ⟨tag, hsource⟩ := hl.source
  let start := Thunk.cycleStart (base + 1) (.cell base)
  have hb := Grown.began h s (base + 1) start
  let m := (s.began (base + 1) h start).tagged
  have hm : Grown h (s.began (base + 1) h start) m 0 0 [] := .tagged h _
  have hmsize : m.cells.size = base + 2 := by rw [(hb.trans hm).size, hsize]
  have hx : m.state base = .suspended (.intervalNode tag (.int r.lo) (.int r.hi)) :=
    (Store.state_began_of_ne s (Nat.ne_of_lt (Nat.lt_succ_self base)) h start).trans hsource
  obtain ⟨next, rest, n, hn, hgn, hv, hhead, htail⟩ :=
    force_interval p (depth + 1) ((hb.trans hm).hosts hs) hx hne hr
  let lapThunk := Thunk.sharedLap s.nextTag (.cell base) (.cell (base + 1))
  have hproduce : start.produce p (p.runAt (depth + 2)) (s.began (base + 1) h start) =
      Cycle.lap (p.runAt (depth + 2)) (.cell base) lapThunk m := rfl
  obtain ⟨node, e, hforce, hg, hself, hlap, hrest, hold⟩ := force_lap hs hl.origin hproduce hm hn hgn hv
  have hnsize : n.cells.size = base + 4 := by rw [hgn.size, hmsize]
  rw [hnsize] at hforce hself hlap hrest hold
  rw [hmsize] at hforce hself hhead htail hrest hv
  -- the new cells are where the layout has them
  have hspine₀ : spine base r.length 0 = base + 1 := rfl
  have hspine₁ : spine base r.length 1 = base + 6 := by rw [spine, made_one hlength]
  have hlap₀ : lap base r.length 0 = base + 4 := lap_zero hlength
  have hlaid : Laid r base h e 1 0 1 := by
    refine ⟨by omega, Nat.one_pos, hlength, hl.numbered.grown hg, ?_, ?_, fun i hi => ?_, ?_, ⟨s.nextTag, ?_⟩,
      fun i hi => ?_, fun i hi => ?_, fun _ => ⟨rest, ?_⟩, fun hk => absurd hk (by omega)⟩
    · rw [hg.created, hl.created, made_one hlength]
    · rw [hg.forces, hl.forced]; omega
    · obtain rfl : i = 0 := by omega
      rw [Nat.zero_mod, hspine₁]
      exact ⟨node, hself⟩
    · rw [hspine₁, hlap₀]; exact hrest
    · rw [hlap₀]; exact hlap
    · obtain rfl : i = 0 := by omega
      exact ⟨next, (hold base (by omega) (by omega)).trans hv⟩
    · obtain rfl : i = 0 := by omega
      refine ⟨tag, (hold (base + 2) (by omega) (by omega)).trans (hhead.trans ?_)⟩
      simp
    · refine (hold (base + 3) (by omega) (by omega)).trans (htail.trans ?_)
      simp [Interval.rest]
  refine ⟨node, e, _, _, _, 0, 1, ?_, hg, hlaid⟩
  rw [hspine₁]
  exact hforce

/-! ## What is live -/

/-- What the cells in use refer to, whether or not the elements have been read. -/
structure Linked (m base : Nat) (h : HeapId) (s : Store) (k q j : Nat) : Prop where
  numbered : s.Numbered base h
  size : s.cells.size = base + made m k
  length_pos : 0 < m
  lap_le : q * m < k
  le : j ≤ min k m
  spines : ∀ i < k, s.refs (spine base m i) = [.cell (head base m (i % m)), .cell (spine base m (i + 1))]
  front : s.refs (spine base m k) = [.cell (source base m j), .cell (lap base m q)]
  next : s.refs (lap base m q) = [.cell (source base m 0), .cell (spine base m 0)]
  sources : ∀ i < min k m, s.refs (source base m i) = [.cell (head base m i), .cell (source base m (i + 1))]
  last : s.refs (source base m (min k m)) = []
  heads : ∀ i < min k m, s.refs (head base m i) = []

namespace Linked
variable {m : Nat}

theorem refs_mem (hl : Linked m base h s k q j) {c : CellId} (hc : c ∈ cells base m k q) {v : Value}
    (hv : v ∈ s.refs c) : ∃ d ∈ cells base m k q, v = .cell d := by
  have hm := hl.length_pos
  have hj := hl.le
  rcases mem_cells.1 hc with ⟨i, hi, rfl⟩ | ⟨i, hi, rfl⟩ | ⟨i, hi, rfl⟩ | rfl
  · rcases Nat.lt_or_eq_of_le hi with hlt | rfl
    · have hmod : i % m < min k m := by
        have := Nat.mod_lt i hm
        have := Nat.mod_le i m
        omega
      rw [hl.spines i hlt] at hv
      rcases List.mem_cons.1 hv with rfl | hv
      · exact ⟨_, mem_cells.2 (.inr (.inr (.inl ⟨_, hmod, rfl⟩))), rfl⟩
      · exact ⟨_, mem_cells.2 (.inl ⟨i + 1, hlt, rfl⟩), List.mem_singleton.1 hv⟩
    · rw [hl.front] at hv
      rcases List.mem_cons.1 hv with rfl | hv
      · exact ⟨_, mem_cells.2 (.inr (.inl ⟨j, hj, rfl⟩)), rfl⟩
      · exact ⟨_, mem_cells.2 (.inr (.inr (.inr rfl))), List.mem_singleton.1 hv⟩
  · rcases Nat.lt_or_eq_of_le hi with hlt | rfl
    · rw [hl.sources i hlt] at hv
      rcases List.mem_cons.1 hv with rfl | hv
      · exact ⟨_, mem_cells.2 (.inr (.inr (.inl ⟨i, hlt, rfl⟩))), rfl⟩
      · exact ⟨_, mem_cells.2 (.inr (.inl ⟨i + 1, hlt, rfl⟩)), List.mem_singleton.1 hv⟩
    · rw [hl.last] at hv
      exact absurd hv List.not_mem_nil
  · rw [hl.heads i hi] at hv
    exact absurd hv List.not_mem_nil
  · rw [hl.next] at hv
    rcases List.mem_cons.1 hv with rfl | hv
    · exact ⟨_, mem_cells.2 (.inr (.inl ⟨0, Nat.zero_le _, rfl⟩)), rfl⟩
    · exact ⟨_, mem_cells.2 (.inl ⟨0, Nat.zero_le _, rfl⟩), List.mem_singleton.1 hv⟩

/-- From any cell of the repetition on, the walk along it leads to what is left, from there to the next lap, and so to
the start of the repetition and of the list. -/
theorem kept (hl : Linked m base h s k q j) {t : Nat} (ht : t ≤ k) {c : CellId} (hc : c ∈ cells base m k q) :
    s.Kept [.cell (spine base m t)] c := by
  have hforth : ∀ i b, s.Kept [.cell (spine base m t)] (spine base m b) → b + i ≤ k →
      s.Kept [.cell (spine base m t)] (spine base m (b + i)) := fun i b hb hi => by
    induction i with
    | zero => exact hb
    | succ i ih =>
      have hrefs := hl.spines (b + i) (by omega)
      exact (ih (by omega)).step (by rw [hrefs]; exact List.mem_cons_of_mem _ List.mem_cons_self)
  have hfront : s.Kept [.cell (spine base m t)] (spine base m k) := by
    have h := hforth (k - t) t (.root List.mem_cons_self) (by omega)
    rwa [Nat.add_sub_cancel' ht] at h
  have hlap : s.Kept [.cell (spine base m t)] (lap base m q) :=
    hfront.step (by rw [hl.front]; exact List.mem_cons_of_mem _ List.mem_cons_self)
  have hspine : ∀ i ≤ k, s.Kept [.cell (spine base m t)] (spine base m i) := fun i hi => by
    have h := hforth i 0 (hlap.step (by rw [hl.next]; exact List.mem_cons_of_mem _ List.mem_cons_self)) (by omega)
    rwa [Nat.zero_add] at h
  have hsource : ∀ i ≤ min k m, s.Kept [.cell (spine base m t)] (source base m i) := fun i hi => by
    induction i with
    | zero => exact hlap.step (by rw [hl.next]; exact List.mem_cons_self)
    | succ i ih => exact (ih (by omega)).step (by rw [hl.sources i hi]; exact List.mem_cons_of_mem _ List.mem_cons_self)
  rcases mem_cells.1 hc with ⟨i, hi, rfl⟩ | ⟨i, hi, rfl⟩ | ⟨i, hi, rfl⟩ | rfl
  · exact hspine i hi
  · exact hsource i hi
  · exact (hsource i (by omega)).step (by rw [hl.sources i hi]; exact List.mem_cons_self)
  · exact hlap

theorem valid (hl : Linked m base h s k q j) {c : CellId} (hc : c ∈ cells base m k q) : base ≤ c ∧ c < s.cells.size := by
  rw [hl.size]
  rcases mem_cells.1 hc with ⟨i, hi, rfl⟩ | ⟨i, hi, rfl⟩ | ⟨i, hi, rfl⟩ | rfl
  · exact ⟨Nat.le_add_right _ _, spine_lt hi⟩
  · exact ⟨by cases i <;> simp only [source] <;> omega, source_lt (by omega) (by omega)⟩
  · exact ⟨Nat.le_add_right _ _, head_lt (by omega)⟩
  · exact ⟨Nat.le_add_right _ _, lap_lt hl.lap_le⟩

/-- **All cells in use are live**, from whatever cell of the repetition they are looked for. -/
theorem count (hl : Linked m base h s k q j) {t : Nat} (ht : t ≤ k)
    (hr : (s.heap h).roots = [(Consumer.rootName, .cell (spine base m t))]) :
    ∃ found, s.reachable h = .ok found ∧ found.size = k + 3 + 2 * min k m := by
  obtain ⟨found, hfound, hsize⟩ := Store.reachable_of_root hl.numbered hr (cells base m k q)
    (nodup_cells hl.length_pos base k q) (mem_cells.2 (.inl ⟨t, ht, rfl⟩)) (fun c hc v hv => hl.refs_mem hc hv)
    (fun c hc => hl.valid hc) (fun c hc => hl.kept ht hc)
  exact ⟨found, hfound, hsize.trans (length_cells base m k q)⟩

end Linked

theorem Laid.linked (hl : Laid r base h s k q j) : Linked r.length base h s k q j := by
  have hsteps := hl.steps
  have hpos := hl.pos
  have hle := hl.le
  refine ⟨hl.numbered, hl.size, hl.length_pos, by omega, by omega, fun i hi => ?_, ?_, ?_, fun i hi => ?_, ?_,
    fun i hi => ?_⟩
  · obtain ⟨tag, hs⟩ := hl.spines i hi
    exact Store.refs_of_state hs
  · exact Store.refs_of_state hl.front
  · obtain ⟨tag, hs⟩ := hl.next
    exact Store.refs_of_state hs
  · obtain ⟨tag, hs⟩ := hl.sources i hi
    exact Store.refs_of_state hs
  · rcases Nat.lt_or_ge r.length k with hlt | hge
    · rw [Nat.min_eq_right (Nat.le_of_lt hlt)]
      exact Store.refs_of_state (hl.last hlt)
    · obtain ⟨tag, hs⟩ := hl.rest hge
      rw [Nat.min_eq_left hge]
      exact Store.refs_of_state hs
  · obtain ⟨tag, hs⟩ := hl.heads i hi
    exact Store.refs_of_state hs

/-- Reading an element leaves all references as they are: neither the suspended element nor its value has any. -/
theorem Linked.read {m : Nat} (hl : Linked m base h s k q j) {forced : Nat} {c : CellId} {tag : Tag} {lo hi : Value}
    {n : Int} (hg : Grown h s e 0 forced [c]) (hc : s.state c = .suspended (.intervalHead tag lo hi))
    (hv : e.state c = .evaluated (.int n)) : Linked m base h e k q j := by
  have hrefs : e.refs = s.refs := by
    funext b
    unfold Store.refs
    by_cases hb : b = c
    · rw [hb, hc, hv]; rfl
    · by_cases hlt : b < s.cells.size
      · rw [hg.state b hlt fun hmem => hb (List.mem_singleton.1 hmem)]
      · have hge := Nat.le_of_not_lt hlt
        rw [Store.state_of_size_le hge, Store.state_of_size_le (s := e) (by rw [hg.size]; exact hge)]
  exact ⟨hl.numbered.grown hg, hg.size.trans hl.size, hl.length_pos, hl.lap_le, hl.le, hrefs ▸ hl.spines,
    hrefs ▸ hl.front, hrefs ▸ hl.next, hrefs ▸ hl.sources, hrefs ▸ hl.last, hrefs ▸ hl.heads⟩

theorem Start.count (hl : Start r base h s) (hr : (s.heap h).roots = [(Consumer.rootName, .cell (base + 1))]) :
    ∃ found, s.reachable h = .ok found ∧ found.size = 2 := by
  obtain ⟨tag, hsource⟩ := hl.source
  have horefs : s.refs (base + 1) = [.cell (base + 1), .cell base] := Store.refs_of_state hl.origin
  have hsrefs : s.refs base = [] := Store.refs_of_state hsource
  have hsize : s.cells.size = base + 2 := by rw [hl.numbered.size, hl.created]
  have ho : s.Kept [.cell (base + 1)] (base + 1) := .root List.mem_cons_self
  refine Store.reachable_of_root hl.numbered hr [base, base + 1] ?_ (List.mem_cons_of_mem _ List.mem_cons_self) ?_ ?_ ?_
  · simp
  · simp [horefs, hsrefs]
  · simp [hsize]
  · simp [ho, ho.step (d := base) (by simp [horefs])]

/-! ## The course -/

/-- What is left of the repetition of an interval after a number of steps. -/
inductive Left (r : Interval) (base : Nat) (h : HeapId) (s : Store) : CellId → Nat → Prop
  | start : Start r base h s → Left r base h s (spine base r.length 0) 0
  | within {k q j : Nat} : Laid r base h s k q j → Left r base h s (spine base r.length k) k

theorem Start.congr (hl : Start r base h s) (hcells : e.cells = s.cells)
    (hmade : (e.heap h).created = (s.heap h).created) (hforced : (e.heap h).forced = (s.heap h).forced) :
    Start r base h e := by
  have hstate := Store.state_of_cells hcells
  exact ⟨hl.numbered.congr hcells hmade, hmade.trans hl.created, hforced.trans hl.forced, hstate ▸ hl.source,
    hstate ▸ hl.origin⟩

theorem Laid.congr (hl : Laid r base h s k q j) (hcells : e.cells = s.cells)
    (hmade : (e.heap h).created = (s.heap h).created) (hforced : (e.heap h).forced = (s.heap h).forced) :
    Laid r base h e k q j := by
  have hstate := Store.state_of_cells hcells
  exact ⟨hl.steps, hl.pos, hl.le, hl.numbered.congr hcells hmade, hmade.trans hl.created, hforced.trans hl.forced,
    hstate ▸ hl.spines, hstate ▸ hl.front, hstate ▸ hl.next, hstate ▸ hl.sources, hstate ▸ hl.heads, hstate ▸ hl.rest,
    hstate ▸ hl.last⟩

theorem Left.eq_spine {c : CellId} (hl : Left r base h s c k) : c = spine base r.length k := by
  cases hl <;> rfl

theorem Left.unrolls {c : CellId} (p : Program) (depth : Nat) (hl : Left r base h s c k) (hs : s.Hosts h)
    (hne : r.lo ≤ r.hi) (hr : r.length ≤ sizeLimit) : Unrolls p (depth + 3) r base h s k := by
  cases hl with
  | start hl => exact hl.unrolls p depth hs hne hr
  | within hl => exact hl.unrolls p depth hs hr

/-- After `k` steps, `(k - 1) / r.length` whole laps lie behind. -/
theorem Laid.counters (hl : Laid r base h s (k + 1) q j) :
    (s.heap h).created = 5 + k + 2 * min (k + 1) r.length + 2 * (k / r.length) ∧
    (s.heap h).forced = 3 + k + min k r.length + 2 * (k / r.length) := by
  have hsteps := hl.steps
  have hpos := hl.pos
  have hle := hl.le
  have hq : k / r.length = q := by
    refine Nat.div_eq_of_lt_le (by omega) ?_
    have hsucc : (q + 1) * r.length = q * r.length + r.length := Nat.succ_mul q r.length
    omega
  rw [hl.created, hl.forced, hq, hsteps, made_of_lap hpos hle, ← hsteps, Nat.add_sub_cancel]
  omega

theorem Left.congr {c : CellId} (hl : Left r base h s c k) (hcells : e.cells = s.cells)
    (hmade : (e.heap h).created = (s.heap h).created) (hforced : (e.heap h).forced = (s.heap h).forced) :
    Left r base h e c k := by
  cases hl with
  | start hl => exact .start (hl.congr hcells hmade hforced)
  | within hl => exact .within (hl.congr hcells hmade hforced)

/-- The live cells after `k` steps. -/
def liveAfter (m k : Nat) : Nat := if k = 0 then 2 else k + 3 + 2 * min k m

theorem liveAfter_mono {m i k : Nat} (h : i ≤ k) : liveAfter m i ≤ liveAfter m k := by
  unfold liveAfter
  split <;> split <;> omega

theorem Left.count {c : CellId} (hl : Left r base h s c k)
    (hroots : (s.heap h).roots = [(Consumer.rootName, .cell c)]) :
    ∃ found, s.reachable h = .ok found ∧ found.size = liveAfter r.length k := by
  cases hl with
  | start hl => exact hl.count hroots
  | @within k q j hl =>
    have hpos := hl.pos
    have hsteps := hl.steps
    rw [liveAfter, if_neg (by omega)]
    exact hl.linked.count (Nat.le_refl _) hroots

theorem Left.step {c : CellId} (p : Program) (depth : Nat) (hl : Left r base h s c k) (hs : s.Hosts h)
    (hne : r.lo ≤ r.hi) (hr : r.length ≤ sizeLimit) : ∃ tag head tail e made forced changed,
      force (p.runAt (depth + 3)) c s = .ok (.cons tag head (.cell tail)) e ∧ Grown h s e made forced changed ∧
      tail ≠ c ∧ Left r base h e tail (k + 1) := by
  obtain ⟨tag, e, made, forced, changed, q, j, hforce, hg, hlaid⟩ := hl.unrolls p depth hs hne hr
  rw [← hl.eq_spine] at hforce
  refine ⟨tag, _, _, e, made, forced, changed, hforce, hg, fun heq => ?_, .within hlaid⟩
  rw [hl.eq_spine] at heq
  exact absurd (spine_inj.1 heq) (Nat.succ_ne_self k)

/-- The next element is read. -/
theorem Left.read {c : CellId} (p : Program) (depth : Nat) (hl : Left r base h s c k) (hs : s.Hosts h)
    (hne : r.lo ≤ r.hi) (hr : r.length ≤ sizeLimit) (hroots : (s.heap h).roots = [(Consumer.rootName, .cell c)]) :
    ∃ tag head tail m e made count changed found,
      force (p.runAt (depth + 3)) c s = .ok (.cons tag (.cell head) tail) m ∧
      force (p.runAt (depth + 3)) head m = .ok (.int (r.lo + (k % r.length : Nat))) e ∧ Grown h s e made count changed ∧
      (e.heap h).created = 5 + k + 2 * min (k + 1) r.length + 2 * (k / r.length) ∧
      (e.heap h).forced = 4 + k + min k r.length + 2 * (k / r.length) ∧
      e.reachable h = .ok found ∧ found.size = liveAfter r.length (k + 1) := by
  obtain ⟨tag, m, made, forced, changed, q, j, hforce, hg, hlaid⟩ := hl.unrolls p depth hs hne hr
  rw [← hl.eq_spine] at hforce
  have hmod := Nat.mod_lt k (Interval.length_pos hne)
  obtain ⟨tag', hhead⟩ := hlaid.heads (k % r.length) (by have := Nat.mod_le k r.length; omega)
  let part : Interval := ⟨r.lo + (k % r.length : Nat), r.hi⟩
  obtain ⟨hpne, hpart⟩ := Interval.from_element hmod
  obtain ⟨e, hread, hg', hv⟩ :=
    force_intervalHead p (depth + 2) (r := part) (hg.hosts hs) hhead hpne (Nat.le_trans hpart hr)
  have hall := hg.trans hg'
  have heroots : (e.heap h).roots = [(Consumer.rootName, .cell (spine base r.length k))] := by
    obtain ⟨table, ht⟩ := hall.heap
    rw [ht, ← hl.eq_spine]
    exact hroots
  obtain ⟨found, hfound, hsize⟩ := (hlaid.linked.read hg' hhead hv).count (Nat.le_succ k) heroots
  obtain ⟨hcreated, hforced⟩ := hlaid.counters
  refine ⟨tag, _, _, m, e, _, _, _, found, hforce, hread, hall, ?_, ?_, hfound, hsize⟩
  · rw [hg'.created, hcreated, Nat.add_zero]
  · rw [hg'.forces, hforced]
    omega

/-- The course of the repetition of an interval by need. -/
def course (p : Program) (r : Interval) (base : Nat) (h : HeapId) (hne : r.lo ≤ r.hi) (hr : r.length ≤ sizeLimit) :
    Course p.run h where
  left k c s := Left r base h s c k
  live := liveAfter r.length
  value k := .int (r.lo + (k % r.length : Nat))
  total k := liveAfter r.length (k + 1)
  created k := 5 + k + 2 * min (k + 1) r.length + 2 * (k / r.length)
  forced k := 4 + k + min k r.length + 2 * (k / r.length)
  congr := Left.congr
  count := Left.count
  step hl hs := hl.step p 4997 hs hne hr
  read hl hs hroots := hl.read p 4997 hs hne hr hroots
  live_le_succ k := liveAfter_mono (Nat.le_succ k)
  live_le_total k := liveAfter_mono (Nat.le_succ k)

theorem cycle_eq_ok {traces : Bool} {m : Store} (hm : Scenario.Opened s traces m) : ∃ c e made forced changed,
    Discipline.cycle (.int r.lo) (.int r.hi) .need m = .ok c e ∧ Grown s.heaps.size m e made forced changed ∧
    Left r s.cells.size s.heaps.size e c 0 := by
  let list := Thunk.intervalNode m.nextTag (.int r.lo) (.int r.hi)
  let n := m.tagged.register s.heaps.size (.suspended list)
  have hn : Grown s.heaps.size m n 1 0 [] :=
    (Grown.tagged _ m).trans (.register (s := m.tagged) hm.hosts.valid _)
  have hnh := hn.hosts hm.hosts
  have hmsize : m.cells.size = s.cells.size := congrArg Array.size hm.cells
  have hnsize : n.cells.size = m.cells.size + 1 := hn.size
  let start := Thunk.cycleStart n.cells.size (.cell m.cells.size)
  have hg : Grown s.heaps.size m (n.register s.heaps.size (.suspended start)) 2 0 [] :=
    hn.trans (.register hnh.valid _)
  have hrun : Discipline.cycle (.int r.lo) (.int r.hi) .need m =
      .ok n.cells.size (n.register s.heaps.size (.suspended start)) :=
    (Run.bind_ok (Sequence.between_apply hm.hosts.active (.int r.lo) (.int r.hi))).trans
      (Run.suspendSelf_apply hnh.active fun origin => .cycleStart origin (.cell m.cells.size))
  have hstart : Start r s.cells.size s.heaps.size (n.register s.heaps.size (.suspended start)) := by
    refine ⟨hm.numbered.grown hg, ?_, ?_, ⟨m.nextTag, ?_⟩, ?_⟩
    · rw [hg.created, hm.heap]
    · rw [hg.forces, hm.heap]
    · have hlt : m.cells.size < n.cells.size := by omega
      rw [← hmsize]
      exact (Store.state_register_of_lt hlt _ _).trans (Store.state_register_new m.tagged _ _)
    · rw [← hmsize, ← hnsize]
      exact Store.state_register_new n s.heaps.size (.suspended start)
  have hleft := Left.start hstart
  rw [← hmsize, show spine m.cells.size r.length 0 = n.cells.size from hnsize.symm, hmsize] at hleft
  exact ⟨n.cells.size, _, 2, 0, [], hrun, hg, hleft⟩

/-- The samples that a scenario keeps of a list with `m` elements and `n` steps: two cells before the first step, those
after each step, and those once the element is read. -/
def keptSamples (m n : Nat) (traces samples : Bool) : List Nat :=
  if traces then
    (if samples then 2 :: (List.range n).map fun i => (i + 1) + 3 + 2 * min (i + 1) m else []) ++
      [n + 4 + 2 * min (n + 1) m]
  else []

theorem keptSamples_eq (m n : Nat) (traces samples : Bool) : keptSamples m n traces samples =
    if traces then (if samples then (List.range (n + 1)).map (liveAfter m) else []) ++ [liveAfter m (n + 1)] else [] := by
  have hsteps : (List.range (n + 1)).map (liveAfter m) =
      2 :: (List.range n).map fun i => (i + 1) + 3 + 2 * min (i + 1) m := by
    rw [List.range_succ_eq_map, List.map_cons, List.map_map]
    rfl
  have hlast : liveAfter m (n + 1) = n + 4 + 2 * min (n + 1) m := by
    rw [liveAfter, if_neg (Nat.succ_ne_zero n)]
  rw [hsteps, hlast, keptSamples]

theorem keptSamples_sorted (m n : Nat) (traces samples : Bool) : (keptSamples m n traces samples).Pairwise (· ≤ ·) := by
  have hsteps : ((List.range (n + 1)).map (liveAfter m)).Pairwise (· ≤ ·) :=
    List.pairwise_map.2 (List.pairwise_lt_range.imp fun hlt => liveAfter_mono (Nat.le_of_lt hlt))
  have hlast : ∀ a ∈ (List.range (n + 1)).map (liveAfter m), a ≤ liveAfter m (n + 1) := fun a ha => by
    obtain ⟨i, hi, rfl⟩ := List.mem_map.1 ha
    exact liveAfter_mono (Nat.le_of_lt (List.mem_range.1 hi))
  rw [keptSamples_eq]
  cases traces with
  | false => exact List.Pairwise.nil
  | true =>
    cases samples with
    | false => exact List.pairwise_singleton _ _
    | true =>
      refine List.pairwise_append.2 ⟨hsteps, List.pairwise_singleton _ _, fun a ha b hb => ?_⟩
      rw [List.mem_singleton.1 hb]
      exact hlast a ha

/-- **A scenario by need retains all that it read, exactly.**  For all bounds whose interval has `m` elements, not none
and a number that can be taken, for every number of steps, and whatever is traced and sampled, the report tells the
element of the endless repetition at that place, and `n + 4 + 2 * min (n + 1) m` live cells, of which there were never
more when a sample was taken.  The samples are two before the first step, `k + 3 + 2 * min k m` after step `k`, and the
live cells once the element is read; they never decrease. -/
theorem report_retains_all (p : Program) (s : Store) (lo hi : Int) (n m : Nat) (traces samples : Bool) (hle : lo ≤ hi)
    (hm : (m : Int) = hi - lo + 1) (hlimit : m ≤ sizeLimit) : ∃ r e,
    Scenario.report p.run ⟨.int lo, .int hi, .int n, .bool traces, .bool samples⟩ .need s = .ok r e ∧
    r.discipline = .need ∧ r.head = .int (lo + (n % m : Nat)) ∧ r.live = .int (n + 4 + 2 * min (n + 1) m : Nat) ∧
    r.peak = r.live ∧ r.samples = (keptSamples m n traces samples).map (fun live : Nat => .int live) ∧
    (keptSamples m n traces samples).Pairwise (· ≤ ·) := by
  let r : Interval := ⟨lo, hi⟩
  obtain rfl : r.length = m := by
    unfold Interval.length
    simp only [r]
    omega
  obtain ⟨e, hrun⟩ := Scenario.report_eq_ok (course p r s.cells.size s.heaps.size hle hlimit) n samples
    fun m (hm : Scenario.Opened s traces m) => cycle_eq_ok (r := r) hm
  have htotal : liveAfter r.length (n + 1) = n + 4 + 2 * min (n + 1) r.length := by
    rw [liveAfter, if_neg (Nat.succ_ne_zero n)]
  refine ⟨_, e, hrun, rfl, rfl, ?_, rfl, ?_, keptSamples_sorted _ _ _ _⟩
  · exact congrArg (fun live : Nat => Value.int live) htotal
  · rw [keptSamples_eq]
    rfl

theorem report_retains_all_instance :
    (3 : Int) ≤ 5 ∧ ((3 : Nat) : Int) = 5 - 3 + 1 ∧ 3 ≤ sizeLimit ∧ ∃ r e,
      Scenario.report (Program.run []) ⟨.int 3, .int 5, .int (4 : Nat), .bool true, .bool true⟩ .need {} = .ok r e ∧
      r.head = .int 4 ∧ r.live = .int (14 : Nat) ∧ r.samples = [2, 6, 9, 12, 13, 14].map fun live : Nat => .int live := by
  obtain ⟨r, e, hrun, -, hhead, hlive, -, hsamples, -⟩ :=
    report_retains_all [] {} 3 5 4 3 true true (by decide) (by decide) (by decide)
  exact ⟨by decide, by decide, by decide, r, e, hrun, hhead, hlive, hsamples⟩

end ByNeed
end Retention
