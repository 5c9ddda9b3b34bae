import Mathlib.Data.List.Nodup
import Retention.Proofs.Growth
/-!
# Layout — where the cells of a shared repetition stand

The cells of a shared repetition of a list with `m` elements are made in the same order whatever the elements are, so
they can be named by what they are for: the cells of the repetition itself (`spine`), those of the list (`source`),
those of its elements (`head`), and the suspended lap after `q` whole ones (`lap`).  All stand at fixed distances from
the first of them, `base`; `made m k` is how many were made after `k` steps.  Different names stand for different
cells.
-/
namespace Retention
namespace Layout

/-- How many cells were made after `k` steps. -/
def made (m k : Nat) : Nat := if k = 0 then 2 else 4 + k + 2 * min k m + 2 * ((k - 1) / m)

variable {m i j k q : Nat}

theorem made_lt_made (h : i < k) : made m i < made m k := by
  have hdiv : (i - 1) / m ≤ (k - 1) / m := Nat.div_le_div_right (by omega)
  unfold made
  rw [if_neg (by omega : k ≠ 0)]
  split <;> omega

theorem made_le_made (h : i ≤ k) : made m i ≤ made m k := by
  rcases Nat.lt_or_eq_of_le h with hlt | rfl
  · exact Nat.le_of_lt (made_lt_made hlt)
  · exact Nat.le_refl _

theorem two_le_made (m k : Nat) : 2 ≤ made m k := made_le_made (m := m) (Nat.zero_le k)

/-- In the first lap, a step makes three cells at least. -/
theorem made_add_three_le (hi : i < m) (h : i < k) : made m i + 3 ≤ made m k := by
  have hdiv : (i - 1) / m ≤ (k - 1) / m := Nat.div_le_div_right (by omega)
  unfold made
  rw [if_neg (by omega : k ≠ 0)]
  split <;> omega

theorem made_of_lap (hj : 0 < j) (hm : j ≤ m) : made m (q * m + j) = 4 + (q * m + j) + 2 * min (q * m + j) m + 2 * q := by
  have hdiv : (q * m + j - 1) / m = q := by
    refine Nat.div_eq_of_lt_le (by omega) ?_
    have hsucc : (q + 1) * m = q * m + m := Nat.succ_mul q m
    omega
  unfold made
  rw [if_neg (by omega), hdiv]

theorem made_zero (m : Nat) : made m 0 = 2 := rfl

theorem made_one (hm : 0 < m) : made m 1 = 7 := by
  have h := made_of_lap (q := 0) Nat.one_pos hm
  rw [Nat.zero_mul, Nat.zero_add] at h
  omega

/-- The step into a further lap makes three cells. -/
theorem made_boundary (hm : 0 < m) (q : Nat) : made m ((q + 1) * m + 1) = made m (q * m + m) + 3 := by
  have hsucc : (q + 1) * m = q * m + m := Nat.succ_mul q m
  rw [made_of_lap Nat.one_pos hm, made_of_lap hm (Nat.le_refl m), hsucc]
  omega

theorem made_succ_of_lt (hk : 0 < k) (h : k < m) : made m (k + 1) = made m k + 3 := by
  have hk' := made_of_lap (q := 0) hk (Nat.le_of_lt h)
  have hs' := made_of_lap (j := k + 1) (q := 0) (Nat.succ_pos k) h
  rw [Nat.zero_mul, Nat.zero_add] at hk' hs'
  omega

/-- In a later lap, a step makes one cell. -/
theorem made_succ_of_lap (hj : 0 < j) (h : j < m) (q : Nat) :
    made m ((q + 1) * m + j + 1) = made m ((q + 1) * m + j) + 1 := by
  have hsucc : (q + 1) * m = q * m + m := Nat.succ_mul q m
  rw [Nat.add_assoc _ j 1, made_of_lap hj (Nat.le_of_lt h), made_of_lap (Nat.succ_pos j) h]
  omega

/-- The cell of the repetition at a position. -/
def spine (base m i : Nat) : Nat := base + (made m i - 1)

/-- The cell of an element of the list. -/
def head (base m i : Nat) : Nat := base + made m i

/-- The cell of the list at a position. -/
def source (base m : Nat) : Nat → Nat
  | 0 => base
  | i + 1 => base + made m i + 1

/-- The cell of the lap after `q` whole ones. -/
def lap (base m q : Nat) : Nat := base + (made m (q * m + 1) - 3)

variable {base : Nat}

theorem source_succ (base m i : Nat) : source base m (i + 1) = base + made m i + 1 := rfl

theorem lap_zero (hm : 0 < m) : lap base m 0 = base + 4 := by
  unfold lap
  rw [Nat.zero_mul, Nat.zero_add, made_one hm]

theorem lap_succ (hm : 0 < m) (q : Nat) : lap base m (q + 1) = base + made m (q * m + m) := by
  unfold lap
  rw [made_boundary hm, Nat.add_sub_cancel]

theorem spine_inj : spine base m i = spine base m k ↔ i = k := by
  refine ⟨fun h => ?_, fun h => h ▸ rfl⟩
  unfold spine at h
  have hi := two_le_made m i
  have hk := two_le_made m k
  rcases Nat.lt_trichotomy i k with hlt | heq | hlt
  · have := made_lt_made (m := m) hlt; omega
  · exact heq
  · have := made_lt_made (m := m) hlt; omega

theorem spine_ne_head (hj : j < m) : spine base m i ≠ head base m j := by
  unfold spine head
  have hi := two_le_made m i
  rcases Nat.lt_or_ge j i with hlt | hle
  · have := made_add_three_le hj hlt; omega
  · have := made_le_made (m := m) hle; omega

theorem spine_ne_source (hj : j ≤ m) : spine base m i ≠ source base m j := by
  have hi := two_le_made m i
  cases j with
  | zero => show base + (made m i - 1) ≠ base; omega
  | succ j =>
    rw [source_succ, spine]
    rcases Nat.lt_or_ge j i with hlt | hle
    · have := made_add_three_le hj hlt; omega
    · have := made_le_made (m := m) hle; omega

theorem head_inj : head base m i = head base m j ↔ i = j := by
  refine ⟨fun h => ?_, fun h => h ▸ rfl⟩
  unfold head at h
  rcases Nat.lt_trichotomy i j with hlt | heq | hlt
  · have := made_lt_made (m := m) hlt; omega
  · exact heq
  · have := made_lt_made (m := m) hlt; omega

theorem source_ne_head (hi : i ≤ m) : source base m i ≠ head base m j := by
  have hjm := two_le_made m j
  cases i with
  | zero => show base ≠ base + made m j; omega
  | succ i =>
    rw [source_succ, head]
    rcases Nat.lt_or_ge i j with hlt | hle
    · have := made_add_three_le hi hlt; omega
    · have := made_le_made (m := m) hle; omega

theorem source_inj : source base m i = source base m j ↔ i = j := by
  refine ⟨fun h => ?_, fun h => h ▸ rfl⟩
  cases i with
  | zero =>
    cases j with
    | zero => rfl
    | succ j => rw [source_succ, source] at h; omega
  | succ i =>
    cases j with
    | zero => rw [source_succ, source] at h; omega
    | succ j =>
      have hij : head base m i = head base m j := by rw [source_succ, source_succ] at h; rw [head, head]; omega
      rw [head_inj.1 hij]

theorem lap_ne_spine (hm : 0 < m) : lap base m q ≠ spine base m i := by
  have hi := two_le_made m i
  cases q with
  | zero =>
    rw [lap_zero hm, spine]
    rcases Nat.eq_zero_or_pos i with rfl | hpos
    · rw [made_zero]; omega
    · have := made_le_made (m := m) hpos; rw [made_one hm] at this; omega
  | succ q =>
    rw [lap_succ hm, spine]
    rcases Nat.lt_or_ge (q * m + m) i with hlt | hle
    · have hnext : made m (q * m + m + 1) ≤ made m i := made_le_made hlt
      have hsucc : (q + 1) * m = q * m + m := Nat.succ_mul q m
      have hboundary := made_boundary hm q
      rw [hsucc] at hboundary
      omega
    · have := made_le_made (m := m) hle; omega

theorem lap_ne_head (hm : 0 < m) (hj : j < m) : lap base m q ≠ head base m j := by
  cases q with
  | zero =>
    rw [lap_zero hm, head]
    rcases Nat.eq_zero_or_pos j with rfl | hpos
    · rw [made_zero]; omega
    · have := made_le_made (m := m) hpos; rw [made_one hm] at this; omega
  | succ q =>
    rw [lap_succ hm, head]
    have := made_add_three_le hj (show j < q * m + m by omega)
    omega

theorem lap_ne_source (hm : 0 < m) (hj : j ≤ m) : lap base m q ≠ source base m j := by
  cases j with
  | zero =>
    cases q with
    | zero => rw [lap_zero hm, source]; omega
    | succ q => rw [lap_succ hm, source]; have := two_le_made m (q * m + m); omega
  | succ j =>
    cases q with
    | zero =>
      rw [lap_zero hm, source_succ]
      rcases Nat.eq_zero_or_pos j with rfl | hpos
      · rw [made_zero]; omega
      · have := made_le_made (m := m) hpos; rw [made_one hm] at this; omega
    | succ q =>
      rw [lap_succ hm, source_succ]
      have := made_add_three_le hj (show j < q * m + m by omega)
      omega

/-! ## All cells that are in use after `k` steps -/

theorem spine_lt (h : i ≤ k) : spine base m i < base + made m k := by
  have hi := two_le_made m i
  have hle := made_le_made (m := m) h
  unfold spine
  omega

theorem head_lt (h : i < k) : head base m i < base + made m k := by
  have hlt := made_lt_made (m := m) h
  unfold head
  omega

theorem source_lt (hm : i ≤ m) (h : i ≤ k) : source base m i < base + made m k := by
  cases i with
  | zero => have hk := two_le_made m k; show base < base + made m k; omega
  | succ i => have hle := made_add_three_le hm h; rw [source_succ]; omega

theorem lap_lt (h : q * m < k) : lap base m q < base + made m k := by
  have hone : 2 ≤ made m (q * m + 1) := two_le_made _ _
  have hk := two_le_made m k
  have hle : made m (q * m + 1) ≤ made m k := made_le_made h
  unfold lap
  omega

/-- The cells that are in use in the lap after `q` whole ones, `k` steps from the start. -/
def cells (base m k q : Nat) : List Nat :=
  (List.range (k + 1)).map (spine base m) ++ (List.range (min k m + 1)).map (source base m) ++
    (List.range (min k m)).map (head base m) ++ [lap base m q]

theorem mem_cells {c : Nat} : c ∈ cells base m k q ↔
    (∃ i ≤ k, c = spine base m i) ∨ (∃ i ≤ min k m, c = source base m i) ∨ (∃ i < min k m, c = head base m i) ∨
      c = lap base m q := by
  simp only [cells, List.mem_append, List.mem_map, List.mem_range, List.mem_singleton, Nat.lt_succ_iff, or_assoc]
  simp only [eq_comm]

theorem length_cells (base m k q : Nat) : (cells base m k q).length = k + 3 + 2 * min k m := by
  simp only [cells, List.length_append, List.length_map, List.length_range, List.length_singleton]
  omega

/-- **The cells in use are all different.** -/
theorem nodup_cells (hm : 0 < m) (base k q : Nat) : (cells base m k q).Nodup := by
  have hspine : ((List.range (k + 1)).map (spine base m)).Nodup :=
    List.nodup_range.map fun i j h => spine_inj.1 h
  have hsource : ((List.range (min k m + 1)).map (source base m)).Nodup :=
    List.nodup_range.map fun i j h => source_inj.1 h
  have hhead : ((List.range (min k m)).map (head base m)).Nodup := List.nodup_range.map fun i j h => head_inj.1 h
  refine List.nodup_append.2 ⟨List.nodup_append.2 ⟨List.nodup_append.2 ⟨hspine, hsource, ?_⟩, hhead, ?_⟩,
    List.nodup_singleton _, ?_⟩
  · intro a ha b hb
    obtain ⟨i, -, rfl⟩ := List.mem_map.1 ha
    obtain ⟨j, hj, rfl⟩ := List.mem_map.1 hb
    exact spine_ne_source (by have := List.mem_range.1 hj; omega)
  · intro a ha b hb
    obtain ⟨j, hj, rfl⟩ := List.mem_map.1 hb
    have hjm : j < m := by have := List.mem_range.1 hj; omega
    rcases List.mem_append.1 ha with ha | ha
    · obtain ⟨i, -, rfl⟩ := List.mem_map.1 ha
      exact spine_ne_head hjm
    · obtain ⟨i, hi, rfl⟩ := List.mem_map.1 ha
      exact source_ne_head (by have := List.mem_range.1 hi; omega)
  · intro a ha b hb
    obtain rfl := List.mem_singleton.1 hb
    rcases List.mem_append.1 ha with ha | ha
    · rcases List.mem_append.1 ha with ha | ha
      · obtain ⟨i, -, rfl⟩ := List.mem_map.1 ha
        exact (lap_ne_spine hm).symm
      · obtain ⟨i, hi, rfl⟩ := List.mem_map.1 ha
        exact (lap_ne_source hm (by have := List.mem_range.1 hi; omega)).symm
    · obtain ⟨i, hi, rfl⟩ := List.mem_map.1 ha
      exact (lap_ne_head hm (by have := List.mem_range.1 hi; omega)).symm

end Layout
end Retention
