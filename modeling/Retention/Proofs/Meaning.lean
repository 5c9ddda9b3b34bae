import Retention.Interval
import Mathlib.Data.List.Basic
/-!
# Meaning — what a lazy list stands for

A lazy list stands for a sequence that ends, that goes on forever, or that breaks off in the error of an empty sequence:
the repetition of a sequence without elements is an error and nothing else.  `Meaning.read` tells what stands at a
position.  How concatenation and repetition begin, and how they go on after their first element, is all that the
evaluation of lists is measured by.
-/
namespace Retention

/-- What stands at a position of a sequence: an element, its end, or the error that it breaks off in. -/
inductive Reading where
  | element (x : Int)
  | done
  | failed
deriving DecidableEq, Repr

/-- A sequence of integers that ends, that breaks off in an error, or that goes on forever. -/
inductive Meaning where
  | finite (xs : List Int)
  | failing (xs : List Int)
  | infinite (f : Nat → Int)

namespace Meaning

def read : Meaning → Nat → Reading
  | finite xs, i => (xs[i]?.map .element).getD .done
  | failing xs, i => (xs[i]?.map .element).getD .failed
  | infinite f, i => .element (f i)

/-- The sequence without its first elements. -/
def drop : Meaning → Nat → Meaning
  | finite xs, k => finite (xs.drop k)
  | failing xs, k => failing (xs.drop k)
  | infinite f, k => infinite fun i => f (k + i)

/-- The first elements, as many as there are. -/
def take : Meaning → Nat → List Int
  | finite xs, k => xs.take k
  | failing xs, k => xs.take k
  | infinite f, k => (List.range k).map f

/-- The sequence behind finitely many elements. -/
def prepend (xs : List Int) : Meaning → Meaning
  | finite ys => finite (xs ++ ys)
  | failing ys => failing (xs ++ ys)
  | infinite f => infinite fun i => xs[i]?.getD (f (i - xs.length))

def append : Meaning → Meaning → Meaning
  | finite xs, d => d.prepend xs
  | failing xs, _ => failing xs
  | infinite f, _ => infinite f

/-- The endless repetition of a sequence; of one without elements it is an error at once. -/
def cycle : Meaning → Meaning
  | finite [] => failing []
  | finite (x :: xs) => infinite fun i => (x :: xs)[i % (xs.length + 1)]?.getD x
  | failing xs => failing xs
  | infinite f => infinite f

/-- The sequence after its first element. -/
def rest (d : Meaning) : Meaning := d.drop 1

variable {d d' : Meaning} {x : Int}

/-! ## Positions -/

@[simp] theorem drop_zero (d : Meaning) : d.drop 0 = d := by
  cases d <;> simp [drop]

theorem drop_succ (d : Meaning) (k : Nat) : d.drop (k + 1) = d.rest.drop k := by
  cases d with
  | finite xs => simp [rest, drop]
  | failing xs => simp [rest, drop]
  | infinite f =>
    refine congrArg infinite (funext fun i => congrArg f ?_)
    omega

theorem read_drop (d : Meaning) (k i : Nat) : (d.drop k).read i = d.read (k + i) := by
  cases d <;> simp [drop, read]

theorem read_rest (d : Meaning) (i : Nat) : d.rest.read i = d.read (i + 1) := by
  rw [rest, read_drop, Nat.add_comm]

theorem eq_nil_of_done (h : d.read 0 = .done) : d = finite [] := by
  cases d with
  | finite xs => cases xs with
    | nil => rfl
    | cons x xs => simp [read] at h
  | failing xs => cases xs <;> simp [read] at h
  | infinite f => simp [read] at h

theorem eq_nil_of_failed (h : d.read 0 = .failed) : d = failing [] := by
  cases d with
  | finite xs => cases xs <;> simp [read] at h
  | failing xs => cases xs with
    | nil => rfl
    | cons x xs => simp [read] at h
  | infinite f => simp [read] at h

/-- What breaks off stays broken off. -/
theorem read_of_failed {i j : Nat} (h : d.read i = .failed) (hij : i ≤ j) : d.read j = .failed := by
  have hd := eq_nil_of_failed (d := d.drop i) (by rw [read_drop, Nat.add_zero, h])
  obtain ⟨k, rfl⟩ := Nat.exists_eq_add_of_le hij
  rw [← read_drop, hd]
  rfl

/-- After its first element, a sequence fails where its rest does. -/
theorem fails_rest_iff (h : d.read 0 ≠ .failed) (k : Nat) :
    (∃ i < k, d.rest.read i = .failed) ↔ ∃ i < k + 1, d.read i = .failed := by
  constructor
  · rintro ⟨i, hi, hread⟩
    exact ⟨i + 1, Nat.succ_lt_succ hi, by rw [← read_rest, hread]⟩
  · rintro ⟨i, hi, hread⟩
    cases i with
    | zero => exact absurd hread h
    | succ i => exact ⟨i, Nat.lt_of_succ_lt_succ hi, by rw [read_rest, hread]⟩

theorem not_fails_of_done (h : d.read 0 = .done) (k : Nat) : ¬ ∃ i < k, d.read i = .failed := by
  rintro ⟨i, -, hi⟩
  rw [eq_nil_of_done h] at hi
  simp [read] at hi

theorem drop_of_done (h : d.read 0 = .done) (k : Nat) : d.drop k = d := by
  rw [eq_nil_of_done h]
  simp [drop]

theorem take_of_done (h : d.read 0 = .done) (k : Nat) : d.take k = [] := by
  rw [eq_nil_of_done h]
  simp [take]

theorem take_succ_of_element (h : d.read 0 = .element x) (k : Nat) : d.take (k + 1) = x :: d.rest.take k := by
  cases d with
  | finite xs => cases xs with
    | nil => simp [read] at h
    | cons y ys => simpa [read, take, rest, drop] using h
  | failing xs => cases xs with
    | nil => simp [read] at h
    | cons y ys => simpa [read, take, rest, drop] using h
  | infinite f =>
    have hx : f 0 = x := by simpa [read] using h
    simp [take, rest, drop, List.range_succ_eq_map, Function.comp_def, hx, Nat.add_comm]

/-! ## Concatenation and repetition -/

theorem append_of_done (h : d.read 0 = .done) (d' : Meaning) : d.append d' = d' := by
  rw [eq_nil_of_done h]
  cases d' <;> simp [append, prepend]

theorem read_append_of_failed (h : d.read 0 = .failed) (d' : Meaning) : (d.append d').read 0 = .failed := by
  rw [eq_nil_of_failed h]
  rfl

theorem read_append_of_element (h : d.read 0 = .element x) (d' : Meaning) : (d.append d').read 0 = .element x := by
  cases d with
  | finite xs => cases xs with
    | nil => simp [read] at h
    | cons y ys => cases d' <;> simpa [read, append, prepend] using h
  | failing xs => exact h
  | infinite f => exact h

theorem rest_append_of_element (h : d.read 0 = .element x) (d' : Meaning) :
    (d.append d').rest = d.rest.append d' := by
  cases d with
  | finite xs => cases xs with
    | nil => simp [read] at h
    | cons y ys =>
      cases d' with
      | finite zs => simp [append, prepend, rest, drop]
      | failing zs => simp [append, prepend, rest, drop]
      | infinite f => simp [append, prepend, rest, drop, Nat.add_comm 1]
  | failing xs => rfl
  | infinite f => rfl

theorem read_cycle_of_done (h : d.read 0 = .done) : d.cycle.read 0 = .failed := by
  rw [eq_nil_of_done h]
  rfl

theorem read_cycle_of_failed (h : d.read 0 = .failed) : d.cycle.read 0 = .failed := by
  rw [eq_nil_of_failed h]
  rfl

/-- **The repetition of a sequence is the sequence followed by its repetition.** -/
theorem append_cycle (h : d.read 0 = .element x) : d.append d.cycle = d.cycle := by
  cases d with
  | finite xs => cases xs with
    | nil => simp [read] at h
    | cons y ys =>
      refine congrArg infinite (funext fun i => ?_)
      by_cases hi : i < ys.length + 1
      · have hget : (y :: ys)[i]? = some (y :: ys)[i] := List.getElem?_eq_getElem hi
        rw [Nat.mod_eq_of_lt hi, hget]
        rfl
      · have hnone : (y :: ys)[i]? = none := List.getElem?_eq_none (Nat.not_lt.1 hi)
        rw [hnone, List.length_cons, Nat.mod_eq_sub_mod (Nat.not_lt.1 hi)]
        rfl
  | failing xs => rfl
  | infinite f => rfl

end Meaning

namespace Interval

/-- The integers of the interval, in order. -/
def elements (r : Interval) : List Int := (List.range r.length).map fun i : Nat => r.lo + i

theorem elements_of_empty {r : Interval} (h : r.hi < r.lo) : r.elements = [] := by
  rw [elements, r.length_eq_zero_iff.2 h]
  rfl

theorem elements_of_nonempty {r : Interval} (h : r.lo ≤ r.hi) : r.elements = r.lo :: r.rest.elements := by
  have hlength : r.length = r.rest.length + 1 := by
    have := length_pos h
    rw [length_rest]
    omega
  have hstep : ∀ i : Nat, r.lo + ((i + 1 : Nat) : Int) = r.rest.lo + i := fun i => by
    rw [rest]
    push_cast
    omega
  rw [elements, hlength, List.range_succ_eq_map, List.map_cons, List.map_map, elements]
  simp only [Function.comp_def, hstep]
  simp

end Interval
end Retention
