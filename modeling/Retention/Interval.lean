/-!
# Interval — runs of consecutive integers

An interval holds its two bounds, both of them in it, and no element.  Its elements are made when they are asked for,
so an interval of any size costs nothing.  Counting is bounded: a length above `sizeLimit` cannot be taken
(`length?`), while the elements themselves are unbounded integers.
-/
namespace Retention

/-- The integers from `lo` to `hi`, both included; empty when `hi < lo`. -/
structure Interval where
  lo : Int
  hi : Int
deriving DecidableEq, Repr, Inhabited

/-- The greatest count that can be taken of anything: lengths, and bounds on how many elements to take. -/
def sizeLimit : Nat := Nat.pow 2 63 - 1

namespace Interval

/-- How many integers lie in the interval. -/
def length (r : Interval) : Nat := (r.hi - r.lo + 1).toNat

/-- The length, when it can be taken. -/
def length? (r : Interval) : Option Nat := if r.length ≤ sizeLimit then some r.length else none

/-- The interval without its first element. -/
def rest (r : Interval) : Interval := ⟨r.lo + 1, r.hi⟩

theorem length?_eq_some_iff (r : Interval) (n : Nat) :
    r.length? = some n ↔ r.length = n ∧ n ≤ sizeLimit := by
  unfold length?
  split
  · constructor
    · intro h; cases h; exact ⟨rfl, by assumption⟩
    · rintro ⟨rfl, _⟩; rfl
  · constructor
    · intro h; cases h
    · rintro ⟨rfl, h⟩; contradiction

theorem length_eq_zero_iff (r : Interval) : r.length = 0 ↔ r.hi < r.lo := by
  unfold length; omega

theorem length_pos {r : Interval} (h : r.lo ≤ r.hi) : 0 < r.length := by
  unfold length; omega

theorem hi_lt_end (r : Interval) : r.hi < r.lo + r.length := by
  unfold length; omega

/-- From an element on, an interval is not empty, and no longer than it is as a whole. -/
theorem from_element {r : Interval} {j : Nat} (h : j < r.length) :
    r.lo + j ≤ r.hi ∧ (⟨r.lo + j, r.hi⟩ : Interval).length ≤ r.length := by
  unfold length at h ⊢; dsimp only; omega

/-- **Removing the first element shortens the interval by one.** -/
theorem length_rest (r : Interval) : r.rest.length = r.length - 1 := by
  simp only [length, rest]; omega

end Interval
end Retention
