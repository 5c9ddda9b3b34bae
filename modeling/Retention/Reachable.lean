import Retention.Store
import Std.Data.TreeMap.Lemmas
/-!
# Reachable — what a heap keeps alive

A heap keeps alive what can be reached from its roots by following references.  `walk` is the depth-first search: the
cell on top of the stack is visited unless a cell of the same address was visited before, and a visit puts what it
refers to on the stack, the last of it on top.  It ends because a visit uses up one of the finitely many cells whose
address is still unseen (`Store.unseen`); cycles need no other care.  Only cells have an address: the search fails at
the first other value that it takes from the stack, which only a root or a field of a list node or a shared repetition
can bring there.

`Path` is the relation the search is to agree with: a chain of references from one cell to another.
-/
namespace Retention

/-- The cells found by a search, by their addresses. -/
abbrev Found := Std.TreeMap Nat CellId

namespace Store

/-- A chain of references leads from the first cell to the second. -/
inductive Path (s : Store) : CellId → CellId → Prop where
  | refl (c : CellId) : Path s c c
  | step {c d e : CellId} : .cell d ∈ s.refs c → Path s d e → Path s c e

/-- How many cells of the store have an address that a search has not yet seen. -/
def unseen (s : Store) (found : Found) : Nat :=
  (s.cells.toList.filter fun cell => !found.contains cell.address).length

theorem unseen_insert_lt (s : Store) (found : Found) (c : CellId) (cell : Cell) (h : s.cells[c]? = some cell)
    (hn : found.contains cell.address = false) :
    s.unseen (found.insert cell.address c) < s.unseen found := by
  unfold unseen
  have hmem : cell ∈ s.cells.toList := by
    rw [Array.mem_toList_iff]; exact Array.mem_of_getElem? h
  have hsub : s.cells.toList.filter (fun x => !(found.insert cell.address c).contains x.address)
      = (s.cells.toList.filter (fun x => !found.contains x.address)).filter (fun x => x.address != cell.address) := by
    rw [List.filter_filter]
    apply List.filter_congr
    intro x _
    by_cases hx : x.address = cell.address
    · simp [Std.TreeMap.contains_insert, hx]
    · have hc : (compare cell.address x.address == Ordering.eq) = false := by
        simpa [Nat.compare_eq_eq] using Ne.symm hx
      simp [Std.TreeMap.contains_insert, hc, hx]
  rw [hsub]
  apply List.length_filter_lt_length_iff_exists.2
  exact ⟨cell, List.mem_filter.2 ⟨hmem, by simp [hn]⟩, by simp⟩

/-- The search: visits what is on the stack, top first, and all that it leads to.  Its error is the value that is no
cell. -/
def walk (s : Store) (found : Found) : List Value → Except Value Found
  | [] => .ok found
  | .cell c :: stack =>
    match _h : s.cells[c]? with
    | none => s.walk found stack
    | some cell =>
      if _hf : found.contains cell.address then s.walk found stack
      else s.walk (found.insert cell.address c) (cell.state.refs.reverse ++ stack)
  | v :: _ => .error v
termination_by stack => (s.unseen found, stack.length)
decreasing_by
  · exact Prod.Lex.right _ (by simp)
  · exact Prod.Lex.right _ (by simp)
  · exact Prod.Lex.left _ _ (s.unseen_insert_lt found c cell _h (by simpa only [Bool.not_eq_true] using _hf))

/-- The cells that a heap keeps alive, by address: all that its roots lead to. -/
def reachable (s : Store) (h : HeapId) : Except Value Found := s.walk {} ((s.heap h).roots.map (·.2)).reverse

/-- How many cells a heap keeps alive. -/
def liveCount (s : Store) (h : HeapId) : Except Value Nat := (s.reachable h).map (·.size)

end Store
end Retention
