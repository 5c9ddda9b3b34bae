import Retention.Force
/-!
# Sequence — lazy lists

A lazy list is a cell that evaluates to a list node or to the end of the list; both fields of a node are cells, so the
elements are as lazy as the list.  This module holds the lists over intervals, concatenation, and the two ways to step
along a list.  Any value may turn up where a list is expected: it ends the list, in the way each operation says.
-/
namespace Retention
namespace Sequence

/-- The lazy list of the elements of an interval. -/
def unfold (tag : Tag) (lo hi : Value) : Run CellId := Run.suspend (.intervalNode tag lo hi)

/-- The lazy list of the integers between two bounds. -/
def between (lo hi : Value) : Run CellId := do unfold (← Run.freshTag) lo hi

/-- Raises the error that an interval has no element at an index. -/
def noElement {α : Type} (tag : Tag) (lo hi i : Value) : Run α := do
  let interval ← Run.written (.interval tag lo hi)
  Run.raise (.noElement interval (← Run.told fun s => s.text i))

/-- The element of an interval at an index.  Only an index that is not negative makes the length count. -/
def element (tag : Tag) (lo hi i : Value) : Run Value := do
  match i.int? with
  | none => Run.raise (.notOrdered "<=" "int" (← Run.typeName i))
  | some n =>
    if n < 0 then noElement tag lo hi i
    else if n < (← Run.lengthBetween lo hi) then
      match lo.int? with
      | some l => return .int (l + n)
      | none => noElement tag lo hi i
    else noElement tag lo hi i

/-- One more than a value, which should be an integer. -/
def successor (v : Value) : Run Value :=
  match v.int? with
  | some n => return .int (n + 1)
  | none =>
    match v with
    | .str _ | .list _ _ | .tuple _ _ => do Run.raise (.notConcatenable (← Run.typeName v))
    | _ => do Run.raise (.operands "+" (← Run.typeName v) "int")

/-- The node of the list over an interval: the cell of its first element is made before the cell of the rest. -/
def intervalNode (tag : Tag) (lo hi : Value) : Run Value := do
  if (← Run.lengthBetween lo hi) = 0 then
    return .listEnd
  else
    let head ← Run.suspend (.intervalHead tag lo hi)
    let tail ← between (← successor lo) hi
    Run.cons (.cell head) (.cell tail)

/-- The concatenation of two lists. -/
def append (xs ys : Value) : Run CellId := Run.suspend (.appendNode xs ys)

/-- The node of a concatenation: the heads of the first list and then the second list itself, not a copy of it. -/
def appendNode (run : Runner) (xs ys : Value) : Run Value := do
  match ← forceValue run xs with
  | .nil _ => forceValue run ys
  | .cons _ head tail => do
    let rest ← append tail ys
    Run.cons head (.cell rest)
  | _ => return .null

/-- Steps over up to `n` elements, forcing one node for each. -/
def dropSteps (run : Runner) : Nat → Value → Run Value
  | 0, xs => return xs
  | n + 1, xs => do
    match ← forceValue run xs with
    | .cons _ _ tail => dropSteps run n tail
    | _ => return xs

/-- What is left of a list after its first `n` elements; a list that is too short is left at its end. -/
def drop (run : Runner) (n : Int) (xs : Value) : Run Value :=
  if n < 0 then do Run.raise (.negativeDrop (← Run.told fun _ => integerText n)) else dropSteps run n.toNat xs

/-- The first element of a list, which should be a cell. -/
def head (run : Runner) (xs : Value) : Run Value := do
  let c ← Run.cellOf "state" xs
  match ← force run c with
  | .nil _ => Run.raiseIn [xs] (.noHead ((← get).address c))
  | .cons _ head _ => return head
  | _ => return .null

end Sequence
end Retention
