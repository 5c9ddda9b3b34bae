import Retention.Program.Arguments
/-!
# Values — operations on plain values

Building containers, arithmetic, comparison, and the texts of values.  A dictionary keeps its keys in the order they
first came; an equal key that comes later changes the value and keeps the key.  A product may repeat a text, a list or
a tuple an integer number of times, where a negative number counts as none.
-/
namespace Retention
namespace Run

/-- The two items of the entry of a dictionary at an index, given by anything that has items. -/
def pairOf (run : Runner) (index : Nat) (entry : Value) : Run (Value × Value) := do
  match ← attempt (Iterator.items run entry) with
  | .ok [k, v] => return (k, v)
  | .ok items => raise (.pairLength index items.length)
  | .error e => if ((← get).raised e).cause.kind = .type then raise (.notAPair index) else reraise e

/-- Writes further entries into a dictionary; the first of them has the given index. -/
def putEntries (run : Runner) (dict : Entries Value Value) : Nat → List Value → Run (Entries Value Value)
  | _, [] => return dict
  | index, entry :: entries => do
    let (k, v) ← pairOf run index entry
    checkKey k
    putEntries run (Entries.put (← get).equal k v dict) (index + 1) entries

/-- The sum of integers; truth values are not taken for integers here. -/
def sum (values : List Value) : Run Value := do
  let numbers ← values.mapM fun
    | .int n => return n
    | _ => raise .addOperands
  return .int (numbers.foldl (· + ·) 0)

/-- The greatest number of items that a repetition may come to. -/
def itemLimit : Nat := Nat.pow 2 32

/-- How often a sequence is to be repeated. -/
def repetitions (count : Value) : Run Nat := do
  match count.int? with
  | none => raise (.notRepeatable (← typeName count))
  | some n => if n.natAbs ≤ sizeLimit || n = -(sizeLimit + 1) then return n.toNat else raise .tooLong

/-- Makes sure that a sequence of so many items can be repeated so often. -/
def checkSize (items count : Nat) : Run Unit := do
  if items * count > itemLimit then raise .outOfMemory

/-- A text, repeated. -/
def repeatText (text : String) (count : Nat) : Run Value := do
  if text.length * count > sizeLimit then raise .textTooLong
  checkSize text.length count
  return .str (String.join (List.replicate count text))

/-- Items, repeated. -/
def repeatItems (items : List Value) (count : Nat) : Run (List Value) := do
  checkSize items.length count
  return if items.isEmpty then [] else (List.replicate count items).flatten

/-- A sequence, repeated; nothing if the value is none.  A tuple is itself when it is repeated once. -/
def repetition? (sequence count : Value) : Option (Run Value) :=
  match sequence with
  | .str text => some do repeatText text (← repetitions count)
  | .list _ items => some do list (← repeatItems items (← repetitions count))
  | .tuple tag items => some do
    let n ← repetitions count
    if n = 1 then return .tuple tag items else tuple (← repeatItems items n)
  | _ => none

/-- The product of two values: of numbers, or of a sequence and a number, which repeats the sequence.  Of two sequences
it is the left one that would be repeated. -/
def product (a b : Value) : Run Value :=
  match a.int?, b.int? with
  | some m, some n => return .int (m * n)
  | _, _ =>
    match (repetition? a b).or (repetition? b a) with
    | some result => result
    | none => do raise (.operands "*" (← typeName a) (← typeName b))

/-- The number of items of a value. -/
def length : Value → Run Value
  | .str s => return .int s.length
  | .list _ items => return .int items.length
  | .tuple _ items => return .int items.length
  | .dict _ entries => return .int entries.length
  | .interval _ lo hi => return .int (← lengthBetween lo hi)
  | v => do raise (.noLength (← typeName v))

end Run

/-- Applies an operation on plain values. -/
def ValueOp.apply (run : Runner) (o : ValueOp) (args : List Value) : Run Value := do
  match o, args with
  | .int, [v] => return .int (← Run.readInteger v)
  | .list, items => Run.list items
  | .tuple, items => Run.tuple items
  | .dict, pairs =>
    let entries ← Run.putEntries run [] 0 pairs
    return .dict (← Run.freshTag) entries
  | .seq, values =>
    match values.getLast? with
    | some v => return v
    | none => Run.raise .noArgument
  | .add, values => Run.sum values
  | .mul, [a, b] => Run.product a b
  | .same, [a, b] => return .bool (a.same b)
  | .equal, [a, b] => return .bool ((← get).equal a b)
  | .bool, [v] => return .bool (← Run.truth v)
  | .len, [v] => Run.length v
  | .written, [v] => return .str (← Run.written v)
  | .text, [v] => return .str (← Run.told fun s => s.text v)
  | o, _ => Run.wrongCount (.value o)

end Retention
