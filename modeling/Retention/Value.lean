import Retention.Interval
/-!
# Value — what cells hold

The values of the language, the suspended computations (`Thunk`) and the four states of a cell.  Values are finite
trees: a cell, a fault, an iterator, a consumer, a report or a heap stands in a value as its number in the store, so
every cycle goes through the store.  Composite values carry a tag, which tells two values with equal contents apart.

The fields of a list node and of a shared repetition are meant to be cells, and the bounds of an interval to be
integers, but nothing holds a program to it: these fields may have any value, and an operation that needs a cell or an
integer there fails when it meets something else.

`refs` is the reference function that liveness is about: what a value, a thunk or a state refers to directly, in order.
-/
namespace Retention

/-- The number of a cell in the store.  Addresses are counted by each heap on its own; this number is the cell's own. -/
abbrev CellId := Nat
/-- The number of a heap in the store. -/
abbrev HeapId := Nat
/-- The number of a raised or built error in the store. -/
abbrev FaultId := Nat
/-- The number of a one-shot iterator in the store. -/
abbrev IteratorId := Nat
/-- The number of a consumer in the store. -/
abbrev ConsumerId := Nat
/-- The number of a report in the store. -/
abbrev ReportId := Nat
/-- What tells two composite values with equal contents apart. -/
abbrev Tag := Nat

/-- How an endless repetition evaluates its laps. -/
inductive Discipline where
  /-- Call by need: the repeated list is evaluated once and shared by every lap. -/
  | need
  /-- Call by name: the repeated list is built anew for every lap. -/
  | name
deriving DecidableEq, Repr, Inhabited

/-- The word that names a discipline. -/
def Discipline.word : Discipline → String
  | need => "need"
  | name => "name"

/-- The discipline that a word names. -/
def Discipline.ofWord? (w : String) : Option Discipline := [need, name].find? (·.word == w)

theorem Discipline.ofWord?_word (d : Discipline) : ofWord? d.word = some d := by cases d <;> decide

/-- The operations of the library that can stand as the function of a suspended call. -/
inductive Builtin where
  | force | headOf | dropN | take | makeGenerator | append | cycleShared
deriving DecidableEq, Repr, Inhabited

/-- The name of a builtin function. -/
def Builtin.word : Builtin → String
  | force => "force"
  | headOf => "head_of"
  | dropN => "drop_n"
  | take => "take"
  | makeGenerator => "make_generator"
  | append => "append"
  | cycleShared => "cycle_shared"

/-- The builtin function of a name. -/
def Builtin.ofWord? (w : String) : Option Builtin :=
  [force, headOf, dropN, take, makeGenerator, append, cycleShared].find? (·.word == w)

theorem Builtin.ofWord?_word (b : Builtin) : ofWord? b.word = some b := by cases b <;> decide

/-- A function that can be called or suspended: a builtin, or one that the program defines.  A function defined as
anonymous has no name to show. -/
inductive Function where
  | builtin (b : Builtin)
  | defined (name : String) (anonymous : Bool)
deriving DecidableEq, Repr, Inhabited

/-- What builds the list of a fresh lap: a function of no arguments, or the list of an interval. -/
inductive Maker (α : Type) where
  | function (f : Function)
  | interval (lo hi : α)
deriving DecidableEq, Repr, Inhabited

/-- The four phases of a cell's life. -/
inductive Phase where
  | suspended | inProgress | evaluated | failed
deriving DecidableEq, Repr, Inhabited

/-- The name of a phase. -/
def Phase.word : Phase → String
  | suspended => "Suspended"
  | inProgress => "InProgress"
  | evaluated => "Evaluated"
  | failed => "Failed"

/-- A value. -/
inductive Value where
  | null
  | bool (b : Bool)
  | int (n : Int)
  | str (s : String)
  | list (tag : Tag) (items : List Value)
  | tuple (tag : Tag) (items : List Value)
  | dict (tag : Tag) (entries : List (Value × Value))
  | cell (c : CellId)
  /-- A list node: its head and its tail. -/
  | cons (tag : Tag) (head tail : Value)
  /-- The end of a list. -/
  | nil (tag : Tag)
  /-- The run of integers between two bounds, both included. -/
  | interval (tag : Tag) (lo hi : Value)
  /-- A snapshot of a cell's state, named by the phase it was taken in. -/
  | state (c : CellId) (phase : Phase)
  /-- What the laps of a shared repetition refer to: the repeated list and the start of the repetition. -/
  | shared (tag : Tag) (source origin : Value)
  /-- What the laps of a fresh repetition refer to. -/
  | unshared (tag : Tag) (maker : Maker Value)
  | discipline (d : Discipline)
  | report (r : ReportId)
  | heap (h : HeapId)
  | consumer (d : ConsumerId)
  | iterator (i : IteratorId)
  | fault (e : FaultId)
deriving Repr, Inhabited

namespace Value

/-- The end of a list as the library itself makes it, always the same value. -/
def listEnd : Value := .nil 0

/-- The tuple of no items, always the same value. -/
def unit : Value := .tuple 0 []

mutual
/-- What a value refers to directly, in order: a cell refers to itself, a list node and a shared repetition to their
fields, lists and tuples to what their items refer to.  Every other value is opaque. -/
def refs : Value → List Value
  | .cell c => [.cell c]
  | .cons _ head tail => [head, tail]
  | .shared _ source origin => [source, origin]
  | .list _ items => refsOfAll items
  | .tuple _ items => refsOfAll items
  | _ => []
/-- What the members of a list of values refer to, in order. -/
def refsOfAll : List Value → List Value
  | [] => []
  | v :: vs => v.refs ++ refsOfAll vs
end

theorem refsOfAll_eq_flatMap (vs : List Value) : refsOfAll vs = vs.flatMap refs := by
  induction vs with
  | nil => rfl
  | cons v vs ih => rw [refsOfAll, ih, List.flatMap_cons]

/-- The integer that a value stands for, truth values among them. -/
def int? : Value → Option Int
  | .int n => some n
  | .bool b => some (if b then 1 else 0)
  | _ => none

/-- The interval between two bounds, if they stand for integers. -/
def between? (lo hi : Value) : Option Interval :=
  match lo.int?, hi.int? with
  | some l, some h => some ⟨l, h⟩
  | _, _ => none

/-- Whether a value counts as true, when that can be told: an interval counts by its length, which may be too large to
take, and is not there at all if its bounds are not integers. -/
def truth? : Value → Option Bool
  | .null => some false
  | .bool b => some b
  | .int n => some (n != 0)
  | .str s => some (!s.isEmpty)
  | .list _ items => some (!items.isEmpty)
  | .tuple _ items => some (!items.isEmpty)
  | .dict _ entries => some (!entries.isEmpty)
  | .nil _ => some false
  | .interval _ lo hi => (between? lo hi).bind fun r => r.length?.map (· != 0)
  | _ => some true

/-- Whether a value counts as true, where a value of which that cannot be told does not. -/
def holds (v : Value) : Bool := v.truth? == some true

theorem holds_bool (b : Bool) : (Value.bool b).holds = b := by cases b <;> rfl

/-- The same value as an object: numbers and texts by what they are, composite values by their tag. -/
def same : Value → Value → Bool
  | .null, .null => true
  | .bool a, .bool b => a == b
  | .int a, .int b => a == b
  | .str a, .str b => a == b
  | .list s _, .list t _ => s == t
  | .tuple s _, .tuple t _ => s == t
  | .dict s _, .dict t _ => s == t
  | .cell a, .cell b => a == b
  | .cons s _ _, .cons t _ _ => s == t
  | .nil s, .nil t => s == t
  | .interval s _ _, .interval t _ _ => s == t
  | .state a p, .state b q => a == b && p == q
  | .shared s _ _, .shared t _ _ => s == t
  | .unshared s _, .unshared t _ => s == t
  | .discipline a, .discipline b => a == b
  | .report a, .report b => a == b
  | .heap a, .heap b => a == b
  | .consumer a, .consumer b => a == b
  | .iterator a, .iterator b => a == b
  | .fault a, .fault b => a == b
  | _, _ => false

end Value

/-- A suspended computation with all that it needs. -/
inductive Thunk where
  /-- The node of a list over an interval. -/
  | intervalNode (tag : Tag) (lo hi : Value)
  /-- The first element of an interval. -/
  | intervalHead (tag : Tag) (lo hi : Value)
  /-- The node of the concatenation of two lists. -/
  | appendNode (xs ys : Value)
  /-- The node of a list over an iterator. -/
  | iteratorNode (source : IteratorId)
  /-- The start of a shared repetition of `source`; `origin` is the very cell that holds this thunk. -/
  | cycleStart (origin : CellId) (source : Value)
  /-- A further lap of a shared repetition. -/
  | sharedLap (tag : Tag) (source origin : Value)
  /-- A lap of a fresh repetition. -/
  | freshLap (tag : Tag) (maker : Maker Value)
  /-- A call of a function. -/
  | call (f : Function) (args : List Value)
deriving Repr, Inhabited

namespace Thunk

/-- The arguments of a thunk, as values. -/
def args : Thunk → List Value
  | .intervalNode tag lo hi => [.interval tag lo hi]
  | .intervalHead _ _ _ => [.int 0]
  | .appendNode xs ys => [xs, ys]
  | .iteratorNode source => [.iterator source]
  | .cycleStart origin source => [.cell origin, source]
  | .sharedLap tag source origin => [.shared tag source origin]
  | .freshLap tag maker => [.unshared tag maker]
  | .call _ args => args

/-- Whether two thunks would run the same function. -/
def sameFunction : Thunk → Thunk → Bool
  | .intervalNode _ _ _, .intervalNode _ _ _ => true
  | .intervalHead s _ _, .intervalHead t _ _ => s == t
  | .appendNode _ _, .appendNode _ _ => true
  | .iteratorNode _, .iteratorNode _ => true
  | .cycleStart _ _, .cycleStart _ _ => true
  | .sharedLap _ _ _, .sharedLap _ _ _ => true
  | .freshLap _ _, .freshLap _ _ => true
  | .call f _, .call g _ => f == g
  | _, _ => false

/-- What a suspended computation refers to: what its arguments refer to. -/
def refs (t : Thunk) : List Value := Value.refsOfAll t.args

end Thunk

/-- The state of a cell. -/
inductive CellState where
  | suspended (t : Thunk)
  /-- The thunk stays while it runs, so whatever it still needs stays visible to the heap. -/
  | inProgress (t : Thunk)
  | evaluated (v : Value)
  /-- Final, like a value: the error is raised again, the thunk never run again. -/
  | failed (error : Value)
deriving Repr, Inhabited

namespace CellState

/-- The phase of a state. -/
def phase : CellState → Phase
  | .suspended _ => .suspended
  | .inProgress _ => .inProgress
  | .evaluated _ => .evaluated
  | .failed _ => .failed

/-- The thunk of a state that has one. -/
def thunk? : CellState → Option Thunk
  | .suspended t => some t
  | .inProgress t => some t
  | _ => none

/-- What a cell in this state refers to. -/
def refs : CellState → List Value
  | .suspended t => t.refs
  | .inProgress t => t.refs
  | .evaluated v => v.refs
  | .failed _ => []

end CellState
end Retention
