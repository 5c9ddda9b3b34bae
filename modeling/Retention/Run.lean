import Retention.Display
import Retention.Equality
import Retention.Reachable
/-!
# Run — computations over the store

A run reads and changes the store and ends with a value, with a raised error, or out of depth (`Halt`).  An error
leaves all changes in place.  Being out of depth is no error of the program: no handler sees it.
-/
namespace Retention

/-- How a run ends without a value. -/
inductive Halt where
  /-- An error was raised. -/
  | raised (e : FaultId)
  /-- Computations nest deeper than the run was allowed. -/
  | tooDeep
deriving DecidableEq, Repr, Inhabited

/-- A computation over the store. -/
abbrev Run := EStateM Halt Store

namespace Run
variable {α : Type}

/-- Puts an error into the store. -/
def newFault (cause : Fault) (context : List Value) : Run FaultId :=
  modifyGet fun s => (s.faults.size, { s with faults := s.faults.push ⟨cause, context⟩ })

/-- Raises an error that is in the store. -/
def reraise (e : FaultId) : Run α := throw (.raised e)

/-- Raises a new error with the values that were involved. -/
def raiseIn (context : List Value) (cause : Fault) : Run α := do reraise (← newFault cause context)

/-- Raises a new error. -/
def raise (cause : Fault) : Run α := raiseIn [] cause

/-- Raises the error that a value is; nothing else can be raised. -/
def raiseValue : Value → Run α
  | .fault e => reraise e
  | _ => raise .notAnError

/-- Runs a computation and hands out the error that it raises instead of raising it. -/
def attempt (x : Run α) : Run (Except FaultId α) := fun s =>
  match x s with
  | .ok a s => .ok (.ok a) s
  | .error (.raised e) s => .ok (.error e) s
  | .error .tooDeep s => .error .tooDeep s

/-- A tag that no value has yet. -/
def freshTag : Run Tag := modifyGet fun s => (s.nextTag, { s with nextTag := s.nextTag + 1 })

/-- Notes a turn in the running of thunks. -/
def record (turn : Turn) : Run Unit := modify fun s => s.recorded turn

/-- Writes to the log. -/
def note (e : Event) : Run Unit := modify fun s => { s with events := e :: s.events }

/-- A new list node. -/
def cons (head tail : Value) : Run Value := return .cons (← freshTag) head tail

/-- A new list value of the given items. -/
def list (items : List Value) : Run Value := return .list (← freshTag) items

/-- A new tuple of the given items; there is only one tuple of no items. -/
def tuple (items : List Value) : Run Value :=
  if items.isEmpty then return .unit else return .tuple (← freshTag) items

/-- The name of the type of a value. -/
def typeName (v : Value) : Run String := return (← get).typeName v

/-- Raises the error that a value lacks an attribute. -/
def lacks (v : Value) (attr : String) : Run α := do raise (.noAttribute (← typeName v) attr)

/-- What can be read off the store, or the error that keeps it from being told. -/
def told (x : Store → Except Fault α) : Run α := do
  match x (← get) with
  | .ok a => return a
  | .error cause => raise cause

/-- The written form of a value. -/
def written (v : Value) : Run String := told fun s => s.written v

/-- The length of the interval between two bounds. -/
def lengthBetween (lo hi : Value) : Run Nat := do
  match Value.between? lo hi with
  | some r =>
    match r.length? with
    | some n => return n
    | none => raise .tooLong
  | none => raise (.operands "-" (← typeName hi) (← typeName lo))

/-- Whether a value counts as true. -/
def truth (v : Value) : Run Bool :=
  match v.truth? with
  | some b => return b
  | none =>
    match v with
    | .interval _ lo hi => do return (← lengthBetween lo hi) != 0
    | _ => return true

/-- The cell that a value is; any other value lacks the attribute that was asked for. -/
def cellOf (attr : String) : Value → Run CellId
  | .cell c => return c
  | v => lacks v attr

end Run
end Retention
