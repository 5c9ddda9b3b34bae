import Retention.Scenario
import Retention.Program.Expr
/-!
# Arguments — reading the arguments of operations

What an operation needs of a value, and the error if the value has not got it.
-/
namespace Retention
namespace Run
variable {α : Type}

/-- Raises the error that an operation was given the wrong number of arguments. -/
def wrongCount (o : Operation) : Run α := raise (.argumentCount o.word)

/-- The heap that a value is; any other value lacks the attribute that was asked for. -/
def heapOf (attr : String) : Value → Run HeapId
  | .heap h => return h
  | v => lacks v attr

/-- What an operation on a heap acts on: the optional argument, unless it counts as false, or else the active heap. -/
def heapOr (args : List Value) : Run Value := do
  match args with
  | [] => return .heap (← activeHeap)
  | v :: _ => if ← truth v then return v else return .heap (← activeHeap)

/-- The heap that an operation acts on, of which it asks for an attribute. -/
def heapAmong (attr : String) (args : List Value) : Run HeapId := do heapOf attr (← heapOr args)

/-- The consumer that a value is; any other value lacks the attribute that was asked for. -/
def consumerOf (attr : String) : Value → Run ConsumerId
  | .consumer d => return d
  | v => lacks v attr

/-- The iterator that a value is. -/
def iteratorOf : Value → Run IteratorId
  | .iterator i => return i
  | v => do raise (.notAnIterator (← typeName v))

/-- The discipline that a value is or names. -/
def disciplineOf (v : Value) : Run Discipline := do
  let found := match v with
    | .discipline d => some d
    | .str w => Discipline.ofWord? w
    | _ => none
  match found with
  | some d => return d
  | none => raise (.unknownDiscipline (← written v))

/-- Raises the error that nothing has the given name, which must be able to be a key. -/
def unknown (name : Value) : Run α := do
  checkKey name
  raise (.unknownName name)

/-- The function of a name. -/
def functionOf (p : Program) (v : Value) : Run Function :=
  match v with
  | .str name =>
    match p.function? name with
    | some f => return f
    | none => unknown v
  | v => unknown v

/-- The integer that is read from a text, or that a number is. -/
def readInteger (v : Value) : Run Int := do
  match v with
  | .str s =>
    match Text.readInteger s with
    | .ok n => return n
    | .error .malformed => raise (.notAnInteger (String.ofList ((Text.quoted s).toList.take 200)))
    | .error (.tooLong digits) => raise (.tooManyDigits digits)
  | v =>
    match v.int? with
    | some n => return n
    | none => raise (.notANumber (← typeName v))

/-- The bound on how many elements to take: a count, or nothing for all of them. -/
def takeBoundOf : Value → Run Nat
  | .null => return sizeLimit
  | v =>
    match v.int? with
    | some n =>
      if n < -1 && -n ≤ sizeLimit + 1 then raise .takeRange
      else if 0 ≤ n && n ≤ sizeLimit then return n.toNat
      else raise .takeBound
    | none => raise .takeBound

/-- The values of up to so many elements of a list, as a list. -/
def takeList (run : Runner) (n xs : Value) : Run Value := do
  list (← Sequence.take run (← takeBoundOf n) xs)

/-- What is left of a list after so many elements. -/
def dropValue (run : Runner) (n xs : Value) : Run Value := do
  match n.int? with
  | some n => Sequence.drop run n xs
  | none => raise (.notOrdered "<" (← typeName n) "int")

end Run
end Retention
