import Retention.Value
/-!
# Fault — what can go wrong

Each way to fail is a cause (`Fault`) with what it is about; its kind and its wording are functions of the cause.
The kinds are a closed list.  Four of them are this library's own (`ErrorKind.isOwn`): their errors also carry a
context, the values that were involved.
-/
namespace Retention

/-- The kinds of errors. -/
inductive ErrorKind where
  | zeroDivision | value | key | runtime | index | keyboardInterrupt | systemExit
  | overflow | memory | missingAttribute | type | stopIteration | unbound
  | general | cyclicForce | emptySequence | noHeap
deriving DecidableEq, Repr, Inhabited

namespace ErrorKind

/-- The name of a kind of errors. -/
def word : ErrorKind → String
  | zeroDivision => "ZeroDivisionError"
  | value => "ValueError"
  | key => "KeyError"
  | runtime => "RuntimeError"
  | index => "IndexError"
  | keyboardInterrupt => "KeyboardInterrupt"
  | systemExit => "SystemExit"
  | overflow => "OverflowError"
  | memory => "MemoryError"
  | missingAttribute => "AttributeError"
  | type => "TypeError"
  | stopIteration => "StopIteration"
  | unbound => "Unbound"
  | general => "LazyHeapError"
  | cyclicForce => "CyclicForceError"
  | emptySequence => "EmptySequenceError"
  | noHeap => "HeapError"

/-- The kinds of the errors that a program can build. -/
def buildable : List ErrorKind :=
  [zeroDivision, value, key, runtime, index, keyboardInterrupt, systemExit, general, cyclicForce, emptySequence, noHeap]

/-- The kind of a name, of the errors that a program can build. -/
def ofWord? (w : String) : Option ErrorKind := buildable.find? (·.word == w)

/-- Whether a kind is one of the library's own, whose errors carry a context. -/
def isOwn : ErrorKind → Bool
  | general | cyclicForce | emptySequence | noHeap => true
  | _ => false

theorem ofWord?_word (k : ErrorKind) (h : k ∈ buildable) : ofWord? k.word = some k := by
  revert h; cases k <;> decide +kernel

end ErrorKind

/-- A cause of failure.  Values that only the wording needs are kept as they are written, and types by their names. -/
inductive Fault where
  /-- A cell was forced while its own thunk runs. -/
  | reentrantForce (address : Nat)
  /-- The list to repeat has no element. -/
  | emptyCycle (address : Nat)
  /-- A list with no element has no head. -/
  | noHead (address : Nat)
  /-- A cell was to be made, or a suspended cell to be forced, with no heap active. -/
  | noActiveHeap
  /-- A heap was left that is not open. -/
  | notOpen
  /-- A heap has no root of this name. -/
  | noRoot (name : Value)
  /-- An interval has no element at this index. -/
  | noElement (interval index : String)
  /-- A length or a count is above what can be taken. -/
  | tooLong
  /-- A repeated text would be too long. -/
  | textTooLong
  /-- A repeated sequence would be too long. -/
  | outOfMemory
  | negativeDrop (n : String)
  /-- A bound on the number of elements to take is not a count. -/
  | takeBound
  /-- A bound on the number of elements to take is negative and no more than a machine word below zero. -/
  | takeRange
  | iteratorExhausted
  /-- The end of another iterator was met while an item was being computed. -/
  | exhaustedInside
  /-- An item was asked of an iterator while it computes one. -/
  | iteratorBusy
  | unknownDiscipline (shown : String)
  /-- A variable has no value. -/
  | unboundVariable (name : String)
  /-- A call has no argument at an index. -/
  | noArgument
  /-- An index of an argument is no integer. -/
  | badIndex (type : String)
  | unknownName (name : Value)
  | addOperands
  /-- An operator does not take operands of these types. -/
  | operands (operator left right : String)
  /-- A sequence and an integer cannot be put together. -/
  | notConcatenable (type : String)
  /-- A sequence can only be repeated an integer number of times. -/
  | notRepeatable (type : String)
  /-- Values of these types have no order. -/
  | notOrdered (relation left right : String)
  | notAnInteger (shown : String)
  /-- A text has too many digits to be read as an integer. -/
  | tooManyDigits (count : Nat)
  /-- An integer has too many digits to be written. -/
  | unwritable
  | notANumber (type : String)
  | noAttribute (type attr : String)
  | noClassAttribute (type attr : String)
  | notIterable (type : String)
  | notAnIterator (type : String)
  | noLength (type : String)
  | notCallable (type : String)
  | notACount (type : String)
  | unhashable (type : String)
  /-- An entry of a dictionary is no sequence. -/
  | notAPair (index : Nat)
  /-- An entry of a dictionary has not got two items. -/
  | pairLength (index length : Nat)
  /-- What should be spread over the arguments of a message is no sequence. -/
  | notSpread (type : String)
  /-- What should be spread over the variables of a message is no dictionary. -/
  | notSpreadByName (type : String)
  /-- A variable of a message has a name that is no text. -/
  | nameNotText
  /-- A variable of a message has the name that stands for the kind of the error. -/
  | takenName
  /-- The name of a usual message is no text. -/
  | attributeNotText (type : String)
  /-- An error of the library's own was to be built without a message. -/
  | noMessage
  /-- An error of the library's own was to be built from too many arguments. -/
  | surplusContext (given : Nat)
  | notAnError
  | argumentCount (operation : String)
  | missingVariable (name : String)
  /-- An error that a program built from a kind and arguments. -/
  | built (kind : ErrorKind) (args : List Value)
deriving Repr, Inhabited

namespace Fault

/-- The kind of a fault. -/
def kind : Fault → ErrorKind
  | reentrantForce _ => .cyclicForce
  | emptyCycle _ | noHead _ => .emptySequence
  | noActiveHeap => .noHeap
  | notOpen | noElement _ _ | noArgument => .index
  | noRoot _ | unknownName _ | missingVariable _ => .key
  | tooLong | textTooLong => .overflow
  | outOfMemory => .memory
  | negativeDrop _ | takeBound | takeRange | iteratorBusy | unknownDiscipline _ | notAnInteger _ | tooManyDigits _ | unwritable
  | pairLength _ _ => .value
  | iteratorExhausted => .stopIteration
  | exhaustedInside => .runtime
  | unboundVariable _ => .unbound
  | noAttribute _ _ | noClassAttribute _ _ => .missingAttribute
  | badIndex _ | addOperands | operands _ _ _ | notConcatenable _ | notRepeatable _ | notOrdered _ _ _ | notANumber _
  | notIterable _ | notAnIterator _ | noLength _ | notCallable _ | notACount _ | unhashable _ | notAPair _ | notSpread _
  | notSpreadByName _ | nameNotText | takenName | attributeNotText _ | noMessage | surplusContext _ | notAnError
  | argumentCount _ => .type
  | built kind _ => kind

/-- What is said of a cell, by its address, that was forced while its own thunk runs. -/
def reentrantForceText (address : String) : String :=
  s!"Cell #{address} was forced while already under evaluation"

/-- What is said of an empty list that was to be repeated. -/
def emptyCycleText (address : String) : String := s!"Cannot cycle an empty list (cell #{address})"

/-- What is said of an empty list whose head was asked for. -/
def noHeadText (address : String) : String := s!"Cannot take the head of an empty list (cell #{address})"

/-- The wording of a fault that has one of its own. -/
def wording : Fault → String
  | reentrantForce address => reentrantForceText (toString address)
  | emptyCycle address => emptyCycleText (toString address)
  | noHead address => noHeadText (toString address)
  | noActiveHeap => "No active heap, cells must be created and forced inside `with Heap():`"
  | notOpen => "pop from empty list"
  | noElement interval index => interval ++ " has no element " ++ index
  | tooLong => "cannot fit 'int' into an index-sized integer"
  | textTooLong => "repeated string is too long"
  | negativeDrop n => "Cannot drop a negative number of elements: " ++ n
  | takeBound => "Stop argument for islice() must be None or an integer: 0 <= x <= sys.maxsize."
  | takeRange => "Indices for islice() must be None or an integer: 0 <= x <= sys.maxsize."
  | exhaustedInside => "generator raised StopIteration"
  | iteratorBusy => "generator already executing"
  | unknownDiscipline shown => shown ++ " is not a valid Discipline"
  | unboundVariable name => "$" ++ name
  | noArgument => "tuple index out of range"
  | badIndex type => "tuple indices must be integers or slices, not " ++ type
  | addOperands => "add"
  | operands operator left right =>
    "unsupported operand type(s) for " ++ operator ++ ": '" ++ left ++ "' and '" ++ right ++ "'"
  | notConcatenable type => "can only concatenate " ++ type ++ " (not \"int\") to " ++ type
  | notRepeatable type => "can't multiply sequence by non-int of type '" ++ type ++ "'"
  | notOrdered relation left right =>
    "'" ++ relation ++ "' not supported between instances of '" ++ left ++ "' and '" ++ right ++ "'"
  | notAnInteger shown => "invalid literal for int() with base 10: " ++ shown
  | tooManyDigits count => s!"Exceeds the limit (4300 digits) for integer string conversion: value has {count} digits; "
      ++ "use sys.set_int_max_str_digits() to increase the limit"
  | unwritable => "Exceeds the limit (4300 digits) for integer string conversion; "
      ++ "use sys.set_int_max_str_digits() to increase the limit"
  | notANumber type => "int() argument must be a string, a bytes-like object or a real number, not '" ++ type ++ "'"
  | noAttribute type attr => "'" ++ type ++ "' object has no attribute '" ++ attr ++ "'"
  | noClassAttribute type attr => "type object '" ++ type ++ "' has no attribute '" ++ attr ++ "'"
  | notIterable type => "'" ++ type ++ "' object is not iterable"
  | notAnIterator type => "'" ++ type ++ "' object is not an iterator"
  | noLength type => "object of type '" ++ type ++ "' has no len()"
  | notCallable type => "'" ++ type ++ "' object is not callable"
  | notACount type => "'" ++ type ++ "' object cannot be interpreted as an integer"
  | unhashable type => "unhashable type: '" ++ type ++ "'"
  | notAPair index => s!"cannot convert dictionary update sequence element #{index} to a sequence"
  | pairLength index length => s!"dictionary update sequence element #{index} has length {length}; 2 is required"
  | notSpread type =>
    "lazyheap.errors._message.<locals>.builder() argument after * must be an iterable, not " ++ type
  | notSpreadByName type =>
    "lazyheap.errors._message.<locals>.builder() argument after ** must be a mapping, not " ++ type
  | nameNotText => "keywords must be strings"
  | takenName => "_message.<locals>.builder() got multiple values for argument 'cls'"
  | attributeNotText type => "attribute name must be string, not '" ++ type ++ "'"
  | noMessage => "LazyHeapError.__init__() missing 1 required positional argument: 'message'"
  | surplusContext given => s!"LazyHeapError.__init__() takes from 2 to 3 positional arguments but {given + 1} were given"
  | notAnError => "exceptions must derive from BaseException"
  | argumentCount operation => s!"wrong number of arguments for {operation}"
  | missingVariable name => name
  | noRoot _ | unknownName _ | iteratorExhausted | outOfMemory | built _ _ => ""

/-- The arguments of the error that a fault raises: the name it is about, or else its wording, if it has one. -/
def args : Fault → List Value
  | built _ args => args
  | noRoot name | unknownName name => [name]
  | iteratorExhausted | outOfMemory => []
  | f => [.str f.wording]

end Fault
end Retention
