import Retention.Program.Arguments
/-!
# Errors — building and raising errors

An error is built from a kind and arguments.  The library's own kinds take a message and, optionally, the values that
were involved; their usual messages can also be built around any variables (`ErrorOp.buildError`).
-/
namespace Retention
namespace Run

/-- The values that were involved in an error: a cell by itself, or the items of a value. -/
def contextOf (run : Runner) : Value → Run (List Value)
  | .cell c => return [.cell c]
  | v => Iterator.items run v

/-- Builds an error of a kind. -/
def buildFault (run : Runner) (kind : ErrorKind) (args : List Value) : Run Value := do
  if kind.isOwn then
    match args with
    | [] => raise .noMessage
    | [message] => return .fault (← newFault (.built kind [message]) [])
    | [message, context] => return .fault (← newFault (.built kind [message]) (← contextOf run context))
    | _ => raise (.surplusContext args.length)
  else
    return .fault (← newFault (.built kind args) [])

/-- The kind of errors that a value names. -/
def kindOf (v : Value) : Run ErrorKind :=
  match v with
  | .str name =>
    match ErrorKind.ofWord? name with
    | some kind => return kind
    | none => unknown v
  | v => unknown v

/-- The variables of a message. -/
def variablesOf : Value → Run (Entries Value Value)
  | .dict _ entries => return entries
  | v => do raise (.notSpreadByName (← typeName v))

/-- The items that are spread over the arguments of a message. -/
def spread (run : Runner) (v : Value) : Run (List Value) := do
  match v with
  | .list _ _ | .tuple _ _ | .str _ | .dict _ _ | .iterator _ => Iterator.items run v
  | v => raise (.notSpread (← typeName v))

/-- Makes sure that the names of variables are texts, and none the one that stands for the kind of the error. -/
def checkNames (names : List Value) : Run Unit := do
  if !names.all fun | .str _ => true | _ => false then raise .nameNotText
  if names.any (·.same (.str "cls")) then raise .takenName

/-- The text of the variable `address` among the given variables. -/
def addressText (vars : Entries Value Value) : Run String := do
  match Entries.get? Value.same vars (.str "address") with
  | some v => told fun s => s.text v
  | none => raise (.missingVariable "address")

/-- The wording of the usual message of one of the library's own errors, around the variables it is about. -/
def wordingOf (kind : ErrorKind) (builder : Value) : Run (Entries Value Value → Run String) := do
  match kind, builder with
  | .cyclicForce, .str "reentrant" => return fun vars => return Fault.reentrantForceText (← addressText vars)
  | .emptySequence, .str "no_head" => return fun vars => return Fault.noHeadText (← addressText vars)
  | .emptySequence, .str "empty_cycle" => return fun vars => return Fault.emptyCycleText (← addressText vars)
  | .noHeap, .str "no_heap" => return fun _ => return Fault.noActiveHeap.wording
  | kind, .str builder => raise (.noClassAttribute kind.word builder)
  | _, v => raise (.attributeNotText (← typeName v))

end Run

/-- Applies an operation on errors. -/
def ErrorOp.apply (run : Runner) (o : ErrorOp) (args : List Value) : Run Value := do
  match o, args with
  | .error, kind :: args => Run.buildFault run (← Run.kindOf kind) args
  | .raise, [v] => Run.raiseValue v
  | .buildError, [kind, builder, args, vars] =>
    let kind ← Run.kindOf kind
    let wording ← Run.wordingOf kind builder
    let vars ← Run.variablesOf vars
    let args ← Run.spread run args
    Run.checkNames vars.keys
    Run.buildFault run kind (.str (← wording vars) :: args)
  | o, _ => Run.wrongCount (.error o)

end Retention
