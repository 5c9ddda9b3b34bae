import Retention.CommandLine.Help
import Retention.CommandLine.Parse
import Retention.Program.Eval
/-!
# Perform — what a command line prints

A command line either ends at once, with help or with what is wrong about it, or runs one scenario for each discipline
and prints its report.  The first scenario that fails ends it.
-/
namespace Retention
namespace CommandLine

/-- How the program ends. -/
inductive Ending where
  | exited (code : Nat)
  /-- An error was raised that the program does not handle. -/
  | crashed (kind message : String)
deriving DecidableEq, Repr, Inhabited

/-- What the program prints, and how it ends. -/
structure Transcript where
  out : String
  err : String
  ending : Ending
deriving DecidableEq, Repr, Inhabited

/-- How the program ends at a fault that it does not handle. -/
def Ending.ofFault (f : Fault) : Ending := .crashed f.kind.word f.wording

/-- A number that the options set, as a value; one that was left with no value is an empty list. -/
def numberValue : Option Int → Value
  | some n => .int n
  | none => .list 0 []

/-- What the options ask of a scenario: a number of elements to step over, as given, and the rest as they set it. -/
def Settings.scenario (x : Settings) (drop : Int) : Scenario where
  lo := numberValue x.lo
  hi := numberValue x.hi
  drop := .int drop
  traces := .bool x.trace
  samples := .bool (x.sample || x.trace)

/-- The lines that are printed for a report, each of which may fail to be written. -/
def reportLines (s : Store) (x : Settings) (r : Report) : List (Except Fault String) :=
  let counts := do
    let samples ← r.samples.mapM fun v => s.text v
    return " ".intercalate (s!"{r.discipline.word} live counts:" :: samples)
  if x.trace then [counts, s.reportText r] else [s.reportText r]

/-- The lines up to the first that fails, and the fault of that one. -/
def printable : List (Except Fault String) → List String × Option Fault
  | [] => ([], none)
  | .error fault :: _ => ([], some fault)
  | .ok line :: lines => let (printed, fault) := printable lines; (line :: printed, fault)

/-- Runs a scenario for each discipline, and prints the reports.  The parts of the result are what is printed, what is
said about an error, how it ends, and the store at the end. -/
def runAll (x : Settings) (scenario : Scenario) :
    Store → List Discipline → List String × List String × Ending × Store
  | s, [] => ([], [], .exited 0, s)
  | s, d :: ds =>
    match scenario.report (Program.run []) d s with
    | .ok r s =>
      match printable (reportLines s x r) with
      | (lines, none) =>
        let (out, err, ending, final) := runAll x scenario s ds
        (lines ++ out, err, ending, final)
      | (lines, some fault) => (lines, [], .ofFault fault, s)
    | .error (.raised e) s =>
      match s.message e, s.info e with
      | .ok message, .ok info =>
        if (s.raised e).cause.kind.isOwn then ([], [info], .exited 1, s)
        else ([], [], .crashed (s.raised e).cause.kind.word message, s)
      | .error fault, _ | _, .error fault => ([], [], .ofFault fault, s)
    | .error .tooDeep s => ([], [], .crashed "RecursionError" "maximum recursion depth exceeded", s)

/-- Lines as text. -/
def unlines (lines : List String) : String := String.join (lines.map (· ++ "\n"))

/-- Runs what the options ask for. -/
def performSettings (x : Settings) : Transcript :=
  match x.drop, x.mode with
  | none, _ => ⟨"", "", .ofFault (.notOrdered "<" "list" "int")⟩
  | some _, none => ⟨"", "", .ofFault (.unknownDiscipline "[]")⟩
  | some drop, some mode =>
    let (out, err, ending, s) := runAll x (x.scenario drop) {} mode.disciplines
    let log := if x.verbose then s.events.reverse.map Event.render else []
    ⟨unlines out, unlines (log ++ err), ending⟩

/-- Runs the program on its arguments. -/
def perform (arguments : List String) : Transcript :=
  match parse arguments with
  | .error .help => ⟨help, "", .exited 0⟩
  | .error (.misuse m) => ⟨"", usage ++ "lazyheap: error: " ++ m.message ++ "\n", .exited 2⟩
  | .ok x => performSettings x

end CommandLine
end Retention
