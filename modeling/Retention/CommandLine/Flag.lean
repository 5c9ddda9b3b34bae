import Retention.Value
/-!
# Flag — the options of the command line, and what they set

Each option has a short or a long spelling or both; long spellings may be cut short.  `Settings` is what the options
set, with the values that hold where they are left out.
-/
namespace Retention
namespace CommandLine

/-- The options. -/
inductive Flag where
  | help | mode | lo | hi | drop | trace | noSample | verbose
deriving DecidableEq, Repr, Inhabited

namespace Flag

/-- The spellings of an option. -/
def spellings : Flag → List String
  | help => ["-h", "--help"]
  | mode => ["--mode"]
  | lo => ["--lo"]
  | hi => ["-m", "--hi"]
  | drop => ["-n", "--drop"]
  | trace => ["--trace"]
  | noSample => ["--no-sample"]
  | verbose => ["-v", "--verbose"]

/-- The options, in the order in which they are documented. -/
def all : List Flag := [help, mode, lo, hi, drop, trace, noSample, verbose]

/-- Every spelling with its option. -/
def table : List (String × Flag) := all.flatMap fun f => f.spellings.map fun w => (w, f)

/-- The option of a spelling. -/
def ofSpelling? (w : String) : Option Flag := (table.find? (·.1 == w)).map (·.2)

/-- Whether an option has a value. -/
def takesValue : Flag → Bool
  | mode | lo | hi | drop => true
  | _ => false

/-- How messages name an option. -/
def label (f : Flag) : String := "/".intercalate f.spellings

end Flag

/-- Which disciplines are run. -/
inductive Mode where
  | only (d : Discipline)
  | both
deriving DecidableEq, Repr, Inhabited

namespace Mode

/-- The word for a mode. -/
def word : Mode → String
  | only d => d.word
  | both => "both"

/-- The modes, in the order in which they are documented. -/
def all : List Mode := [only .need, only .name, both]

/-- The mode of a word. -/
def ofWord? (w : String) : Option Mode := all.find? (·.word == w)

/-- The disciplines that a mode runs, in order. -/
def disciplines : Mode → List Discipline
  | only d => [d]
  | both => [.need, .name]

end Mode

/-- What the options set.  An option whose value came in the same argument and is the separator `--` is left with no
value at all. -/
structure Settings where
  mode : Option Mode := some .both
  lo : Option Int := some 1
  hi : Option Int := some 10
  drop : Option Int := some 100
  trace : Bool := false
  sample : Bool := true
  verbose : Bool := false
deriving DecidableEq, Repr, Inhabited

end CommandLine
end Retention
