import Retention.CommandLine.Flag
import Retention.Text.Integer
import Retention.Text.Quoted
/-!
# Parse — reading the command line

The arguments are first told apart one by one (`Word.ofArgument`): options, by their full spelling or by an
unambiguous beginning of a long one, with a value after an equals sign or, for short options, right behind; and plain
words, among them what looks like a negative number.  After a separator `--` every argument is plain.  Then the options
are applied from left to right (`Settings.applyAll`); an option with a value takes the plain word behind it.  Short
options can be written together, as long as all but the last have no value.  What no option takes is left over, and
refused.
-/
namespace Retention
namespace CommandLine

/-- What is wrong with a command line. -/
inductive Misuse where
  | ambiguous (argument : String) (candidates : List String)
  | missingValue (f : Flag)
  | unwantedValue (f : Flag) (value : String)
  | badInteger (f : Flag) (value : String)
  | badMode (value : String)
  | unrecognized (arguments : List String)
  | negativeDrop
deriving DecidableEq, Repr, Inhabited

/-- What the program says about a misuse. -/
def Misuse.message : Misuse → String
  | ambiguous argument candidates => s!"ambiguous option: {argument} could match " ++ ", ".intercalate candidates
  | missingValue f => s!"argument {f.label}: expected one argument"
  | unwantedValue f value => s!"argument {f.label}: ignored explicit argument {Text.quoted value}"
  | badInteger f value => s!"argument {f.label}: invalid int value: {Text.quoted value}"
  | badMode value =>
    s!"argument {Flag.mode.label}: invalid choice: {Text.quoted value} (choose from "
      ++ ", ".intercalate (Mode.all.map fun m => Text.quoted m.word) ++ ")"
  | unrecognized arguments => "unrecognized arguments: " ++ " ".intercalate arguments
  | negativeDrop => "Number of elements to drop must not be negative"

/-- An argument, told apart. -/
inductive Word where
  | plain (text : String)
  | separator
  /-- An option, whether it was given by a short spelling, and the value that came with it. -/
  | flag (f : Flag) (short : Bool) (value : Option String)
  /-- What looks like an option and is none. -/
  | unknown (text : String)
deriving DecidableEq, Repr, Inhabited

namespace Word

/-- The argument that a word was, for a word that is not an option. -/
def leftover : Word → List String
  | plain text => [text]
  | separator => ["--"]
  | flag _ _ _ => []
  | unknown text => [text]

/-- Splits a text at its first equals sign. -/
def splitEquals (cs : List Char) : Option (List Char × List Char) :=
  if '=' ∈ cs then some (cs.takeWhile (· ≠ '='), (cs.dropWhile (· ≠ '=')).drop 1) else none

/-- Whether a text looks like a negative number: a minus sign and digits, or a minus sign, a point with digits behind
it, and maybe digits before it.  One line feed may follow. -/
def looksNegative (cs : List Char) : Bool :=
  match cs with
  | '-' :: body =>
    let body := if body.getLast? = some '\n' then body.dropLast else body
    let isDigit := fun c => (Text.digitValue? c).isSome
    match body.dropWhile isDigit with
    | [] => !body.isEmpty
    | '.' :: rest => !rest.isEmpty && rest.all isDigit
    | _ => false
  | _ => false

/-- The options that the beginning of a long spelling can mean, with their spellings. -/
def completions (beginning : List Char) : List (String × Flag) :=
  Flag.table.filter fun entry => beginning.isPrefixOf entry.1.toList

/-- Tells apart an argument that begins with a minus sign, has another character, and is no spelling of an option:
the options that it can mean, each with the spelling and the value that it then has. -/
def readings (cs : List Char) : List (String × Flag × Option String) :=
  match cs with
  | '-' :: '-' :: _ =>
    let (beginning, value) := match splitEquals cs with
      | some (beginning, value) => (beginning, some (String.ofList value))
      | none => (cs, none)
    (completions beginning).map fun (w, f) => (w, f, value)
  | '-' :: c :: rest =>
    match Flag.ofSpelling? (String.ofList ['-', c]) with
    | some f => [(String.ofList ['-', c], f, some (String.ofList rest))]
    | none => []
  | _ => []

/-- Whether a spelling is a short one. -/
def isShort (w : String) : Bool := w.toList[1]? != some '-'

/-- Tells an argument apart. -/
def ofArgument (w : String) : Except Misuse Word :=
  let cs := w.toList
  if cs.head? ≠ some '-' then .ok (plain w)
  else match Flag.ofSpelling? w with
    | some f => .ok (flag f (isShort w) none)
    | none =>
      if cs.length = 1 then .ok (plain w)
      else
        let spelled := (splitEquals cs).bind fun (name, value) =>
          (Flag.ofSpelling? (String.ofList name)).map fun f =>
            flag f (isShort (String.ofList name)) (some (String.ofList value))
        match spelled with
        | some word => .ok word
        | none =>
          match readings cs with
          | [(w, f, value)] => .ok (flag f (isShort w) value)
          | [] => .ok (if looksNegative cs || ' ' ∈ cs then plain w else unknown w)
          | candidates => .error (.ambiguous w (candidates.map (·.1)))

/-- Tells the arguments apart. -/
def ofArguments : List String → Except Misuse (List Word)
  | [] => .ok []
  | w :: rest =>
    if w = "--" then .ok (separator :: rest.map plain)
    else do
      let word ← ofArgument w
      let words ← ofArguments rest
      return word :: words

end Word

/-- The options that were written together in one argument. -/
structure Bundle where
  /-- Those that have no value, up to the last one. -/
  flags : List Flag
  /-- The last one. -/
  last : Flag
  /-- The value that came with the last one. -/
  value : Option String
deriving DecidableEq, Repr, Inhabited

/-- Takes apart an option that came with a value.  An option that has no value can only be followed, if it is short, by
further short options. -/
def unbundle (f : Flag) (short : Bool) (value : List Char) : Except Misuse Bundle :=
  if f.takesValue then .ok ⟨[], f, some (String.ofList value)⟩
  else match value with
    | [] => .error (.unwantedValue f "")
    | c :: rest =>
      match if short then Flag.ofSpelling? (String.ofList ['-', c]) else none with
      | none => .error (.unwantedValue f (String.ofList (c :: rest)))
      | some g =>
        if rest.isEmpty then .ok ⟨[f], g, none⟩
        else (unbundle g true rest).map fun bundle => { bundle with flags := f :: bundle.flags }

/-- The options of one argument. -/
def Bundle.ofFlag (f : Flag) (short : Bool) : Option String → Except Misuse Bundle
  | none => .ok ⟨[], f, none⟩
  | some value => unbundle f short value.toList

/-- Why reading the command line ends before all of it is applied. -/
inductive Stop where
  /-- Help was asked for. -/
  | help
  | misuse (m : Misuse)
deriving DecidableEq, Repr, Inhabited

namespace Settings

/-- The integer that the value of an option is read as. -/
def integer (f : Flag) (value : String) : Except Stop Int :=
  match Text.readInteger value with
  | .ok n => .ok n
  | .error _ => .error (.misuse (.badInteger f value))

/-- Applies an option with its value. -/
def applyValue (x : Settings) (f : Flag) (value : String) : Except Stop Settings := do
  match f with
  | .mode =>
    match Mode.ofWord? value with
    | some mode => return { x with mode := mode }
    | none => throw (.misuse (.badMode value))
  | .lo => return { x with lo := ← integer f value }
  | .hi => return { x with hi := ← integer f value }
  | .drop => return { x with drop := ← integer f value }
  | _ => return x

/-- Leaves an option with no value at all. -/
def clear (x : Settings) (f : Flag) : Settings :=
  match f with
  | .mode => { x with mode := none }
  | .lo => { x with lo := none }
  | .hi => { x with hi := none }
  | .drop => { x with drop := none }
  | _ => x

/-- Applies an option with the value that came in the same argument, of which the separator is taken away. -/
def applyAttached (x : Settings) (f : Flag) (value : String) : Except Stop Settings :=
  if value = "--" then .ok (x.clear f) else x.applyValue f value

/-- Applies an option without a value. -/
def applyFlag (x : Settings) (f : Flag) : Except Stop Settings :=
  match f with
  | .help => .error .help
  | .trace => .ok { x with trace := true }
  | .noSample => .ok { x with sample := false }
  | .verbose => .ok { x with verbose := true }
  | _ => .ok x

/-- Applies options that have no value, from left to right. -/
def applyFlags (x : Settings) (flags : List Flag) : Except Stop Settings := flags.foldlM applyFlag x

/-- Applies what was told apart, from left to right, where `awaited` are options the last of which takes its value from
what comes next; the second part of the result is what is left over. -/
def applyFrom (awaited : Option Bundle) (x : Settings) : List Word → Except Stop (Settings × List String)
  | [] =>
    match awaited with
    | some bundle => .error (.misuse (.missingValue bundle.last))
    | none => .ok (x, [])
  | word :: rest =>
    match awaited, word with
    | some bundle, .plain value => do
      let x ← x.applyFlags bundle.flags
      let x ← x.applyValue bundle.last value
      x.applyFrom none rest
    | some bundle, _ => .error (.misuse (.missingValue bundle.last))
    | none, .flag f short value => do
      let bundle ← (Bundle.ofFlag f short value).mapError .misuse
      match bundle.value with
      | some value =>
        let x ← x.applyFlags bundle.flags
        let x ← x.applyAttached bundle.last value
        x.applyFrom none rest
      | none =>
        if bundle.last.takesValue then
          x.applyFrom (some bundle) rest
        else
          let x ← x.applyFlags bundle.flags
          let x ← x.applyFlag bundle.last
          x.applyFrom none rest
    | none, word => do
      let (x, leftovers) ← x.applyFrom none rest
      return (x, word.leftover ++ leftovers)

/-- Applies what was told apart, from left to right; the second part of the result is what is left over. -/
def applyAll (x : Settings) (words : List Word) : Except Stop (Settings × List String) := x.applyFrom none words

end Settings

/-- Reads a command line. -/
def parse (arguments : List String) : Except Stop Settings := do
  let words ← (Word.ofArguments arguments).mapError .misuse
  let (x, leftovers) ← ({} : Settings).applyAll words
  if !leftovers.isEmpty then
    throw (.misuse (.unrecognized leftovers))
  if x.drop.any (· < 0) then
    throw (.misuse .negativeDrop)
  return x

end CommandLine
end Retention
