import Retention.Text.Digit
/-!
# Integer — reading and writing integers

An integer may be surrounded by blanks and may have a sign; its digits are decimal digits of any script, and a single
low line may stand between two of them.  More than 4300 digits are neither read nor written.
-/
namespace Retention
namespace Text

/-- Why a text is not read as an integer. -/
inductive IntegerFault where
  | malformed
  | tooLong (digits : Nat)
deriving DecidableEq, Repr, Inhabited

/-- The greatest number of digits that are read or written. -/
def digitLimit : Nat := 4300

/-- The digits at the start of a text, with a low line between two digits passed over, and what follows them.  `after`
tells whether a digit came right before. -/
def digitRun (after : Bool) : List Char → List Nat × List Char
  | [] => ([], [])
  | c :: rest =>
    match digitValue? c with
    | some d => let r := digitRun true rest; (d :: r.1, r.2)
    | none =>
      match rest with
      | [] => ([], [c])
      | e :: _ =>
        if c = '_' && after && (digitValue? e).isSome then digitRun false rest else ([], c :: rest)

/-- The number with the given decimal digits. -/
def ofDigits (digits : List Nat) : Nat := digits.foldl (fun n d => 10 * n + d) 0

/-- The sign at the start of a text, as whether it is a minus, and what follows it. -/
def splitSign : List Char → Bool × List Char
  | '-' :: rest => (true, rest)
  | '+' :: rest => (false, rest)
  | cs => (false, cs)

/-- Reads an integer. -/
def readInteger (s : String) : Except IntegerFault Int :=
  let (negative, body) := splitSign (s.toList.dropWhile isBlank)
  let (digits, rest) := digitRun false body
  if digits.length > digitLimit then .error (.tooLong digits.length)
  else if digits.isEmpty || !rest.all isBlank then .error .malformed
  else .ok (if negative then -(ofDigits digits : Int) else ofDigits digits)

/-- The least number that has too many digits to be written. -/
def decimalBound : Nat := Nat.pow 10 digitLimit

/-- The decimal digits of an integer, behind a minus sign if it is negative; nothing if they are too many. -/
def decimal? (n : Int) : Option String := if n.natAbs < decimalBound then some (toString n) else none

theorem decimal?_eq_some_iff (n : Int) (s : String) :
    decimal? n = some s ↔ n.natAbs < decimalBound ∧ toString n = s := by
  unfold decimal?
  split
  · next h => simp [h]
  · next h => simp [h]

end Text
end Retention
