import Retention.Text.Printable
/-!
# Quoted — the written form of a text

A text is written between quotes on one line.  The apostrophe is the quote unless the text has apostrophes and no
double quotes.  Inside, the backslash and the quote in use are escaped, line feed, carriage return and tab have short
escapes, and every other unprintable character is written by its code point in two, four or eight hexadecimal digits.
-/
namespace Retention
namespace Text

/-- A number in hexadecimal, in at least the given number of digits. -/
def hex (width n : Nat) : String :=
  let digits := Nat.toDigits 16 n
  String.ofList (List.replicate (width - digits.length) '0' ++ digits)

/-- The quote for a text. -/
def quoteFor (cs : List Char) : Char := if cs.contains '\'' && !cs.contains '"' then '"' else '\''

/-- A character as it is written between quotes. -/
def escape (quote c : Char) : String :=
  if c = quote || c = '\\' then String.ofList ['\\', c]
  else if c = '\n' then "\\n"
  else if c = '\r' then "\\r"
  else if c = '\t' then "\\t"
  else if ' ' ≤ c && c.toNat < 127 then String.singleton c
  else if isPrintable c then String.singleton c
  else if c.toNat < 0x100 then "\\x" ++ hex 2 c.toNat
  else if c.toNat < 0x10000 then "\\u" ++ hex 4 c.toNat
  else "\\U" ++ hex 8 c.toNat

/-- The written form of a text. -/
def quoted (s : String) : String :=
  let quote := quoteFor s.toList
  String.singleton quote ++ String.join (s.toList.map (escape quote)) ++ String.singleton quote

end Text
end Retention
