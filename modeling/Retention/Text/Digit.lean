/-!
# Digit — decimal digits of every script, and blanks

The decimal digits of the Unicode standard, version 14, come in runs of ten that stand for 0 to 9 in order;
`digitZeros` lists their zeros.  `isBlank` holds of the characters that may surround a number.
-/
namespace Retention
namespace Text

/-- The code points of the digits zero, in order. -/
def digitZeros : List Nat := [
  0x30, 0x660, 0x6F0, 0x7C0, 0x966, 0x9E6, 0xA66, 0xAE6, 0xB66, 0xBE6, 0xC66, 0xCE6, 0xD66, 0xDE6, 0xE50, 0xED0,
  0xF20, 0x1040, 0x1090, 0x17E0, 0x1810, 0x1946, 0x19D0, 0x1A80, 0x1A90, 0x1B50, 0x1BB0, 0x1C40, 0x1C50, 0xA620,
  0xA8D0, 0xA900, 0xA9D0, 0xA9F0, 0xAA50, 0xABF0, 0xFF10, 0x104A0, 0x10D30, 0x11066, 0x110F0, 0x11136, 0x111D0,
  0x112F0, 0x11450, 0x114D0, 0x11650, 0x116C0, 0x11730, 0x118E0, 0x11950, 0x11C50, 0x11D50, 0x11DA0, 0x16A60,
  0x16AC0, 0x16B50, 0x1D7CE, 0x1D7D8, 0x1D7E2, 0x1D7EC, 0x1D7F6, 0x1E140, 0x1E2F0, 0x1E950, 0x1FBF0]

/-- The value of a decimal digit. -/
def digitValue? (c : Char) : Option Nat :=
  (digitZeros.find? fun z => z ≤ c.toNat && c.toNat < z + 10).map fun z => c.toNat - z

/-- The blanks beyond the ASCII ones, as first and last code points of runs. -/
def wideBlankRanges : List (Nat × Nat) :=
  [(0x85, 0x85), (0xA0, 0xA0), (0x1680, 0x1680), (0x2000, 0x200A), (0x2028, 0x2029), (0x202F, 0x202F),
    (0x205F, 0x205F), (0x3000, 0x3000)]

/-- Whether a character may stand before or after a number: the ASCII space, tab, line feed, vertical tab, form feed
and carriage return, and the blanks beyond ASCII. -/
def isBlank (c : Char) : Bool :=
  c = ' ' || (9 ≤ c.toNat && c.toNat ≤ 13) || wideBlankRanges.any fun (lo, hi) => lo ≤ c.toNat && c.toNat ≤ hi

theorem digitValue?_lt {c : Char} {d : Nat} (h : digitValue? c = some d) : d < 10 := by
  obtain ⟨z, hz, rfl⟩ := Option.map_eq_some_iff.1 h
  have := List.find?_some hz
  simp only [Bool.and_eq_true, decide_eq_true_eq] at this
  omega

/-- **The digits of core are digits here, with the same value.** -/
theorem digitValue?_ofNat (d : Nat) (h : d < 10) : digitValue? (Char.ofNat (48 + d)) = some d := by
  have all : ∀ e ∈ List.range 10, digitValue? (Char.ofNat (48 + e)) = some e := by decide +kernel
  exact all d (List.mem_range.2 h)

end Text
end Retention
