import RefCheck.Text.Unicode.Alphabetic
import RefCheck.Text.Unicode.Numeric

/-!
# Character classes of a script

Names start with an alphabetic character, `_` or `$` and go on with these or numeric characters.
White space is what the Unicode property of that name says. ASCII is decided without the tables.
-/

namespace RefCheck.Text

open Unicode

/-- First and last code point of each run of characters with the property `White_Space`. -/
def whiteSpaceRanges : List (Nat × Nat) := [
    (0x9, 0xD), (0x20, 0x20), (0x85, 0x85), (0xA0, 0xA0), (0x1680, 0x1680), (0x2000, 0x200A),
    (0x2028, 0x2029), (0x202F, 0x202F), (0x205F, 0x205F), (0x3000, 0x3000)]

/-- Whether a character lies in one of the ranges. -/
def inRanges (ranges : List (Nat × Nat)) (c : Char) : Bool :=
  ranges.any fun (first, last) => first ≤ c.toNat && c.toNat ≤ last

/-- Whether a character lies outside ASCII, where the tables decide. -/
def beyondAscii (c : Char) : Bool := 128 ≤ c.toNat

def isAlphabetic (c : Char) : Bool :=
  c.isAlpha || (beyondAscii c && inRanges alphabeticRanges c)

def isNumeric (c : Char) : Bool :=
  c.isDigit || (beyondAscii c && inRanges numericRanges c)

def isBlank (c : Char) : Bool :=
  c = ' ' || (9 ≤ c.toNat && c.toNat ≤ 13) || (beyondAscii c && inRanges whiteSpaceRanges c)

def isNameStart (c : Char) : Bool := isAlphabetic c || c = '_' || c = '$'

def isNamePart (c : Char) : Bool := isAlphabetic c || isNumeric c || c = '_' || c = '$'

/-- A number goes on through ASCII letters, digits and points, whatever they spell. -/
def isNumberPart (c : Char) : Bool := c.isAlphanum || c = '.'

end RefCheck.Text
