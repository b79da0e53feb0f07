/-!
# Blank characters

The twenty-five characters with the Unicode property `White_Space`. Between the tokens of an
expression any of them may stand, and a text made of nothing else is blank.
-/

namespace BatteryParams.Text

/-- The ranges of code points with the property `White_Space`, each with its first and last
member. -/
def blankRanges : List (Nat × Nat) :=
  [(0x09, 0x0D), (0x20, 0x20), (0x85, 0x85), (0xA0, 0xA0), (0x1680, 0x1680), (0x2000, 0x200A),
    (0x2028, 0x2029), (0x202F, 0x202F), (0x205F, 0x205F), (0x3000, 0x3000)]

/-- Whether a character has the property `White_Space`. -/
def isBlank (c : Char) : Bool :=
  blankRanges.any fun (first, last) => decide (first ≤ c.toNat ∧ c.toNat ≤ last)

/-- A text without its blanks at either end. -/
def trim (text : List Char) : List Char :=
  ((text.dropWhile isBlank).reverse.dropWhile isBlank).reverse

/-- The number of bytes that characters take in UTF-8. -/
def byteWidth (text : List Char) : Nat := text.foldr (fun c width => c.utf8Size + width) 0

end BatteryParams.Text
