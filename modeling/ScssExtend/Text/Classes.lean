/-!
# Character classes

The classes that tokens and selectors are made of: `isSpace` (white space between tokens),
`isIdentStart` and `isIdentChar` (identifiers), and `isBlank` (the Unicode property `White_Space`).
Letters and digits are the ASCII ones; every character outside ASCII may stand in an identifier.
-/

namespace ScssExtend.Text

/-- White space between tokens: newline, tab, space, carriage return and form feed. -/
def isSpace (c : Char) : Bool :=
  c = '\n' || c = '\t' || c = ' ' || c = '\r' || c = '\x0c'

/-- A character that may begin an identifier: a letter, an underscore or any non-ASCII character. -/
def isIdentStart (c : Char) : Bool :=
  c.isAlpha || c = '_' || 128 ≤ c.toNat

/-- A character that may continue an identifier: a beginning one, a digit or a hyphen. -/
def isIdentChar (c : Char) : Bool :=
  isIdentStart c || c.isDigit || c = '-'

/-- The ranges of the Unicode property `White_Space`, in increasing order. -/
def blankRanges : List (Nat × Nat) :=
  [(0x09, 0x0d), (0x20, 0x20), (0x85, 0x85), (0xa0, 0xa0), (0x1680, 0x1680), (0x2000, 0x200a),
    (0x2028, 0x2029), (0x202f, 0x202f), (0x205f, 0x205f), (0x3000, 0x3000)]

/-- A character with the Unicode property `White_Space`. -/
def isBlank (c : Char) : Bool :=
  blankRanges.any fun (low, high) => low ≤ c.toNat && c.toNat ≤ high

/-- Every character that separates tokens is blank. -/
theorem isBlank_of_isSpace {c : Char} (h : isSpace c) : isBlank c := by
  simp only [isSpace, Bool.or_eq_true, decide_eq_true_eq] at h
  rcases h with (((rfl | rfl) | rfl) | rfl) | rfl <;> decide

/-- What starts an identifier may continue it. -/
theorem isIdentChar_of_isIdentStart {c : Char} (h : isIdentStart c) : isIdentChar c := by
  simp [isIdentChar, h]

/-- Two texts are alike when they differ at most in the case of ASCII letters. -/
def sameLetters (s t : String) : Bool :=
  s.toList.map Char.toLower == t.toList.map Char.toLower

end ScssExtend.Text
