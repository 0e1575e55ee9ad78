import ScssExtend.Text.Classes

/-!
# Trimming

`trim` cuts the blank characters off both ends of a text; `trimmed` does so for a string.
-/

namespace ScssExtend.Text

/-- `cs` without the characters at its end that satisfy `p`. -/
def dropEndWhile {α : Type} (p : α → Bool) (cs : List α) : List α :=
  (cs.reverse.dropWhile p).reverse

/-- `cs` without the blank characters at its two ends. -/
def trim (cs : List Char) : List Char :=
  dropEndWhile isBlank (cs.dropWhile isBlank)

/-- `s` without the blank characters at its two ends. -/
def trimmed (s : String) : String :=
  String.ofList (trim s.toList)

end ScssExtend.Text
