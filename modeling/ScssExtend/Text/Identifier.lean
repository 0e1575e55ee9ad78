import ScssExtend.Text.Classes

/-!
# Identifiers with escapes

A written name is a run of identifier characters and of backslash pairs, which are kept as written.
`spanName` splits the longest such run off a text; what is allowed after the backslash is a parameter.
`isIdentifier` tells which texts are identifiers without any escape.
-/

namespace ScssExtend.Text

/-- The longest name at the beginning of a text, and the rest of the text. A backslash and the character
after it belong to the name where `escapable` allows that character. -/
def spanName (escapable : Char → Bool) : List Char → List Char × List Char
  | [] => ([], [])
  | c :: cs =>
    if isIdentChar c then
      let (name, rest) := spanName escapable cs
      (c :: name, rest)
    else if c = '\\' then
      match cs with
      | [] => ([], [c])
      | d :: ds =>
        if escapable d then
          let (name, rest) := spanName escapable ds
          (c :: d :: name, rest)
        else ([], c :: d :: ds)
    else ([], c :: cs)

/-- No name is taken off the empty text. -/
@[simp] theorem spanName_nil (escapable : Char → Bool) : spanName escapable [] = ([], []) := rfl

/-- An identifier character is taken with the name behind it. -/
theorem spanName_cons {escapable : Char → Bool} {c : Char} (cs : List Char) (h : isIdentChar c) :
    spanName escapable (c :: cs) =
      (c :: (spanName escapable cs).1, (spanName escapable cs).2) := by
  rw [spanName.eq_def]
  simp [h]

/-- A backslash belongs to the name together with the character it escapes. -/
theorem spanName_escape {escapable : Char → Bool} {d : Char} (ds : List Char) (h : escapable d) :
    spanName escapable ('\\' :: d :: ds) =
      ('\\' :: d :: (spanName escapable ds).1, (spanName escapable ds).2) := by
  rw [spanName.eq_def]
  have : isIdentChar '\\' = false := by decide
  simp [h, this]

/-- Nothing is taken in front of any other character. -/
theorem spanName_stop {escapable : Char → Bool} {c : Char} (cs : List Char) (h : isIdentChar c = false)
    (hc : c ≠ '\\') : spanName escapable (c :: cs) = ([], c :: cs) := by
  rw [spanName.eq_def]
  simp [h, hc]

/-- The name and what is left of the text are the text. -/
theorem spanName_append (escapable : Char → Bool) (cs : List Char) :
    (spanName escapable cs).1 ++ (spanName escapable cs).2 = cs := by
  fun_induction spanName escapable cs <;> simp_all

/-- True of a text that is an identifier without escapes: an optional hyphen, a character that begins
identifiers or a second hyphen, then identifier characters. -/
def isIdentifier (cs : List Char) : Bool :=
  let body := match cs with
    | '-' :: rest => rest
    | _ => cs
  match body with
  | [] => false
  | c :: rest => (isIdentStart c || c = '-') && rest.all isIdentChar

end ScssExtend.Text
