/-!
# Source positions

A `Position` is a line and a column, both counted from one in 32-bit words. `advance` moves past one
character and `advanceOver` past a text; positions are ordered by line, then by column.
-/

namespace ScssExtend

/-- A place in a source text: a line and, within it, a column counted in characters. -/
structure Position where
  line : UInt32
  column : UInt32
  deriving DecidableEq

namespace Position

/-- The place of the first character of a text. -/
def start : Position := ⟨1, 1⟩

/-- The place after `c`: a newline begins the next line, any other character is one column wide. -/
def advance (p : Position) (c : Char) : Position :=
  if c = '\n' then ⟨p.line + 1, 1⟩ else ⟨p.line, p.column + 1⟩

/-- The position behind a text that begins at this one. -/
def advanceOver (p : Position) (cs : List Char) : Position :=
  cs.foldl advance p

/-- The position behind nothing is the same. -/
@[simp] theorem advanceOver_nil (p : Position) : p.advanceOver [] = p := rfl

/-- The position behind a text is that behind its characters one by one. -/
@[simp] theorem advanceOver_cons (p : Position) (c : Char) (cs : List Char) :
    p.advanceOver (c :: cs) = (p.advance c).advanceOver cs := rfl

/-- The position behind two texts is counted over the first and on over the second. -/
@[simp] theorem advanceOver_append (p : Position) (cs ds : List Char) :
    p.advanceOver (cs ++ ds) = (p.advanceOver cs).advanceOver ds :=
  List.foldl_append

/-- A position is written as its line, a colon and its column. -/
def text (p : Position) : String :=
  toString p.line.toNat ++ ":" ++ toString p.column.toNat

/-- `p` is before `q` when its line is smaller or, on the same line, its column is. -/
instance : LT Position where
  lt p q := p.line < q.line ∨ p.line = q.line ∧ p.column < q.column

instance (p q : Position) : Decidable (p < q) :=
  inferInstanceAs (Decidable (p.line < q.line ∨ p.line = q.line ∧ p.column < q.column))

end Position

end ScssExtend
