import ScssExtend.Text.Classes
import ScssExtend.Text.Trim
import ScssExtend.Token

/-!
# Preludes

What stands before a block or a semicolon: `spanPrelude` takes these tokens off a token stream, `startsBlock`
looks ahead whether a block follows them, `serialize` writes them as text, and `stripFlag` takes a flag such
as `!important` off their end.
-/

namespace ScssExtend.Prelude

/-- True of the tokens that end a prelude outside brackets and parentheses. -/
def isStop : Token → Bool
  | .leftBrace | .semicolon | .rightBrace => true
  | _ => false

/-- The number of open brackets and parentheses after a token; a stray closing one is not counted. -/
def depthAfter (depth : Nat) : Token → Nat
  | .function _ | .leftParen | .leftBracket => depth + 1
  | .rightParen | .rightBracket => depth - 1
  | _ => depth

/-- The tokens before the next brace or semicolon that is inside no more than `depth` closings, and the rest.
The end of the input ends a prelude at any depth. -/
def spanPrelude (depth : Nat) : List PlacedToken → List Token × List PlacedToken
  | [] => ([], [])
  | t :: ts =>
    if isStop t.token && depth == 0 || t.token == .eof then ([], t :: ts)
    else
      let (taken, rest) := spanPrelude (depthAfter depth t.token) ts
      (t.token :: taken, rest)

/-- True when, outside brackets and parentheses, a `{` comes before any semicolon and `}`. -/
def startsBlock (depth : Nat) : List PlacedToken → Bool
  | [] => false
  | t :: ts =>
    if t.token = .leftBrace ∧ depth = 0 then true
    else if isStop t.token && depth == 0 || t.token == .eof then false
    else startsBlock (depthAfter depth t.token) ts

/-- The text of the tokens, without blank characters at its ends. -/
def serialize (tokens : List Token) : String :=
  Text.trimmed (Token.concatText tokens)

/-- The tokens without the white space at their end. -/
def dropTrailingSpace (tokens : List Token) : List Token :=
  Text.dropEndWhile (· == .whitespace) tokens

/-- Takes a flag off the end: an exclamation mark and the flag's name, in any case and with white space between
them or behind them. Tells as well whether the flag was there. -/
def stripFlag (flag : String) (tokens : List Token) : List Token × Bool :=
  let tokens := dropTrailingSpace tokens
  match tokens.getLast? with
  | some (.ident name) =>
    let before := dropTrailingSpace tokens.dropLast
    if Text.sameLetters name flag && before.getLast? == some (.delim '!') then
      (dropTrailingSpace before.dropLast, true)
    else (tokens, false)
  | _ => (tokens, false)

/-- A prelude leaves at most the stream. -/
theorem spanPrelude_length (depth : Nat) (ts : List PlacedToken) :
    (spanPrelude depth ts).2.length ≤ ts.length := by
  fun_induction spanPrelude depth ts with
  | case1 => exact Nat.le_refl _
  | case2 => exact Nat.le_refl _
  | case3 depth t ts _ taken rest heq ih =>
    simp only [heq, List.length_cons] at ih ⊢
    omega

end ScssExtend.Prelude
