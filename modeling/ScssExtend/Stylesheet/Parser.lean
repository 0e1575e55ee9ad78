import ScssExtend.Selector.Grammar
import ScssExtend.Stylesheet
import ScssExtend.Stylesheet.Prelude
import ScssExtend.Token.Lexer

/-!
# Reading stylesheets

The reader goes through the tokens with a stack of the blocks that are open. `step` takes one statement, one
opening or one closing brace, or one separator off the stream (`step_length`), and `run` repeats it to the end
of the input. The selector of a style rule is read when its block closes. `Stylesheet.parse` reads a source
text.
-/

namespace ScssExtend.Parser

open Prelude

/-- What was written before the `{` of a block that is open. -/
inductive Header where
  | rule (selectorText : String)
  | media (query : String)
  | keyframe (step : String)
  | atBlock (name preludeText : String)

/-- An open block: its header, where this starts, and the statements of the enclosing block before it. -/
structure Frame where
  header : Header
  position : Position
  before : List Statement

/-- The open blocks, innermost first, and the statements read so far in the innermost one. -/
structure State where
  frames : List Frame
  statements : List Statement

/-- What a step of the reader comes to: the end of the stylesheet, or a state to go on from. -/
inductive Step where
  | done (statements : List Statement) (rest : List PlacedToken)
  | next (state : State) (rest : List PlacedToken)

namespace State

/-- No block is open and nothing has been read. -/
def initial : State := ⟨[], []⟩

/-- Puts a statement at the end of the innermost block. -/
def add (st : State) (s : Statement) : State :=
  { st with statements := st.statements ++ [s] }

/-- Opens a block, and remembers the statements in front of it. -/
def enter (st : State) (header : Header) (position : Position) : State :=
  ⟨⟨header, position, st.statements⟩ :: st.frames, []⟩

/-- True inside the block of `@keyframes` or of one of its prefixed spellings. -/
def inKeyframes (st : State) : Bool :=
  match st.frames with
  | ⟨.atBlock name _, _, _⟩ :: _ =>
    "keyframes".toList.isSuffixOf (name.toList.map Char.toLower)
  | _ => false

end State

/-- The statement that a block makes once its statements are known. -/
def Header.close (header : Header) (position : Position) (body : List Statement) :
    Except ParseError Statement :=
  match header with
  | .rule selectorText => do
    let selector ← SelectorList.parse selectorText position
    return .rule selector body position
  | .media query => return .media query body position
  | .keyframe step => return .keyframe step body position
  | .atBlock name preludeText => return .atBlock name preludeText body position

/-- Where the stream stands: at its first token, or at `ending` when no token is left. -/
def location (ending : Position) : List PlacedToken → Position
  | [] => ending
  | t :: _ => t.position

/-- The stream behind a semicolon, if it begins with one. -/
def skipSemicolon : List PlacedToken → List PlacedToken
  | ⟨.semicolon, _⟩ :: ts => ts
  | ts => ts

/-- True where a `{` is the next token. -/
def atBrace (ts : List PlacedToken) : Bool :=
  ts.head?.any (·.token == .leftBrace)

/-- Takes the `{` off the stream and opens a block. -/
def openBlock (ending : Position) (st : State) (header : Header) (position : Position) :
    List PlacedToken → Except ParseError Step
  | [] => .error (.unexpectedEnd .openingBrace ending)
  | ⟨.leftBrace, _⟩ :: ts => .ok (.next (st.enter header position) ts)
  | ⟨token, place⟩ :: _ => .error (.unexpectedToken (.insteadOfBlock token) place)

/-- Ends the stylesheet, which has to be outside all blocks. -/
def finish (ending : Position) (st : State) (ts : List PlacedToken) : Except ParseError Step :=
  match st.frames with
  | [] => .ok (.done st.statements ts)
  | _ :: _ => .error (.unexpectedEnd .closingBrace (location ending ts))

/-- Closes the innermost block at a `}` that stands at `place`; `ts` are the tokens behind it. -/
def closeBlock (st : State) (place : Position) (ts : List PlacedToken) : Except ParseError Step :=
  match st.frames with
  | [] => .error (.unexpectedToken (.token .rightBrace) place)
  | frame :: frames => do
    let statement ← frame.header.close frame.position st.statements
    return .next ⟨frames, frame.before ++ [statement]⟩ ts

/-- Reads an `@extend` directive behind its name, which stands at `position`. -/
def readExtend (ending : Position) (st : State) (position : Position) (ts : List PlacedToken) :
    Except ParseError Step :=
  let (taken, rest) := spanPrelude 0 ts
  if atBrace rest then .error (.unexpectedToken .blockAfterExtend (location ending rest))
  else do
    let (targetTokens, optional) := stripFlag "optional" taken
    let targets ← SelectorList.parse (serialize targetTokens) (location ending ts)
    return .next (st.add (.extend targets optional position)) (skipSemicolon rest)

/-- Reads an at-rule through its semicolon or through the `{` of its block. -/
def readAtRule (ending : Position) (st : State) : List PlacedToken → Except ParseError Step
  | ⟨.atKeyword name, position⟩ :: ts =>
    let ts := ts.dropWhile (·.token == .whitespace)
    if Text.sameLetters name "extend" then readExtend ending st position ts
    else
      let (taken, rest) := spanPrelude 0 ts
      let preludeText := serialize taken
      if !atBrace rest then
        .ok (.next (st.add (.atRule name preludeText position)) (skipSemicolon rest))
      else if Text.sameLetters name "media" then
        openBlock ending st (.media preludeText) position rest
      else openBlock ending st (.atBlock name preludeText) position rest
  | ts => .error (.unexpectedToken .insteadOfAtKeyword (location ending ts))

/-- Reads the prelude of a style rule or of a keyframe step, and the `{` behind it. -/
def readQualifiedRule (ending : Position) (st : State) (ts : List PlacedToken) :
    Except ParseError Step :=
  let (taken, rest) := spanPrelude 0 ts
  let header := if st.inKeyframes then Header.keyframe else Header.rule
  openBlock ending st (header (serialize taken)) (location ending ts) rest

/-- Reads the tokens before a colon, and the colon. `start` is where the declaration starts. -/
def readPropertyName (start : Position) :
    List PlacedToken → Except ParseError (List Token × List PlacedToken)
  | [] => .error (.unexpectedEnd .colon start)
  | ⟨token, place⟩ :: ts =>
    match token with
    | .colon => .ok ([], ts)
    | .semicolon | .rightBrace | .eof => .error (.unexpectedToken (.token token) place)
    | token => do
      let (name, rest) ← readPropertyName start ts
      return (token :: name, rest)

/-- Reads a declaration, with the semicolon behind it. -/
def readDeclaration (ending : Position) (st : State) (ts : List PlacedToken) :
    Except ParseError Step := do
  let position := location ending ts
  let (nameTokens, ts) ← readPropertyName position ts
  let name := serialize nameTokens
  if name.isEmpty then .error (.unexpectedToken (.token .colon) position)
  else
    let (taken, rest) := spanPrelude 0 ts
    let (value, important) := stripFlag "important" taken
    return .next (st.add (.declaration name (serialize value) important position))
      (skipSemicolon rest)

/-- Takes the next statement, brace or separator off the stream. -/
def step (ending : Position) (st : State) : List PlacedToken → Except ParseError Step
  | [] => finish ending st []
  | t :: ts =>
    match t.token with
    | .whitespace | .semicolon => .ok (.next st ts)
    | .eof => finish ending st (t :: ts)
    | .rightBrace => closeBlock st t.position ts
    | .atKeyword _ => readAtRule ending st (t :: ts)
    | _ =>
      if startsBlock 0 (t :: ts) then readQualifiedRule ending st (t :: ts)
      else readDeclaration ending st (t :: ts)

/-! ## Every step makes progress -/

/-- Skipping a semicolon leaves at most the stream. -/
theorem skipSemicolon_length (ts : List PlacedToken) : (skipSemicolon ts).length ≤ ts.length := by
  unfold skipSemicolon
  split <;> simp

/-- Opening a block takes its brace off the stream. -/
theorem openBlock_length {ending position : Position} {st st' : State} {header : Header}
    {ts rest : List PlacedToken} (h : openBlock ending st header position ts = .ok (.next st' rest)) :
    rest.length < ts.length := by
  unfold openBlock at h
  split at h <;> cases h
  simp

/-- At the end of the input there is no next state. -/
theorem finish_ne_next {ending : Position} {st st' : State} {ts rest : List PlacedToken} :
    finish ending st ts ≠ .ok (.next st' rest) := by
  unfold finish
  split <;> simp

/-- Closing a block takes nothing behind its brace. -/
theorem closeBlock_rest {st st' : State} {place : Position} {ts rest : List PlacedToken}
    (h : closeBlock st place ts = .ok (.next st' rest)) : rest = ts := by
  unfold closeBlock at h
  split at h
  · cases h
  · obtain ⟨_, _, h⟩ := Grammar.bind_eq_ok.1 h
    cases h
    rfl

/-- Reading the targets of a directive leaves at most the stream. -/
theorem readExtend_length {ending position : Position} {st st' : State} {ts rest : List PlacedToken}
    (h : readExtend ending st position ts = .ok (.next st' rest)) : rest.length ≤ ts.length := by
  have := spanPrelude_length 0 ts
  unfold readExtend at h
  dsimp only at h
  split at h
  · cases h
  · obtain ⟨_, _, h⟩ := Grammar.bind_eq_ok.1 h
    cases h
    exact Nat.le_trans (skipSemicolon_length _) this

/-- An at-rule takes at least its name. -/
theorem readAtRule_length {ending : Position} {st st' : State} {ts rest : List PlacedToken}
    (h : readAtRule ending st ts = .ok (.next st' rest)) : rest.length < ts.length := by
  unfold readAtRule at h
  split at h
  · next name position ts =>
    have hd := (List.dropWhile_suffix (l := ts) (fun t : PlacedToken => t.token == .whitespace)).length_le
    have hp := spanPrelude_length 0 (ts.dropWhile fun t => t.token == .whitespace)
    dsimp only at h
    simp only [List.length_cons]
    split at h
    · have := readExtend_length h
      omega
    · split at h
      · cases h
        have := skipSemicolon_length (spanPrelude 0 (ts.dropWhile fun t => t.token == .whitespace)).2
        omega
      · split at h <;>
          · have := openBlock_length h
            omega
  · cases h

/-- A qualified rule takes at least its brace. -/
theorem readQualifiedRule_length {ending : Position} {st st' : State} {ts rest : List PlacedToken}
    (h : readQualifiedRule ending st ts = .ok (.next st' rest)) : rest.length < ts.length :=
  Nat.lt_of_lt_of_le (openBlock_length h) (spanPrelude_length 0 ts)

/-- The name of a declaration takes at least its colon. -/
theorem readPropertyName_length {start : Position} {ts rest : List PlacedToken} {name : List Token}
    (h : readPropertyName start ts = .ok (name, rest)) : rest.length < ts.length := by
  fun_induction readPropertyName start ts generalizing name with
  | case1 => cases h
  | case2 => cases h; simp
  | case3 => cases h
  | case4 => cases h
  | case5 => cases h
  | case6 place ts token _ _ _ _ ih =>
    obtain ⟨⟨more, rest'⟩, hr, h⟩ := Grammar.bind_eq_ok.1 h
    cases h
    exact Nat.lt_succ_of_lt (ih hr)

/-- A declaration takes at least its colon. -/
theorem readDeclaration_length {ending : Position} {st st' : State} {ts rest : List PlacedToken}
    (h : readDeclaration ending st ts = .ok (.next st' rest)) : rest.length < ts.length := by
  obtain ⟨⟨name, ts'⟩, hn, h⟩ := Grammar.bind_eq_ok.1 h
  have ln := readPropertyName_length hn
  have lp := spanPrelude_length 0 ts'
  dsimp only at h
  split at h
  · cases h
  · cases h
    have := skipSemicolon_length (spanPrelude 0 ts').2
    omega

/-- A step that does not end the stylesheet takes at least one token. -/
theorem step_length {ending : Position} {st st' : State} {ts rest : List PlacedToken}
    (h : step ending st ts = .ok (.next st' rest)) : rest.length < ts.length := by
  cases ts with
  | nil => exact absurd h finish_ne_next
  | cons t ts =>
    unfold step at h
    dsimp only at h
    split at h
    · cases h
      simp
    · cases h
      simp
    · exact absurd h finish_ne_next
    · rw [closeBlock_rest h]
      simp
    · exact readAtRule_length h
    · split at h
      · exact readQualifiedRule_length h
      · exact readDeclaration_length h

/-- Repeats the step until the stylesheet ends; returns its statements and the tokens that are left. -/
def run (ending : Position) (st : State) (ts : List PlacedToken) :
    Except ParseError (List Statement × List PlacedToken) :=
  match h : step ending st ts with
  | .error e => .error e
  | .ok (.done statements rest) => .ok (statements, rest)
  | .ok (.next st' rest) =>
    have := step_length h
    run ending st' rest
  termination_by ts.length
  decreasing_by exact this

end ScssExtend.Parser

namespace ScssExtend.Stylesheet

/-- Reads a token stream as a stylesheet. A place that is asked for when the stream has ended is that of its
last token. -/
def ofTokens (tokens : List PlacedToken) : Except ParseError Stylesheet := do
  let ending := (tokens.getLast?.map PlacedToken.position).getD .start
  let (statements, _) ← Parser.run ending .initial tokens
  return ⟨statements⟩

/-- Parses a stylesheet. -/
def parse (source : String) : Except ParseError Stylesheet :=
  ofTokens (Lexer.tokenize source)

end ScssExtend.Stylesheet
