import ScssExtend.Text.Classes
import ScssExtend.Text.Identifier
import ScssExtend.Text.Trim
import ScssExtend.Token

/-!
# Reading tokens

Every reader splits a text into what it takes and the rest. A `Lexeme` is one token with the slice it was
read from and the gap of comments before that slice, so the gaps and slices of `lexemes` tile the source
(`lexemes_tile`). `tokenize` places each token where its slice starts. A `Tokenizer` can make more than one pass
over a source.
-/

namespace ScssExtend.Lexer

open Text

/-! ## Comments -/

/-- A block comment's text after its opening `/*`, through the closing `*/` or the end of the input. -/
def spanBlockComment : List Char → List Char × List Char
  | [] => ([], [])
  | [c] => ([c], [])
  | c :: d :: cs =>
    if c = '*' ∧ d = '/' then ([c, d], cs)
    else
      let (taken, rest) := spanBlockComment (d :: cs)
      (c :: taken, rest)

/-- One comment at the beginning of a text: a block comment, or a line comment up to the newline. -/
def spanComment : List Char → Option (List Char × List Char)
  | '/' :: '*' :: cs =>
    let (taken, rest) := spanBlockComment cs
    some ('/' :: '*' :: taken, rest)
  | '/' :: '/' :: cs =>
    some ('/' :: '/' :: cs.takeWhile (· ≠ '\n'), cs.dropWhile (· ≠ '\n'))
  | _ => none

/-- A block comment and what is left of the text are the text. -/
theorem spanBlockComment_append (cs : List Char) :
    (spanBlockComment cs).1 ++ (spanBlockComment cs).2 = cs := by
  fun_induction spanBlockComment cs <;> simp_all

/-- A comment and the rest make up the text, and a comment is never empty. -/
theorem spanComment_append {cs taken rest : List Char} (h : spanComment cs = some (taken, rest)) :
    taken ++ rest = cs ∧ taken ≠ [] := by
  unfold spanComment at h
  split at h
  · cases h
    simp [spanBlockComment_append]
  · cases h
    simp
  · cases h

/-- A comment takes at least one character. -/
theorem spanComment_length {cs taken rest : List Char} (h : spanComment cs = some (taken, rest)) :
    rest.length < cs.length := by
  obtain ⟨rfl, hne⟩ := spanComment_append h
  have := List.length_pos_iff.2 hne
  simp only [List.length_append]
  omega

/-- The comments at the beginning of a text, and the rest. -/
def spanComments (cs : List Char) : List Char × List Char :=
  match h : spanComment cs with
  | none => ([], cs)
  | some (comment, rest) =>
    have := spanComment_length h
    let (more, rest) := spanComments rest
    (comment ++ more, rest)
  termination_by cs.length
  decreasing_by exact this

/-- The comments and what is left of the text are the text. -/
theorem spanComments_append (cs : List Char) :
    (spanComments cs).1 ++ (spanComments cs).2 = cs := by
  fun_induction spanComments cs with
  | case1 => rfl
  | case2 cs comment rest h _ more rest' heq ih =>
    rw [heq] at ih
    simpa [ih] using (spanComment_append h).1

/-! ## Names and numbers -/

/-- An escape in a name of a stylesheet takes any character but a newline. -/
def nameEscape (c : Char) : Bool :=
  c ≠ '\n'

/-- True where an identifier begins: a letter or the like, possibly behind a hyphen, a second hyphen, or an escape. -/
def startsIdent : List Char → Bool
  | '-' :: c :: _ => isIdentStart c || c = '-' || c = '\\'
  | '\\' :: c :: _ => nameEscape c
  | c :: _ => isIdentStart c
  | [] => false

/-- True where a number begins: digits, behind an optional sign and an optional decimal point. -/
def startsNumber : List Char → Bool
  | [] => false
  | c :: cs =>
    if c = '+' ∨ c = '-' then
      match cs with
      | '.' :: d :: _ => d.isDigit
      | d :: _ => d.isDigit
      | [] => false
    else if c = '.' then cs.head?.any Char.isDigit
    else c.isDigit

/-- An optional sign. -/
def spanSign : List Char → List Char × List Char
  | [] => ([], [])
  | c :: cs => if c = '+' ∨ c = '-' then ([c], cs) else ([], c :: cs)

/-- The digits at the beginning. -/
def spanDigits (cs : List Char) : List Char × List Char :=
  (cs.takeWhile Char.isDigit, cs.dropWhile Char.isDigit)

/-- An optional fraction: a decimal point with digits behind it. -/
def spanFraction : List Char → List Char × List Char
  | '.' :: d :: cs =>
    if d.isDigit then
      let (digits, rest) := spanDigits (d :: cs)
      ('.' :: digits, rest)
    else ([], '.' :: d :: cs)
  | cs => ([], cs)

/-- An optional exponent: the letter E, a sign or none, and digits. -/
def spanExponent : List Char → List Char × List Char
  | [] => ([], [])
  | e :: cs =>
    let (sign, behind) := spanSign cs
    if (e = 'e' ∨ e = 'E') ∧ behind.head?.any Char.isDigit then
      let (digits, rest) := spanDigits behind
      (e :: (sign ++ digits), rest)
    else ([], e :: cs)

/-- A number: an optional sign, digits, an optional fraction and an optional exponent. -/
def spanNumber (cs : List Char) : List Char × List Char :=
  let (sign, cs) := spanSign cs
  let (digits, cs) := spanDigits cs
  let (fraction, cs) := spanFraction cs
  let (exponent, cs) := spanExponent cs
  (sign ++ digits ++ fraction ++ exponent, cs)

/-- The sign and what is left of the text are the text. -/
theorem spanSign_append (cs : List Char) : (spanSign cs).1 ++ (spanSign cs).2 = cs := by
  unfold spanSign
  grind

/-- The digits and what is left of the text are the text. -/
theorem spanDigits_append (cs : List Char) : (spanDigits cs).1 ++ (spanDigits cs).2 = cs := by
  simp [spanDigits]

/-- The fraction and what is left of the text are the text. -/
theorem spanFraction_append (cs : List Char) :
    (spanFraction cs).1 ++ (spanFraction cs).2 = cs := by
  unfold spanFraction
  split
  · split
    · simp [spanDigits_append]
    · rfl
  · rfl

/-- The exponent and what is left of the text are the text. -/
theorem spanExponent_append (cs : List Char) :
    (spanExponent cs).1 ++ (spanExponent cs).2 = cs := by
  unfold spanExponent
  split
  · rfl
  · next e cs =>
    dsimp only
    split
    · simp [spanDigits_append, spanSign_append]
    · rfl

/-- The number and what is left of the text are the text. -/
theorem spanNumber_append (cs : List Char) :
    (spanNumber cs).1 ++ (spanNumber cs).2 = cs := by
  simp [spanNumber, spanExponent_append, spanFraction_append, spanDigits_append, spanSign_append]

/-! ## Strings and addresses -/

/-- The raw text of a string after its opening quote, through the closing quote; it ends as well before a
newline and at the end of the input. -/
def spanString (quote : Char) : List Char → List Char × List Char
  | [] => ([], [])
  | c :: cs =>
    if c = quote then ([c], cs)
    else if c = '\n' then ([], c :: cs)
    else if c = '\\' then
      match cs with
      | [] => ([c], [])
      | d :: ds =>
        let (taken, rest) := spanString quote ds
        (c :: d :: taken, rest)
    else
      let (taken, rest) := spanString quote cs
      (c :: taken, rest)

/-- The characters that a string's raw text stands for: a backslash gives way to the character behind it,
and vanishes together with a newline. -/
def unescape (quote : Char) : List Char → List Char
  | [] => []
  | c :: cs =>
    if c = quote then []
    else if c = '\\' then
      match cs with
      | [] => []
      | d :: ds => if d = '\n' then unescape quote ds else d :: unescape quote ds
    else c :: unescape quote cs

/-- The raw text of an address after its opening parenthesis, without and with the closing parenthesis. -/
def spanUrl : List Char → List Char × List Char × List Char
  | [] => ([], [], [])
  | c :: cs =>
    if c = ')' then ([], [c], cs)
    else if c = '\\' then
      match cs with
      | [] => ([c], [], [])
      | d :: ds =>
        let (contents, closing, rest) := spanUrl ds
        (c :: d :: contents, closing, rest)
    else
      let (contents, closing, rest) := spanUrl cs
      (c :: contents, closing, rest)

/-- The string with its closing quote and what is left of the text are the text. -/
theorem spanString_append (quote : Char) (cs : List Char) :
    (spanString quote cs).1 ++ (spanString quote cs).2 = cs := by
  fun_induction spanString quote cs <;> simp_all

/-- The contents of an address, its closing and what is left of the text are the text. -/
theorem spanUrl_append (cs : List Char) :
    (spanUrl cs).1 ++ (spanUrl cs).2.1 ++ (spanUrl cs).2.2 = cs := by
  fun_induction spanUrl cs <;> simp_all

/-! ## One token -/

/-- A token, the slice it was read from, and the rest of the text. -/
structure Reading where
  token : Token
  slice : List Char
  rest : List Char

/-- The token of a punctuation character. -/
def punctuation? : Char → Option Token
  | ',' => some .comma
  | ':' => some .colon
  | ';' => some .semicolon
  | '(' => some .leftParen
  | ')' => some .rightParen
  | '[' => some .leftBracket
  | ']' => some .rightBracket
  | '{' => some .leftBrace
  | '}' => some .rightBrace
  | _ => none

/-- Reads a number with the unit or per cent sign behind it. -/
def readNumeric (cs : List Char) : Reading :=
  let (digits, rest) := spanNumber cs
  if startsIdent rest then
    let (unit, rest) := spanName nameEscape rest
    ⟨.dimension (String.ofList digits) (String.ofList unit), digits ++ unit, rest⟩
  else match rest with
    | '%' :: rest => ⟨.percentage (String.ofList digits), digits ++ ['%'], rest⟩
    | _ => ⟨.number (String.ofList digits), digits, rest⟩

/-- True when the first character behind white space is a quote. -/
def quoteFollows (cs : List Char) : Bool :=
  (cs.dropWhile isSpace).head?.any fun c => c = '"' || c = '\''

/-- Reads an identifier, a function's name with its parenthesis, or an unquoted address. -/
def readIdentLike (cs : List Char) : Reading :=
  let (name, rest) := spanName nameEscape cs
  match rest with
  | '(' :: rest =>
    if sameLetters (String.ofList name) "url" && !quoteFollows rest then
      let (contents, closing, rest) := spanUrl rest
      ⟨.url (String.ofList (trim contents)), name ++ '(' :: (contents ++ closing), rest⟩
    else ⟨.function (String.ofList name), name ++ ['('], rest⟩
  | _ => ⟨.ident (String.ofList name), name, rest⟩

/-- A mark with the name behind it. -/
def readMarked (token : String → Token) (mark : Char) (cs : List Char) : Reading :=
  let (name, rest) := spanName nameEscape cs
  ⟨token (String.ofList name), mark :: name, rest⟩

/-- Reads the token at the beginning of the text `c :: cs`. -/
def readToken (c : Char) (cs : List Char) : Reading :=
  if isSpace c then ⟨.whitespace, c :: cs.takeWhile isSpace, cs.dropWhile isSpace⟩
  else if c = '"' ∨ c = '\'' then
    let (raw, rest) := spanString c cs
    ⟨.string (String.ofList (unescape c raw)) c, c :: raw, rest⟩
  else if c = '#' ∧ cs.head?.any isIdentChar then readMarked .hash c cs
  else if c = '@' ∧ startsIdent cs then readMarked .atKeyword c cs
  else if startsNumber (c :: cs) then readNumeric (c :: cs)
  else if isIdentStart c ∨ c = '-' ∧ startsIdent (c :: cs) then readIdentLike (c :: cs)
  else ⟨(punctuation? c).getD (.delim c), [c], cs⟩

/-- The slice of a numeric token and what is left are the text. -/
theorem readNumeric_append (cs : List Char) :
    (readNumeric cs).slice ++ (readNumeric cs).rest = cs := by
  have hn := spanNumber_append cs
  unfold readNumeric
  generalize spanNumber cs = p at hn
  obtain ⟨digits, rest⟩ := p
  dsimp only at hn ⊢
  split
  · have := spanName_append nameEscape rest
    simp_all
  · split <;> simp_all

/-- The slice of a name, a function or an address and what is left are the text. -/
theorem readIdentLike_append (cs : List Char) :
    (readIdentLike cs).slice ++ (readIdentLike cs).rest = cs := by
  have hn := spanName_append nameEscape cs
  unfold readIdentLike
  generalize spanName nameEscape cs = p at hn
  obtain ⟨name, rest⟩ := p
  dsimp only at hn ⊢
  split
  · next rest =>
    split
    · have := spanUrl_append rest
      simp_all
    · simp_all
  · simp_all

/-- The slice of a mark with its name and what is left are the text. -/
theorem readMarked_append (token : String → Token) (mark : Char) (cs : List Char) :
    (readMarked token mark cs).slice ++ (readMarked token mark cs).rest = mark :: cs := by
  simp [readMarked, spanName_append]

/-- A slice and the rest make up the text. -/
theorem readToken_append (c : Char) (cs : List Char) :
    (readToken c cs).slice ++ (readToken c cs).rest = c :: cs := by
  unfold readToken
  split
  · simp
  split
  · simp [spanString_append]
  split
  · exact readMarked_append _ _ _
  split
  · exact readMarked_append _ _ _
  split
  · exact readNumeric_append _
  split
  · exact readIdentLike_append _
  · simp

/-- A name that begins with an identifier character is not empty. -/
theorem spanName_ne_nil {escapable : Char → Bool} {c : Char} (cs : List Char) (h : isIdentChar c) :
    (spanName escapable (c :: cs)).1 ≠ [] := by
  simp [spanName_cons cs h]

/-- Where a number begins there are characters of a number. -/
theorem spanNumber_ne_nil {cs : List Char} (h : startsNumber cs) : (spanNumber cs).1 ≠ [] := by
  unfold startsNumber at h
  split at h
  · cases h
  next c cs =>
  by_cases hs : c = '+' ∨ c = '-'
  · simp [spanNumber, spanSign, hs]
  · simp only [hs, if_false] at h
    by_cases hd : c.isDigit
    · simp [spanNumber, spanSign, spanDigits, hs, hd]
    · have hp : c = '.' := by
        by_cases hp : c = '.'
        · exact hp
        · simp [hp, hd] at h
      subst hp
      cases cs with
      | nil => simp at h
      | cons d ds =>
        have hd : d.isDigit := by simpa using h
        have hdot : ('.').isDigit = false := by decide
        simp [spanNumber, spanSign, spanDigits, spanFraction, hd, hdot]

/-- A numeric token takes at least one character. -/
theorem readNumeric_ne_nil {cs : List Char} (h : startsNumber cs) : (readNumeric cs).slice ≠ [] := by
  have hn := spanNumber_ne_nil h
  unfold readNumeric
  dsimp only
  split
  · simp [hn]
  · split <;> simp [hn]

/-- A token that begins with an identifier character takes at least one character. -/
theorem readIdentLike_ne_nil {c : Char} (cs : List Char) (h : isIdentChar c) :
    (readIdentLike (c :: cs)).slice ≠ [] := by
  have hn : (spanName nameEscape (c :: cs)).1 ≠ [] := spanName_ne_nil cs h
  unfold readIdentLike
  dsimp only
  split
  · split <;> simp
  · exact hn

/-- Every token takes at least one character. -/
theorem readToken_slice_ne_nil (c : Char) (cs : List Char) : (readToken c cs).slice ≠ [] := by
  unfold readToken
  split
  · simp
  split
  · simp
  split
  · simp [readMarked]
  split
  · simp [readMarked]
  split
  · next h => exact readNumeric_ne_nil h
  split
  · next h =>
    apply readIdentLike_ne_nil
    rcases h with h | ⟨rfl, -⟩
    · exact isIdentChar_of_isIdentStart h
    · decide
  · simp

/-- What is left behind a token is shorter than the text it was read from. -/
theorem readToken_length (c : Char) (cs : List Char) :
    (readToken c cs).rest.length < (c :: cs).length := by
  have ha := congrArg List.length (readToken_append c cs)
  have hs := List.length_pos_iff.2 (readToken_slice_ne_nil c cs)
  simp only [List.length_append] at ha
  omega

/-! ## All tokens -/

/-- A token with the slice it was read from and the gap of comments before the slice. -/
structure Lexeme where
  gap : List Char
  slice : List Char
  token : Token

/-- The lexemes of a text. The last one, and no other, is the end of the input, with an empty slice. -/
def lexemes (cs : List Char) : List Lexeme :=
  match h : spanComments cs with
  | (gap, []) => [⟨gap, [], .eof⟩]
  | (gap, c :: rest) =>
    let reading := readToken c rest
    have : reading.rest.length < cs.length := by
      have hr := readToken_length c rest
      have hc := congrArg List.length (spanComments_append cs)
      simp only [h, List.length_append] at hc
      simp only [reading]
      omega
    ⟨gap, reading.slice, reading.token⟩ :: lexemes reading.rest
  termination_by cs.length
  decreasing_by exact this

/-- The part of the source that a lexeme covers. -/
def Lexeme.source (l : Lexeme) : List Char :=
  l.gap ++ l.slice

/-- The gaps and slices of the lexemes, in order, are the text. -/
theorem lexemes_tile (cs : List Char) : (lexemes cs).flatMap Lexeme.source = cs := by
  fun_induction lexemes cs with
  | case1 cs gap h =>
    have := spanComments_append cs
    simp_all [Lexeme.source]
  | case2 cs gap c rest h reading _ ih =>
    have hc := spanComments_append cs
    have hr := readToken_append c rest
    simp only [h] at hc
    simp [Lexeme.source, ih, ← hc, ← hr, reading]

/-- Places each token at the start of its slice; `p` is where the first gap starts. -/
def place (p : Position) : List Lexeme → List PlacedToken
  | [] => []
  | l :: ls =>
    let start := p.advanceOver l.gap
    ⟨l.token, start⟩ :: place (start.advanceOver l.slice) ls

/-- The tokens of a source text, each with its place; the end of the input comes last. -/
def tokenize (source : String) : List PlacedToken :=
  place .start (lexemes source.toList)

/-! ## Passes over a source -/

/-- A tokenizer at work: what is left of the source, where this begins, and the tokens collected so far. -/
structure Tokenizer where
  rest : List Char
  position : Position
  tokens : List PlacedToken

namespace Tokenizer

/-- A tokenizer in front of the whole source. -/
def new (source : String) : Tokenizer :=
  ⟨source.toList, .start, []⟩

/-- Collects the tokens of what is left, through the end of the input, and goes on behind them. -/
def pass (t : Tokenizer) : Tokenizer :=
  let ls := lexemes t.rest
  let covered := ls.flatMap Lexeme.source
  ⟨t.rest.drop covered.length, t.position.advanceOver covered, t.tokens ++ place t.position ls⟩

/-- Makes a number of passes one behind the other. -/
def passes : Nat → Tokenizer → Tokenizer
  | 0, t => t
  | n + 1, t => passes n t.pass

end Tokenizer

/-- The tokens that one tokenizer collects in `runs` passes over a source text. -/
def tokenizeRepeatedly (source : String) (runs : Nat) : List PlacedToken :=
  (Tokenizer.passes runs (.new source)).tokens

end ScssExtend.Lexer
