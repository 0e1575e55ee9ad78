import ScssExtend.Position

/-!
# Tokens

The tokens of a stylesheet, following CSS Syntax Level 3. Numbers keep the text they were written with.
`Token.text` writes a token back as source text; white space becomes a single space.
-/

namespace ScssExtend

/-- A token of a stylesheet. -/
inductive Token where
  | ident (name : String)
  /-- An identifier with an opening parenthesis right behind it. -/
  | function (name : String)
  /-- A name behind an at sign, kept without the sign. -/
  | atKeyword (name : String)
  /-- A name behind a number sign, kept without the sign. -/
  | hash (name : String)
  /-- The characters that a quoted string stands for, and the quote it was written with. -/
  | string (value : String) (quote : Char)
  | url (contents : String)
  | number (digits : String)
  | percentage (digits : String)
  | dimension (digits unit : String)
  | delim (char : Char)
  | whitespace
  | colon
  | semicolon
  | comma
  | leftBracket
  | rightBracket
  | leftParen
  | rightParen
  | leftBrace
  | rightBrace
  | eof
  deriving DecidableEq

/-- A token and the position of its first character. -/
structure PlacedToken where
  token : Token
  position : Position
  deriving DecidableEq

namespace Token

/-- A string's characters with a backslash before each backslash and each quote. -/
def escape (quote : Char) : List Char → List Char
  | [] => []
  | c :: cs => if c = '\\' ∨ c = quote then '\\' :: c :: escape quote cs else c :: escape quote cs

/-- A token as it is displayed. -/
def text : Token → String
  | ident name => name
  | function name => name ++ "("
  | atKeyword name => "@" ++ name
  | hash name => "#" ++ name
  | string value quote => String.ofList (quote :: (escape quote value.toList ++ [quote]))
  | url contents => "url(" ++ contents ++ ")"
  | number digits => digits
  | percentage digits => digits ++ "%"
  | dimension digits unit => digits ++ unit
  | delim char => String.singleton char
  | whitespace => " "
  | colon => ":"
  | semicolon => ";"
  | comma => ","
  | leftBracket => "["
  | rightBracket => "]"
  | leftParen => "("
  | rightParen => ")"
  | leftBrace => "\x7b"
  | rightBrace => "\x7d"
  | eof => ""

/-- Every token but white space and the end of the input is significant. -/
def isSignificant : Token → Bool
  | whitespace | eof => false
  | _ => true

/-- The texts of the tokens, one after the other. -/
def concatText (tokens : List Token) : String :=
  String.join (tokens.map text)

end Token

end ScssExtend
