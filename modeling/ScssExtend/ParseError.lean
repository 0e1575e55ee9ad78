import ScssExtend.Position
import ScssExtend.Selector.Fault
import ScssExtend.Token

/-!
# Parse errors

A `ParseError` is the cause for which a stylesheet or a selector is not accepted, with the place where it was
found. `message` is its wording.
-/

namespace ScssExtend

/-- What stands where the grammar of stylesheets does not allow it. -/
inductive Unexpected where
  | token (token : Token)
  | blockAfterExtend
  /-- A token in the place of the `{` that opens a block. -/
  | insteadOfBlock (token : Token)
  /-- Something other than an at-keyword in the place of one. -/
  | insteadOfAtKeyword
  deriving DecidableEq

/-- A token as it is named in an error. -/
def Token.description : Token → String
  | .eof => "end of input"
  | token => "'" ++ token.text ++ "'"

/-- The wording of what was not expected. -/
def Unexpected.text : Unexpected → String
  | token t | insteadOfBlock t => t.description
  | blockAfterExtend => "'\x7b' after @extend"
  | insteadOfAtKeyword => "at-rule"

/-- What was still to come when the input ended. -/
inductive Expected where
  | closingBrace
  | openingBrace
  | colon
  deriving DecidableEq

/-- The wording of what was expected. -/
def Expected.text : Expected → String
  | closingBrace => "'\x7d'"
  | openingBrace => "'\x7b'"
  | colon => "':'"

/-- Why a text is not a stylesheet or not a selector list, and where this shows. -/
inductive ParseError where
  | unexpectedToken (found : Unexpected) (position : Position)
  | unexpectedEnd (expected : Expected) (position : Position)
  /-- Selector text, here as it was given to the grammar, with a fault in it. -/
  | invalidSelector (text : String) (fault : SelectorFault) (position : Position)
  deriving DecidableEq

namespace ParseError

/-- Where an error is reported. -/
def position : ParseError → Position
  | unexpectedToken _ position | unexpectedEnd _ position | invalidSelector _ _ position => position

/-- The wording of an error without its position. -/
def reason : ParseError → String
  | unexpectedToken found _ => "unexpected " ++ found.text
  | unexpectedEnd expected _ => "unexpected end of input, expected " ++ expected.text
  | invalidSelector text fault _ => "invalid selector \"" ++ text ++ "\": " ++ fault.message

/-- The wording of an error behind its position. -/
def message (e : ParseError) : String :=
  e.position.text ++ ": " ++ e.reason

end ParseError

end ScssExtend
