import ScssExtend.Selector.Simple

/-!
# What can be wrong with the text of a selector

Each way in which text fails to be a selector list is a `SelectorFault`; `message` is its wording.
-/

namespace ScssExtend

/-- The places where the grammar of selectors asks for a name. -/
inductive NameKind where
  | className
  | id
  | placeholder
  | typeSelector
  | attributeName
  | attributeValue
  | pseudoClass
  deriving DecidableEq

/-- The wording of what a name is for. -/
def NameKind.text : NameKind → String
  | className => "class name"
  | id => "id"
  | placeholder => "placeholder name"
  | typeSelector => "type selector"
  | attributeName => "attribute name"
  | attributeValue => "attribute value"
  | pseudoClass => "pseudo-class name"

/-- A reason why text is not a selector list. -/
inductive SelectorFault where
  /-- A character that neither continues a selector nor separates two. -/
  | unexpected (char : Char)
  /-- No compound where one has to stand; `found` is what stands there, `none` at the end of the text. -/
  | selectorExpected (found : Option Char)
  | parentSuffix
  /-- `&`, `*` or a type behind another component than `&`. -/
  | mustComeFirst (simple : Simple)
  | nameExpected (kind : NameKind)
  /-- The first character of an attribute operator without the `=` behind it. -/
  | equalsExpected (operator : Char)
  | malformedAttribute
  | unterminatedString
  | bracketExpected
  | unbalancedParentheses
  /-- The reason that a grammar other than the usual one gives. -/
  | refused (reason : String)
  deriving DecidableEq

/-- The wording of a fault. -/
def SelectorFault.message : SelectorFault → String
  | unexpected char => "unexpected '" ++ String.singleton char ++ "'"
  | selectorExpected (some char) => "expected selector, found '" ++ String.singleton char ++ "'"
  | selectorExpected none => "expected selector"
  | parentSuffix => "suffixes on '&' are not supported"
  | mustComeFirst simple => "'" ++ simple.text ++ "' must come first in a compound selector"
  | nameExpected kind => "expected " ++ kind.text
  | equalsExpected operator => "expected '=' after '" ++ String.singleton operator ++ "'"
  | malformedAttribute => "malformed attribute selector"
  | unterminatedString => "unterminated string in attribute selector"
  | bracketExpected => "expected ']'"
  | unbalancedParentheses => "unbalanced parentheses"
  | refused reason => reason

end ScssExtend
