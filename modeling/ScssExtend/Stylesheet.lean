import ScssExtend.Selector.List

/-!
# Stylesheets

A stylesheet is a list of statements, and a statement that has a block holds the statements of the block. Only
selectors have structure; queries, preludes, names and values are kept as text. `Stylesheet.ruleSelectors`
lists the selectors of the style rules in document order.
-/

namespace ScssExtend

/-- A statement of a stylesheet, with those in its block. -/
inductive Statement where
  | rule (selector : SelectorList) (body : List Statement) (position : Position)
  /-- A `@media` rule with the text of its query. -/
  | media (query : String) (body : List Statement) (position : Position)
  /-- A step of `@keyframes`, whose prelude is not a selector. -/
  | keyframe (step : String) (body : List Statement) (position : Position)
  | atRule (name preludeText : String) (position : Position)
  | atBlock (name preludeText : String) (body : List Statement) (position : Position)
  /-- A property and its value, the latter without the flag `!important`. -/
  | declaration (name value : String) (important : Bool) (position : Position)
  | extend (targets : SelectorList) (optional : Bool) (position : Position)

/-- The outermost statements in their order. -/
structure Stylesheet where
  statements : List Statement

/-- Where a statement starts. -/
def Statement.position : Statement → Position
  | rule _ _ position | media _ _ position | keyframe _ _ position | atRule _ _ position
  | atBlock _ _ _ position | declaration _ _ _ position | extend _ _ position => position

mutual

/-- The selectors of the style rules in a statement, the outer rule first; keyframe steps are left out. -/
def Statement.ruleSelectors : Statement → List SelectorList
  | .rule selector body _ => selector :: Statement.bodySelectors body
  | .media _ body _ | .atBlock _ _ body _ => Statement.bodySelectors body
  | .keyframe .. | .atRule .. | .declaration .. | .extend .. => []

/-- The selectors of the style rules in a block, in document order. -/
def Statement.bodySelectors : List Statement → List SelectorList
  | [] => []
  | s :: ss => s.ruleSelectors ++ Statement.bodySelectors ss

end

/-- The selectors of all style rules outside keyframe steps, in document order. -/
def Stylesheet.ruleSelectors (sheet : Stylesheet) : List SelectorList :=
  Statement.bodySelectors sheet.statements

end ScssExtend
