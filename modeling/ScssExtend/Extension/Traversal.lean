import ScssExtend.Extension.RuleOutcome
import ScssExtend.Stylesheet

/-!
# Resolving a stylesheet

`Table.walk` resolves the style rules of a stylesheet in document order, a rule before the rules inside it, and
stops at the first rule that fails. Keyframe steps are not entered.
-/

namespace ScssExtend

/-- How far a walk came: the tree as it is then, the failure that ended the walk early, and the steps. -/
structure Walk (α : Type) where
  tree : α
  failure : Option ExtendError
  events : List Event

namespace Walk

variable {α β : Type}

/-- A walk that changes, asks and reports nothing. -/
def past (tree : α) : Walk α :=
  ⟨tree, none, []⟩

/-- The same walk seen as part of a larger tree. -/
def map (f : α → β) (w : Walk α) : Walk β :=
  ⟨f w.tree, w.failure, w.events⟩

end Walk

namespace Table

mutual

/-- Resolves the rules of a statement, the outer one first, up to the first failure. -/
def walkStatement (t : Table) (grammar : SelectorGrammar) : Statement → Walk Statement
  | .rule selector body position =>
    let (outcome, events) := t.resolveRule grammar selector position
    match outcome with
    | .failed error => ⟨.rule selector body position, some error, events⟩
    | .kept =>
      let w := t.walkBody grammar body
      ⟨.rule selector w.tree position, w.failure, events ++ w.events⟩
    | .replaced after =>
      let w := t.walkBody grammar body
      ⟨.rule after w.tree position, w.failure, events ++ w.events⟩
  | .media query body position =>
    (t.walkBody grammar body).map fun body => .media query body position
  | .atBlock name preludeText body position =>
    (t.walkBody grammar body).map fun body => .atBlock name preludeText body position
  | .keyframe step body position => .past (.keyframe step body position)
  | .atRule name preludeText position => .past (.atRule name preludeText position)
  | .declaration name value important position => .past (.declaration name value important position)
  | .extend targets optional position => .past (.extend targets optional position)

/-- Resolves the rules of a block, up to the first failure. -/
def walkBody (t : Table) (grammar : SelectorGrammar) : List Statement → Walk (List Statement)
  | [] => .past []
  | s :: ss =>
    let w := t.walkStatement grammar s
    match w.failure with
    | some error => ⟨w.tree :: ss, some error, w.events⟩
    | none =>
      let v := t.walkBody grammar ss
      ⟨w.tree :: v.tree, v.failure, w.events ++ v.events⟩

end

/-- Resolves the rules of a stylesheet. -/
def walk (t : Table) (grammar : SelectorGrammar) (sheet : Stylesheet) : Walk Stylesheet :=
  (t.walkBody grammar sheet.statements).map Stylesheet.mk

end Table

end ScssExtend
