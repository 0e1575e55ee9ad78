import ScssExtend.Extension.Table
import ScssExtend.Json
import ScssExtend.Stylesheet

/-!
# Syntax trees as JSON

The JSON form of positions, selectors, statements and extensions. A component without contents is a string, any
other component an object with one field named for its kind; a statement tells its kind in its first field.
-/

namespace ScssExtend

/-- The JSON form of a position. -/
def Position.toJson (p : Position) : Json :=
  .object [("line", .number p.line.toNat), ("column", .number p.column.toNat)]

/-- The JSON form of an attribute operator: its name. -/
def AttributeOperator.toJson : AttributeOperator → Json
  | equals => .string "Equals"
  | includes => .string "Includes"
  | dashMatch => .string "DashMatch"
  | prefixMatch => .string "PrefixMatch"
  | suffixMatch => .string "SuffixMatch"
  | substringMatch => .string "SubstringMatch"

namespace Simple

/-- The JSON form of the operator and value of an attribute selector. -/
def matcherToJson (m : AttributeMatch) : Json :=
  .array [m.operator.toJson, .string m.value]

/-- The JSON form of a component with a name and an argument. -/
def pseudoToJson (kind name : String) (argument : Option String) : Json :=
  .object [(kind, .object [("name", .string name), ("argument", .ofOption .string argument)])]

/-- The JSON form of a component. -/
def toJson : Simple → Json
  | parent => .string "Parent"
  | universal => .string "Universal"
  | type name => .object [("Type", .string name)]
  | id name => .object [("Id", .string name)]
  | className name => .object [("Class", .string name)]
  | placeholder name => .object [("Placeholder", .string name)]
  | attr name matcher =>
    .object [("Attribute",
      .object [("name", .string name), ("matcher", .ofOption matcherToJson matcher)])]
  | pseudoClass name argument => pseudoToJson "PseudoClass" name argument
  | pseudoElement name argument => pseudoToJson "PseudoElement" name argument

end Simple

/-- The JSON form of a compound. -/
def Compound.toJson (c : Compound) : Json :=
  .object [("simple_selectors", .array (c.components.map Simple.toJson))]

/-- The JSON form of a combinator: its name. -/
def Combinator.toJson : Combinator → Json
  | descendant => .string "Descendant"
  | child => .string "Child"
  | nextSibling => .string "NextSibling"
  | subsequentSibling => .string "SubsequentSibling"

/-- The JSON form of a link. -/
def Link.toJson (l : Link) : Json :=
  .object [("combinator", l.combinator.toJson), ("compound", l.compound.toJson)]

/-- The JSON form of a chain. -/
def Complex.toJson (x : Complex) : Json :=
  .object [("links", .array (x.links.map Link.toJson))]

/-- The JSON form of a selector list with its position. -/
def SelectorList.toJson (l : SelectorList) : Json :=
  .object [("selectors", .array (l.selectors.map Complex.toJson)), ("position", l.position.toJson)]

/-- The JSON form of a block whose statements are encoded already. -/
def Statement.blockToJson (statements : List Json) : Json :=
  .object [("statements", .array statements)]

mutual

/-- The JSON form of a statement. -/
def Statement.toJson : Statement → Json
  | .rule selector body position =>
    .object [("kind", .string "rule"), ("selector", selector.toJson),
      ("block", Statement.blockToJson (Statement.bodyToJson body)), ("position", position.toJson)]
  | .media query body position =>
    .object [("kind", .string "media"), ("query", .string query),
      ("block", Statement.blockToJson (Statement.bodyToJson body)), ("position", position.toJson)]
  | .keyframe step body position =>
    .object [("kind", .string "keyframe"), ("selector", .string step),
      ("block", Statement.blockToJson (Statement.bodyToJson body)), ("position", position.toJson)]
  | .atRule name preludeText position =>
    .object [("kind", .string "at_rule"), ("name", .string name), ("prelude", .string preludeText),
      ("block", .null), ("position", position.toJson)]
  | .atBlock name preludeText body position =>
    .object [("kind", .string "at_rule"), ("name", .string name), ("prelude", .string preludeText),
      ("block", Statement.blockToJson (Statement.bodyToJson body)), ("position", position.toJson)]
  | .declaration name value important position =>
    .object [("kind", .string "declaration"), ("name", .string name), ("value", .string value),
      ("important", .bool important), ("position", position.toJson)]
  | .extend targets optional position =>
    .object [("kind", .string "extend"), ("selector", targets.toJson),
      ("optional", .bool optional), ("position", position.toJson)]

/-- The JSON forms of the statements of a block. -/
def Statement.bodyToJson : List Statement → List Json
  | [] => []
  | s :: ss => s.toJson :: Statement.bodyToJson ss

end

/-- The JSON form of a stylesheet: its outermost block. -/
def Stylesheet.toJson (sheet : Stylesheet) : Json :=
  .object [("block", Statement.blockToJson (Statement.bodyToJson sheet.statements))]

/-- The JSON form of an extension. -/
def Extension.toJson (e : Extension) : Json :=
  .object [("extender", e.extender.toJson), ("target", e.target.toJson),
    ("position", e.position.toJson)]

/-- The JSON form of a table: its extensions in order. -/
def Table.toJson (t : Table) : Json :=
  .array (t.entries.map Extension.toJson)

end ScssExtend
