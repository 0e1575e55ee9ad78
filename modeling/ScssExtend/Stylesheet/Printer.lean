import ScssExtend.Stylesheet

/-!
# Printing stylesheets

`Stylesheet.print` writes a stylesheet as nested SCSS, two spaces for each level. `@extend` directives are left
out, and so are the rules without any selector, together with all that they hold.
-/

namespace ScssExtend

namespace Printer

/-- The white space before a line at a level. -/
def margin (level : Nat) : String :=
  String.ofList (List.replicate (2 * level) ' ')

/-- A line at a level. -/
def line (level : Nat) (content : String) : String :=
  margin level ++ content ++ "\n"

/-- A header with a block whose contents are printed already; an empty block stays on the header's line. -/
def block (level : Nat) (header contents : String) : String :=
  if contents.isEmpty then line level (header ++ " \x7b\x7d")
  else line level (header ++ " \x7b") ++ contents ++ line level "\x7d"

/-- The name of an at-rule and the text behind it. -/
def atHeader (name preludeText : String) : String :=
  if preludeText.isEmpty then "@" ++ name else "@" ++ name ++ " " ++ preludeText

/-- A declaration as it is written. -/
def declaration (name value : String) (important : Bool) : String :=
  name ++ ": " ++ value ++ (if important then " !important" else "") ++ ";"

end Printer

mutual

/-- A statement as nested SCSS at a level. -/
def Statement.print (level : Nat) : Statement → String
  | .rule selector body _ =>
    if selector.isEmpty then ""
    else Printer.block level selector.text (Statement.printBody (level + 1) body)
  | .media query body _ =>
    Printer.block level ("@media " ++ query) (Statement.printBody (level + 1) body)
  | .keyframe step body _ => Printer.block level step (Statement.printBody (level + 1) body)
  | .atRule name preludeText _ => Printer.line level (Printer.atHeader name preludeText ++ ";")
  | .atBlock name preludeText body _ =>
    Printer.block level (Printer.atHeader name preludeText) (Statement.printBody (level + 1) body)
  | .declaration name value important _ =>
    Printer.line level (Printer.declaration name value important)
  | .extend .. => ""

/-- The statements of a block as nested SCSS at a level. -/
def Statement.printBody (level : Nat) : List Statement → String
  | [] => ""
  | s :: ss => s.print level ++ Statement.printBody level ss

end

/-- A stylesheet as nested SCSS. -/
def Stylesheet.print (sheet : Stylesheet) : String :=
  Statement.printBody 0 sheet.statements

end ScssExtend
