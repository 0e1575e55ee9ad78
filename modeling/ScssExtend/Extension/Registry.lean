import ScssExtend.Extension.Table
import ScssExtend.Stylesheet

/-!
# Collecting extensions

`Statement.findings` lists, in document order, the extensions that the `@extend` directives of a statement ask
for and the warnings about directives that cannot be followed. `Registry.collect` registers them: a `Registry`
is a table together with the warnings given while it was filled.
-/

namespace ScssExtend

/-- What a directive comes to. -/
inductive Finding where
  | extension (e : Extension)
  | warning (w : Warning)
  deriving DecidableEq

namespace Finding

/-- The warning about a directive at `position` that is outside of all style rules. -/
def outsideRules (position : Position) : Finding :=
  .warning ⟨"extend", position.text ++ ": @extend may only be used within style rules"⟩

/-- The warning about a target that is more than one compound. -/
def complexTarget (position : Position) (target : Complex) : Finding :=
  .warning ⟨"extend", position.text ++ ": can't extend complex selector '" ++ target.text ++
    "', only compound selectors"⟩

/-- What one target of a directive comes to, inside rules with the full selectors `extenders`. -/
def ofTarget (extenders : List Complex) (position : Position) (target : Complex) : List Finding :=
  match target.links with
  | [⟨.descendant, compound⟩] => extenders.map fun x => .extension ⟨x, compound, position⟩
  | _ => [complexTarget position target]

end Finding

/-- The full selectors of a rule: each of its selectors nested inside each selector of the enclosing rules, whose
order comes first. Outside of all rules, `none`, they are the rule's own. -/
def nestSelectors : Option (List Complex) → List Complex → List Complex
  | none, inner => inner
  | some outer, inner => outer.flatMap fun parent => inner.map (·.resolveParent parent)

mutual

/-- What the directives in a statement come to; `enclosing` are the full selectors of the enclosing rule. -/
def Statement.findings (enclosing : Option (List Complex)) : Statement → List Finding
  | .rule selector body _ =>
    Statement.bodyFindings (some (nestSelectors enclosing selector.selectors)) body
  | .media _ body _ | .atBlock _ _ body _ => Statement.bodyFindings enclosing body
  | .extend targets _ position =>
    match enclosing with
    | none => [.outsideRules position]
    | some extenders => targets.selectors.flatMap (Finding.ofTarget extenders position)
  | .keyframe .. | .atRule .. | .declaration .. => []

/-- What the directives in a block come to, in document order. -/
def Statement.bodyFindings (enclosing : Option (List Complex)) : List Statement → List Finding
  | [] => []
  | s :: ss => s.findings enclosing ++ Statement.bodyFindings enclosing ss

end

/-- A table of extensions and the warnings given so far. -/
structure Registry where
  table : Table
  log : WarningLog

namespace Registry

/-- Registers an extension, or gives the warning that a side of it is empty. -/
def register (r : Registry) (e : Extension) : Registry :=
  if e.IsProper then { r with table := r.table.insert e }
  else { r with log := r.log.warn e.emptyWarning }

/-- Takes note of a finding. -/
def add (r : Registry) : Finding → Registry
  | .extension e => r.register e
  | .warning w => { r with log := r.log.warn w }

/-- The extensions of a stylesheet, with the warnings that come after those of `log`. -/
def collect (log : WarningLog) (sheet : Stylesheet) : Registry :=
  (Statement.bodyFindings none sheet.statements).foldl add ⟨.empty, log⟩

end Registry

end ScssExtend
