import ScssExtend.Extension.Registry
import ScssExtend.Extension.Traversal
import ScssExtend.Selector.Grammar

/-!
# Resolving with the extensions of the stylesheet itself

`Stylesheet.resolve` collects the extensions of a stylesheet and applies them to its rules, reading resolved
selectors with the usual grammar.
-/

namespace ScssExtend

/-- The extensions that were collected from a stylesheet, and the walk that applied them to it. -/
structure Resolution where
  registry : Registry
  walk : Walk Stylesheet

/-- Collects the extensions of a stylesheet and resolves its rules. -/
def Stylesheet.resolve (sheet : Stylesheet) : Resolution :=
  let registry := Registry.collect .empty sheet
  ⟨registry, registry.table.walk SelectorList.parse sheet⟩

end ScssExtend
