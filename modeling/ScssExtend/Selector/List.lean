import ScssExtend.Position
import ScssExtend.Selector.Complex

/-!
# Selector lists

The comma-separated selectors of a rule or of an `@extend`, with the place where they were written.
-/

namespace ScssExtend

/-- Selectors in source order; an element matches the list when it matches one of them. -/
structure SelectorList where
  selectors : List Complex
  position : Position
  deriving DecidableEq

namespace SelectorList

/-- True when there is no selector in the list. -/
def isEmpty (l : SelectorList) : Bool :=
  l.selectors.isEmpty

/-- Puts a selector at the end of the list. -/
def push (l : SelectorList) (x : Complex) : SelectorList :=
  { l with selectors := l.selectors ++ [x] }

/-- The list followed by the selectors of another one; it keeps its own place. -/
def append (l m : SelectorList) : SelectorList :=
  { l with selectors := l.selectors ++ m.selectors }

/-- True when a selector of the list has a placeholder. -/
def hasPlaceholder (l : SelectorList) : Bool :=
  l.selectors.any Complex.hasPlaceholder

/-- Two lists are equivalent when they have the same place and agree selector by selector. -/
def eqv (l m : SelectorList) : Bool :=
  l.selectors.map Complex.canonical == m.selectors.map Complex.canonical && l.position == m.position

/-- A list as it is written. -/
def text (l : SelectorList) : String :=
  ", ".intercalate (l.selectors.map Complex.text)

end SelectorList

end ScssExtend
