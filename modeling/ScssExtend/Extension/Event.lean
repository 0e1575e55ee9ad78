import ScssExtend.Extension.Table

/-!
# Events of resolution

What resolution reports while it works. The events are a record only: nothing is decided by them.
-/

namespace ScssExtend

/-- The targets that were applied on the way to a compound. -/
abbrev SeenSet : Type := OrderedSet Compound

/-- A step of resolution. -/
inductive Event where
  /-- The extensions of a compound are looked for, `seen` being the targets applied before. -/
  | extending (compound : Compound) (seen : SeenSet)
  /-- A compound contains the target of an extension, which is going to be applied. -/
  | matched (compound : Compound) (extension : Extension)
  /-- The extender's subject was unified with what the target leaves of the compound. -/
  | unified (extension : Extension) (remainder : Compound) (result : Option Compound)
  /-- The grammar was asked to read the text of a resolved list, which stands at `position`. -/
  | consulted (text : String) (position : Position)
  /-- The list of the rule at `position` was replaced. -/
  | replaced (position : Position) (before after : SelectorList)
  deriving DecidableEq

end ScssExtend
