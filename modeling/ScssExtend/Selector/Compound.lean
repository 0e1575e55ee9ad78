import ScssExtend.OrderedSet
import ScssExtend.Selector.Simple

/-!
# Compound selectors

A compound selector is a list of conditions on one element. The order of its components matters for its text
only: `canonical` lists the component set in increasing order, and `eqv`, the order and the hash of compounds
all look at the canonical form. The empty compound constrains nothing.
-/

namespace ScssExtend

/-- A list of simple selectors that one element has to satisfy together. -/
structure Compound where
  components : List Simple
  deriving DecidableEq

namespace Compound

/-- The compound that every element satisfies. -/
def empty : Compound := ⟨[]⟩

/-- True when there are no components. -/
def isEmpty (c : Compound) : Bool :=
  c.components.isEmpty

/-- True when every component of `c` is one of `d`. -/
def isSubsetOf (c d : Compound) : Bool :=
  c.components.all fun s => d.components.contains s

/-- True of a lone `&`. -/
def isLoneParent (c : Compound) : Bool :=
  c.components == [.parent]

/-- True when `&` is a component. -/
def mentionsParent (c : Compound) : Bool :=
  c.components.contains .parent

/-- True when a component is a placeholder. -/
def hasPlaceholder (c : Compound) : Bool :=
  c.components.any Simple.isPlaceholder

/-- The components, in increasing order and each once. -/
def canonical (c : Compound) : Compound :=
  ⟨(OrderedSet.ofList c.components).toList⟩

/-- Two compounds are equivalent when they have the same component set. -/
def eqv (c d : Compound) : Bool :=
  c.canonical == d.canonical

/-- Compounds are compared by their canonical components, the first difference deciding. -/
instance : Ord Compound where
  compare c d := compare c.canonical.components d.canonical.components

instance : Std.TransOrd Compound where
  eq_swap := Std.OrientedOrd.eq_swap (α := List Simple)
  isLE_trans := Std.TransOrd.isLE_trans (α := List Simple)

/-- Two compounds compare as equal exactly when they are equivalent. -/
theorem compare_eq_iff_eqv {c d : Compound} : compare c d = .eq ↔ c.eqv d := by
  simp only [compare, eqv, beq_iff_eq]
  constructor
  · intro h
    have := Std.LawfulEqOrd.eq_of_compare (α := List Simple) h
    rwa [Compound.mk.injEq]
  · intro h
    rw [h]
    exact Std.ReflOrd.compare_self (α := List Simple)

/-- Equivalent compounds have the same hash, that of their canonical components. -/
instance : Hashable Compound where
  hash c := hash c.canonical.components

/-- The canonical text of the components, in the order in which the compound lists them. -/
def text (c : Compound) : String :=
  String.join (c.components.map Simple.text)

end Compound

end ScssExtend
