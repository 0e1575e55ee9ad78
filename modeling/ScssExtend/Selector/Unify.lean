import ScssExtend.Selector.Compound

/-!
# Difference and unification of compounds

`minus` takes components away. `unify` builds the smallest compound that demands what two compounds demand,
and fails when they demand different types, ids or pseudo-elements. `arrange` puts components where their
text has to stand: `&` first, then the type or `*`, and pseudo-elements last.
-/

namespace ScssExtend

namespace Simple

/-- Where a component has to stand in the text of a compound: `&` at 0, types and `*` at 1, pseudo-elements at
3, anything else at 2. -/
def placement : Simple → Nat
  | parent => 0
  | type _ | universal => 1
  | pseudoElement .. => 3
  | _ => 2

/-- The name of a type. -/
def typeName? : Simple → Option String
  | type name => some name
  | _ => none

/-- The name of an id. -/
def idName? : Simple → Option String
  | id name => some name
  | _ => none

/-- The name of a pseudo-element, whatever its argument. -/
def pseudoElementName? : Simple → Option String
  | pseudoElement name _ => some name
  | _ => none

end Simple

/-- Components sorted by their placement; components of one placement keep their order. -/
def arrange (components : List Simple) : List Simple :=
  [0, 1, 2, 3].flatMap fun place => components.filter fun s => s.placement == place

namespace Compound

/-- The components of `c` that `d` lacks. -/
def minus (c d : Compound) : Compound :=
  ⟨c.components.filter fun s => !d.components.contains s⟩

/-- True when both compounds have a component of the kind that `pick` names and the first ones differ. -/
def conflicts (pick : Simple → Option String) (c d : Compound) : Bool :=
  match c.components.findSome? pick, d.components.findSome? pick with
  | some x, some y => x != y
  | _, _ => false

/-- `components` followed by each further component that is not there yet. -/
def addMissing (components further : List Simple) : List Simple :=
  further.foldl (fun sofar s => if sofar.contains s then sofar else sofar ++ [s]) components

/-- The components without `*` when there is a type among them. -/
def dropUniversal (components : List Simple) : List Simple :=
  if components.any (·.typeName?.isSome) then components.filter (· != .universal) else components

/-- The smallest compound that demands what both demand, or `none` when they exclude each other. An empty
compound leaves the other one as it is. -/
def unify (c d : Compound) : Option Compound :=
  if c.isEmpty then some d
  else if d.isEmpty then some c
  else if conflicts Simple.typeName? c d || conflicts Simple.idName? c d
      || conflicts Simple.pseudoElementName? c d then none
  else some ⟨arrange (dropUniversal (addMissing c.components d.components))⟩

end Compound

end ScssExtend
