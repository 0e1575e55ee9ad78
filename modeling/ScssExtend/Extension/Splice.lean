import ScssExtend.Selector.Complex

/-!
# Placing an extender in a context

`Complex.splice` lists the selectors that come of putting an extender in the place of an extendee's subject.
When both have ancestors nothing tells whose are the outer ones, so both orders are listed.
-/

namespace ScssExtend.Complex

/-- The links of `x` and then those of `y`, joined by a combinator. -/
def joinedTo (x : Complex) (combinator : Combinator) (y : Complex) : Complex :=
  ⟨x.links ++ (y.leadBy combinator).links⟩

/-- The selectors that `extender` implies in the place of the subject of `extendee`; a selector implies nothing
in its own place. -/
def splice (extendee extender : Complex) : List Complex :=
  if extendee.eqv extender then []
  else
    match extender.innermost? with
    | none => []
    | some subject =>
      let joiner := (extendee.innermost?.map Link.combinator).getD .descendant
      match extendee.context?, extender.context? with
      | some outer, some inner =>
        [outer.joinedTo joiner extender,
          ⟨(inner.joinedTo subject.combinator outer).links ++ [⟨joiner, subject.compound⟩]⟩]
      | some outer, none => [outer.joinedTo joiner extender]
      | none, _ => [extender]

end ScssExtend.Complex
