import ScssExtend.Extension.Chaining
import ScssExtend.Extension.Splice
import ScssExtend.ParseError

/-!
# Resolving one rule

`Table.resolveSelectors` lists what a rule's selectors become: each of them followed by what the table adds for
it, without repetitions and without placeholders. `Table.resolveRule` compares the outcome with the rule's list
and, when they differ, has the new list's text read by a grammar.
-/

namespace ScssExtend

/-- A way to read the text of a selector list that stands at a given place. -/
abbrev SelectorGrammar : Type :=
  String → Position → Except ParseError SelectorList

/-- Why a rule cannot be resolved. -/
inductive ExtendError where
  | emptySelector (position : Position)
  /-- The text of the resolved list is not accepted by the grammar. -/
  | notReadable (text : String) (position : Position) (source : ParseError)
  deriving DecidableEq

namespace ExtendError

/-- Where an error is reported. -/
def position : ExtendError → Position
  | emptySelector position | notReadable _ position _ => position

/-- The wording of an error, without that of the grammar's error behind it. -/
def message : ExtendError → String
  | emptySelector position => position.text ++ ": style rule has no selector"
  | notReadable text position _ =>
    position.text ++ ": rewritten selector \"" ++ text ++ "\" does not re-parse"

/-- The grammar's error behind this one, if there is one. -/
def source? : ExtendError → Option ParseError
  | emptySelector _ => none
  | notReadable _ _ source => some source

end ExtendError

namespace Complex

/-- A leading link that is set aside while the rest is extended, if there is one, and the rest. -/
def setAside (x : Complex) : Option Link × Complex :=
  match x.splitParent? with
  | some (reference, rest) => (some reference, rest)
  | none => (none, x)

/-- The selectors without those that are equivalent to an earlier one. -/
def distinct (xs : List Complex) : List Complex :=
  xs.foldl (fun sofar x => if sofar.any (·.eqv x) then sofar else sofar ++ [x]) []

end Complex

namespace Table

/-- What the table adds for a chain that consists of `before` and of the links given: each link that is
extended gives way to the selectors implied in its place, and the links behind it stay. -/
def extendLinks (t : Table) (before : List Link) : List Link → List Complex
  | [] => []
  | link :: behind =>
    let implied :=
      if link.compound.isExtensible then
        (t.extendCompound .empty link.compound).flatMap fun x => Complex.splice ⟨before ++ [link]⟩ x
      else []
    implied.map (fun x => ⟨x.links ++ behind⟩) ++ t.extendLinks (before ++ [link]) behind

/-- What the table adds for a selector. A leading `&` is set aside and put back, and all that is added takes
over the combinator that led the rest. -/
def extendSelector (t : Table) (x : Complex) : List Complex :=
  let (reference, rest) := x.setAside
  let added := match rest.links with
    | [] => []
    | first :: _ => (t.extendLinks [] rest.links).map (·.leadBy first.combinator)
  match reference with
  | none => added
  | some link => added.map fun x => ⟨link :: x.links⟩

/-- The steps of extending a selector. -/
def extendSelectorEvents (t : Table) (x : Complex) : List Event :=
  t.extendComplexEvents .empty x.setAside.2

/-- What a list of selectors becomes: its own and the added ones, without repetitions and without placeholders. -/
def resolveSelectors (t : Table) (selectors : List Complex) : List Complex :=
  (Complex.distinct (selectors.flatMap fun x => x :: t.extendSelector x)).filter
    fun x => !x.hasPlaceholder

end Table

/-- What becomes of the list of a rule. -/
inductive RuleOutcome where
  | kept
  | replaced (after : SelectorList)
  | failed (error : ExtendError)
  deriving DecidableEq

namespace Table

/-- Resolves the list of the rule at `position`, and records the steps. A list of which nothing is left does not
go through the grammar. -/
def resolveRule (t : Table) (grammar : SelectorGrammar) (list : SelectorList) (position : Position) :
    RuleOutcome × List Event :=
  if list.isEmpty then (.failed (.emptySelector position), [])
  else
    let resolved : SelectorList := ⟨t.resolveSelectors list.selectors, list.position⟩
    let steps := list.selectors.flatMap t.extendSelectorEvents
    if resolved.eqv list then (.kept, steps)
    else if resolved.isEmpty then
      (.replaced resolved, steps ++ [.replaced position list resolved])
    else
      let asked := steps ++ [.consulted resolved.text list.position]
      match grammar resolved.text list.position with
      | .error source => (.failed (.notReadable resolved.text list.position source), asked)
      | .ok after => (.replaced after, asked ++ [.replaced position list after])

end Table

end ScssExtend
