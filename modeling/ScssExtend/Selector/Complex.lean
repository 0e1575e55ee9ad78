import ScssExtend.Selector.Unify

/-!
# Complex selectors

A complex selector is a chain of links, outermost first; each link is a compound with the combinator that
relates it to the link before. `resolveParent` reads a selector as nested inside another one. As with
compounds, `eqv` disregards the order and repetition of components.
-/

namespace ScssExtend

/-- How an element is related to the one that the link before stands for. -/
inductive Combinator where
  | descendant
  | child
  | nextSibling
  | subsequentSibling
  deriving DecidableEq

namespace Combinator

/-- What is written between two compounds. -/
def text : Combinator → String
  | descendant => " "
  | child => " > "
  | nextSibling => " + "
  | subsequentSibling => " ~ "

/-- What is written before the first compound: nothing for `descendant`, which is implied there. -/
def leadingText : Combinator → String
  | descendant => ""
  | child => "> "
  | nextSibling => "+ "
  | subsequentSibling => "~ "

end Combinator

/-- A compound and the combinator in front of it. -/
structure Link where
  combinator : Combinator
  compound : Compound
  deriving DecidableEq

/-- The link with its compound in canonical form. -/
def Link.canonical (l : Link) : Link :=
  ⟨l.combinator, l.compound.canonical⟩

/-- The text of a link that follows another one. -/
def Link.text (l : Link) : String :=
  l.combinator.text ++ l.compound.text

/-- A chain of links: the outermost ancestor first, the subject last. -/
structure Complex where
  links : List Link
  deriving DecidableEq

namespace Complex

/-- The chain of a single compound. -/
def ofCompound (c : Compound) : Complex :=
  ⟨[⟨.descendant, c⟩]⟩

/-- The compounds of a chain, the outermost ancestor first. -/
def compounds (x : Complex) : List Compound :=
  x.links.map Link.compound

/-- The first compound, that of the outermost ancestor. -/
def head? (x : Complex) : Option Compound :=
  x.compounds.head?

/-- The last link, that of the subject. -/
def innermost? (x : Complex) : Option Link :=
  x.links.getLast?

/-- The chain without its last link, unless nothing is left then. -/
def context? (x : Complex) : Option Complex :=
  match x.links.dropLast with
  | [] => none
  | l :: ls => some ⟨l :: ls⟩

/-- True when a compound of the chain has a placeholder. -/
def hasPlaceholder (x : Complex) : Bool :=
  x.compounds.any Compound.hasPlaceholder

/-- The chain with every compound in canonical form. -/
def canonical (x : Complex) : Complex :=
  ⟨x.links.map Link.canonical⟩

/-- Two chains are equivalent when they agree link by link up to the equivalence of compounds. -/
def eqv (x y : Complex) : Bool :=
  x.canonical == y.canonical

/-- A leading link that is a lone `&`, and the links after it, if there are any. -/
def splitParent? (x : Complex) : Option (Link × Complex) :=
  match x.links with
  | first :: second :: rest =>
    if first.compound.isLoneParent then some (first, ⟨second :: rest⟩) else none
  | _ => none

/-- The chain with `combinator` on its first link. -/
def leadBy (combinator : Combinator) (x : Complex) : Complex :=
  match x.links with
  | [] => x
  | first :: rest => ⟨{ first with combinator } :: rest⟩

/-- The parent's links in the place of a link that mentions `&`. They are led by that link's combinator, and
its other components go to the parent's last compound. -/
def substituteParent (parent : Complex) (l : Link) : List Link :=
  let led := (parent.leadBy l.combinator).links
  match led.getLast? with
  | none => []
  | some last =>
    let further := l.compound.components.filter (· != .parent)
    led.dropLast ++ [{ last with compound := ⟨arrange (last.compound.components ++ further)⟩ }]

/-- The selector read as nested inside `parent`: every `&` stands for `parent`, and without any `&` the
selector describes descendants of `parent`. -/
def resolveParent (x parent : Complex) : Complex :=
  if x.compounds.any Compound.mentionsParent then
    ⟨x.links.flatMap fun l =>
      if l.compound.mentionsParent then parent.substituteParent l else [l]⟩
  else ⟨parent.links ++ x.links⟩

/-- A chain as it is written. -/
def text (x : Complex) : String :=
  match x.links with
  | [] => ""
  | first :: rest =>
    first.combinator.leadingText ++ first.compound.text ++ String.join (rest.map Link.text)

end Complex

end ScssExtend
