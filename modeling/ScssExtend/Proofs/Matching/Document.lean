import Mathlib.Data.Set.Basic
import Mathlib.Logic.Relation
import ScssExtend.Proofs.Selector.ComponentSets
import ScssExtend.Selector.Complex

/-!
# Documents and what selectors match in them

A `Document` is a finite ordered forest of elements that carry simple selectors. A `Reading` says for each
element which simple selectors count as carried by it; `Reading.Matches` is what a complex selector matches in a
reading, with the four combinators read as ancestor, parent, previous sibling and earlier sibling. A larger
reading matches more (`Reading.Matches.mono`), and a chain is matched part by part (`Reading.matches_append`,
`Reading.path_append`).
-/

namespace ScssExtend

/-- The compound is matched by an element with the simple selectors `a`; every element matches `*`. -/
def Compound.MatchedBy (c : Compound) (a : Set Simple) : Prop :=
  ∀ s ∈ c.components, s = .universal ∨ s ∈ a

/-- An element that carries more is matched as before. -/
lemma Compound.MatchedBy.mono {c : Compound} {a b : Set Simple} (hc : c.MatchedBy a) (h : a ⊆ b) :
    c.MatchedBy b :=
  fun s hs => (hc s hs).imp_right fun hsa => h hsa

/-- What matches a unified compound matches both sides of it. -/
lemma Compound.matchedBy_of_unify {c d u : Compound} (h : c.unify d = some u) {a : Set Simple}
    (hu : u.MatchedBy a) : c.MatchedBy a ∧ d.MatchedBy a := by
  have side {s : Simple} (hs : s ∈ c.components ∨ s ∈ d.components) : s = .universal ∨ s ∈ a := by
    by_cases e : s = .universal
    · exact .inl e
    · exact hu s (mem_of_unify h hs e)
  exact ⟨fun s hs => side (.inl hs), fun s hs => side (.inr hs)⟩

/-- A finite ordered forest. The elements are numbered so that parents come before their children and siblings
stand in their order; `carried` lists the simple selectors of an element. -/
structure Document where
  size : Nat
  parent? : Fin size → Option (Fin size)
  parent_lt : ∀ i p, parent? i = some p → p < i
  carried : Fin size → List Simple

namespace Document

/-- An element of the document. -/
abbrev Element (D : Document) : Type :=
  Fin D.size

variable {D : Document}

/-- `a` is an ancestor of `b`. -/
def Ancestor (a b : D.Element) : Prop :=
  Relation.TransGen (fun p i => D.parent? i = some p) a b

/-- The relation that a combinator asks of the element on its left to the element on its right. -/
def Related : Combinator → D.Element → D.Element → Prop
  | .descendant, a, b => Ancestor a b
  | .child, a, b => D.parent? b = some a
  | .nextSibling, a, b =>
    a < b ∧ D.parent? a = D.parent? b ∧ ∀ c, a < c → c < b → D.parent? c ≠ D.parent? b
  | .subsequentSibling, a, b => a < b ∧ D.parent? a = D.parent? b

/-- Which simple selectors count as carried by which element. -/
abbrev Reading (D : Document) : Type :=
  D.Element → Set Simple

/-- The reading in which elements carry what the document says. -/
def plain (D : Document) : D.Reading :=
  fun i => {s | s ∈ D.carried i}

namespace Reading

variable (R : D.Reading)

/-- The links lead from the element `a` to the element `i`. -/
def Path (a : D.Element) : List Link → D.Element → Prop
  | [], i => a = i
  | l :: ls, i => ∃ b, Related l.combinator a b ∧ l.compound.MatchedBy (R b) ∧ Path b ls i

/-- The element matches the chain. The combinator of the first link is disregarded. -/
def Matches (x : Complex) (i : D.Element) : Prop :=
  match x.links with
  | [] => False
  | l :: ls => ∃ a, l.compound.MatchedBy (R a) ∧ R.Path a ls i

variable {R}

/-- A path along two runs of links passes through an element between them. -/
lemma path_append {a i : D.Element} {ks ls : List Link} :
    R.Path a (ks ++ ls) i ↔ ∃ b, R.Path a ks b ∧ R.Path b ls i := by
  induction ks generalizing a with
  | nil => simp [Path]
  | cons k ks ih =>
    simp only [List.cons_append, Path, ih]
    constructor
    · rintro ⟨b, hab, hb, c, hbc, hci⟩
      exact ⟨c, ⟨b, hab, hb, hbc⟩, hci⟩
    · rintro ⟨c, ⟨b, hab, hb, hbc⟩, hci⟩
      exact ⟨b, hab, hb, c, hbc, hci⟩

/-- A chain in two parts is matched where a path leads on from what matches the first. -/
lemma matches_append {i : D.Element} {ks ls : List Link} (hk : ks ≠ []) :
    R.Matches ⟨ks ++ ls⟩ i ↔ ∃ b, R.Matches ⟨ks⟩ b ∧ R.Path b ls i := by
  cases ks with
  | nil => exact absurd rfl hk
  | cons k ks =>
    simp only [Matches, List.cons_append, path_append]
    constructor
    · rintro ⟨a, ha, b, hab, hbi⟩
      exact ⟨b, ⟨a, ha, hab⟩, hbi⟩
    · rintro ⟨b, ⟨a, ha, hab⟩, hbi⟩
      exact ⟨a, ha, b, hab, hbi⟩

/-- A chain of one link is matched where its compound is. -/
lemma matches_singleton {i : D.Element} {l : Link} :
    R.Matches ⟨[l]⟩ i ↔ l.compound.MatchedBy (R i) := by
  simp [Matches, Path]

/-- A chain with context is matched when the element matches the subject and stands in the subject's relation to
an element that matches the context. -/
lemma matches_concat {i : D.Element} {ks : List Link} {l : Link} (hk : ks ≠ []) :
    R.Matches ⟨ks ++ [l]⟩ i ↔
      ∃ a, R.Matches ⟨ks⟩ a ∧ Related l.combinator a i ∧ l.compound.MatchedBy (R i) := by
  rw [matches_append hk]
  simp [Path]

/-- What matches a chain matches its subject, and each chain whose subject it matches as well. -/
lemma Matches.replace {i : D.Element} {ks : List Link} {l : Link} (h : R.Matches ⟨ks ++ [l]⟩ i) :
    l.compound.MatchedBy (R i) ∧
      ∀ c : Compound, c.MatchedBy (R i) → R.Matches ⟨ks ++ [⟨l.combinator, c⟩]⟩ i := by
  by_cases hk : ks = []
  · subst hk
    exact ⟨matches_singleton.1 h, fun c hc => matches_singleton.2 hc⟩
  · obtain ⟨a, ha, hai, hi⟩ := (matches_concat hk).1 h
    exact ⟨hi, fun c hc => (matches_concat hk).2 ⟨a, ha, hai, hc⟩⟩

/-! ## Larger readings -/

variable {S : D.Reading}

/-- Paths stay when elements carry more. -/
lemma Path.mono (h : ∀ i, R i ⊆ S i) {a i : D.Element} {ls : List Link} (hp : R.Path a ls i) :
    S.Path a ls i := by
  induction ls generalizing a with
  | nil => exact hp
  | cons l ls ih =>
    obtain ⟨b, hab, hb, hbi⟩ := hp
    exact ⟨b, hab, hb.mono (h b), ih hbi⟩

/-- What matches a chain matches it still when elements carry more. -/
lemma Matches.mono (h : ∀ i, R i ⊆ S i) {x : Complex} {i : D.Element} (hm : R.Matches x i) :
    S.Matches x i := by
  obtain ⟨ls⟩ := x
  cases ls with
  | nil => exact hm
  | cons l ls =>
    obtain ⟨a, ha, hai⟩ := hm
    exact ⟨a, ha.mono (h a), hai.mono h⟩

end Reading

end Document

end ScssExtend
