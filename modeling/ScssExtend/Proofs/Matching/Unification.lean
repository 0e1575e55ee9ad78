import ScssExtend.Proofs.Matching.Document

/-!
# What a unified compound matches

`Traits` are what one element can carry: of types, ids and names of pseudo-elements it has one at most.
Unification computes what two compounds match together (`Compound.matchedBy_both_iff_unify`): an element matches
both of them exactly when they unify and it matches the outcome.
-/

namespace ScssExtend

/-- The simple selectors that an element carries. All its types are equal, all its ids are, and all its
pseudo-elements have the same name. -/
structure Traits where
  carried : Set Simple
  type_eq {m n : String} : .type m ∈ carried → .type n ∈ carried → m = n
  id_eq {m n : String} : .id m ∈ carried → .id n ∈ carried → m = n
  pseudoElement_eq {m n : String} {x y : Option String} :
    .pseudoElement m x ∈ carried → .pseudoElement n y ∈ carried → m = n

/-- An element with a type, an id, a class and a pseudo-element. -/
def Traits.quote : Traits where
  carried := {.type "q", .id "a", .className "b", .pseudoElement "before" none}
  type_eq hm hn := by simp_all
  id_eq hm hn := by simp_all
  pseudoElement_eq hm hn := by simp_all

namespace Compound

variable {c d : Compound}

/-- Compounds with different components of a kind that an element has once are not matched together. -/
lemma not_matchedBy_of_conflicts {a : Set Simple} {pick : Simple → Option String}
    (huniversal : pick .universal = none)
    (hpick : ∀ s ∈ a, ∀ t ∈ a, ∀ m n, pick s = some m → pick t = some n → m = n) (h : conflicts pick c d) :
    ¬(c.MatchedBy a ∧ d.MatchedBy a) := by
  rintro ⟨hc, hd⟩
  obtain ⟨s, hs, t, ht, m, n, hm, hn, hne⟩ := exists_of_conflicts h
  have carries {r : Simple} {name : String} (hr : r = .universal ∨ r ∈ a) (hname : pick r = some name) :
      r ∈ a := by
    refine hr.resolve_left ?_
    rintro rfl
    rw [huniversal] at hname
    cases hname
  exact hne (hpick s (carries (hc s hs) hm) t (carries (hd t ht) hn) m n hm hn)

/-- No element of the kind matches two compounds that do not unify. -/
lemma not_matchedBy_of_unify_eq_none (h : c.unify d = none) (e : Traits) :
    ¬(c.MatchedBy e.carried ∧ d.MatchedBy e.carried) := by
  obtain hc | hc | hc := conflicts_of_unify_eq_none h
  · refine not_matchedBy_of_conflicts rfl (fun s hs t ht m n hm hn => ?_) hc
    cases s <;> cases t <;> cases hm <;> cases hn
    exact e.type_eq hs ht
  · refine not_matchedBy_of_conflicts rfl (fun s hs t ht m n hm hn => ?_) hc
    cases s <;> cases t <;> cases hm <;> cases hn
    exact e.id_eq hs ht
  · refine not_matchedBy_of_conflicts rfl (fun s hs t ht m n hm hn => ?_) hc
    cases s <;> cases t <;> cases hm <;> cases hn
    exact e.pseudoElement_eq hs ht

/-- An element matches two compounds exactly when they unify and it matches the unified one. -/
theorem matchedBy_both_iff_unify (c d : Compound) (e : Traits) :
    c.MatchedBy e.carried ∧ d.MatchedBy e.carried ↔
      ∃ u, c.unify d = some u ∧ u.MatchedBy e.carried := by
  constructor
  · rintro ⟨hc, hd⟩
    cases hu : c.unify d with
    | none => exact absurd ⟨hc, hd⟩ (not_matchedBy_of_unify_eq_none hu e)
    | some u =>
      refine ⟨u, rfl, fun s hs => ?_⟩
      obtain h | h := mem_or_mem_of_unify hu hs
      · exact hc s h
      · exact hd s h
  · rintro ⟨u, hu, hm⟩
    exact matchedBy_of_unify hu hm

/-- The element `q#a.b::before` matches `q` and `#a.b`, and so it matches what these unify to. -/
theorem matchedBy_both_iff_unify_quote :
    (Compound.mk [.type "q"]).MatchedBy Traits.quote.carried ∧
      (Compound.mk [.id "a", .className "b"]).MatchedBy Traits.quote.carried ∧
      ∃ u, (Compound.mk [.type "q"]).unify ⟨[.id "a", .className "b"]⟩ = some u ∧ u.MatchedBy Traits.quote.carried := by
  have hc : (Compound.mk [.type "q"]).MatchedBy Traits.quote.carried := by simp [MatchedBy, Traits.quote]
  have hd : (Compound.mk [.id "a", .className "b"]).MatchedBy Traits.quote.carried := by simp [MatchedBy, Traits.quote]
  exact ⟨hc, hd, (matchedBy_both_iff_unify _ _ _).1 ⟨hc, hd⟩⟩

end Compound

end ScssExtend
