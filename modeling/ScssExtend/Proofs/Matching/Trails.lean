import Mathlib.Data.Fin.Basic
import ScssExtend.Proofs.Matching.Document

/-!
# Relations across several links

A combinator absorbs another one when its relation goes on holding behind the other's
(`Document.Related.absorb`), and so it holds across every chain of links that it absorbs
(`Document.Reading.Path.related`). Nothing else holds across all chains: `Document.trail` is a document that
follows a chain of combinators step by step, and on it the relation of a combinator ends at the first step that
the combinator does not absorb (`Document.not_related_trail`).
-/

namespace ScssExtend

namespace Combinator

/-- True of the combinators that relate siblings. -/
def isSibling : Combinator → Bool
  | nextSibling | subsequentSibling => true
  | descendant | child => false

/-- True when whatever is related by `k` to something that is related by `j` to an element is itself related by
`j` to the element. -/
def absorbs (j k : Combinator) : Bool :=
  match j with
  | descendant => true
  | child | subsequentSibling => k.isSibling
  | nextSibling => false

end Combinator

namespace Document

variable {D : Document} {a b c : D.Element} {j k : Combinator}

/-! ## Absorption -/

/-- A combinator of siblings relates an element to a later one with the same parent. -/
lemma Related.sibling (hk : k.isSibling) (h : Related k a b) : a < b ∧ D.parent? a = D.parent? b := by
  cases k with
  | descendant => cases hk
  | child => cases hk
  | nextSibling => exact ⟨h.1, h.2.1⟩
  | subsequentSibling => exact h

/-- The other combinators relate an element to one inside of it. -/
lemma Related.child_or_descendant (hk : k.isSibling = false) (h : Related k a b) : Ancestor a b := by
  cases k with
  | descendant => exact h
  | child => exact .single h
  | nextSibling => cases hk
  | subsequentSibling => cases hk

/-- Siblings have the same ancestors. -/
lemma Ancestor.sibling (h : Ancestor a b) (hp : D.parent? b = D.parent? c) : Ancestor a c := by
  obtain ⟨p, hap, hpb⟩ := Relation.TransGen.tail'_iff.1 h
  exact Relation.TransGen.tail' hap (hp ▸ hpb)

/-- A combinator relates across a link that it absorbs. -/
lemma Related.absorb (h : j.absorbs k) (hab : Related j a b) (hbc : Related k b c) : Related j a c := by
  cases j with
  | descendant =>
    cases hk : k.isSibling with
    | true => exact Ancestor.sibling hab (hbc.sibling hk).2
    | false => exact Relation.TransGen.trans hab (hbc.child_or_descendant hk)
  | child => exact (hbc.sibling h).2.symm.trans hab
  | nextSibling => cases h
  | subsequentSibling =>
    obtain ⟨hlt, hp⟩ := hbc.sibling h
    exact ⟨Fin.lt_trans hab.1 hlt, hab.2.trans hp⟩

/-- The relation of a combinator holds across the links that it absorbs. -/
lemma Reading.Path.related {R : D.Reading} {ls : List Link} (h : ∀ l ∈ ls, j.absorbs l.combinator)
    (hab : Related j a b) (hp : R.Path b ls c) : Related j a c := by
  induction ls generalizing b with
  | nil => exact hp ▸ hab
  | cons l ls ih =>
    obtain ⟨d, hbd, -, hdc⟩ := hp
    refine ih (fun m hm => h m (List.mem_cons_of_mem _ hm)) ?_ hdc
    exact hab.absorb (h l List.mem_cons_self) hbd

/-! ## Trails -/

/-- The parent of an element, when every element is placed by the one before it: as its sibling, where `ks` has a
combinator of siblings, and as its child otherwise. The combinator of the first element is disregarded. -/
def trailParent? (ks : List Combinator) : Nat → Option Nat
  | 0 => none
  | n + 1 => if ks[n + 1]?.any Combinator.isSibling then trailParent? ks n else some n

/-- How deep an element is that is placed so. -/
def trailDepth (ks : List Combinator) : Nat → Nat
  | 0 => 0
  | n + 1 => if ks[n + 1]?.any Combinator.isSibling then trailDepth ks n else trailDepth ks n + 1

/-- A class of its own for each number. -/
def nthClass (n : Nat) : Simple :=
  .className (String.ofList (List.replicate n 'a'))

/-- Different numbers have different classes. -/
lemma nthClass_injective {m n : Nat} (h : nthClass m = nthClass n) : m = n := by
  have hlength := congrArg List.length (String.ofList_injective (Simple.className.inj h))
  simpa using hlength

variable {ks : List Combinator} {m n p : Nat}

/-- A parent stands in front of its children. -/
lemma trailParent?_lt (h : trailParent? ks n = some p) : p < n := by
  induction n with
  | zero => cases h
  | succ n ih =>
    rw [trailParent?] at h
    split at h
    · exact (ih h).trans (Nat.lt_succ_self n)
    · cases h
      exact Nat.lt_succ_self _

/-- The document whose elements are placed one after the other as the combinators say, each with a class of its
own. -/
def trail (ks : List Combinator) : Document where
  size := ks.length
  parent? i := (trailParent? ks i).pmap Fin.mk fun _ h => (trailParent?_lt h).trans i.2
  parent_lt i p h := by
    obtain ⟨q, -, hq, rfl⟩ := Option.pmap_eq_some_iff.1 h
    exact trailParent?_lt hq
  carried i := [nthClass i]

/-- The parents in a trail are those that the combinators give. -/
lemma parent?_trail (i : (trail ks).Element) : ((trail ks).parent? i).map Fin.val = trailParent? ks i := by
  have hval {o : Option Nat} (h : ∀ p, o = some p → p < ks.length) : (o.pmap Fin.mk h).map Fin.val = o := by
    cases o <;> rfl
  exact hval _

/-- An element is one deeper than its parent. -/
lemma trailDepth_eq (ks : List Combinator) (n : Nat) :
    trailDepth ks n = ((trailParent? ks n).map fun p => trailDepth ks p + 1).getD 0 := by
  induction n with
  | zero => rfl
  | succ n ih =>
    rw [trailDepth, trailParent?]
    split
    · exact ih
    · rfl

/-- Elements with the same parent are equally deep. -/
lemma trailDepth_congr (h : trailParent? ks m = trailParent? ks n) : trailDepth ks m = trailDepth ks n := by
  rw [trailDepth_eq, h, ← trailDepth_eq]

/-- No later element is less deep. -/
lemma trailDepth_mono (h : m ≤ n) : trailDepth ks m ≤ trailDepth ks n := by
  induction h with
  | refl => exact Nat.le_refl _
  | step _ ih =>
    refine ih.trans ?_
    rw [trailDepth]
    split
    · exact Nat.le_refl _
    · exact Nat.le_succ _

/-- Elements of a trail have the same parent when the combinators say so. -/
lemma parent?_trail_eq {a b : (trail ks).Element} :
    (trail ks).parent? a = (trail ks).parent? b ↔ trailParent? ks a = trailParent? ks b := by
  rw [← parent?_trail, ← parent?_trail, (Option.map_injective Fin.val_injective).eq_iff]

/-- An element of a trail has another one as its parent when the combinators say so. -/
lemma parent?_trail_eq_some {a b : (trail ks).Element} :
    (trail ks).parent? b = some a ↔ trailParent? ks b = some a.val := by
  rw [← parent?_trail, ← Option.map_some, (Option.map_injective Fin.val_injective).eq_iff]

/-- Every element is placed as its combinator says. -/
lemma related_trail {a b : (trail ks).Element} (hab : b.val = a.val + 1) (hk : ks[a.val + 1]? = some k) :
    Related k a b := by
  have hparent : trailParent? ks b = if k.isSibling then trailParent? ks a else some a.val := by
    rw [hab, trailParent?, hk, Option.any_some]
  have hlt : a < b := by
    rw [Fin.lt_def, hab]
    exact Nat.lt_succ_self _
  cases k with
  | descendant => exact .single (parent?_trail_eq_some.2 hparent)
  | child => exact parent?_trail_eq_some.2 hparent
  | nextSibling =>
    refine ⟨hlt, parent?_trail_eq.2 hparent.symm, fun c hac hcb => ?_⟩
    rw [Fin.lt_def] at hac hcb
    omega
  | subsequentSibling => exact ⟨hlt, parent?_trail_eq.2 hparent.symm⟩

/-- Behind a step that is no step to a sibling all elements are deeper. -/
lemma trailDepth_lt (hm : ks[m + 1]? = some k) (hk : k.isSibling = false) (hpm : p ≤ m) (hmn : m < n) :
    trailDepth ks p < trailDepth ks n := by
  have hstep : trailDepth ks (m + 1) = trailDepth ks m + 1 := by
    rw [trailDepth, hm, Option.any_some, hk]
    rfl
  calc trailDepth ks p
    _ ≤ trailDepth ks m := trailDepth_mono hpm
    _ < trailDepth ks (m + 1) := hstep ▸ Nat.lt_succ_self _
    _ ≤ trailDepth ks n := trailDepth_mono hmn

/-- The relation of a combinator does not hold across a step that the combinator does not absorb. -/
lemma not_related_trail {a b : (trail ks).Element} (hj : ks[a.val + 1]? = some j) (ham : a.val < m)
    (hmb : m < b.val) (hk : ks[m + 1]? = some k) (h : j.absorbs k = false) : ¬Related j a b := by
  have hnext : trailParent? ks (a.val + 1) = if j.isSibling then trailParent? ks a else some a.val := by
    rw [trailParent?, hj, Option.any_some]
  intro hr
  cases j with
  | descendant => cases h
  | child =>
    -- the next element would be as deep as `b`
    have hparent : trailParent? ks (a.val + 1) = trailParent? ks b :=
      hnext.trans (parent?_trail_eq_some.1 hr).symm
    exact (trailDepth_lt hk h ham hmb).ne (trailDepth_congr hparent)
  | nextSibling =>
    -- the next element is a sibling in between
    let c : (trail ks).Element := ⟨a.val + 1, (Nat.lt_of_le_of_lt ham hmb).trans b.2⟩
    refine hr.2.2 c (Nat.lt_succ_self a.val) (Nat.lt_of_le_of_lt ham hmb) ?_
    exact (parent?_trail_eq.2 hnext).trans hr.2.1
  | subsequentSibling =>
    have hparent : trailParent? ks (a.val + 1) = trailParent? ks b :=
      hnext.trans (parent?_trail_eq.1 hr.2)
    exact (trailDepth_lt hk h ham hmb).ne (trailDepth_congr hparent)

/-! ## The chain along a trail -/

/-- The links with the given combinators that ask for the elements of a trail from the `n`-th on. -/
def trailLinks (n : Nat) : List Combinator → List Link
  | [] => []
  | k :: ks => ⟨k, ⟨[nthClass n]⟩⟩ :: trailLinks (n + 1) ks

/-- The links of two runs of combinators stand one behind the other, and the numbers go on. -/
lemma trailLinks_append {us vs : List Combinator} :
    trailLinks n (us ++ vs) = trailLinks n us ++ trailLinks (n + us.length) vs := by
  induction us generalizing n with
  | nil => rfl
  | cons k us ih =>
    rw [List.cons_append, trailLinks, trailLinks, ih, List.length_cons, List.cons_append]
    congr 3
    omega

/-- The links have the given combinators. -/
lemma map_combinator_trailLinks : (trailLinks n ks).map Link.combinator = ks := by
  induction ks generalizing n with
  | nil => rfl
  | cons k ks ih => rw [trailLinks, List.map_cons, ih]

/-- The class of a number is carried by the element with that number only. -/
lemma matchedBy_nthClass {a : (trail ks).Element} :
    Compound.MatchedBy ⟨[nthClass n]⟩ ((trail ks).plain a) ↔ a.val = n := by
  constructor
  · intro h
    rcases h _ (List.mem_singleton_self _) with h | h
    · cases h
    · exact (nthClass_injective (List.mem_singleton.1 h)).symm
  · rintro rfl s hs
    exact .inr hs

/-- The links behind an element lead to the last one. -/
lemma path_trail {a b : (trail ks).Element} (hb : b.val + 1 = ks.length) :
    (trail ks).plain.Path a (trailLinks (a.val + 1) (ks.drop (a.val + 1))) b := by
  generalize hus : ks.drop (a.val + 1) = us
  induction us generalizing a with
  | nil =>
    have hlength := List.drop_eq_nil_iff.1 hus
    have ha : a.val < ks.length := a.2
    exact Fin.ext (by omega)
  | cons k us ih =>
    have hk : ks[a.val + 1]? = some k := by rw [← List.head?_drop, hus, List.head?_cons]
    have hus' : ks.drop (a.val + 1 + 1) = us := by rw [← List.tail_drop, hus, List.tail_cons]
    let c : (trail ks).Element := ⟨a.val + 1, (List.getElem?_eq_some_iff.1 hk).1⟩
    exact ⟨c, related_trail rfl hk, matchedBy_nthClass.2 rfl, ih (a := c) hus'⟩

/-- The chain along a trail matches its last element. -/
lemma matches_trail {b : (trail ks).Element} (hb : b.val + 1 = ks.length) :
    (trail ks).plain.Matches ⟨trailLinks 0 ks⟩ b := by
  cases ks with
  | nil => cases hb
  | cons k ks => exact ⟨⟨0, Nat.zero_lt_succ _⟩, matchedBy_nthClass.2 rfl, path_trail hb⟩

/-- Nothing but the element that the last link asks for matches. -/
lemma val_of_matches_trail {us : List Combinator} {a : (trail ks).Element}
    (h : (trail ks).plain.Matches ⟨trailLinks 0 (us ++ [k])⟩ a) : a.val = us.length := by
  rw [trailLinks_append, Nat.zero_add] at h
  exact matchedBy_nthClass.1 h.replace.1

/-- When a combinator does not absorb all that follow, then what matches the whole chain need not stand in the
combinator's relation to something that matches the chain up to there. -/
lemma exists_matches_trail {us vs : List Combinator} (hus : us ≠ []) (h : ∃ k ∈ vs, j.absorbs k = false) :
    ∃ (D : Document) (i : D.Element), D.plain.Matches ⟨trailLinks 0 (us ++ j :: vs)⟩ i ∧
      ∀ c, ¬D.plain.Matches ⟨trailLinks 0 us ++ [⟨j, c⟩]⟩ i := by
  obtain ⟨k, hk, hjk⟩ := h
  obtain ⟨m, hm, rfl⟩ := List.getElem_of_mem hk
  obtain rfl | ⟨us, u, rfl⟩ := List.eq_nil_or_concat' us
  · exact absurd rfl hus
  let ks := us ++ [u] ++ j :: vs
  have hlength : ks.length = us.length + 1 + (vs.length + 1) := by
    rw [List.length_append, List.length_append, List.length_singleton, List.length_cons]
  have hat (n : Nat) : ks[us.length + 1 + n]? = (j :: vs)[n]? := by
    rw [List.getElem?_append_right (by simp)]
    simp
  have hlast : us.length + 1 + vs.length < ks.length := hlength ▸ Nat.lt_succ_self _
  let i : (trail ks).Element := ⟨us.length + 1 + vs.length, hlast⟩
  refine ⟨trail ks, i, matches_trail hlength.symm, fun c hc => ?_⟩
  have hne : trailLinks 0 (us ++ [u]) ≠ [] := by simp [trailLinks_append, trailLinks]
  obtain ⟨a, ha, hai, -⟩ := (Reading.matches_concat hne).1 hc
  have hval := val_of_matches_trail ha
  have hbehind : us.length + 1 + m < i.val := Nat.add_lt_add_left hm _
  refine not_related_trail (m := us.length + 1 + m) ?_ (by omega) hbehind ?_ hjk hai
  · rw [hval]
    exact hat 0
  · rw [Nat.add_assoc, hat, List.getElem?_cons_succ, List.getElem?_eq_getElem hm]

end Document

end ScssExtend
