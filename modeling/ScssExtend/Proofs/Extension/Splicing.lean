import ScssExtend.Proofs.Extension.Additions
import ScssExtend.Proofs.Matching.Trails

/-!
# What splices match

A splice puts a context in front of a whole chain: that of the extendee in front of the extender, and that of
the extender in front of the extendee with the extender's subject (`Complex.splice_eq`). So what matches a splice
matches the chain behind the context. Whether it also stands to the context as the chain of that context asks
depends on the combinators that come between: they have to be absorbed (`Complex.Absorbs`). When they are not
there are chains with these combinators and a document where the splice matches too much, so that
`Complex.splice_sound_iff_absorbs` is exact.
-/

namespace ScssExtend

namespace Complex

/-- Every element that matches `x` matches `y`, in every reading of every document. -/
def Entails (x y : Complex) : Prop :=
  ∀ (D : Document) (R : D.Reading) (i : D.Element), R.Matches x i → R.Matches y i

/-- The combinators of a chain, link by link. -/
def combinators (x : Complex) : List Combinator :=
  x.links.map Link.combinator

/-- The combinator of the last link. -/
def joiner (x : Complex) : Combinator :=
  x.combinators.getLast?.getD .descendant

/-- The compound of the last link. -/
def subject (x : Complex) : Compound :=
  x.compounds.getLast?.getD .empty

/-- The chain with the subject of `y` in the place of its own. -/
def withSubjectOf (x y : Complex) : Complex :=
  ⟨x.links.dropLast ++ [⟨x.joiner, y.subject⟩]⟩

/-- If `x` has a context then the combinator behind it absorbs those between the compounds of `y`. -/
def Absorbs (x y : Complex) : Prop :=
  x.combinators.dropLast = [] ∨ ∀ k ∈ y.combinators.tail, x.joiner.absorbs k

instance (x y : Complex) : Decidable (x.Absorbs y) :=
  inferInstanceAs (Decidable (_ ∨ _))

variable {x y z : Complex} {ks ls : List Link} {l : Link} {k : Combinator}

/-- Behind a context the combinator absorbs those of the other chain. -/
lemma Absorbs.behind (h : x.Absorbs y) (hx : x.links.dropLast ≠ []) :
    ∀ k ∈ y.combinators.tail, x.joiner.absorbs k := by
  refine h.resolve_left fun hnil => hx ?_
  rwa [combinators, ← List.map_dropLast, List.map_eq_nil_iff] at hnil

/-- The joiner is the combinator of the last link. -/
@[simp] lemma joiner_concat : joiner ⟨ls ++ [l]⟩ = l.combinator := by
  simp [joiner, combinators]

/-- The subject is the compound of the last link. -/
@[simp] lemma subject_concat : subject ⟨ls ++ [l]⟩ = l.compound := by
  simp [subject, compounds]

/-! ## Contexts in front of chains -/

/-- What a splice lists, when it lists anything. -/
lemma splice_eq (h : ¬x.eqv y) (hy : y.links ≠ []) : x.splice y =
    if x.links.dropLast = [] then [y]
    else joinedTo ⟨x.links.dropLast⟩ x.joiner y ::
      if y.links.dropLast = [] then []
      else [joinedTo ⟨y.links.dropLast⟩ y.joiner (x.withSubjectOf y)] := by
  obtain ⟨xs⟩ := x
  obtain ⟨ys⟩ := y
  obtain rfl | ⟨ls, l, rfl⟩ := List.eq_nil_or_concat' ys
  · exact absurd rfl hy
  obtain rfl | ⟨ks, k, rfl⟩ := List.eq_nil_or_concat' xs
  · simp [splice, if_neg h, context?, innermost?]
  rw [splice_concat h]
  simp only [List.dropLast_concat, joiner_concat, withSubjectOf, subject_concat]
  by_cases hk : ks = []
  · simp [hk]
  obtain ⟨m, ms, rfl⟩ := List.exists_cons_of_ne_nil hk
  simp [joinedTo, leadBy]

/-- The first selector of a splice has the context of the extender in front of the other chain. -/
lemma splice_getElem_zero (h : ¬x.eqv y) (hx : x.links.dropLast ≠ []) (hy : y.links ≠ []) :
    (x.splice y)[0]? = some (joinedTo ⟨x.links.dropLast⟩ x.joiner y) := by
  rw [splice_eq h hy, if_neg hx]
  rfl

/-- The second selector of a splice has the contexts the other way round, if the chain has one. -/
lemma splice_getElem_one (h : ¬x.eqv y) (hx : x.links.dropLast ≠ []) (hy : y.links.dropLast ≠ []) :
    (x.splice y)[1]? = some (joinedTo ⟨y.links.dropLast⟩ y.joiner (x.withSubjectOf y)) := by
  have hne : y.links ≠ [] := fun hnil => hy (by rw [hnil]; rfl)
  rw [splice_eq h hne, if_neg hx, if_neg hy]
  rfl

/-- What matches a chain with a context in front of it matches the chain, whose first element is related to one
that matches the context. -/
lemma matches_joinedTo {D : Document} {R : D.Reading} {i : D.Element} (hks : ks ≠ []) (hy : y.links ≠ [])
    (h : R.Matches (joinedTo ⟨ks⟩ k y) i) :
    R.Matches y i ∧ ∃ a b, R.Matches ⟨ks⟩ a ∧ Document.Related k a b ∧ R.Path b y.links.tail i := by
  obtain ⟨ys⟩ := y
  obtain ⟨m, ms, rfl⟩ := List.exists_cons_of_ne_nil hy
  obtain ⟨a, ha, b, hab, hb, hbi⟩ := (Document.Reading.matches_append hks).1 h
  exact ⟨⟨b, hb, hbi⟩, a, b, ha, hab, hbi⟩

/-- A context in front of a chain asks for more. -/
lemma joinedTo_entails (hks : ks ≠ []) (hy : y.links ≠ []) : (joinedTo ⟨ks⟩ k y).Entails y :=
  fun _ _ _ h => (matches_joinedTo hks hy h).1

/-- A chain matches nothing that its subject does not match. -/
lemma entails_subject (hy : y.links ≠ []) : y.Entails ⟨[⟨k, y.subject⟩]⟩ := by
  intro D R i h
  obtain ⟨ys⟩ := y
  obtain rfl | ⟨ls, l, rfl⟩ := List.eq_nil_or_concat' ys
  · exact absurd rfl hy
  · rw [subject_concat]
    exact Document.Reading.matches_singleton.2 h.replace.1

/-- When the combinator behind a context absorbs those of the chain, then the subject of the chain stands to the
context as the combinator says. -/
lemma joinedTo_entails_of_absorbs (hks : ks ≠ []) (hy : y.links ≠ [])
    (h : ∀ m ∈ y.combinators.tail, k.absorbs m) :
    (joinedTo ⟨ks⟩ k y).Entails ⟨ks ++ [⟨k, y.subject⟩]⟩ := by
  intro D R i hm
  obtain ⟨hi, a, b, ha, hab, hbi⟩ := matches_joinedTo hks hy hm
  have hrelated : Document.Related k a i := by
    refine hbi.related (fun l hl => h _ ?_) hab
    rw [combinators, ← List.map_tail]
    exact List.mem_map_of_mem hl
  have hsubject := entails_subject (k := k) hy D R i hi
  exact (Document.Reading.matches_concat hks).2
    ⟨a, ha, hrelated, Document.Reading.matches_singleton.1 hsubject⟩

/-! ## Both orders -/

/-- Another subject leaves the combinators as they are. -/
lemma combinators_withSubjectOf (hx : x.links ≠ []) : (x.withSubjectOf y).combinators = x.combinators := by
  obtain ⟨xs⟩ := x
  obtain rfl | ⟨ks, k, rfl⟩ := List.eq_nil_or_concat' xs
  · exact absurd rfl hx
  · simp [withSubjectOf, combinators]

/-- A subject replaced by an equal one leaves the chain as it is. -/
lemma withSubjectOf_eq_self (hx : x.links ≠ []) (h : y.subject = x.subject) : x.withSubjectOf y = x := by
  obtain ⟨xs⟩ := x
  obtain rfl | ⟨ks, k, rfl⟩ := List.eq_nil_or_concat' xs
  · exact absurd rfl hx
  · simp [withSubjectOf, h]

/-- A splice with an empty chain is empty. -/
lemma right_ne_nil_of_mem_splice (h : z ∈ x.splice y) : y.links ≠ [] := by
  obtain ⟨ls, l, rfl⟩ := exists_concat_of_mem_splice h
  exact List.concat_ne_nil l ls

/-- The first selector of a splice is the extender, behind the context of the extendee if there is one. -/
lemma splice_first (h : (x.splice y)[0]? = some z) : z.Entails y ∧
    (x.Absorbs y → z.Entails (x.withSubjectOf y)) := by
  have hmem := List.mem_of_getElem? h
  have hy := right_ne_nil_of_mem_splice hmem
  rw [splice_eq (not_eqv_of_mem_splice hmem) hy] at h
  split at h
  · next hx =>
    cases h
    refine ⟨fun _ _ _ h => h, fun _ => ?_⟩
    rw [withSubjectOf, hx]
    exact entails_subject hy
  · next hx =>
    cases h
    exact ⟨joinedTo_entails hx hy, fun habsorbs => joinedTo_entails_of_absorbs hx hy (habsorbs.behind hx)⟩

/-- The second selector of a splice is the extendee with the extender's subject, behind the context of the
extender. -/
lemma splice_second (h : (x.splice y)[1]? = some z) : z.Entails (x.withSubjectOf y) ∧
    (y.Absorbs x → z.Entails y) := by
  have hmem := List.mem_of_getElem? h
  have hy := right_ne_nil_of_mem_splice hmem
  rw [splice_eq (not_eqv_of_mem_splice hmem) hy] at h
  split_ifs at h with hx hl
  · cases h
  · cases h
  cases h
  have hw : (x.withSubjectOf y).links ≠ [] := by simp [withSubjectOf]
  refine ⟨joinedTo_entails hl hw, fun habsorbs => ?_⟩
  have hx' : x.links ≠ [] := fun hnil => hx (by rw [hnil]; rfl)
  have hall : ∀ m ∈ (x.withSubjectOf y).combinators.tail, y.joiner.absorbs m := by
    rw [combinators_withSubjectOf hx']
    exact habsorbs.behind hl
  have hentails := joinedTo_entails_of_absorbs hl hw hall
  have hself : (⟨y.links.dropLast ++ [⟨y.joiner, (x.withSubjectOf y).subject⟩]⟩ : Complex) = y :=
    withSubjectOf_eq_self hy (by simp [withSubjectOf])
  rwa [hself] at hentails

/-- A splice has at most two selectors. -/
lemma length_splice_le (x y : Complex) : (x.splice y).length ≤ 2 := by
  unfold splice
  split
  · exact Nat.zero_le _
  · split
    · exact Nat.zero_le _
    · dsimp only
      split <;> simp

/-- When each of the two chains absorbs the other one, then all of the splice is sound on both sides. -/
lemma entails_of_mem_splice (h : z ∈ x.splice y) (hx : x.Absorbs y) (hy : y.Absorbs x) :
    z.Entails y ∧ z.Entails (x.withSubjectOf y) := by
  obtain ⟨n, hn⟩ := List.getElem?_of_mem h
  have hlt : n < 2 := (List.getElem?_eq_some_iff.1 hn).1.trans_le (length_splice_le x y)
  obtain rfl | rfl : n = 0 ∨ n = 1 := by omega
  · exact (splice_first hn).imp_right fun hsound => hsound hx
  · exact (splice_second hn).symm.imp_left fun hsound => hsound hy

/-! ## Chains that match too much -/

section Trails

open Document

/-- A compound of one component is canonical. -/
lemma canonical_singleton (s : Simple) : Compound.canonical ⟨[s]⟩ = ⟨[s]⟩ :=
  rfl

/-- Chains that begin with different classes are not equivalent. -/
lemma canonical_ne {m n : Nat} {k j : Combinator} (h : m ≠ n) :
    canonical ⟨⟨k, ⟨[nthClass m]⟩⟩ :: ks⟩ ≠ canonical ⟨⟨j, ⟨[nthClass n]⟩⟩ :: ls⟩ := by
  intro heq
  simp only [canonical, List.map_cons, Link.canonical, canonical_singleton, Complex.mk.injEq, List.cons.injEq,
    Link.mk.injEq, Compound.mk.injEq] at heq
  exact h (nthClass_injective heq.1.2.1)

/-- When a combinator does not absorb all that come between, then there are chains with these combinators of
which the splice matches too much, whichever of the two is the extender. -/
lemma exists_splice_not_entails {us vs : List Combinator} {j m : Combinator} (hus : us ≠ [])
    (h : ∃ k ∈ vs, j.absorbs k = false) :
    ∃ x y z : Complex, x.combinators = us ++ [j] ∧ y.combinators = m :: vs ∧
      (x.splice y)[0]? = some z ∧ ¬z.Entails (x.withSubjectOf y) ∧
      (y.splice x)[1]? = some z ∧ ¬z.Entails x := by
  obtain ⟨D, i, hz, hnot⟩ := exists_matches_trail hus h
  let y : Complex := ⟨trailLinks us.length (m :: vs)⟩
  let x : Complex := ⟨trailLinks 0 us ++ [⟨j, y.subject⟩]⟩
  let z : Complex := joinedTo ⟨trailLinks 0 us⟩ j y
  have hy : y.links ≠ [] := List.cons_ne_nil _ _
  have hx : x.links ≠ [] := by simp [x]
  have hcontext : x.links.dropLast = trailLinks 0 us := List.dropLast_concat
  have hjoiner : x.joiner = j := joiner_concat
  have hsubject : x.subject = y.subject := subject_concat
  have hus' : trailLinks 0 us ≠ [] := by
    obtain ⟨u, us, rfl⟩ := List.exists_cons_of_ne_nil hus
    exact List.cons_ne_nil _ _
  have hvs : y.links.dropLast ≠ [] := by
    obtain ⟨v, vs, rfl⟩ := List.exists_cons_of_ne_nil (l := vs) (by rintro rfl; simp at h)
    exact List.cons_ne_nil _ _
  have hxy : x.canonical ≠ y.canonical := by
    obtain ⟨u, us, rfl⟩ := List.exists_cons_of_ne_nil hus
    exact canonical_ne (Nat.succ_ne_zero _).symm
  have hmatches : D.plain.Matches z i := by
    rw [trailLinks_append, Nat.zero_add] at hz
    exact hz
  have hnotx : ¬z.Entails x := fun hentails => hnot _ (hentails D _ i hmatches)
  have hfirst := splice_getElem_zero (fun heqv => hxy (eqv_iff.1 heqv)) (hcontext ▸ hus') hy
  have hsecond := splice_getElem_one (fun heqv => hxy (eqv_iff.1 heqv).symm) hvs (hcontext ▸ hus')
  rw [withSubjectOf_eq_self hy hsubject] at hsecond
  rw [hcontext, hjoiner] at hfirst hsecond
  refine ⟨x, y, z, ?_, map_combinator_trailLinks, hfirst, ?_, hsecond, hnotx⟩
  · rw [combinators, List.map_append, map_combinator_trailLinks]
    rfl
  · rwa [withSubjectOf_eq_self hx hsubject.symm]

end Trails

/-- Whether a chain absorbs another one is a matter of the combinators. -/
lemma Absorbs.congr {x' y' : Complex} (h : x.Absorbs y) (hx : x'.combinators = x.combinators)
    (hy : y'.combinators = y.combinators) : x'.Absorbs y' := by
  rwa [Absorbs, joiner, hx, hy]

/-- A chain that is not absorbed has a link whose combinator is not. -/
lemma exists_of_not_absorbs (h : ¬x.Absorbs y) : ∃ us vs m, us ≠ [] ∧ x.combinators = us ++ [x.joiner] ∧
    y.combinators = m :: vs ∧ ∃ k ∈ vs, x.joiner.absorbs k = false := by
  obtain ⟨hus, hall⟩ := not_or.1 h
  simp only [not_forall, Bool.not_eq_true] at hall
  obtain ⟨k, hk, hfalse⟩ := hall
  have hx : x.combinators ≠ [] := by
    intro hnil
    rw [hnil] at hus
    exact hus rfl
  have hy : y.combinators ≠ [] := by
    intro hnil
    rw [hnil] at hk
    cases hk
  obtain ⟨m, vs, hvs⟩ := List.exists_cons_of_ne_nil hy
  rw [hvs] at hk
  refine ⟨x.combinators.dropLast, vs, m, hus, ?_, hvs, k, hk, hfalse⟩
  rw [joiner, List.getLast?_eq_some_getLast hx, Option.getD_some, List.dropLast_concat_getLast]

/-- The first selector of a splice matches nothing that the extender does not match, and the second one nothing
that the extendee with the extender's subject does not match. The other way round each of them is sound as well,
for all chains with the given combinators, exactly when the combinator behind the context absorbs what comes
between. -/
theorem splice_sound_iff_absorbs (x y : Complex) :
    (x.splice y).length ≤ 2 ∧
    (∀ z, (x.splice y)[0]? = some z → z.Entails y) ∧
    (∀ z, (x.splice y)[1]? = some z → z.Entails (x.withSubjectOf y)) ∧
    (x.Absorbs y ↔ ∀ x' y' z : Complex, x'.combinators = x.combinators → y'.combinators = y.combinators →
      (x'.splice y')[0]? = some z → z.Entails (x'.withSubjectOf y')) ∧
    (y.Absorbs x ↔ ∀ x' y' z : Complex, x'.combinators = x.combinators → y'.combinators = y.combinators →
      (x'.splice y')[1]? = some z → z.Entails y') := by
  refine ⟨?_, fun z hz => (splice_first hz).1, fun z hz => (splice_second hz).1, ?_, ?_⟩
  · exact length_splice_le x y
  · constructor
    · exact fun h x' y' z hx hy hz => (splice_first hz).2 (h.congr hx hy)
    · intro h
      by_contra habsorbs
      obtain ⟨us, vs, m, hus, hx, hy, hk⟩ := exists_of_not_absorbs habsorbs
      obtain ⟨x', y', z, hx', hy', hz, hnot, -⟩ := exists_splice_not_entails (m := m) hus hk
      exact hnot (h x' y' z (hx'.trans hx.symm) (hy'.trans hy.symm) hz)
  · constructor
    · exact fun h x' y' z hx hy hz => (splice_second hz).2 (h.congr hy hx)
    · intro h
      by_contra habsorbs
      obtain ⟨us, vs, m, hus, hy, hx, hk⟩ := exists_of_not_absorbs habsorbs
      obtain ⟨y', x', z, hy', hx', -, -, hz, hnot⟩ := exists_splice_not_entails (m := m) hus hk
      exact hnot (h x' y' z (hx'.trans hx.symm) (hy'.trans hy.symm) hz)

/-- `.x > .y` -/
def childOfX : Complex :=
  (ofClasses [["x"]]).joinedTo .child (ofClasses [["y"]])

/-- `.a + .b` -/
def behindA : Complex :=
  (ofClasses [["a"]]).joinedTo .nextSibling (ofClasses [["b"]])

/-- `.x > .y` and `.a + .b` are spliced into `.x > .a + .b`, which is sound on both sides, and into
`.a + .x > .b`, which need not stand to `.a` as `+` says. -/
theorem splice_sound_iff_absorbs_sibling :
    childOfX.Absorbs behindA ∧ ¬behindA.Absorbs childOfX ∧
      childOfX.splice behindA = [(ofClasses [["x"]]).joinedTo .child behindA,
        (ofClasses [["a"]]).joinedTo .nextSibling (childOfX.withSubjectOf behindA)] ∧
      ((ofClasses [["x"]]).joinedTo .child behindA).Entails behindA ∧
      ((ofClasses [["x"]]).joinedTo .child behindA).Entails (childOfX.withSubjectOf behindA) ∧
      ((ofClasses [["a"]]).joinedTo .nextSibling (childOfX.withSubjectOf behindA)).Entails
        (childOfX.withSubjectOf behindA) := by
  have hsplice : childOfX.splice behindA = [(ofClasses [["x"]]).joinedTo .child behindA,
      (ofClasses [["a"]]).joinedTo .nextSibling (childOfX.withSubjectOf behindA)] := by decide
  have habsorbs : childOfX.Absorbs behindA := by decide
  obtain ⟨-, hfirst, hsecond, hiff, -⟩ := splice_sound_iff_absorbs childOfX behindA
  refine ⟨habsorbs, by decide, hsplice, hfirst _ (by rw [hsplice]; rfl), ?_, hsecond _ (by rw [hsplice]; rfl)⟩
  exact hiff.1 habsorbs _ _ _ rfl rfl (by rw [hsplice]; rfl)

/-- Three elements, each the parent of the next one, with the classes `x`, `a` and `b`. -/
def nestedElements : Document where
  size := 3
  parent?
    | 0 => none
    | 1 => some 0
    | 2 => some 1
  parent_lt := by decide
  carried
    | 0 => [.className "x"]
    | 1 => [.className "a"]
    | 2 => [.className "b"]

/-- The extender `.a .b` gives `.x > .a .b` in the place of the subject of `.x > .y`, which matches an element that
does not match `.x > .b`. -/
theorem exists_splice_unsound :
    ¬childOfX.eqv (ofClasses [["a"], ["b"]]) ∧
      ∃ z ∈ childOfX.splice (ofClasses [["a"], ["b"]]), ∃ i : nestedElements.Element,
        nestedElements.plain.Matches z i ∧
          ¬nestedElements.plain.Matches (childOfX.withSubjectOf (ofClasses [["a"], ["b"]])) i := by
  have carries {i : nestedElements.Element} {name : String} (h : .className name ∈ nestedElements.carried i) :
      Compound.MatchedBy ⟨[.className name]⟩ (nestedElements.plain i) := by
    intro s hs
    rw [List.mem_singleton.1 hs]
    exact .inr h
  let x : nestedElements.Element := ⟨0, by decide⟩
  let a : nestedElements.Element := ⟨1, by decide⟩
  let b : nestedElements.Element := ⟨2, by decide⟩
  refine ⟨by decide, (ofClasses [["x"]]).joinedTo .child (ofClasses [["a"], ["b"]]), by decide, b, ?_, ?_⟩
  · exact ⟨x, carries (by decide), a, rfl, carries (by decide), b, .single rfl, carries (by decide), rfl⟩
  · rintro ⟨p, hp, _, hpb, -, rfl⟩
    -- the parent of the element carries `.a` only
    obtain rfl : a = p := Option.some.inj hpb
    have hlacks : .className "x" ∉ nestedElements.carried a := by decide
    exact (hp _ (List.mem_singleton_self _)).elim (by decide) hlacks

end Complex

end ScssExtend
