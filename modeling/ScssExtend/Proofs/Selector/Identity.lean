import ScssExtend.Proofs.Selector.ComponentSets

/-!
# Identity of compounds

Equality, order and hash of compounds look at the canonical components, which are the components sorted, without
equal neighbours (`Compound.canonical_components_eq`). Inclusion and difference ask for membership alone. They agree:
compounds are equivalent when each is a subset of the other (`Compound.eqv_iff_isSubsetOf`); the comparison puts all
compounds in a line, in which the equivalent ones share a place; and equivalent compounds feed every hasher the same,
while one that keeps what it is fed tells all others apart (`Compound.eqv_iff_feed_eq`). So an ordered set of
compounds contains those that have the components of one that it is made of (`Compound.contains_ofList_iff`), and a
difference takes nothing away but what is shared (`Compound.minus_append_shared_perm`).
-/

namespace ScssExtend

/-- What a hasher does to its state when it is fed the length of a list, and when it is fed a component. -/
structure Hasher (σ : Type) where
  length : σ → Nat → σ
  component : σ → Simple → σ

namespace Hasher

/-- The hasher that keeps the components it is fed, the last one first. -/
def recorder : Hasher (List Simple) where
  length state _ := state
  component state s := s :: state

/-- The hasher that `hash` uses. -/
def mixer : Hasher UInt64 where
  length state _ := state
  component state s := mixHash state (hash s)

end Hasher

namespace Compound

variable {c d : Compound}

/-! ## Equality -/

/-- The canonical components are the components, sorted in any way, without equal neighbours. -/
lemma canonical_components_eq {ss : List Simple} (hperm : ss.Perm c.components)
    (hsorted : ss.Pairwise fun s t => (compare s t).isLE) :
    c.canonical.components = ss.destutter (· ≠ ·) :=
  OrderedSet.toList_ofList_eq_destutter hperm hsorted

/-- Compounds are equivalent when each is included in the other. -/
lemma eqv_iff_isSubsetOf : c.eqv d ↔ c.isSubsetOf d ∧ d.isSubsetOf c := by
  rw [eqv_iff_componentSet_eq, isSubsetOf_iff_componentSet_subset, isSubsetOf_iff_componentSet_subset]
  exact Finset.Subset.antisymm_iff

/-- The order of the components makes no difference. -/
lemma eqv_of_perm (h : c.components.Perm d.components) : c.eqv d :=
  eqv_iff.2 fun _ => h.mem_iff

/-! ## Order -/

/-- Of two compounds one is not behind the other. -/
lemma isLE_or_isLE (c d : Compound) : (compare c d).isLE ∨ (compare d c).isLE := by
  rw [Std.OrientedOrd.eq_swap (a := d)]
  cases compare c d <;> decide

/-- Compounds neither of which is behind the other are equivalent. -/
lemma eqv_of_isLE (hcd : (compare c d).isLE) (hdc : (compare d c).isLE) : c.eqv d :=
  compare_eq_iff_eqv.1 (Std.OrientedCmp.isLE_antisymm hcd hdc)

/-- An ordered set of compounds contains those that have the components of one that it is made of. -/
lemma contains_ofList_iff {cs : List Compound} :
    (OrderedSet.ofList cs).contains c ↔ ∃ d ∈ cs, c.isSubsetOf d ∧ d.isSubsetOf c := by
  simp only [OrderedSet.contains_ofList, compare_eq_iff_eqv, eqv_iff_isSubsetOf]

/-! ## Hash -/

/-- The state in which a hasher is left by a compound, which feeds it its canonical components behind their number. -/
def feed {σ : Type} (c : Compound) (hasher : Hasher σ) (state : σ) : σ :=
  c.canonical.components.foldl hasher.component (hasher.length state c.canonical.components.length)

/-- The hash is what the mixer is left with. -/
lemma hash_eq_feed (c : Compound) : hash c = c.feed .mixer 7 :=
  rfl

/-- A recorder is left with the canonical components, the last one first. -/
lemma feed_recorder (c : Compound) : c.feed .recorder [] = c.canonical.components.reverse := by
  simp only [feed, Hasher.recorder, List.foldl_flip_cons_eq_append', List.append_nil]

/-- Equivalent compounds feed every hasher the same, and others do not. -/
lemma eqv_iff_feed_eq : c.eqv d ↔
    ∀ (σ : Type) (hasher : Hasher σ) (state : σ), c.feed hasher state = d.feed hasher state := by
  constructor
  · intro h σ hasher state
    have hcanonical : c.canonical = d.canonical := beq_iff_eq.1 h
    rw [feed, feed, hcanonical]
  · intro h
    have hrecord := h (List Simple) .recorder []
    rw [feed_recorder, feed_recorder] at hrecord
    exact beq_iff_eq.2 (congrArg Compound.mk (List.reverse_injective hrecord))

/-! ## Difference -/

/-- The components of `c` that `d` has, too. -/
def shared (c d : Compound) : Compound :=
  ⟨c.components.filter fun s => d.components.contains s⟩

/-- The components of both compounds. -/
def union (c d : Compound) : Compound :=
  ⟨c.components ++ d.components⟩

/-- A difference and what is shared have all components, each as often as before. -/
lemma minus_append_shared_perm (c d : Compound) :
    ((c.minus d).components ++ (c.shared d).components).Perm c.components :=
  List.perm_append_comm.trans (List.filter_append_perm (fun s => d.components.contains s) c.components)

/-! ## Identity -/

/-- Compounds are equivalent exactly when each is a subset of the other, when they compare as equal, and when they
feed every hasher the same. The comparison is a total order up to equivalence. The difference of two compounds and
what they share make up the first one. -/
theorem set_identity (c d e : Compound) :
    (c.eqv d ↔ c.isSubsetOf d ∧ d.isSubsetOf c) ∧
    (c.eqv d ↔ compare c d = .eq) ∧
    compare d c = (compare c d).swap ∧
    ((compare c d).isLE ∨ (compare d c).isLE) ∧
    ((compare c d).isLE → (compare d c).isLE → c.eqv d) ∧
    ((compare c d).isLE → (compare d e).isLE → (compare c e).isLE) ∧
    (c.eqv d ↔ ∀ (σ : Type) (hasher : Hasher σ) (state : σ), c.feed hasher state = d.feed hasher state) ∧
    (c.eqv d → hash c = hash d) ∧
    ((c.minus d).union (c.shared d)).eqv c := by
  have hhash : c.eqv d → hash c = hash d := by
    intro h
    rw [hash_eq_feed, hash_eq_feed]
    exact eqv_iff_feed_eq.1 h UInt64 .mixer 7
  exact ⟨eqv_iff_isSubsetOf, compare_eq_iff_eqv.symm, Std.OrientedOrd.eq_swap, isLE_or_isLE c d, eqv_of_isLE,
    Std.TransOrd.isLE_trans, eqv_iff_feed_eq, hhash, eqv_of_perm (minus_append_shared_perm c d)⟩

/-- Compounds with repeated components, in different orders. -/
theorem set_identity_repeated : ∃ c d e : Compound, c.text = ".b.a" ∧ d.text = ".a.b.a" ∧ e.text = ".a:hover" ∧
    c.eqv d ∧ compare c d = .eq ∧ hash c = hash d ∧ (compare d e).isLE ∧ (compare c e).isLE ∧
    (c.minus e).text = ".b" ∧ (c.shared e).text = ".a" ∧ ((c.minus e).union (c.shared e)).eqv c := by
  let c : Compound := ⟨[.className "b", .className "a"]⟩
  let d : Compound := ⟨[.className "a", .className "b", .className "a"]⟩
  let e : Compound := ⟨[.className "a", .pseudoClass "hover" none]⟩
  have hde : (compare d e).isLE := by decide
  obtain ⟨hsubset, hcompare, -, -, -, htrans, -, hhash, -⟩ := set_identity c d e
  obtain ⟨-, -, -, -, -, -, -, -, hunion⟩ := set_identity c e d
  have heqv : c.eqv d := hsubset.2 ⟨by decide, by decide⟩
  have hcd : (compare c d).isLE := Ordering.isLE_of_eq_eq (hcompare.1 heqv)
  exact ⟨c, d, e, by decide, by decide, by decide, heqv, hcompare.1 heqv, hhash heqv, hde, htrans hcd hde,
    by decide, by decide, hunion⟩

end Compound

end ScssExtend
