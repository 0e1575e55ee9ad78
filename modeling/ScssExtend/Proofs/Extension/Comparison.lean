import Mathlib.Data.List.Flatten
import Mathlib.Data.List.Perm.Basic
import ScssExtend.Proofs.Extension.Registration
import ScssExtend.Proofs.Extension.ResolvedSet
import ScssExtend.Proofs.Extension.Ways

/-!
# Comparing tables

When the candidates of two tables for a compound are always related, as a sublist for instance or as a
permutation, then so is all that the tables add (`Table.Simulation.extendCompound`,
`Table.Simulation.offered`). Two cases of this are what more extensions do (`Table.resolution_monotone`) and
what another order of registration does (`Table.resolution_order_independent`).
-/

namespace ScssExtend

/-! ## Relations of lists -/

/-- A relation of lists that equal lists are in, and that is kept when lists are made of related parts. -/
structure ListCongruence (R : (α : Type) → List α → List α → Prop) : Prop where
  refl {α : Type} (xs : List α) : R α xs xs
  append {α : Type} {xs ys xs' ys' : List α} : R α xs ys → R α xs' ys' → R α (xs ++ xs') (ys ++ ys')
  flatMap {α β : Type} {xs ys : List α} {f g : α → List β} :
    R α xs ys → (∀ x ∈ xs, R β (f x) (g x)) → R β (xs.flatMap f) (ys.flatMap g)

namespace ListCongruence

variable {R : (α : Type) → List α → List α → Prop} {α β : Type} {xs ys : List α}

/-- An element may be put in front of related lists. -/
lemma cons (h : ListCongruence R) (x : α) (hxs : R α xs ys) : R α (x :: xs) (x :: ys) :=
  h.append (h.refl [x]) hxs

/-- Related lists have related images. -/
lemma map (h : ListCongruence R) (f : α → β) (hxs : R α xs ys) : R β (xs.map f) (ys.map f) := by
  rw [List.map_eq_flatMap, List.map_eq_flatMap]
  exact h.flatMap hxs fun x _ => h.refl [f x]

/-- To be a sublist is kept when lists are made of parts. -/
lemma sublist : ListCongruence fun _ => List.Sublist where
  refl := List.Sublist.refl
  append := List.Sublist.append
  flatMap hxs hf := (List.Sublist.flatMap_right _ hf).trans (hxs.flatMap _)

/-- To be a permutation is kept when lists are made of parts. -/
lemma perm : ListCongruence fun _ => List.Perm where
  refl := List.Perm.refl
  append := List.Perm.append
  flatMap := List.Perm.flatMap

end ListCongruence

namespace Table

/-! ## Related tables -/

/-- As long as the seen sets are related, the candidates of `t` and `u` for a compound are; and the seen sets
stay related when a target is seen. -/
structure Simulation (R : (α : Type) → List α → List α → Prop) (rel : SeenSet → SeenSet → Prop)
    (t u : Table) : Prop where
  congruence : ListCongruence R
  candidates {seen seen' : SeenSet} (c : Compound) :
    rel seen seen' → R Extension (t.candidates seen c) (u.candidates seen' c)
  insert {seen seen' : SeenSet} (c : Compound) :
    rel seen seen' → rel (seen.insert c) (seen'.insert c)

namespace Simulation

variable {R : (α : Type) → List α → List α → Prop} {rel : SeenSet → SeenSet → Prop} {t u : Table}

/-- Related tables add related selectors for a compound. -/
lemma extendCompound (h : Simulation R rel t u) {seen seen' : SeenSet} (hseen : rel seen seen')
    (c : Compound) : R Complex (t.extendCompound seen c) (u.extendCompound seen' c) := by
  induction hn : t.unseen seen using Nat.strongRecOn generalizing seen seen' c with
  | _ n ih =>
    rw [extendCompound_eq, extendCompound_eq]
    refine h.congruence.flatMap (h.candidates c hseen) fun e he => ?_
    -- an extension has the same outcome in both tables
    cases e.outcome? c with
    | none => exact h.congruence.refl []
    | some x =>
      refine h.congruence.cons x (h.congruence.flatMap (h.congruence.refl _) fun d _ => ?_)
      exact ih _ (hn ▸ unseen_lt_of_mem_candidates he) (h.insert e.target hseen) d rfl

/-- Related tables add related selectors in the place of each link. -/
lemma extendLinks (h : Simulation R rel t u) (hempty : rel .empty .empty) (before links : List Link) :
    R Complex (t.extendLinks before links) (u.extendLinks before links) := by
  induction links generalizing before with
  | nil => exact h.congruence.refl []
  | cons link behind ih =>
    refine h.congruence.append (h.congruence.map _ ?_) (ih _)
    split
    · exact h.congruence.flatMap (h.extendCompound hempty _) fun x _ => h.congruence.refl _
    · exact h.congruence.refl []

/-- Related tables add related selectors for a selector. -/
lemma extendSelector (h : Simulation R rel t u) (hempty : rel .empty .empty) (x : Complex) :
    R Complex (t.extendSelector x) (u.extendSelector x) := by
  unfold Table.extendSelector
  obtain ⟨reference, ⟨links⟩⟩ := x.setAside
  cases links with
  | nil => cases reference <;> exact h.congruence.refl []
  | cons first rest =>
    have hadded := h.congruence.map (·.leadBy first.combinator) (h.extendLinks hempty [] (first :: rest))
    cases reference with
    | none => exact hadded
    | some link => exact h.congruence.map _ hadded

/-- What related tables offer for a list is related. -/
lemma offered (h : Simulation R rel t u) (hempty : rel .empty .empty) (selectors : List Complex) :
    R Complex (t.offered selectors) (u.offered selectors) :=
  h.congruence.flatMap (h.congruence.refl _) fun x _ => h.congruence.cons x (h.extendSelector hempty x)

end Simulation

variable {t u : Table}

/-! ## More extensions -/

/-- A table with fewer extensions, of which more targets are seen, has fewer candidates. -/
lemma simulation_of_sublist (h : t.entries.Sublist u.entries) :
    Simulation (fun _ => List.Sublist) (fun seen seen' => ∀ d, seen'.contains d → seen.contains d) t u where
  congruence := ListCongruence.sublist
  candidates {seen seen'} c hseen := by
    rw [candidates_eq_filter, candidates_eq_filter]
    refine (h.filter _).trans (List.monotone_filter_right _ fun e he => ?_)
    rw [Bool.and_eq_true, Bool.not_eq_true'] at he ⊢
    exact ⟨Bool.eq_false_iff.2 fun hc => Bool.eq_false_iff.1 he.1 (hseen e.target hc), he.2⟩
  insert c hseen d := by
    rw [OrderedSet.contains_insert, OrderedSet.contains_insert]
    exact Or.imp_right (hseen d)

/-- To add extensions to a table, or to see fewer targets, takes nothing away from what is added for a compound;
and to add extensions takes no selector away from a resolved list. -/
theorem resolution_monotone (h : t.entries.Sublist u.entries) :
    (∀ (seen seen' : SeenSet) (c : Compound), (∀ d, seen'.contains d → seen.contains d) →
      (t.extendCompound seen c).Sublist (u.extendCompound seen' c)) ∧
    ∀ selectors, ∀ x ∈ t.resolveSelectors selectors, ∃ y ∈ u.resolveSelectors selectors, x.eqv y := by
  have hsim := simulation_of_sublist h
  refine ⟨fun seen seen' c hseen => hsim.extendCompound hseen c, fun selectors x hx => ?_⟩
  obtain ⟨hoffered, hplaceholder⟩ :=
    mem_map_canonical_resolveSelectors.1 (List.mem_map_of_mem (f := Complex.canonical) hx)
  have hsub := (hsim.offered (fun _ hd => hd) selectors).map Complex.canonical
  obtain ⟨y, hy, heq⟩ :=
    List.mem_map.1 (mem_map_canonical_resolveSelectors.2 ⟨hsub.subset hoffered, hplaceholder⟩)
  exact ⟨y, hy, Complex.eqv_iff.2 heq.symm⟩

/-- `.b` extends `.a`. -/
def bForA : Extension := .ofClasses [["b"]] ["a"]

/-- `.c` extends `.a`. -/
def cForA : Extension := .ofClasses [["c"]] ["a"]

/-- `.c` extends `.b`. -/
def cForB : Extension := .ofClasses [["c"]] ["b"]

/-- That `.b` extends `.a` still adds `.b` for `.a` when before it `.c` is made to extend `.b`. -/
theorem resolution_monotone_before :
    (registering [bForA]).entries.Sublist (registering [cForB, bForA]).entries ∧
      ((registering [bForA]).extendCompound (.ofList [cForB.target]) bForA.target).Sublist
        ((registering [cForB, bForA]).extendCompound .empty bForA.target) ∧
      ∃ y ∈ (registering [cForB, bForA]).resolveSelectors [.ofCompound bForA.target],
        bForA.extender.eqv y := by
  have h : (registering [bForA]).entries.Sublist (registering [cForB, bForA]).entries := by
    decide +kernel
  refine ⟨h, (resolution_monotone h).1 _ _ _ fun d hd => ?_, (resolution_monotone h).2 _ _ ?_⟩
  · cases hd
  · decide +kernel

/-! ## Another order -/

/-- Two orders of one table are related by permutation, under the same seen set. -/
lemma simulation_of_perm (h : t.entries.Perm u.entries) :
    Simulation (fun _ => List.Perm) (fun seen seen' => seen = seen') t u where
  congruence := ListCongruence.perm
  candidates {seen seen'} c hseen := by
    rw [hseen, candidates_eq_filter, candidates_eq_filter]
    exact h.filter _
  insert c hseen := by rw [hseen]

/-- The order in which extensions were registered decides only the order of what is added for a compound, and
that of the selectors in a resolved list, up to the equivalence of selectors. -/
theorem resolution_order_independent (h : t.entries.Perm u.entries) :
    (∀ seen c, (t.extendCompound seen c).Perm (u.extendCompound seen c)) ∧
    ∀ selectors,
      ((t.resolveSelectors selectors).map Complex.canonical).Perm
          ((u.resolveSelectors selectors).map Complex.canonical) ∧
        (t.resolveSelectors selectors).length = (u.resolveSelectors selectors).length := by
  have hsim := simulation_of_perm h
  refine ⟨fun seen c => hsim.extendCompound rfl c, fun selectors => ?_⟩
  have hoffered := (hsim.offered rfl selectors).map Complex.canonical
  have hperm : ((t.resolveSelectors selectors).map Complex.canonical).Perm
      ((u.resolveSelectors selectors).map Complex.canonical) := by
    refine (List.perm_ext_iff_of_nodup nodup_map_canonical_resolveSelectors
      nodup_map_canonical_resolveSelectors).2 fun k => ?_
    rw [mem_map_canonical_resolveSelectors, mem_map_canonical_resolveSelectors, hoffered.mem_iff]
  exact ⟨hperm, by simpa using hperm.length_eq⟩

/-- When `.b` and `.c` extend `.a`, both tables add `.b` and `.c` for `.a`, each in the order of its own
registrations, and the resolved lists are equally long. -/
theorem resolution_order_independent_two :
    (registering [bForA, cForA]).entries.Perm (registering [cForA, bForA]).entries ∧
      (registering [bForA, cForA]).extendCompound .empty bForA.target = [bForA.extender, cForA.extender] ∧
      (registering [cForA, bForA]).extendCompound .empty bForA.target = [cForA.extender, bForA.extender] ∧
      ((registering [bForA, cForA]).extendCompound .empty bForA.target).Perm
        ((registering [cForA, bForA]).extendCompound .empty bForA.target) ∧
      ((registering [bForA, cForA]).resolveSelectors [.ofCompound bForA.target]).length =
        ((registering [cForA, bForA]).resolveSelectors [.ofCompound bForA.target]).length := by
  have h : (registering [bForA, cForA]).entries.Perm (registering [cForA, bForA]).entries := by
    decide +kernel
  refine ⟨h, by decide +kernel, by decide +kernel, ?_, ?_⟩
  · exact (resolution_order_independent h).1 .empty bForA.target
  · exact ((resolution_order_independent h).2 _).2

end Table

end ScssExtend
