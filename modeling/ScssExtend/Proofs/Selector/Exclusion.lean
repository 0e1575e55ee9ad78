import ScssExtend.Proofs.Selector.ComponentSets

/-!
# Compounds that exclude each other

Of types, ids and pseudo-elements an element has one name at most (`ExclusiveKind`). Unification compares the
first names of each kind and fails exactly when they differ for one of them (`Compound.unify_eq_none_iff`); what it
gives otherwise is determined by the component sets (`Compound.mem_unify`). So the outcome is the same for all
compounds with the same components unless the first name of a kind is a matter of order
(`Compound.unify_respects_eqv_iff`). Between compounds that have one component of each kind at most, nothing is a
matter of order, and the outcome is such a compound again, pseudo-elements of one name with different arguments
excepted (`Compound.unify_keeps_singular`).
-/

namespace ScssExtend

/-- The kinds of components of which an element meets those with one name only. -/
inductive ExclusiveKind where
  | type
  | id
  | pseudoElement
  deriving DecidableEq

namespace ExclusiveKind

/-- The name of a component of this kind. -/
def name? : ExclusiveKind → Simple → Option String
  | type => Simple.typeName?
  | id => Simple.idName?
  | pseudoElement => Simple.pseudoElementName?

/-- Some kind means the types, the ids or the pseudo-elements. -/
lemma exists_iff {p : ExclusiveKind → Prop} : (∃ k, p k) ↔ p type ∨ p id ∨ p pseudoElement := by
  constructor
  · rintro ⟨_ | _ | _, h⟩
    · exact .inl h
    · exact .inr (.inl h)
    · exact .inr (.inr h)
  · rintro (h | h | h)
    · exact ⟨type, h⟩
    · exact ⟨id, h⟩
    · exact ⟨pseudoElement, h⟩

variable {k l : ExclusiveKind} {s t : Simple} {m n : String}

/-- A star has a name of no kind. -/
@[simp] lemma name?_universal (k : ExclusiveKind) : k.name? .universal = none := by
  cases k <;> rfl

/-- A component has a name of a kind if it is a type, an id or a pseudo-element of that name. -/
lemma name?_eq_some_iff : k.name? s = some n ↔ k = type ∧ s = .type n ∨ k = id ∧ s = .id n ∨
    k = pseudoElement ∧ ∃ argument, s = .pseudoElement n argument := by
  constructor
  · intro h
    cases k with
    | type =>
      cases s <;> cases h
      exact .inl ⟨rfl, rfl⟩
    | id =>
      cases s <;> cases h
      exact .inr (.inl ⟨rfl, rfl⟩)
    | pseudoElement =>
      cases s <;> cases h
      exact .inr (.inr ⟨rfl, _, rfl⟩)
  · rintro (⟨rfl, rfl⟩ | ⟨rfl, rfl⟩ | ⟨rfl, argument, rfl⟩) <;> rfl

/-- A component is of one kind at most. -/
lemma eq_of_name? (hk : k.name? s = some m) (hl : l.name? s = some n) : k = l := by
  obtain ⟨rfl, rfl⟩ | ⟨rfl, rfl⟩ | ⟨rfl, argument, rfl⟩ := name?_eq_some_iff.1 hk
  all_goals
    cases l <;> cases hl
    rfl

/-- Types and ids are determined by their names. -/
lemma eq_of_name?_eq (hk : k ≠ pseudoElement) (hs : k.name? s = some n) (ht : k.name? t = some n) :
    s = t := by
  obtain ⟨rfl, rfl⟩ | ⟨rfl, rfl⟩ | ⟨rfl, -⟩ := name?_eq_some_iff.1 hs
  · obtain ⟨-, rfl⟩ | ⟨h, -⟩ | ⟨h, -⟩ := name?_eq_some_iff.1 ht
    · rfl
    · cases h
    · cases h
  · obtain ⟨h, -⟩ | ⟨-, rfl⟩ | ⟨h, -⟩ := name?_eq_some_iff.1 ht
    · cases h
    · rfl
    · cases h
  · exact absurd rfl hk

end ExclusiveKind

namespace Compound

variable {k : ExclusiveKind} {c c' d d' u : Compound} {n : String}

/-! ## Names -/

/-- The names of the components of a kind, in their order. -/
def names (k : ExclusiveKind) (c : Compound) : List String :=
  c.components.filterMap k.name?

/-- A name of a compound is that of one of its components. -/
lemma mem_names : n ∈ c.names k ↔ ∃ s ∈ c.components, k.name? s = some n :=
  List.mem_filterMap

/-- Equal component sets have the same names. -/
lemma mem_names_congr (h : c.eqv d) : n ∈ c.names k ↔ n ∈ d.names k := by
  simp only [mem_names, eqv_iff.1 h]

/-- Equal component sets have names of the same kinds. -/
lemma names_eq_nil_congr (h : c.eqv d) : c.names k = [] ↔ d.names k = [] := by
  simp only [List.eq_nil_iff_forall_not_mem, mem_names_congr h]

/-- Each has a name of the kind, and these names differ. -/
def Differs (k : ExclusiveKind) (c d : Compound) : Prop :=
  ∃ m ∈ c.names k, ∃ n ∈ d.names k, m ≠ n

/-- Both have names of the kind, and none in common. -/
def Excludes (k : ExclusiveKind) (c d : Compound) : Prop :=
  c.names k ≠ [] ∧ d.names k ≠ [] ∧ ∀ n ∈ c.names k, n ∉ d.names k

instance : Decidable (Differs k c d) := inferInstanceAs (Decidable (∃ m ∈ c.names k, ∃ n ∈ d.names k, m ≠ n))

instance : Decidable (Excludes k c d) :=
  inferInstanceAs (Decidable (_ ∧ _ ∧ ∀ n ∈ c.names k, n ∉ d.names k))

/-- Whether names differ is told by the component sets. -/
lemma differs_congr (hc : c.eqv c') (hd : d.eqv d') : Differs k c d ↔ Differs k c' d' := by
  simp only [Differs, mem_names_congr hc, mem_names_congr hd]

/-- Whether names exclude each other is told by the component sets. -/
lemma excludes_congr (hc : c.eqv c') (hd : d.eqv d') : Excludes k c d ↔ Excludes k c' d' := by
  simp only [Excludes, ne_eq, names_eq_nil_congr hc, names_eq_nil_congr hd, mem_names_congr hc,
    mem_names_congr hd]

/-! ## When unification fails -/

/-- Both are there, and they differ. -/
def Clash (x y : Option String) : Prop :=
  ∃ m ∈ x, ∃ n ∈ y, m ≠ n

/-- A clash does not depend on the sides. -/
lemma clash_comm {x y : Option String} : Clash x y ↔ Clash y x := by
  constructor <;> exact fun ⟨m, hm, n, hn, hne⟩ => ⟨n, hn, m, hm, hne.symm⟩

/-- The program finds a conflict when the first names clash. -/
lemma conflicts_iff : conflicts k.name? c d ↔ Clash (c.names k).head? (d.names k).head? := by
  rw [conflicts, names, names, List.head?_filterMap, List.head?_filterMap]
  cases c.components.findSome? k.name? <;> cases d.components.findSome? k.name? <;> simp [Clash]

/-- First names that clash differ. -/
lemma differs_of_clash (h : Clash (c.names k).head? (d.names k).head?) : Differs k c d := by
  obtain ⟨m, hm, n, hn, hne⟩ := h
  exact ⟨m, List.mem_of_mem_head? hm, n, List.mem_of_mem_head? hn, hne⟩

/-- Where no name is common the first ones clash. -/
lemma clash_of_excludes (h : Excludes k c d) : Clash (c.names k).head? (d.names k).head? := by
  obtain ⟨hc, hd, hnone⟩ := h
  refine ⟨_, List.head?_eq_some_head hc, _, List.head?_eq_some_head hd, fun heq => ?_⟩
  refine hnone _ (List.head_mem hc) ?_
  rw [heq]
  exact List.head_mem hd

/-- Unification fails exactly when the first names of a kind differ. -/
lemma unify_eq_none_iff : c.unify d = none ↔ ∃ k, Clash (c.names k).head? (d.names k).head? := by
  have hkinds : (∃ k, Clash (c.names k).head? (d.names k).head?) ↔ conflicts Simple.typeName? c d ∨
      conflicts Simple.idName? c d ∨ conflicts Simple.pseudoElementName? c d := by
    simp only [← conflicts_iff]
    exact ExclusiveKind.exists_iff
  constructor
  · intro h
    exact hkinds.2 (conflicts_of_unify_eq_none h)
  · intro h
    have hconflicts := hkinds.1 h
    obtain ⟨k, h⟩ := h
    obtain ⟨m, hm, n, hn, -⟩ := differs_of_clash h
    obtain ⟨s, hs, -⟩ := mem_names.1 hm
    obtain ⟨t, ht, -⟩ := mem_names.1 hn
    simp [unify, isEmpty, List.ne_nil_of_mem hs, List.ne_nil_of_mem ht, hconflicts, or_assoc]

/-- A compound without type names has no component with one. -/
lemma names_type_eq_nil : c.names .type = [] ↔ ∀ s ∈ c.components, s.typeName? = none :=
  List.filterMap_eq_nil_iff

/-- The components of a unified compound are those of both, without `*` if a type has joined it. -/
lemma mem_unify (h : c.unify d = some u) {s : Simple} : s ∈ u.components ↔
    (s ∈ c.components ∨ s ∈ d.components) ∧ (s = .universal →
      c.components = [] ∨ d.components = [] ∨ c.names .type = [] ∧ d.names .type = []) := by
  by_cases hc : c.components = []
  · simp only [unify, isEmpty, hc, List.isEmpty_nil, if_true] at h
    cases h
    simp [hc]
  by_cases hd : d.components = []
  · simp only [unify, isEmpty, hd, List.isEmpty_nil, List.isEmpty_iff, hc, if_true, if_false] at h
    cases h
    simp [hd]
  · cases unify_eq_some_of_ne_nil hc hd h
    rw [mem_arrange, mem_dropUniversal, mem_addMissing, names_type_eq_nil, names_type_eq_nil]
    simp only [mem_addMissing, hc, hd, false_or, or_imp, forall_and]

/-! ## Outcomes of unification -/

/-- Both compounds do not unify, or they unify into equivalent ones. -/
def SameOutcome : Option Compound → Option Compound → Prop :=
  Option.Rel fun u v => u.eqv v

/-- Two outcomes are the same if they fail together and give equivalent compounds. -/
lemma sameOutcome_of_forall {x y : Option Compound} (hnone : x = none ↔ y = none)
    (hsome : ∀ u v, x = some u → y = some v → u.eqv v) : SameOutcome x y := by
  cases x with
  | none =>
    rw [hnone.1 rfl]
    exact .none
  | some u =>
    cases y with
    | none => cases hnone.2 rfl
    | some v => exact .some (hsome u v rfl rfl)

/-- The same outcomes fail together. -/
lemma SameOutcome.eq_none_iff {x y : Option Compound} (h : SameOutcome x y) : x = none ↔ y = none := by
  cases h <;> simp

/-- When they unify, what comes out is determined by the component sets. -/
lemma sameOutcome_unify (hc : c.eqv c') (hd : d.eqv d') (h : c.unify d = none ↔ c'.unify d' = none) :
    SameOutcome (c.unify d) (c'.unify d') := by
  have nil_congr {e e' : Compound} (he : e.eqv e') : e.components = [] ↔ e'.components = [] := by
    simp only [List.eq_nil_iff_forall_not_mem, eqv_iff.1 he]
  refine sameOutcome_of_forall h fun u v hu hv => eqv_iff.2 fun s => ?_
  rw [mem_unify hu, mem_unify hv, eqv_iff.1 hc, eqv_iff.1 hd, nil_congr hc, nil_congr hd,
    names_eq_nil_congr hc, names_eq_nil_congr hd]

/-! ## The order of components -/

/-- Any names of different kinds can be the first ones of an equivalent compound. -/
lemma exists_eqv_head {ks : List ExclusiveKind} (hks : ks.Nodup) (first : ExclusiveKind → String)
    (h : ∀ k ∈ ks, first k ∈ c.names k) :
    ∃ c', c.eqv c' ∧ ∀ k ∈ ks, (c'.names k).head? = some (first k) := by
  induction ks with
  | nil => exact ⟨c, eqv_iff.2 fun s => Iff.rfl, List.forall_mem_nil _⟩
  | cons k ks ih =>
    obtain ⟨hk, hks⟩ := List.nodup_cons.1 hks
    obtain ⟨hfirst, hfirsts⟩ := List.forall_mem_cons.1 h
    obtain ⟨c', heqv, hheads⟩ := ih hks hfirsts
    obtain ⟨s, hs, hname⟩ := mem_names.1 hfirst
    -- a component in front with the name of this kind has no name of the other kinds
    refine ⟨⟨s :: c'.components⟩, eqv_iff.2 fun t => ?_, List.forall_mem_cons.2 ⟨?_, fun l hl => ?_⟩⟩
    · rw [List.mem_cons, ← eqv_iff.1 heqv]
      exact ⟨.inr, fun ht => ht.elim (fun heq => heq ▸ hs) fun ht => ht⟩
    · rw [names, List.filterMap_cons_some hname, List.head?_cons]
    · have hother : l.name? s = none := Option.eq_none_iff_forall_ne_some.2 fun n hn => by
        obtain rfl := ExclusiveKind.eq_of_name? hname hn
        exact hk hl
      rw [names, List.filterMap_cons_none hother]
      exact hheads l hl

/-- Compounds with different names of a kind can be ordered so that they do not unify. -/
lemma exists_eqv_unify_eq_none (h : Differs k c d) :
    ∃ c' d' : Compound, c.eqv c' ∧ d.eqv d' ∧ c'.unify d' = none := by
  obtain ⟨m, hm, n, hn, hne⟩ := h
  have hk : [k].Nodup := List.nodup_singleton k
  obtain ⟨c', hc, hm'⟩ := exists_eqv_head hk (fun _ => m) (List.forall_mem_singleton.2 hm)
  obtain ⟨d', hd, hn'⟩ := exists_eqv_head hk (fun _ => n) (List.forall_mem_singleton.2 hn)
  have hclash : Clash (c'.names k).head? (d'.names k).head? :=
    ⟨m, hm' k List.mem_cons_self, n, hn' k List.mem_cons_self, hne⟩
  exact ⟨c', d', hc, hd, unify_eq_none_iff.2 ⟨k, hclash⟩⟩

/-- Compounds that share a name of each kind of which both have names can be ordered so that they unify. -/
lemma exists_eqv_unify_ne_none (h : ∀ k, ¬Excludes k c d) :
    ∃ c' d' : Compound, c.eqv c' ∧ d.eqv d' ∧ c'.unify d' ≠ none := by
  have hshared (k : ExclusiveKind) : ∃ n, c.names k = [] ∨ d.names k = [] ∨
      n ∈ c.names k ∧ n ∈ d.names k := by
    by_contra hno
    push Not at hno
    refine h k ⟨(hno "").1, (hno "").2.1, fun n => (hno n).2.2⟩
  choose first hfirst using hshared
  -- the shared names come first in both
  let ks := [ExclusiveKind.type, .id, .pseudoElement].filter fun k =>
    first k ∈ c.names k ∧ first k ∈ d.names k
  have hks : ks.Nodup := List.Nodup.filter _ (by decide)
  have hmem (k : ExclusiveKind) : k ∈ ks ↔ first k ∈ c.names k ∧ first k ∈ d.names k := by
    cases k <;> simp [ks]
  obtain ⟨c', hc, hc'⟩ := exists_eqv_head hks first fun k hk => ((hmem k).1 hk).1
  obtain ⟨d', hd, hd'⟩ := exists_eqv_head hks first fun k hk => ((hmem k).1 hk).2
  refine ⟨c', d', hc, hd, fun hnone => ?_⟩
  obtain ⟨k, m, hm, n, hn, hne⟩ := unify_eq_none_iff.1 hnone
  obtain hnil | hnil | hk := hfirst k
  · rw [(names_eq_nil_congr hc).1 hnil] at hm
    cases hm
  · rw [(names_eq_nil_congr hd).1 hnil] at hn
    cases hn
  · rw [hc' k ((hmem k).2 hk)] at hm
    rw [hd' k ((hmem k).2 hk)] at hn
    cases hm
    cases hn
    exact hne rfl

/-- The outcome of unification is the same for all compounds with the same components exactly when both have
names of a kind and none in common, or no names of one kind differ between them. -/
theorem unify_respects_eqv_iff (c d : Compound) :
    (∀ c' d' : Compound, c.eqv c' → d.eqv d' → SameOutcome (c.unify d) (c'.unify d')) ↔
      (∃ k, Excludes k c d) ∨ ∀ k, ¬Differs k c d := by
  constructor
  · intro h
    by_contra hno
    push Not at hno
    obtain ⟨hshare, k, hk⟩ := hno
    obtain ⟨c₁, d₁, hc₁, hd₁, hnone⟩ := exists_eqv_unify_eq_none hk
    obtain ⟨c₂, d₂, hc₂, hd₂, hsome⟩ := exists_eqv_unify_ne_none hshare
    have hfails := (h c₁ d₁ hc₁ hd₁).eq_none_iff.2 hnone
    exact hsome ((h c₂ d₂ hc₂ hd₂).eq_none_iff.1 hfails)
  · intro h c' d' hc hd
    refine sameOutcome_unify hc hd ?_
    obtain ⟨k, hk⟩ | hsame := h
    · have hk' := (excludes_congr hc hd).1 hk
      exact iff_of_true (unify_eq_none_iff.2 ⟨k, clash_of_excludes hk⟩)
        (unify_eq_none_iff.2 ⟨k, clash_of_excludes hk'⟩)
    · have unifies {e f : Compound} (h : ∀ k, ¬Differs k e f) : e.unify f ≠ none := fun hnone => by
        obtain ⟨k, hk⟩ := unify_eq_none_iff.1 hnone
        exact h k (differs_of_clash hk)
      exact iff_of_false (unifies hsame) (unifies fun k => mt (differs_congr hc hd).2 (hsame k))

/-- Of two ids in one compound the first one decides. -/
theorem exists_unify_not_respected : ∃ c c' d : Compound, c.text = "#x#y" ∧ c'.text = "#y#x" ∧ d.text = "#x" ∧
    c.eqv c' ∧ c.unify d = some c ∧ c'.unify d = none ∧ ¬SameOutcome (c.unify d) (c'.unify d) := by
  refine ⟨⟨[.id "x", .id "y"]⟩, ⟨[.id "y", .id "x"]⟩, ⟨[.id "x"]⟩, rfl, rfl, rfl, by decide, by decide,
    by decide, fun h => ?_⟩
  exact absurd (h.eq_none_iff.2 (by decide)) (by decide)

/-! ## Compounds with one component of each kind -/

/-- All names of the kind are equal. -/
def HasOneName (k : ExclusiveKind) (c : Compound) : Prop :=
  ∀ m ∈ c.names k, ∀ n ∈ c.names k, m = n

instance : Decidable (HasOneName k c) :=
  inferInstanceAs (Decidable (∀ m ∈ c.names k, ∀ n ∈ c.names k, m = n))

/-- All components of the kind are equal. -/
def HasOne (k : ExclusiveKind) (c : Compound) : Prop :=
  ∀ s ∈ c.components, ∀ t ∈ c.components, (k.name? s).isSome → (k.name? t).isSome → s = t

instance : Decidable (HasOne k c) := inferInstanceAs (Decidable
  (∀ s ∈ c.components, ∀ t ∈ c.components, (k.name? s).isSome → (k.name? t).isSome → s = t))

/-- Where the components of a kind are equal so are their names. -/
lemma HasOne.hasOneName (h : HasOne k c) : HasOneName k c := by
  intro m hm n hn
  obtain ⟨s, hs, hsm⟩ := mem_names.1 hm
  obtain ⟨t, ht, htn⟩ := mem_names.1 hn
  obtain rfl := h s hs t ht (by simp [hsm]) (by simp [htn])
  exact Option.some.inj (hsm.symm.trans htn)

/-- Equal names make equal components, except of pseudo-elements, which have arguments too. -/
lemma HasOneName.hasOne (hk : k ≠ .pseudoElement) (h : HasOneName k c) : HasOne k c := by
  intro s hs t ht hsome hsome'
  obtain ⟨m, hm⟩ := Option.isSome_iff_exists.1 hsome
  obtain ⟨n, hn⟩ := Option.isSome_iff_exists.1 hsome'
  obtain rfl := h m (mem_names.2 ⟨s, hs, hm⟩) n (mem_names.2 ⟨t, ht, hn⟩)
  exact ExclusiveKind.eq_of_name?_eq hk hm hn

/-- The first names stand for all. -/
lemma clash_iff_differs (hc : HasOneName k c) (hd : HasOneName k d) :
    Clash (c.names k).head? (d.names k).head? ↔ Differs k c d := by
  refine ⟨differs_of_clash, fun ⟨m, hm, n, hn, hne⟩ => ?_⟩
  obtain ⟨m', hm'⟩ := Option.isSome_iff_exists.1 (List.isSome_head?.2 (List.ne_nil_of_mem hm))
  obtain ⟨n', hn'⟩ := Option.isSome_iff_exists.1 (List.isSome_head?.2 (List.ne_nil_of_mem hn))
  refine ⟨m', hm', n', hn', ?_⟩
  rwa [← hc m hm m' (List.mem_of_mem_head? hm'), ← hd n hn n' (List.mem_of_mem_head? hn')]

/-- With one name of each kind unification fails exactly when two names differ. -/
lemma unify_eq_none_iff_differs (hc : ∀ k, HasOneName k c) (hd : ∀ k, HasOneName k d) :
    c.unify d = none ↔ ∃ k, Differs k c d := by
  rw [unify_eq_none_iff]
  exact exists_congr fun k => clash_iff_differs (hc k) (hd k)

/-- Unification keeps all names. -/
lemma mem_names_unify (h : c.unify d = some u) : n ∈ u.names k ↔ n ∈ c.names k ∨ n ∈ d.names k := by
  simp only [mem_names, ← exists_or, ← or_and_right]
  refine exists_congr fun s => and_congr_left fun hs => ⟨mem_or_mem_of_unify h, fun hs' => ?_⟩
  refine mem_of_unify h hs' ?_
  rintro rfl
  simp at hs

/-- Unification leaves one name of each kind. -/
lemma hasOneName_unify (hc : HasOneName k c) (hd : HasOneName k d) (h : c.unify d = some u) :
    HasOneName k u := by
  have hsame : ∀ m ∈ c.names k, ∀ n ∈ d.names k, m = n := by
    intro m hm n hn
    by_contra hne
    have hclash := (clash_iff_differs hc hd).2 ⟨m, hm, n, hn, hne⟩
    rw [unify_eq_none_iff.2 ⟨k, hclash⟩] at h
    cases h
  intro m hm n hn
  obtain hm | hm := (mem_names_unify h).1 hm
  · obtain hn | hn := (mem_names_unify h).1 hn
    · exact hc m hm n hn
    · exact hsame m hm n hn
  · obtain hn | hn := (mem_names_unify h).1 hn
    · exact (hsame n hn m hm).symm
    · exact hd m hm n hn

/-- The compounds have pseudo-elements of one name with different arguments. -/
def RivalArguments (c d : Compound) : Prop :=
  ∃ name x y, .pseudoElement name x ∈ c.components ∧ .pseudoElement name y ∈ d.components ∧ x ≠ y

/-- Unification leaves one pseudo-element exactly when none of the same name has another argument. -/
lemma hasOne_unify_pseudoElement_iff (hc : ∀ k, HasOne k c) (hd : ∀ k, HasOne k d)
    (h : c.unify d = some u) : HasOne .pseudoElement u ↔ ¬RivalArguments c d := by
  constructor
  · rintro hone ⟨name, x, y, hx, hy, hne⟩
    have heq := hone _ (mem_of_unify h (.inl hx) nofun) _ (mem_of_unify h (.inr hy) nofun) rfl rfl
    cases heq
    exact hne rfl
  · intro hno s hs t ht hsome hsome'
    obtain ⟨m, hm⟩ := Option.isSome_iff_exists.1 hsome
    obtain ⟨n, hn⟩ := Option.isSome_iff_exists.1 hsome'
    -- the names are equal, so that only the arguments can differ
    obtain rfl := hasOneName_unify (hc .pseudoElement).hasOneName (hd .pseudoElement).hasOneName h
      m (mem_names.2 ⟨s, hs, hm⟩) n (mem_names.2 ⟨t, ht, hn⟩)
    obtain ⟨h, -⟩ | ⟨h, -⟩ | ⟨-, x, rfl⟩ := ExclusiveKind.name?_eq_some_iff.1 hm
    · cases h
    · cases h
    obtain ⟨h, -⟩ | ⟨h, -⟩ | ⟨-, y, rfl⟩ := ExclusiveKind.name?_eq_some_iff.1 hn
    · cases h
    · cases h
    by_contra hne
    have hxy : x ≠ y := fun heq => hne (by rw [heq])
    obtain hs | hs := mem_or_mem_of_unify h hs
    · obtain ht | ht := mem_or_mem_of_unify h ht
      · exact hne (hc .pseudoElement _ hs _ ht rfl rfl)
      · exact hno ⟨m, x, y, hs, ht, hxy⟩
    · obtain ht | ht := mem_or_mem_of_unify h ht
      · exact hno ⟨m, y, x, ht, hs, hxy.symm⟩
      · exact hne (hd .pseudoElement _ hs _ ht rfl rfl)

/-- Compounds with one component of each kind at most unify exactly when no names differ between them. The outcome
has one type and one id at most, no `*` beside a type unless one side was empty, and one pseudo-element at most
exactly when there are no two of one name with different arguments. -/
theorem unify_keeps_singular (hc : ∀ k, HasOne k c) (hd : ∀ k, HasOne k d) :
    (c.unify d = none ↔ ∃ k, Differs k c d) ∧
    ∀ u, c.unify d = some u →
      HasOne .type u ∧ HasOne .id u ∧ (HasOne .pseudoElement u ↔ ¬RivalArguments c d) ∧
      (c.components ≠ [] → d.components ≠ [] → .universal ∈ u.components → u.names .type = []) := by
  have hc' : ∀ k, HasOneName k c := fun k => (hc k).hasOneName
  have hd' : ∀ k, HasOneName k d := fun k => (hd k).hasOneName
  refine ⟨unify_eq_none_iff_differs hc' hd', fun u hu => ?_⟩
  have hu' (k : ExclusiveKind) : HasOneName k u := hasOneName_unify (hc' k) (hd' k) hu
  refine ⟨(hu' .type).hasOne nofun, (hu' .id).hasOne nofun, hasOne_unify_pseudoElement_iff hc hd hu, ?_⟩
  intro hcne hdne huniversal
  obtain hnil | hnil | ⟨hcnil, hdnil⟩ := ((mem_unify hu).1 huniversal).2 rfl
  · exact absurd hnil hcne
  · exact absurd hnil hdne
  · refine List.eq_nil_iff_forall_not_mem.2 fun n hn => ?_
    obtain hn | hn := (mem_names_unify hu).1 hn
    · rw [hcnil] at hn
      cases hn
    · rw [hdnil] at hn
      cases hn

/-- A type beside `*`, and one pseudo-element that both sides have. -/
theorem unify_keeps_singular_universal : ∃ c d u : Compound, c.text = "p.a::part(x)" ∧ d.text = "*#i::part(x)" ∧
    c.unify d = some u ∧ u.text = "p.a#i::part(x)" ∧ (∀ k, HasOne k u) ∧ .universal ∉ u.components := by
  let c : Compound := ⟨[.type "p", .className "a", .pseudoElement "part" (some "x")]⟩
  let d : Compound := ⟨[.universal, .id "i", .pseudoElement "part" (some "x")]⟩
  let u : Compound := ⟨[.type "p", .className "a", .id "i", .pseudoElement "part" (some "x")]⟩
  have hc : ∀ k, HasOne k c := by
    intro k
    cases k <;> decide
  have hd : ∀ k, HasOne k d := by
    intro k
    cases k <;> decide
  have hu : c.unify d = some u := by decide
  obtain ⟨htype, hid, hpseudo, huniversal⟩ := (unify_keeps_singular hc hd).2 u hu
  have hrival : ¬RivalArguments c d := by
    rintro ⟨name, x, y, hx, hy, hne⟩
    simp only [c, d, List.mem_cons, List.not_mem_nil, reduceCtorEq, Simple.pseudoElement.injEq, or_false,
      false_or] at hx hy
    exact hne (hx.2.trans hy.2.symm)
  refine ⟨c, d, u, by decide, by decide, hu, by decide, ?_, fun hmem => ?_⟩
  · intro k
    cases k with
    | type => exact htype
    | id => exact hid
    | pseudoElement => exact hpseudo.2 hrival
  · exact absurd (huniversal (by decide) (by decide) hmem) (by decide)

/-- Pseudo-elements of one name with different arguments come together. -/
theorem exists_unify_not_singular : ∃ c d u : Compound, c.text = "::part(a)" ∧ d.text = "::part(b)" ∧
    (∀ k, HasOne k c) ∧ (∀ k, HasOne k d) ∧ c.unify d = some u ∧ u.text = "::part(a)::part(b)" ∧
    ¬HasOne .pseudoElement u := by
  refine ⟨⟨[.pseudoElement "part" (some "a")]⟩, ⟨[.pseudoElement "part" (some "b")]⟩,
    ⟨[.pseudoElement "part" (some "a"), .pseudoElement "part" (some "b")]⟩, by decide, by decide, ?_, ?_,
    by decide, by decide, by decide⟩
  all_goals
    intro k
    cases k <;> decide

end Compound

end ScssExtend
