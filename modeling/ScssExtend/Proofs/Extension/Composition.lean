import ScssExtend.Extension.Registry
import ScssExtend.Proofs.Extension.Additions
import ScssExtend.Proofs.Selector.Composition

/-!
# Resolution keeps selectors composed

`Complex.All p x` says that `p` holds of every compound of `x`. What a property of compounds has to satisfy in
order to carry over to resolved lists is `Table.Keeps`: the extenders have it, and unification keeps it
(`Table.all_of_mem_resolveSelectors`). To be composed is such a property, and nesting keeps it as well
(`Complex.IsComposed.resolveParent`), so every list that is resolved in a stylesheet stays composed
(`Table.isComposed_of_mem_resolveSelectors`).
-/

namespace ScssExtend

namespace Complex

/-- The property holds of every compound of the chain. -/
def All (p : Compound → Prop) (x : Complex) : Prop :=
  ∀ l ∈ x.links, p l.compound

variable {p : Compound → Prop} {x y z : Complex} {ls ks : List Link}

/-- A property of all compounds holds of both parts of a chain. -/
lemma all_append : All p ⟨ls ++ ks⟩ ↔ All p ⟨ls⟩ ∧ All p ⟨ks⟩ :=
  List.forall_mem_append

/-- A property of all compounds holds of the first one and of the others. -/
lemma all_cons {l : Link} : All p ⟨l :: ls⟩ ↔ p l.compound ∧ All p ⟨ls⟩ :=
  List.forall_mem_cons

/-- In a chain of one link it is a property of that compound. -/
lemma all_singleton {l : Link} : All p ⟨[l]⟩ ↔ p l.compound :=
  List.forall_mem_singleton

/-- A leading combinator changes no compound of a chain. -/
lemma All.leadBy (h : x.All p) (combinator : Combinator) : (x.leadBy combinator).All p := by
  obtain ⟨_ | ⟨first, rest⟩⟩ := x
  · exact h
  · obtain ⟨hfirst, hrest⟩ := all_cons.1 h
    exact all_cons.2 ⟨hfirst, hrest⟩

/-- A nonempty chain stays so when a combinator leads it. -/
lemma leadBy_ne_nil (h : x.links ≠ []) (combinator : Combinator) : (x.leadBy combinator).links ≠ [] := by
  obtain ⟨_ | ⟨first, rest⟩⟩ := x
  · exact h
  · exact List.cons_ne_nil _ _

/-- Joining two chains adds no compound. -/
lemma All.joinedTo (hx : x.All p) (hy : y.All p) (combinator : Combinator) :
    (x.joinedTo combinator y).All p :=
  all_append.2 ⟨hx, hy.leadBy combinator⟩

/-- A splice consists of compounds of its two sides. -/
lemma All.splice {k : Link} (hx : All p ⟨ks ++ [k]⟩) (hy : y.All p)
    (h : z ∈ Complex.splice ⟨ks ++ [k]⟩ y) : z.All p := by
  obtain ⟨ls, l, rfl⟩ := exists_concat_of_mem_splice h
  obtain ⟨hks, -⟩ := all_append.1 hx
  obtain ⟨hls, hlast⟩ := all_append.1 hy
  have hl : p l.compound := all_singleton.1 hlast
  obtain ⟨-, rfl⟩ | ⟨-, rfl | ⟨-, rfl⟩⟩ := eq_of_mem_splice h
  · exact hy
  · exact All.joinedTo hks hy _
  · exact all_append.2 ⟨All.joinedTo hls hks _, all_singleton.2 hl⟩

/-- Setting `&` aside keeps the compounds, the one set aside included. -/
lemma all_setAside (hx : x.All p) :
    x.setAside.2.All p ∧ ∀ l ∈ x.setAside.1, p l.compound := by
  unfold setAside
  split
  · next reference rest heq =>
    unfold splitParent? at heq
    split at heq
    · next second behind hlinks =>
      split at heq <;> cases heq
      have hall : All p ⟨reference :: second :: behind⟩ := by rwa [← hlinks]
      obtain ⟨hfirst, hrest⟩ := all_cons.1 hall
      refine ⟨hrest, fun l hl => ?_⟩
      cases hl
      exact hfirst
    · cases heq
  · exact ⟨hx, fun l hl => absurd hl (by simp)⟩

/-- Framing a selector adds at most the `&` that was set aside. -/
lemma All.framed (hx : x.All p) (hz : z.All p) (hne : z.links ≠ []) :
    (x.framed z).All p ∧ (x.framed z).links ≠ [] := by
  obtain ⟨-, hlink⟩ := all_setAside hx
  unfold Complex.framed
  split
  · exact ⟨hz.leadBy _, leadBy_ne_nil hne _⟩
  · next link heq => exact ⟨all_cons.2 ⟨hlink link heq, hz.leadBy _⟩, List.cons_ne_nil _ _⟩

end Complex

namespace Table

variable {t : Table} {p : Compound → Prop}

/-- The extenders of a table have the property, and unification with them keeps it. -/
structure Keeps (t : Table) (p : Compound → Prop) : Prop where
  extender : ∀ e ∈ t.entries, e.extender.All p
  unified : ∀ e ∈ t.entries, ∀ c u, p c → e.unified? c = some u → u.components ≠ [] → p u

/-- What one step of chaining makes has the property. -/
lemma Keeps.outcome {e : Extension} {c : Compound} {x : Complex} (h : t.Keeps p) (he : e ∈ t.entries)
    (hc : p c) (hx : e.outcome? c = some x) : x.All p := by
  obtain ⟨u, hu, hne, rfl⟩ := Extension.outcome?_eq_some.1 hx
  refine Complex.all_append.2 ⟨fun l hl => ?_, Complex.all_singleton.2 (h.unified e he c u hc hu hne)⟩
  exact h.extender e he l ((List.dropLast_sublist _).subset hl)

/-- What a way of chaining ends in has the property. -/
lemma Keeps.way {seen : SeenSet} {c : Compound} {es : List Extension} {y : Complex} (h : t.Keeps p)
    (w : t.Way seen c es y) (hc : p c) : y.All p := by
  induction w with
  | last he hx => exact h.outcome (mem_candidates.1 he).1 hc hx
  | step he hx hd _ ih =>
    have hall := h.outcome (mem_candidates.1 he).1 hc hx
    obtain ⟨l, hl, rfl⟩ := List.mem_map.1 (List.mem_filter.1 hd).1
    exact ih (hall l hl)

/-- A property that the selectors of a list have and the table keeps is one of the resolved list. -/
lemma Keeps.resolveSelectors {selectors : List Complex} {r : Complex} (h : t.Keeps p)
    (hne : ∀ x ∈ selectors, x.links ≠ []) (hall : ∀ x ∈ selectors, x.All p)
    (hr : r ∈ t.resolveSelectors selectors) : r.All p ∧ r.links ≠ [] := by
  obtain hr | ⟨x, hx, es, before, link, behind, y, z, heq, -, w, hz, rfl⟩ :=
    mem_or_adds_of_mem_resolveSelectors hr
  · exact ⟨hall r hr, hne r hr⟩
  · have hset := (Complex.all_setAside (hall x hx)).1
    rw [show x.setAside.2 = ⟨before ++ link :: behind⟩ from congrArg Complex.mk heq] at hset
    obtain ⟨hbefore, hrest⟩ := Complex.all_append.1 hset
    obtain ⟨hlink, hbehind⟩ := Complex.all_cons.1 hrest
    have hy := h.way w hlink
    have hsplice := Complex.all_append.2 ⟨hbefore, Complex.all_singleton.2 hlink⟩
    exact (hall x hx).framed (Complex.all_append.2 ⟨Complex.All.splice hsplice hy hz, hbehind⟩)
      (List.append_ne_nil_of_left_ne_nil (Complex.links_ne_nil_of_mem_splice hz) _)

end Table

/-! ## Composed selectors -/

namespace Compound

/-- Arranged components stand in the order in which they have to be written. -/
lemma isLed_arrange (ss : List Simple) : IsLed ⟨arrange ss⟩ := by
  have hplace {place : Nat} {s : Simple} (hs : s ∈ ss.filter (·.placement == place)) :
      s.placement = place := beq_iff_eq.1 (List.mem_filter.1 hs).2
  refine ⟨ss.filter (·.placement == 0), ss.filter (·.placement == 1),
    ss.filter (·.placement == 2) ++ ss.filter (·.placement == 3), by simp [arrange], ?_, ?_, ?_⟩
  · intro s hs
    have := hplace hs
    cases s <;> simp_all [Simple.placement]
  · intro s hs
    exact hplace hs
  · intro s hs
    have : 2 ≤ s.placement := by
      obtain hs | hs := List.mem_append.1 hs
      · exact (hplace hs).ge
      · exact Nat.le_of_lt (hplace hs).ge
    cases s <;> simp_all [Simple.placement, Simple.isTypeLike]

/-- Arranging spelled components makes a composed compound. -/
lemma isComposed_arrange {ss : List Simple} (hne : ss ≠ []) (hs : ∀ s ∈ ss, s.IsSpelled) :
    IsComposed ⟨arrange ss⟩ := by
  obtain ⟨s, hmem⟩ := List.exists_mem_of_ne_nil ss hne
  exact ⟨List.ne_nil_of_mem (mem_arrange.2 hmem), fun t ht => hs t (mem_arrange.1 ht), isLed_arrange ss⟩

/-- What a composed compound is unified with need not be arranged. -/
lemma IsComposed.unify {c d u : Compound} (hc : c.IsComposed) (hd : ∀ s ∈ d.components, s.IsSpelled)
    (h : c.unify d = some u) (hne : u.components ≠ []) : u.IsComposed := by
  by_cases hd' : d.components = []
  · simp only [Compound.unify, isEmpty, hd', List.isEmpty_iff, hc.nonempty, List.isEmpty_nil, if_true,
      if_false] at h
    cases h
    exact hc
  · have hspelled : ∀ s ∈ u.components, s.IsSpelled := fun s hs =>
      (mem_or_mem_of_unify h hs).elim (hc.isSpelled s) (hd s)
    cases unify_eq_some_of_ne_nil hc.nonempty hd' h
    exact ⟨hne, hspelled, isLed_arrange _⟩

end Compound

namespace Complex

/-- In the place of a link that mentions `&` stands the parent, with more components in its last compound. -/
lemma IsComposed.substituteParent {parent : Complex} {l : Link} (hparent : parent.IsComposed)
    (hl : l.compound.IsComposed) : parent.substituteParent l ≠ [] ∧ All Compound.IsComposed
      ⟨parent.substituteParent l⟩ := by
  have hne := leadBy_ne_nil hparent.nonempty l.combinator
  have hall := All.leadBy hparent.compounds l.combinator
  have hlast := hall _ (List.getLast_mem hne)
  unfold Complex.substituteParent
  dsimp only
  rw [List.getLast?_eq_some_getLast hne]
  refine ⟨List.concat_ne_nil _ _, all_append.2 ⟨?_, all_singleton.2 ?_⟩⟩
  · exact fun k hk => hall k ((List.dropLast_sublist _).subset hk)
  · refine Compound.isComposed_arrange (List.append_ne_nil_of_left_ne_nil hlast.nonempty _) ?_
    refine List.forall_mem_append.2 ⟨hlast.isSpelled, fun s hs => ?_⟩
    exact hl.isSpelled s (List.mem_filter.1 hs).1

end Complex

/-- A composed selector stays so when it is resolved against a composed parent. -/
lemma Complex.IsComposed.resolveParent {x parent : Complex} (hx : x.IsComposed)
    (hparent : parent.IsComposed) : (x.resolveParent parent).IsComposed := by
  unfold Complex.resolveParent
  split
  · -- a link is replaced only when it mentions `&`
    have hpart : ∀ l ∈ x.links,
        (if l.compound.mentionsParent then parent.substituteParent l else [l]) ≠ [] ∧
          All Compound.IsComposed
            ⟨if l.compound.mentionsParent then parent.substituteParent l else [l]⟩ := by
      intro l hl
      split
      · exact hparent.substituteParent (hx.compounds l hl)
      · exact ⟨List.cons_ne_nil _ _, all_singleton.2 (hx.compounds l hl)⟩
    obtain ⟨l, hl⟩ := List.exists_mem_of_ne_nil _ hx.nonempty
    obtain ⟨k, hk⟩ := List.exists_mem_of_ne_nil _ (hpart l hl).1
    refine ⟨List.ne_nil_of_mem (List.mem_flatMap.2 ⟨l, hl, hk⟩), fun k hk => ?_⟩
    obtain ⟨l, hl, hk⟩ := List.mem_flatMap.1 hk
    exact (hpart l hl).2 k hk
  · exact ⟨List.append_ne_nil_of_left_ne_nil hparent.nonempty _,
      all_append.2 ⟨hparent.compounds, hx.compounds⟩⟩

namespace Table

variable {t : Table}

/-- Unification with composed extenders keeps compounds composed. -/
lemma keeps_isComposed (ht : ∀ e ∈ t.entries, e.extender.IsComposed) : t.Keeps Compound.IsComposed := by
  refine ⟨fun e he => (ht e he).compounds, fun e he c u hc hu hne => ?_⟩
  have hsubject : e.subject.compound.IsComposed := by
    have hlast := List.getLast?_eq_some_getLast (ht e he).nonempty
    rw [Extension.subject, Complex.innermost?, hlast, Option.getD_some]
    exact (ht e he).compounds _ (List.getLast_mem _)
  exact hsubject.unify (fun s hs => hc.isSpelled s (Compound.mem_minus.1 hs).1) hu hne

/-- Resolving a composed list with composed extenders gives composed selectors. -/
theorem isComposed_of_mem_resolveSelectors {l : SelectorList} {r : Complex}
    (ht : ∀ e ∈ t.entries, e.extender.IsComposed) (hl : l.IsComposed)
    (hr : r ∈ t.resolveSelectors l.selectors) : r.IsComposed := by
  obtain ⟨hall, hne⟩ := (keeps_isComposed ht).resolveSelectors (fun x hx => (hl.selectors x hx).nonempty)
    (fun x hx => (hl.selectors x hx).compounds) hr
  exact ⟨hne, hall⟩

end Table

end ScssExtend
