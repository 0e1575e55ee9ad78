import Mathlib.Data.Finset.Max
import Mathlib.Data.Set.Basic
import Mathlib.Order.Lattice.Nat
import ScssExtend.Proofs.Extension.Ways

/-!
# Extending a compound is exact

An element is a set of simple selectors. `Table.closure` enlarges it by the targets of the extensions whose
extenders it carries, over and over. For tables of one-link extenders and one-component targets
(`Extension.IsAtomic`), a compound is carried by the enlarged element exactly when the element itself carries
the compound or what some selector added for it demands (`Table.within_closure_iff`).

Soundness follows the way that makes the selector. Completeness has to find a way on which no target comes
twice: `Table.exists_rank` ranks the components of the closure by the stage that adds them, and a component of
the highest rank is always replaced first, so that it never comes back.
-/

namespace ScssExtend

/-- Every component is in the set. -/
def Compound.Within (c : Compound) (a : Set Simple) : Prop :=
  ∀ s ∈ c.components, s ∈ a

/-- An extension of one link and one target component, both of free components. -/
structure Extension.IsAtomic (f : Extension) : Prop where
  extender : ∃ l, f.extender.links = [l] ∧ l.compound.components ≠ [] ∧ l.compound.IsFree
  target : ∃ τ : Simple, τ.IsFree ∧ ∀ s, s ∈ f.target.components ↔ s = τ

namespace Table

/-- The set has the target of every extension of which it has the whole extender. -/
def Closed (t : Table) (a : Set Simple) : Prop :=
  ∀ f ∈ t.entries, (∀ d ∈ f.extender.compounds, d.Within a) → f.target.Within a

/-- The least closed set that contains `a`. -/
def closure (t : Table) (a : Set Simple) : Set Simple :=
  {s | ∀ b, a ⊆ b → t.Closed b → s ∈ b}

variable {t : Table} {a : Set Simple}

/-- The closure contains the set. -/
lemma subset_closure : a ⊆ t.closure a :=
  fun _ hs _ hb _ => hb hs

/-- The closure is closed. -/
lemma closed_closure : t.Closed (t.closure a) := by
  intro f hf hx s hs b hb hc
  exact hc f hf (fun d hd r hr => hx d hd r hr b hb hc) s hs

/-! ## Stages -/

/-- What is in the closure after `n` rounds. -/
def stage (t : Table) (a : Set Simple) : Nat → Set Simple
  | 0 => a
  | n + 1 => stage t a n ∪ {s | ∃ f ∈ t.entries, s ∈ f.target.components ∧
      ∀ d ∈ f.extender.compounds, d.Within (stage t a n)}

/-- Later rounds take nothing away. -/
lemma stage_mono {m n : Nat} (h : m ≤ n) : t.stage a m ⊆ t.stage a n := by
  induction h with
  | refl => exact subset_rfl
  | step _ ih => exact ih.trans Set.subset_union_left

/-- All rounds stay in the closure. -/
lemma stage_subset_closure (n : Nat) : t.stage a n ⊆ t.closure a := by
  induction n with
  | zero => exact subset_closure
  | succ n ih =>
    rintro s (hs | ⟨f, hf, hs, hx⟩)
    · exact ih hs
    · exact closed_closure f hf (fun d hd r hr => ih (hx d hd r hr)) s hs

/-- Finitely many elements that each come in at some stage are all there at one stage. -/
lemma exists_stage_of_forall {ss : List Simple} (h : ∀ s ∈ ss, ∃ n, s ∈ t.stage a n) :
    ∃ n, ∀ s ∈ ss, s ∈ t.stage a n := by
  induction ss with
  | nil => exact ⟨0, by simp⟩
  | cons s ss ih =>
    obtain ⟨m, hm⟩ := h s List.mem_cons_self
    obtain ⟨n, hn⟩ := ih fun r hr => h r (List.mem_cons_of_mem _ hr)
    refine ⟨max m n, ?_⟩
    intro r hr
    rcases List.mem_cons.1 hr with rfl | hr
    · exact stage_mono (le_max_left _ _) hm
    · exact stage_mono (le_max_right _ _) (hn r hr)

/-- What is in the closure is added in some round. -/
lemma exists_stage {s : Simple} (h : s ∈ t.closure a) : ∃ n, s ∈ t.stage a n := by
  refine h {s | ∃ n, s ∈ t.stage a n} (fun r hr => ⟨0, hr⟩) ?_
  intro f hf hx s hs
  have hall : ∀ r ∈ f.extender.compounds.flatMap Compound.components, ∃ n, r ∈ t.stage a n := by
    intro r hr
    obtain ⟨d, hd, hr⟩ := List.mem_flatMap.1 hr
    exact hx d hd r hr
  obtain ⟨n, hn⟩ := exists_stage_of_forall hall
  refine ⟨n + 1, .inr ⟨f, hf, hs, ?_⟩⟩
  exact fun d hd r hr => hn r (List.mem_flatMap.2 ⟨d, hd, hr⟩)

/-- The components of the closure can be ranked so that each one outside of `a` is the target of an extension
whose extender is in the closure and ranked lower. -/
lemma exists_rank (t : Table) (a : Set Simple) : ∃ rank : Simple → Nat, (∀ s ∈ a, rank s = 0) ∧
    ∀ s ∈ t.closure a, s ∉ a → ∃ f ∈ t.entries, s ∈ f.target.components ∧
      ∀ d ∈ f.extender.compounds, ∀ r ∈ d.components, r ∈ t.closure a ∧ rank r < rank s := by
  -- the rank is the first stage
  refine ⟨fun s => sInf {n | s ∈ t.stage a n}, ?_, ?_⟩
  · intro s hs
    have h : sInf {n | s ∈ t.stage a n} ≤ 0 := Nat.sInf_le (m := 0) hs
    exact Nat.le_zero.1 h
  · intro s hs hsa
    have hmem : s ∈ t.stage a (sInf {n | s ∈ t.stage a n}) := Nat.sInf_mem (exists_stage hs)
    cases hn : sInf {n | s ∈ t.stage a n} with
    | zero =>
      rw [hn] at hmem
      exact absurd hmem hsa
    | succ n =>
      have hlow : s ∉ t.stage a n := Nat.notMem_of_lt_sInf (s := {n | s ∈ t.stage a n}) (by omega)
      rw [hn] at hmem
      obtain hmem | ⟨f, hf, hst, hx⟩ := hmem
      · exact absurd hmem hlow
      refine ⟨f, hf, hst, fun d hd r hr => ?_⟩
      have hr := hx d hd r hr
      refine ⟨stage_subset_closure n hr, ?_⟩
      have hle : sInf {n | r ∈ t.stage a n} ≤ n := Nat.sInf_le hr
      show sInf {n | r ∈ t.stage a n} < sInf {n | s ∈ t.stage a n}
      omega

end Table

/-! ## Applying an atomic extension -/

/-- An atomic extension always has an outcome: a free compound that demands the extender, and of the compound
that is extended what the target leaves. -/
lemma Extension.IsAtomic.outcome? {f : Extension} (hf : f.IsAtomic) {c : Compound} (hc : c.IsFree) :
    ∃ k u, f.outcome? c = some ⟨[⟨k, u⟩]⟩ ∧ u.IsFree ∧ u.components ≠ [] ∧
      ∀ s, s ∈ u.components ↔
        (∃ d ∈ f.extender.compounds, s ∈ d.components) ∨ s ∈ c.components ∧ s ∉ f.target.components := by
  obtain ⟨l, hl, hne, hfree⟩ := hf.extender
  have hsubject : f.subject = l := by simp [Extension.subject, Complex.innermost?, hl]
  have hremainder : (f.remainder c).IsFree := fun s hs => hc s (Compound.mem_minus.1 hs).1
  obtain ⟨u, hu, hmem⟩ := Compound.unify_of_free hfree hremainder
  have hmem' : ∀ s, s ∈ u.components ↔ (∃ d ∈ f.extender.compounds, s ∈ d.components) ∨
      s ∈ c.components ∧ s ∉ f.target.components := by
    intro s
    rw [hmem, Extension.remainder, Compound.mem_minus]
    simp [Complex.compounds, hl]
  have hune : u.components ≠ [] := by
    obtain ⟨s, hs⟩ := List.exists_mem_of_ne_nil _ hne
    exact List.ne_nil_of_mem ((hmem s).2 (.inl hs))
  refine ⟨l.combinator, u, ?_, ?_, hune, hmem'⟩
  · refine Extension.outcome?_eq_some.2 ⟨u, ?_, hune, ?_⟩
    · rw [Extension.unified?, hsubject]
      exact hu
    · simp [hl, hsubject]
  · intro s hs
    rcases (hmem s).1 hs with hs | hs
    · exact hfree s hs
    · exact hremainder s hs

/-- A compound of free components, unless it is empty, is extended. -/
lemma Compound.isExtensible_of_free {c : Compound} (hc : c.IsFree) (hne : c.components ≠ []) :
    c.isExtensible := by
  have hlone : c.components ≠ [.parent] := by
    intro h
    exact hc .parent (by simp [h])
  simp [Compound.isExtensible, Compound.isEmpty, Compound.isLoneParent, hne, hlone]

namespace Table

variable {t : Table} {a : Set Simple}

/-! ## Soundness -/

/-- A closed set that has what a way ends with has the compound that the way starts from. -/
lemma Way.within (ht : ∀ f ∈ t.entries, f.IsAtomic) {seen : SeenSet} {c : Compound}
    {es : List Extension} {y : Complex} (w : t.Way seen c es y) (hc : c.IsFree) :
    ∃ d, y.compounds = [d] ∧ ∀ b, t.Closed b → d.Within b → c.Within b := by
  -- one application: the outcome demands the extender and the rest of the compound
  have apply {seen : SeenSet} {c : Compound} {f : Extension} (hf : f ∈ t.candidates seen c) {u : Compound}
      (hmem : ∀ s, s ∈ u.components ↔ (∃ d ∈ f.extender.compounds, s ∈ d.components) ∨
        s ∈ c.components ∧ s ∉ f.target.components) (b : Set Simple) (hb : t.Closed b)
      (hu : u.Within b) : c.Within b := by
    intro s hs
    by_cases hst : s ∈ f.target.components
    · exact hb f (mem_candidates.1 hf).1 (fun d hd r hr => hu r ((hmem r).2 (.inl ⟨d, hd, hr⟩))) s hst
    · exact hu s ((hmem s).2 (.inr ⟨hs, hst⟩))
  induction w with
  | last hf hx =>
    obtain ⟨k, u, hu, -, -, hmem⟩ := (ht _ (mem_candidates.1 hf).1).outcome? hc
    rw [hu] at hx
    cases hx
    exact ⟨u, rfl, apply hf hmem⟩
  | @step _ _ _ _ d _ _ hf hx hd _ ih =>
    obtain ⟨k, u, hu, hfree, -, hmem⟩ := (ht _ (mem_candidates.1 hf).1).outcome? hc
    rw [hu] at hx
    cases hx
    have hd : d = u := by simpa [Complex.extensible, Complex.compounds] using (List.mem_filter.1 hd).1
    subst hd
    obtain ⟨d, hy, hin⟩ := ih hfree
    exact ⟨d, hy, fun b hb hdb => apply hf hmem b hb (hin b hb hdb)⟩

/-! ## Completeness -/

/-- A compound of the closure that is not yet within `a` has a way to a compound within `a`, provided that the
seen targets are not in it and are ranked at least as high as all of it. -/
lemma exists_way (ht : ∀ f ∈ t.entries, f.IsAtomic) {rank : Simple → Nat} (hzero : ∀ s ∈ a, rank s = 0)
    (hrank : ∀ s ∈ t.closure a, s ∉ a → ∃ f ∈ t.entries, s ∈ f.target.components ∧
      ∀ d ∈ f.extender.compounds, ∀ r ∈ d.components, r ∈ t.closure a ∧ rank r < rank s)
    {seen : SeenSet} {c : Compound} (hc : c.IsFree) (hin : c.Within (t.closure a)) (hout : ¬c.Within a)
    (hseen : ∀ f ∈ t.entries, seen.contains f.target → ∀ τ ∈ f.target.components,
      τ ∉ c.components ∧ ∀ s ∈ c.components, rank s ≤ rank τ) :
    ∃ es y, t.Way seen c es y ∧ ∃ d, y.compounds = [d] ∧ d.Within a := by
  classical
  induction hn : t.unseen seen using Nat.strongRecOn generalizing seen c with
  | _ n ih =>
    -- a component of the highest rank is replaced
    obtain ⟨τ, hτ, hmax⟩ : ∃ τ ∈ c.components.toFinset.filter (· ∉ a),
        ∀ s ∈ c.components.toFinset.filter (· ∉ a), rank s ≤ rank τ := by
      refine Finset.exists_max_image _ rank ?_
      simp only [Compound.Within, not_forall] at hout
      obtain ⟨s, hs, hsa⟩ := hout
      exact ⟨s, by simp [hs, hsa]⟩
    simp only [Finset.mem_filter, List.mem_toFinset] at hτ hmax
    obtain ⟨hτc, hτa⟩ := hτ
    have hle : ∀ s ∈ c.components, rank s ≤ rank τ := by
      intro s hs
      by_cases hsa : s ∈ a
      · rw [hzero s hsa]
        exact Nat.zero_le _
      · exact hmax s ⟨hs, hsa⟩
    obtain ⟨f, hf, hτf, hlow⟩ := hrank τ (hin τ hτc) hτa
    obtain ⟨σ, -, hσ⟩ := (ht f hf).target
    have htarget : ∀ s, s ∈ f.target.components ↔ s = τ := by
      intro s
      rw [hσ, (hσ τ).1 hτf]
    have hcand : f ∈ t.candidates seen c := by
      refine mem_candidates.2 ⟨hf, fun s hs => (htarget s).1 hs ▸ hτc, ?_⟩
      refine Bool.eq_false_iff.2 fun h => ?_
      exact (hseen f hf h τ hτf).1 hτc
    obtain ⟨k, u, hu, hfree, hne, hmem⟩ := (ht f hf).outcome? hc
    by_cases hua : u.Within a
    · exact ⟨[f], _, .last hcand hu, u, rfl, hua⟩
    -- the invariant for the rest of the way
    have hulow : ∀ s ∈ u.components, s ≠ τ ∧ rank s ≤ rank τ := by
      intro s hs
      rcases (hmem s).1 hs with ⟨d, hd, hs⟩ | ⟨hs, hst⟩
      · have hlt := (hlow d hd s hs).2
        exact ⟨fun e => by simp [e] at hlt, hlt.le⟩
      · exact ⟨fun e => hst ((htarget s).2 e), hle s hs⟩
    have huin : u.Within (t.closure a) := by
      intro s hs
      rcases (hmem s).1 hs with ⟨d, hd, hs⟩ | ⟨hs, -⟩
      · exact (hlow d hd s hs).1
      · exact hin s hs
    have huseen : ∀ g ∈ t.entries, (seen.insert f.target).contains g.target →
        ∀ υ ∈ g.target.components, υ ∉ u.components ∧ ∀ s ∈ u.components, rank s ≤ rank υ := by
      intro g hg hgs υ hυ
      rcases OrderedSet.contains_insert.1 hgs with heq | hgs
      · have := (Compound.eqv_iff.1 (Compound.compare_eq_iff_eqv.1 heq) υ).1 hυ
        cases (htarget υ).1 this
        exact ⟨fun h => (hulow _ h).1 rfl, fun s hs => (hulow s hs).2⟩
      · obtain ⟨hnot, hup⟩ := hseen g hg hgs υ hυ
        refine ⟨fun h => ?_, fun s hs => (hulow s hs).2.trans (hup τ hτc)⟩
        rcases (hmem υ).1 h with ⟨d, hd, h⟩ | ⟨h, -⟩
        · exact absurd (hup τ hτc) (Nat.not_le.2 (hlow d hd υ h).2)
        · exact hnot h
    obtain ⟨es, y, w, hy⟩ := ih _ (hn ▸ unseen_lt_of_mem_candidates hcand) hfree huin hua huseen rfl
    have hext : u ∈ (⟨[⟨k, u⟩]⟩ : Complex).extensible :=
      List.mem_filter.2 ⟨List.mem_singleton_self u, Compound.isExtensible_of_free hfree hne⟩
    exact ⟨f :: es, y, .step hcand hu hext w, hy⟩

/-- The closure of an element carries a compound exactly when the element carries the compound, or what a
selector added for the compound demands: extending a compound never matches too much, and using every target
at most once on a way never loses a match. -/
theorem within_closure_iff (ht : ∀ f ∈ t.entries, f.IsAtomic) {c : Compound} (hc : c.IsFree) :
    c.Within (t.closure a) ↔
      c.Within a ∨ ∃ y ∈ t.extendCompound .empty c, ∃ d, y.compounds = [d] ∧ d.Within a := by
  constructor
  · intro hin
    by_cases hca : c.Within a
    · exact .inl hca
    obtain ⟨rank, hzero, hrank⟩ := exists_rank t a
    have hseen : ∀ f ∈ t.entries, (OrderedSet.empty : SeenSet).contains f.target →
        ∀ τ ∈ f.target.components, τ ∉ c.components ∧ ∀ s ∈ c.components, rank s ≤ rank τ :=
      fun f _ h => absurd h (by simp [OrderedSet.contains, OrderedSet.empty])
    obtain ⟨es, y, w, hy⟩ := exists_way ht hzero hrank hc hin hca hseen
    exact .inr ⟨y, w.mem_extendCompound, hy⟩
  · rintro (hca | ⟨y, hy, d, hd, hda⟩)
    · exact fun s hs => subset_closure (hca s hs)
    · obtain ⟨es, w⟩ := mem_extendCompound_iff.1 hy
      obtain ⟨d', hd', hin⟩ := w.within ht hc
      rw [hd] at hd'
      cases hd'
      exact hin _ closed_closure fun s hs => subset_closure (hda s hs)

/-- `.a` and `.b` extend each other, and `.p.q` extends `.b`. -/
def cyclicTable : Table :=
  ((empty.push ⟨.ofClasses [["b"]], ⟨[.className "a"]⟩, .start⟩ (by decide)).push
    ⟨.ofClasses [["a"]], ⟨[.className "b"]⟩, .start⟩ (by decide)).push
    ⟨.ofClasses [["p", "q"]], ⟨[.className "b"]⟩, .start⟩ (by decide)

/-- An element `.p.q.x` counts as `.a.x`, by way of `.b.x`. -/
theorem within_closure_iff_cyclic :
    (∀ f ∈ cyclicTable.entries, f.IsAtomic) ∧
    (⟨[.className "a", .className "x"]⟩ : Compound).IsFree ∧
    (⟨[.className "a", .className "x"]⟩ : Compound).Within
      (cyclicTable.closure {.className "p", .className "q", .className "x"}) := by
  have ht : ∀ f ∈ cyclicTable.entries, f.IsAtomic := by
    intro f hf
    simp only [cyclicTable, push, empty, List.nil_append, List.cons_append, List.mem_cons,
      List.not_mem_nil, or_false] at hf
    rcases hf with rfl | rfl | rfl
    all_goals
      refine ⟨⟨_, rfl, by simp, ?_⟩, ⟨_, ?_, fun _ => List.mem_singleton⟩⟩
      · simp [Compound.IsFree, Simple.IsFree]
      · trivial
  have hc : (⟨[.className "a", .className "x"]⟩ : Compound).IsFree := by
    simp [Compound.IsFree, Simple.IsFree]
  refine ⟨ht, hc, (within_closure_iff ht hc).2 (.inr ?_)⟩
  refine ⟨.ofClasses [["p", "q", "x"]], by decide +kernel, _, rfl, ?_⟩
  simp [Compound.Within]

end Table

end ScssExtend
