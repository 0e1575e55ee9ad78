import ScssExtend.Proofs.Extension.ResolvedSet
import ScssExtend.Proofs.Extension.Ways

/-!
# What a table adds for a selector

`Table.Adds t x es r` says that `r` is added for the selector `x` on a way `es`: the way starts from a
compound of `x`, what it ends with is spliced into the context of that compound, and the rest of `x` is put
around the outcome (`Complex.framed`). The selectors that a table adds are these (`Table.mem_extendSelector`),
and a resolved list holds nothing but its own selectors and added ones
(`Table.mem_or_adds_of_mem_resolveSelectors`).
-/

namespace ScssExtend

namespace Complex

/-- `z` in the frame of `x`: led by the combinator that leads `x`, a leading `&` of `x` being put back in
front. -/
def framed (x z : Complex) : Complex :=
  let led := z.leadBy ((x.setAside.2.links.head?.map Link.combinator).getD .descendant)
  match x.setAside.1 with
  | none => led
  | some link => ⟨link :: led.links⟩

/-- What is left without repetitions was there before. -/
lemma mem_of_mem_distinct {x : Complex} {xs : List Complex} (h : x ∈ distinct xs) : x ∈ xs := by
  rw [distinct_eq_eraseDupsBy] at h
  exact (eraseDupsBy_sublist _ xs).subset h

/-! ## What is set aside -/

/-- A lone `&` is set aside when links follow it. -/
lemma setAside_of_parent {x : Complex} {first second : Link} {rest : List Link}
    (hx : x.links = first :: second :: rest) (h : first.compound.components = [.parent]) :
    x.setAside = (some first, ⟨second :: rest⟩) := by
  have hlone : first.compound.isLoneParent := by rw [Compound.isLoneParent, h]; rfl
  simp [setAside, splitParent?, hx, hlone]

/-- Nothing else is set aside. -/
lemma setAside_of_not_parent {x : Complex} {first : Link} {rest : List Link} (hx : x.links = first :: rest)
    (h : rest = [] ∨ first.compound.components ≠ [.parent]) : x.setAside = (none, x) := by
  cases rest with
  | nil => simp [setAside, splitParent?, hx]
  | cons second rest =>
    have hlone : first.compound.isLoneParent = false := by
      rw [Compound.isLoneParent, beq_eq_false_iff_ne]
      exact h.resolve_left (List.cons_ne_nil _ _)
    simp [setAside, splitParent?, hx, hlone]

/-! ## Splices -/

/-- A splice gives something only with a chain that has a last link. -/
lemma exists_concat_of_mem_splice {x y z : Complex} (h : z ∈ x.splice y) : ∃ ls l, y = ⟨ls ++ [l]⟩ := by
  obtain ⟨links⟩ := y
  rcases List.eq_nil_or_concat' links with rfl | ⟨ls, l, rfl⟩
  · simp [splice, innermost?] at h
  · exact ⟨ls, l, rfl⟩

/-- The context of a chain is what stands in front of its last link. -/
lemma context?_concat {ks : List Link} {k : Link} :
    context? ⟨ks ++ [k]⟩ = if ks = [] then none else some ⟨ks⟩ := by
  rw [context?, List.dropLast_concat]
  cases ks <;> simp

/-- What a splice lists, when it lists anything, by which of the two sides have a context. -/
lemma splice_concat {ks ls : List Link} {k l : Link} (h : ¬eqv ⟨ks ++ [k]⟩ ⟨ls ++ [l]⟩) :
    splice ⟨ks ++ [k]⟩ ⟨ls ++ [l]⟩ = if ks = [] then [⟨ls ++ [l]⟩]
      else joinedTo ⟨ks⟩ k.combinator ⟨ls ++ [l]⟩ :: if ls = [] then []
        else [⟨(joinedTo ⟨ls⟩ l.combinator ⟨ks⟩).links ++ [⟨k.combinator, l.compound⟩]⟩] := by
  rw [splice, if_neg h, context?_concat, context?_concat]
  simp only [innermost?, List.getLast?_concat, Option.map_some, Option.getD_some]
  by_cases hk : ks = []
  · simp [hk]
  · by_cases hl : ls = []
    · simp [hk, hl]
    · simp [hk, hl]

/-- A chain is not spliced with an equivalent one. -/
lemma not_eqv_of_mem_splice {x y z : Complex} (h : z ∈ x.splice y) : ¬x.eqv y := by
  intro heqv
  rw [splice, if_pos heqv] at h
  cases h

/-- What a splice can be, by which of the two sides have a context. -/
lemma eq_of_mem_splice {ks ls : List Link} {k l : Link} {z : Complex}
    (h : z ∈ splice ⟨ks ++ [k]⟩ ⟨ls ++ [l]⟩) :
    (ks = [] ∧ z = ⟨ls ++ [l]⟩) ∨ ks ≠ [] ∧ (z = joinedTo ⟨ks⟩ k.combinator ⟨ls ++ [l]⟩ ∨
      ls ≠ [] ∧ z = ⟨(joinedTo ⟨ls⟩ l.combinator ⟨ks⟩).links ++ [⟨k.combinator, l.compound⟩]⟩) := by
  rw [splice_concat (not_eqv_of_mem_splice h)] at h
  split at h
  · next hk => exact .inl ⟨hk, List.mem_singleton.1 h⟩
  · next hk =>
    refine .inr ⟨hk, (List.mem_cons.1 h).imp_right fun h => ?_⟩
    split at h
    · cases h
    · next hl => exact ⟨hl, List.mem_singleton.1 h⟩

/-- A splice has no empty selectors. -/
lemma links_ne_nil_of_mem_splice {ks : List Link} {k : Link} {y z : Complex} (h : z ∈ splice ⟨ks ++ [k]⟩ y) :
    z.links ≠ [] := by
  obtain ⟨ls, l, rfl⟩ := exists_concat_of_mem_splice h
  obtain ⟨-, rfl⟩ | ⟨hk, rfl | ⟨-, rfl⟩⟩ := eq_of_mem_splice h
  · exact List.concat_ne_nil l ls
  · exact List.append_ne_nil_of_left_ne_nil hk _
  · exact List.concat_ne_nil _ _

end Complex

namespace Table

variable {t : Table}

/-- `r` is added for `x` by the extensions `es`, applied one after the other from one of its compounds. -/
def Adds (t : Table) (x : Complex) (es : List Extension) (r : Complex) : Prop :=
  ∃ before link behind y z, x.setAside.2.links = before ++ link :: behind ∧
    link.compound.isExtensible ∧ t.Way .empty link.compound es y ∧
    z ∈ Complex.splice ⟨before ++ [link]⟩ y ∧ r = x.framed ⟨z.links ++ behind⟩

/-- What is added for links has a splice in the place of one of them. -/
lemma mem_extendLinks {before links : List Link} {r : Complex} :
    r ∈ t.extendLinks before links ↔ ∃ mid link behind y z, links = mid ++ link :: behind ∧
      link.compound.isExtensible ∧ y ∈ t.extendCompound .empty link.compound ∧
      z ∈ Complex.splice ⟨before ++ mid ++ [link]⟩ y ∧ r = ⟨z.links ++ behind⟩ := by
  induction links generalizing before with
  | nil => simp [extendLinks]
  | cons l ls ih =>
    simp only [extendLinks, List.mem_append, List.mem_map, ih]
    constructor
    · rintro (⟨z, hz, rfl⟩ | ⟨mid, link, behind, y, z, rfl, he, hy, hz, rfl⟩)
      · split at hz
        · next he =>
          obtain ⟨y, hy, hz⟩ := List.mem_flatMap.1 hz
          exact ⟨[], l, ls, y, z, rfl, he, hy, by simpa using hz, rfl⟩
        · exact absurd hz List.not_mem_nil
      · exact ⟨l :: mid, link, behind, y, z, rfl, he, hy, by simpa using hz, rfl⟩
    · rintro ⟨mid, link, behind, y, z, hl, he, hy, hz, rfl⟩
      cases mid with
      | nil =>
        cases hl
        refine .inl ⟨z, ?_, rfl⟩
        rw [if_pos he]
        exact List.mem_flatMap.2 ⟨y, hy, by simpa using hz⟩
      | cons m mid =>
        cases hl
        exact .inr ⟨mid, link, behind, y, z, rfl, he, hy, by simpa using hz, rfl⟩

/-- What a table adds for a selector is what it adds on its ways. -/
lemma mem_extendSelector {x r : Complex} : r ∈ t.extendSelector x ↔ ∃ es, t.Adds x es r := by
  have hlinks : r ∈ t.extendSelector x ↔
      ∃ z ∈ t.extendLinks [] x.setAside.2.links, r = x.framed z := by
    unfold extendSelector Complex.framed
    obtain ⟨reference, ⟨links⟩⟩ := x.setAside
    cases links with
    | nil => cases reference <;> simp [extendLinks]
    | cons first rest => cases reference <;> simp [eq_comm]
  rw [hlinks]
  constructor
  · rintro ⟨_, hmem, rfl⟩
    obtain ⟨before, link, behind, y, z, hl, he, hy, hz, rfl⟩ := mem_extendLinks.1 hmem
    obtain ⟨es, w⟩ := mem_extendCompound_iff.1 hy
    exact ⟨es, before, link, behind, y, z, hl, he, w, by simpa using hz, rfl⟩
  · rintro ⟨es, before, link, behind, y, z, hl, he, w, hz, rfl⟩
    refine ⟨_, mem_extendLinks.2 ⟨before, link, behind, y, z, hl, he, w.mem_extendCompound, ?_, rfl⟩, rfl⟩
    simpa using hz

/-- A resolved list holds selectors of the list and selectors that are added for them. -/
lemma mem_or_adds_of_mem_resolveSelectors {selectors : List Complex} {r : Complex}
    (h : r ∈ t.resolveSelectors selectors) :
    r ∈ selectors ∨ ∃ x ∈ selectors, ∃ es, t.Adds x es r := by
  have hr := Complex.mem_of_mem_distinct (List.mem_filter.1 h).1
  obtain ⟨x, hx, hr⟩ := List.mem_flatMap.1 hr
  rcases List.mem_cons.1 hr with rfl | hr
  · exact .inl hx
  · exact .inr ⟨x, hx, mem_extendSelector.1 hr⟩

end Table

end ScssExtend
