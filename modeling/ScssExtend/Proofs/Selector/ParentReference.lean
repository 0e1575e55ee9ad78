import ScssExtend.Proofs.Extension.ResolvedSet

/-!
# Written and implied references to the parent

A selector without `&` is nested as if `&` stood in front of it: `Complex.explicit` writes this `&` out. What the
two come to is the same chain, up to the order of components in the parent's last compound, as long as the parent is
led by no combinator. A leading combinator of the parent is kept when `&` is implied, and lost when it is written
(`Complex.resolveParent_explicit_iff`).
-/

namespace ScssExtend

namespace Complex

variable {x parent : Complex} {ls ks : List Link} {l k : Link} {combinator : Combinator}

/-- A link that is `&` alone. -/
def parentLink : Link :=
  ⟨.descendant, ⟨[.parent]⟩⟩

/-- The selector that is `&` alone. -/
def parentReference : Complex :=
  ⟨[parentLink]⟩

/-- The selector with the reference to its parent written in front of it. -/
def explicit (x : Complex) : Complex :=
  ⟨parentLink :: x.links⟩

/-- Some compound of the chain mentions `&`. -/
def mentionsParent (x : Complex) : Bool :=
  x.compounds.any Compound.mentionsParent

/-- No combinator is written in front of the first compound. -/
def IsUnled (x : Complex) : Prop :=
  ∀ l ∈ x.links.head?, l.combinator = .descendant

/-- The chain with the components of its last compound arranged. -/
def arrangeLast (x : Complex) : Complex :=
  match x.links.getLast? with
  | none => x
  | some last => ⟨x.links.dropLast ++ [{ last with compound := ⟨arrange last.compound.components⟩ }]⟩

/-! ## The parent in the place of a link -/

/-- Only the last compound is arranged. -/
lemma arrangeLast_concat :
    arrangeLast ⟨ls ++ [l]⟩ = ⟨ls ++ [⟨l.combinator, ⟨arrange l.compound.components⟩⟩]⟩ := by
  simp [arrangeLast]

/-- The last of the parent's links takes the components of the link that mentions `&`. -/
lemma substituteParent_eq (h : (parent.leadBy l.combinator).links = ks ++ [k]) :
    parent.substituteParent l = ks ++
      [⟨k.combinator, ⟨arrange (k.compound.components ++ l.compound.components.filter (· != .parent))⟩⟩] := by
  rw [substituteParent, h]
  simp

/-- A leading combinator replaces that of the first link. -/
lemma leadBy_append (hne : ls ≠ []) :
    leadBy combinator ⟨ls ++ ks⟩ = ⟨(leadBy combinator ⟨ls⟩).links ++ ks⟩ := by
  obtain ⟨first, rest, rfl⟩ := List.exists_cons_of_ne_nil hne
  rfl

/-- Arranging the last compound and replacing the first combinator commute. -/
lemma arrangeLast_leadBy (combinator : Combinator) (x : Complex) :
    (x.leadBy combinator).arrangeLast = x.arrangeLast.leadBy combinator := by
  obtain ⟨links⟩ := x
  rcases List.eq_nil_or_concat' links with rfl | ⟨ls, l, rfl⟩
  · rfl
  rcases eq_or_ne ls [] with rfl | hne
  · rfl
  · rw [leadBy_append hne, arrangeLast_concat, arrangeLast_concat, leadBy_append hne]

/-- A `&` on its own is replaced by the parent, arranged and led by a descendant combinator. -/
lemma substituteParent_parentLink (parent : Complex) :
    parent.substituteParent parentLink = (parent.arrangeLast.leadBy .descendant).links := by
  rw [← arrangeLast_leadBy]
  rcases List.eq_nil_or_concat' (parent.leadBy .descendant).links with hnil | ⟨ks, k, hlinks⟩
  · have hself : parent.leadBy .descendant = ⟨[]⟩ := congrArg Complex.mk hnil
    simp [substituteParent, parentLink, hself, arrangeLast]
  · have hled : parent.leadBy .descendant = ⟨ks ++ [k]⟩ := congrArg Complex.mk hlinks
    rw [substituteParent_eq (l := parentLink) hlinks, hled, arrangeLast_concat]
    simp [parentLink]

/-! ## Written references -/

/-- With `&` every link that mentions it is replaced by the parent. -/
lemma resolveParent_of_mentionsParent (hx : x.mentionsParent) : x.resolveParent parent =
    ⟨x.links.flatMap fun l => if l.compound.mentionsParent then parent.substituteParent l else [l]⟩ :=
  if_pos hx

/-- Without `&` the parent is put in front. -/
lemma resolveParent_of_not_mentionsParent (hx : x.mentionsParent = false) :
    x.resolveParent parent = ⟨parent.links ++ x.links⟩ :=
  if_neg (Bool.eq_false_iff.1 hx)

/-- With an explicit `&` in front the parent as it replaces that is put in front. -/
lemma resolveParent_explicit (hx : x.mentionsParent = false) :
    x.explicit.resolveParent parent = ⟨parent.substituteParent parentLink ++ x.links⟩ := by
  have hlinks : x.links.flatMap (fun l => if l.compound.mentionsParent then parent.substituteParent l else [l]) =
      x.links := by
    have hkept (l : Link) (hl : l ∈ x.links) : l.compound.mentionsParent = false :=
      eq_false_of_ne_true (List.any_eq_false.1 hx _ (List.mem_map_of_mem hl))
    calc
      _ = x.links.flatMap fun l => [l] := List.flatMap_congr fun l hl => by rw [hkept l hl]; rfl
      _ = x.links := List.flatMap_singleton' _
  rw [resolveParent_of_mentionsParent rfl, explicit, List.flatMap_cons, hlinks]
  rfl

/-! ## Up to the order of components -/

/-- Arranging is not seen up to the order of components. -/
lemma canonical_arrangeLast (x : Complex) : x.arrangeLast.canonical = x.canonical := by
  obtain ⟨links⟩ := x
  rcases List.eq_nil_or_concat' links with rfl | ⟨ls, l, rfl⟩
  · rfl
  · have heqv : Compound.canonical ⟨arrange l.compound.components⟩ = l.compound.canonical :=
      beq_iff_eq.1 (Compound.eqv_iff.2 fun s => mem_arrange)
    rw [arrangeLast_concat]
    simp [canonical, Link.canonical, heqv]

/-- Two chains written one behind the other are canonical link by link. -/
lemma canonical_append (ls ks : List Link) :
    canonical ⟨ls ++ ks⟩ = ⟨(canonical ⟨ls⟩).links ++ (canonical ⟨ks⟩).links⟩ :=
  congrArg Complex.mk List.map_append

/-- The leading combinator is kept in canonical form. -/
lemma canonical_leadBy (combinator : Combinator) (x : Complex) :
    (x.leadBy combinator).canonical = x.canonical.leadBy combinator := by
  obtain ⟨_ | ⟨first, rest⟩⟩ := x <;> rfl

/-- A chain that no combinator leads is led by the descendant combinator. -/
lemma leadBy_eq_self_iff : x.leadBy .descendant = x ↔ x.IsUnled := by
  obtain ⟨_ | ⟨⟨combinator, compound⟩, rest⟩⟩ := x
  · simp [leadBy, IsUnled]
  · simp [leadBy, IsUnled, eq_comm]

/-- The canonical form has the same leading combinator. -/
lemma isUnled_canonical : x.canonical.IsUnled ↔ x.IsUnled := by
  obtain ⟨_ | ⟨first, rest⟩⟩ := x <;> simp [canonical, Link.canonical, IsUnled]

/-- The leading combinator is that of the first chain. -/
lemma isUnled_append (hne : ls ≠ []) : IsUnled ⟨ls ++ ks⟩ ↔ IsUnled ⟨ls⟩ := by
  obtain ⟨first, rest, rfl⟩ := List.exists_cons_of_ne_nil hne
  rfl

/-- A nonempty parent stays so when its last compound is arranged. -/
lemma arrangeLast_ne_nil (hparent : parent.links ≠ []) : parent.arrangeLast.links ≠ [] := by
  obtain ⟨links⟩ := parent
  rcases List.eq_nil_or_concat' links with rfl | ⟨ls, l, rfl⟩
  · exact hparent
  · rw [arrangeLast_concat]
    exact List.concat_ne_nil _ _

/-- An explicit `&` arranges the parent and drops its leading combinator. -/
lemma resolveParent_explicit_eq_leadBy (hparent : parent.links ≠ []) (hx : x.mentionsParent = false) :
    x.explicit.resolveParent parent = (x.resolveParent parent.arrangeLast).leadBy .descendant := by
  rw [resolveParent_explicit hx, resolveParent_of_not_mentionsParent hx, substituteParent_parentLink,
    leadBy_append (arrangeLast_ne_nil hparent)]

/-- An explicit `&` makes no difference exactly if no combinator leads the parent. -/
lemma eqv_explicit_iff (hparent : parent.links ≠ []) (hx : x.mentionsParent = false) :
    (x.explicit.resolveParent parent).eqv (x.resolveParent parent) ↔ parent.IsUnled := by
  have hcanonical : (x.resolveParent parent.arrangeLast).canonical = (x.resolveParent parent).canonical := by
    rw [resolveParent_of_not_mentionsParent hx, resolveParent_of_not_mentionsParent hx, canonical_append,
      canonical_append, canonical_arrangeLast]
  calc
    _ ↔ (x.resolveParent parent).canonical.leadBy .descendant = (x.resolveParent parent).canonical := by
      rw [eqv_iff, resolveParent_explicit_eq_leadBy hparent hx, canonical_leadBy, hcanonical]
    _ ↔ (x.resolveParent parent).IsUnled := by
      rw [leadBy_eq_self_iff, isUnled_canonical]
    _ ↔ parent.IsUnled := by
      rw [resolveParent_of_not_mentionsParent hx, isUnled_append hparent]

/-- A lone `&`, and `&` written in front of a selector without any, stand for the parent, whose leading combinator
they drop. So they agree with the parent, and with the `&` that is implied, just when there is none. -/
theorem resolveParent_explicit_iff (hparent : parent.links ≠ []) (hx : x.mentionsParent = false) :
    parentReference.resolveParent parent = parent.arrangeLast.leadBy .descendant ∧
    x.explicit.resolveParent parent = (x.resolveParent parent.arrangeLast).leadBy .descendant ∧
    ((parentReference.resolveParent parent).eqv parent ↔ parent.IsUnled) ∧
    ((x.explicit.resolveParent parent).eqv (x.resolveParent parent) ↔ parent.IsUnled) := by
  -- the lone `&` is the one that is written in front of nothing
  have hempty (y : Complex) : resolveParent ⟨[]⟩ y = y :=
    (resolveParent_of_not_mentionsParent rfl).trans (congrArg Complex.mk (List.append_nil y.links))
  refine ⟨?_, resolveParent_explicit_eq_leadBy hparent hx, ?_, eqv_explicit_iff hparent hx⟩
  · have hlone := resolveParent_explicit_eq_leadBy (x := ⟨[]⟩) hparent rfl
    rwa [hempty] at hlone
  · have hlone := eqv_explicit_iff (x := ⟨[]⟩) hparent rfl
    rwa [hempty] at hlone

/-- A parent of two links, and a rule that begins with a sibling combinator. -/
theorem resolveParent_explicit_iff_sibling : ∃ parent x : Complex, parent.text = ".a > b.c" ∧ x.text = "+ .d" ∧
    parent.links ≠ [] ∧ x.mentionsParent = false ∧ (parentReference.resolveParent parent).eqv parent ∧
    (x.explicit.resolveParent parent).eqv (x.resolveParent parent) ∧
    (x.resolveParent parent).text = ".a > b.c + .d" := by
  let parent : Complex := ⟨[⟨.descendant, ⟨[.className "a"]⟩⟩, ⟨.child, ⟨[.type "b", .className "c"]⟩⟩]⟩
  let x : Complex := ⟨[⟨.nextSibling, ⟨[.className "d"]⟩⟩]⟩
  have hunled : parent.IsUnled := fun l hl => by
    cases hl
    rfl
  have hne : parent.links ≠ [] := List.cons_ne_nil _ _
  have hx : x.mentionsParent = false := rfl
  obtain ⟨-, -, hlone, hexplicit⟩ := resolveParent_explicit_iff hne hx
  exact ⟨parent, x, by decide, by decide, hne, hx, hlone.2 hunled, hexplicit.2 hunled, by decide⟩

/-- The combinator that leads a parent is dropped by `&`, and kept where `&` is implied. -/
theorem exists_explicit_not_eqv : ∃ parent x : Complex, parent.text = "> .a" ∧ x.text = ".b" ∧
    (parentReference.resolveParent parent).eqv parent = false ∧
    (parentReference.resolveParent parent).text = ".a" ∧
    (x.explicit.resolveParent parent).eqv (x.resolveParent parent) = false ∧
    (x.explicit.resolveParent parent).text = ".a .b" ∧ (x.resolveParent parent).text = "> .a .b" :=
  ⟨⟨[⟨.child, ⟨[.className "a"]⟩⟩]⟩, ⟨[⟨.descendant, ⟨[.className "b"]⟩⟩]⟩, by decide, by decide, by decide +kernel,
    by decide, by decide +kernel, by decide, by decide⟩

end Complex

end ScssExtend
