import ScssExtend.Proofs.Extension.Additions

/-!
# The frame of an added selector

A selector that is added for `x` begins as `x` does: with the `&` that leads further links of `x`, if there is
one, and then with the combinator that leads the rest. Behind that it is a splice in the place of one of the
links of `x`, followed by the links behind that one. `Table.extendSelector_keeps_frame` says so, and that nothing
of this kind is left out.
-/

namespace ScssExtend

/-- A compound may be extended unless it is empty or a lone `&`. -/
lemma Compound.isExtensible_iff {c : Compound} :
    c.isExtensible ↔ c.components ≠ [] ∧ c.components ≠ [.parent] := by
  simp [isExtensible, isEmpty, isLoneParent]

namespace Complex

variable {x z : Complex}

/-- The frame of `x` around a chain and the links behind it. -/
lemma links_framed {lead : Combinator} {behind : List Link} (hz : z.links ≠ [])
    (hlead : x.setAside.2.links.head?.map Link.combinator = some lead) :
    (x.framed ⟨z.links ++ behind⟩).links = x.setAside.1.toList ++ (z.leadBy lead).links ++ behind := by
  obtain ⟨zs⟩ := z
  obtain ⟨first, rest, rfl⟩ := List.exists_cons_of_ne_nil hz
  unfold framed
  rw [hlead]
  cases x.setAside.1 <;> rfl

end Complex

namespace Table

variable {t : Table} {x g : Complex}

/-- `g` is made of the `&` that `x` sets aside, of a splice in the place of a link that is extended, led by the
combinator that leads the rest of `x`, and of the links behind that link. -/
def Frames (t : Table) (x g : Complex) : Prop :=
  ∃ before link behind y z lead,
    x.setAside.2.links = before ++ link :: behind ∧
    link.compound.components ≠ [] ∧ link.compound.components ≠ [.parent] ∧
    y ∈ t.extendCompound .empty link.compound ∧ z ∈ Complex.splice ⟨before ++ [link]⟩ y ∧
    x.setAside.2.links.head?.map Link.combinator = some lead ∧
    g.links = x.setAside.1.toList ++ (z.leadBy lead).links ++ behind

/-- What is added for a selector is what is put into its frame. -/
lemma mem_extendSelector_iff_frames : g ∈ t.extendSelector x ↔ t.Frames x g := by
  rw [mem_extendSelector]
  constructor
  · rintro ⟨es, before, link, behind, y, z, hlinks, hext, w, hz, rfl⟩
    obtain ⟨hne, hparent⟩ := Compound.isExtensible_iff.1 hext
    obtain ⟨lead, hlead⟩ : ∃ lead, x.setAside.2.links.head?.map Link.combinator = some lead := by
      rw [hlinks]
      cases before <;> exact ⟨_, rfl⟩
    exact ⟨before, link, behind, y, z, lead, hlinks, hne, hparent, w.mem_extendCompound, hz, hlead,
      Complex.links_framed (Complex.links_ne_nil_of_mem_splice hz) hlead⟩
  · rintro ⟨before, link, behind, y, z, lead, hlinks, hne, hparent, hy, hz, hlead, hg⟩
    obtain ⟨es, w⟩ := mem_extendCompound_iff.1 hy
    have hframed : g = x.framed ⟨z.links ++ behind⟩ :=
      congrArg Complex.mk (hg.trans (Complex.links_framed (Complex.links_ne_nil_of_mem_splice hz) hlead).symm)
    exact ⟨es, before, link, behind, y, z, hlinks, Compound.isExtensible_iff.2 ⟨hne, hparent⟩, w, hz, hframed⟩

/-- Behind the `&` that is set aside, what is in the frame of `x` begins with the combinator that leads the rest
of `x`. -/
lemma Frames.exists_head {first : Link} {rest : List Link} (h : t.Frames x g)
    (hx : x.setAside.2.links = first :: rest) :
    ∃ head tail, g.links = x.setAside.1.toList ++ head :: tail ∧ head.combinator = first.combinator := by
  obtain ⟨before, link, behind, y, ⟨zs⟩, lead, -, -, -, -, hz, hlead, hg⟩ := h
  obtain ⟨k, ks, rfl⟩ := List.exists_cons_of_ne_nil (Complex.links_ne_nil_of_mem_splice hz)
  rw [hx] at hlead
  obtain rfl : first.combinator = lead := Option.some.inj hlead
  refine ⟨{ k with combinator := first.combinator }, ks ++ behind, ?_, rfl⟩
  rw [hg, List.append_assoc]
  rfl

/-- A selector is added for `x` exactly when it is put into the frame of `x`. So it begins with the `&` that leads
further links of `x` and with the combinator behind it, or else with the same combinator as `x`. -/
theorem extendSelector_keeps_frame (t : Table) (x : Complex) :
    (∀ g, g ∈ t.extendSelector x ↔ t.Frames x g) ∧
    (∀ first second rest, x.links = first :: second :: rest → first.compound.components = [.parent] →
      x.setAside = (some first, ⟨second :: rest⟩) ∧
      ∀ g ∈ t.extendSelector x, ∃ head tail, g.links = first :: head :: tail ∧
        head.combinator = second.combinator) ∧
    ∀ first rest, x.links = first :: rest → (rest = [] ∨ first.compound.components ≠ [.parent]) →
      x.setAside = (none, x) ∧
      ∀ g ∈ t.extendSelector x, ∃ head tail, g.links = head :: tail ∧ head.combinator = first.combinator := by
  refine ⟨fun g => mem_extendSelector_iff_frames, ?_, ?_⟩
  · intro first second rest hx hfirst
    have hset := Complex.setAside_of_parent hx hfirst
    refine ⟨hset, fun g hg => ?_⟩
    have hrest : x.setAside.2.links = second :: rest := by rw [hset]
    have h := (mem_extendSelector_iff_frames.1 hg).exists_head hrest
    rwa [hset] at h
  · intro first rest hx hfirst
    have hset := Complex.setAside_of_not_parent hx hfirst
    refine ⟨hset, fun g hg => ?_⟩
    have hrest : x.setAside.2.links = first :: rest := by rw [hset, hx]
    have h := (mem_extendSelector_iff_frames.1 hg).exists_head hrest
    rwa [hset] at h

/-- `.p > .q` extends `.b`. -/
def childTable : Table :=
  empty.push ⟨(Complex.ofClasses [["p"]]).joinedTo .child (.ofClasses [["q"]]), ⟨[.className "b"]⟩, .start⟩
    (by decide)

/-- For `& > .a + .b .c` the selector `& > .p > .a + .q .c` is added, and for `> .b .c` the selector
`> .p > .q .c`. -/
theorem extendSelector_keeps_frame_child :
    let parent : Link := ⟨.descendant, ⟨[.parent]⟩⟩
    let p : Complex := .ofClasses [["p"]]
    let a : Complex := .ofClasses [["a"]]
    let bc : Complex := .ofClasses [["b"], ["c"]]
    let qc : Complex := .ofClasses [["q"], ["c"]]
    let nested : Complex := ⟨parent :: ((a.joinedTo .nextSibling bc).leadBy .child).links⟩
    let added : Complex := ⟨parent :: (((p.joinedTo .child a).joinedTo .nextSibling qc).leadBy .child).links⟩
    let addedLed : Complex := (p.joinedTo .child qc).leadBy .child
    (added ∈ childTable.extendSelector nested ∧ childTable.Frames nested added ∧
      ∃ head tail, added.links = parent :: head :: tail ∧ head.combinator = .child) ∧
    addedLed ∈ childTable.extendSelector (bc.leadBy .child) ∧
      ∃ head tail, addedLed.links = head :: tail ∧ head.combinator = .child := by
  intro parent p a bc qc nested added addedLed
  have hadded : added ∈ childTable.extendSelector nested := by decide +kernel
  have hled : addedLed ∈ childTable.extendSelector (bc.leadBy .child) := by decide +kernel
  obtain ⟨hframes, hparent, -⟩ := extendSelector_keeps_frame childTable nested
  obtain ⟨-, -, hplain⟩ := extendSelector_keeps_frame childTable (bc.leadBy .child)
  exact ⟨⟨hadded, (hframes added).1 hadded, (hparent _ _ _ rfl rfl).2 added hadded⟩,
    hled, (hplain _ _ rfl (.inr (by decide))).2 addedLed hled⟩

end Table

end ScssExtend
