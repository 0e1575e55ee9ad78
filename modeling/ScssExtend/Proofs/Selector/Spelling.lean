import ScssExtend.Proofs.Text.Runs

/-!
# How selectors are spelled

`IsSpelled` says of a simple selector, and `IsComposed` of compounds, chains and lists, that the parts are
spelled and ordered as the readers give them. Not every composed selector can be read again: `IsReadable`
excludes the texts of compounds that the grammar refuses. `reread` is what a readable selector is read as; where
the components are stable (`IsStable`), that has the same text. In a well-formed selector (`IsWellFormed`) at
most one type or `*` stands in a compound and values are written as they are, so that it is readable and read as
itself (`Complex.IsWellFormed.isReadable`, `Complex.IsWellFormed.reread_eq`).
-/

namespace ScssExtend

open Text Grammar

namespace Simple

/-- Names, values and arguments are such as the readers give. -/
def IsSpelled : Simple → Prop
  | parent | universal => True
  | type name =>
    IsName name.toList ∧ BeginsNonblank name.toList ∧ ∀ c ∈ name.toList.head?, c.isDigit = false
  | id name | className name | placeholder name => IsName name.toList
  | attr name matcher =>
    IsName name.toList ∧ BeginsNonblank name.toList ∧
      ∀ m ∈ matcher, EscapedRun (fun _ => true) m.value.toList
  | pseudoClass name argument | pseudoElement name argument =>
    IsName name.toList ∧ ∀ a ∈ argument, IsBalanced a.toList ∧ IsTrimmed a.toList

instance : DecidablePred IsSpelled
  | parent | universal => .isTrue trivial
  | type name => inferInstanceAs (Decidable (IsName name.toList ∧ BeginsNonblank name.toList ∧
      ∀ c ∈ name.toList.head?, c.isDigit = false))
  | id name | className name | placeholder name => inferInstanceAs (Decidable (IsName name.toList))
  | attr name matcher => inferInstanceAs (Decidable (IsName name.toList ∧ BeginsNonblank name.toList ∧
      ∀ m ∈ matcher, EscapedRun (fun _ => true) m.value.toList))
  | pseudoClass name argument | pseudoElement name argument =>
    inferInstanceAs (Decidable (IsName name.toList ∧
      ∀ a ∈ argument, IsBalanced a.toList ∧ IsTrimmed a.toList))

/-- The operator and value of an attribute selector, if it has them. -/
def matcher? : Simple → Option AttributeMatch
  | attr _ matcher => matcher
  | _ => none

/-- A value that is written bare has more than blank characters. -/
def IsReadable (s : Simple) : Prop :=
  ∀ m ∈ s.matcher?, isIdentifier m.value.toList → ∃ c ∈ m.value.toList, isBlank c = false

instance : DecidablePred IsReadable := fun s => inferInstanceAs (Decidable
  (∀ m ∈ s.matcher?, isIdentifier m.value.toList → ∃ c ∈ m.value.toList, isBlank c = false))

/-- A value that is written bare does not begin with a blank character. -/
def IsStable (s : Simple) : Prop :=
  ∀ m ∈ s.matcher?, isIdentifier m.value.toList → BeginsNonblank m.value.toList

instance : DecidablePred IsStable := fun s => inferInstanceAs (Decidable
  (∀ m ∈ s.matcher?, isIdentifier m.value.toList → BeginsNonblank m.value.toList))

/-- A value as it is read again: a bare one loses the blank characters at its beginning, and in a quoted one
bare quotes have become escaped. -/
def rereadValue (cs : List Char) : List Char :=
  if isIdentifier cs then skipBlanks cs else quoteBody cs

/-- A component as it is read again: its value is read again, everything else stays. -/
def reread : Simple → Simple
  | attr name (some m) => attr name (some ⟨m.operator, String.ofList (rereadValue m.value.toList)⟩)
  | s => s

/-- A spelled selector whose value, if it has one, is written as it is. -/
def IsWellFormed (s : Simple) : Prop :=
  s.IsSpelled ∧ ∀ m ∈ s.matcher?, EscapedRun (· ≠ '"') m.value.toList ∧
    (isIdentifier m.value.toList → BeginsNonblank m.value.toList)

instance : DecidablePred IsWellFormed := fun s => inferInstanceAs (Decidable
  (s.IsSpelled ∧ ∀ m ∈ s.matcher?, EscapedRun (· ≠ '"') m.value.toList ∧
    (isIdentifier m.value.toList → BeginsNonblank m.value.toList)))

end Simple

namespace Compound

/-- The components in the order in which they have to be written: every `&`, then types and `*`, then the
others. -/
def IsLed (c : Compound) : Prop :=
  ∃ parents leads others, c.components = parents ++ leads ++ others ∧
    (∀ s ∈ parents, s = .parent) ∧ (∀ s ∈ leads, s.placement = 1) ∧
    ∀ s ∈ others, s.isTypeLike = false

/-- The types and `*` among the components. -/
def leads (c : Compound) : List Simple :=
  c.components.filter (·.placement = 1)

/-- The readers give only such compounds, and resolution keeps it so. -/
structure IsComposed (c : Compound) : Prop where
  nonempty : c.components ≠ []
  isSpelled : ∀ s ∈ c.components, s.IsSpelled
  isLed : c.IsLed

/-- The text of the compound is accepted: a type behind `&` begins with a letter, `*` has no type and no other
`*` beside it, and no value vanishes. -/
def IsReadable (c : Compound) : Prop :=
  (.parent ∈ c.components → ∀ name ∈ c.components.findSome? Simple.typeName?,
    ∀ ch ∈ name.toList.head?, ch.isAlpha) ∧
  (.universal ∈ c.components → c.leads = [.universal]) ∧
  ∀ s ∈ c.components, s.IsReadable

instance : DecidablePred IsReadable := fun _ => inferInstanceAs (Decidable (_ ∧ _ ∧ _))

/-- Types are written without anything between them, and read as one. -/
def mergeLeads : List Simple → List Simple
  | [] => []
  | [s] => [s]
  | ss => [.type (String.join (ss.map Simple.text))]

/-- The compound as it is read again: every `&`, the one type that the types are read as, and the other components. -/
def reread (c : Compound) : Compound :=
  ⟨c.components.filter (· = .parent) ++ mergeLeads c.leads ++
    (c.components.filter fun s => !s.isTypeLike).map Simple.reread⟩

/-- Every `&`, then at most one type or `*`, then the other components; a type behind `&` begins with a
letter. -/
def IsArranged (c : Compound) : Prop :=
  ∃ (n : Nat) (lead : Option Simple) (others : List Simple),
    c.components = List.replicate n .parent ++ lead.toList ++ others ∧
    (∀ s ∈ lead, s = .universal ∨ ∃ name, s = .type name) ∧
    (∀ s ∈ others, s.isTypeLike = false) ∧
    (0 < n → ∀ name ∈ lead.bind Simple.typeName?, ∀ ch ∈ name.toList.head?, ch.isAlpha)

/-- Well-formed components that are arranged. -/
structure IsWellFormed (c : Compound) : Prop where
  nonempty : c.components ≠ []
  components : ∀ s ∈ c.components, s.IsWellFormed
  isArranged : c.IsArranged

end Compound

namespace Link

/-- A link keeps its combinator when it is read again. -/
def reread (l : Link) : Link :=
  ⟨l.combinator, l.compound.reread⟩

end Link

namespace Complex

/-- A chain of composed compounds. -/
structure IsComposed (x : Complex) : Prop where
  nonempty : x.links ≠ []
  compounds : ∀ l ∈ x.links, l.compound.IsComposed

/-- All compounds are readable. -/
def IsReadable (x : Complex) : Prop :=
  ∀ l ∈ x.links, l.compound.IsReadable

instance : DecidablePred IsReadable := fun x =>
  inferInstanceAs (Decidable (∀ l ∈ x.links, l.compound.IsReadable))

/-- A chain is read again link by link. -/
def reread (x : Complex) : Complex :=
  ⟨x.links.map Link.reread⟩

/-- A nonempty chain of well-formed compounds, with any combinators. -/
structure IsWellFormed (x : Complex) : Prop where
  nonempty : x.links ≠ []
  compounds : ∀ l ∈ x.links, l.compound.IsWellFormed

end Complex

/-- A nonempty list of well-formed chains. -/
structure SelectorList.IsWellFormed (l : SelectorList) : Prop where
  nonempty : l.selectors ≠ []
  selectors : ∀ x ∈ l.selectors, x.IsWellFormed

/-! ## Leading components -/

namespace Simple

/-- Types and `*` have the second place. -/
lemma placement_eq_one {s : Simple} : s.placement = 1 ↔ s = .universal ∨ ∃ name, s = .type name := by
  cases s <;> simp [placement]

/-- The other components have a later place than types and `*`. -/
lemma placement_of_not_typeLike {s : Simple} (h : s.isTypeLike = false) : 2 ≤ s.placement := by
  cases s with
  | parent | universal | type _ => cases h
  | _ => simp [placement]

/-- A component that is no type has no type name. -/
lemma typeName?_of_not_typeLike {s : Simple} (h : s.isTypeLike = false) : s.typeName? = none := by
  cases s with
  | parent | universal | type _ => cases h
  | _ => rfl

/-- Types, `*` and `&` have no value, so that they are readable. -/
lemma isReadable_of_isTypeLike {s : Simple} (h : s.isTypeLike) : s.IsReadable := by
  cases s with
  | parent | universal | type _ => exact fun m hm => absurd hm (by simp [matcher?])
  | _ => cases h

/-- A component is read again as one of the same kind. -/
@[simp] lemma isTypeLike_reread (s : Simple) : s.reread.isTypeLike = s.isTypeLike := by
  unfold reread
  split <;> rfl

end Simple

namespace Compound

section Led

variable {c : Compound} {parents leads others : List Simple}
  (heq : c.components = parents ++ leads ++ others)
  (hp : ∀ s ∈ parents, s = .parent) (hl : ∀ s ∈ leads, s.placement = 1)
  (ho : ∀ s ∈ others, s.isTypeLike = false)
include heq hp hl ho

/-- The `&` of a compound are those written first. -/
lemma filter_parent_eq : c.components.filter (· = .parent) = parents := by
  have hleads : leads.filter (· = .parent) = [] := by
    refine List.filter_eq_nil_iff.2 fun s hs hparent => ?_
    rw [of_decide_eq_true hparent] at hs
    exact absurd (hl _ hs) (by decide)
  have hothers : others.filter (· = .parent) = [] := by
    refine List.filter_eq_nil_iff.2 fun s hs hparent => ?_
    rw [of_decide_eq_true hparent] at hs
    exact absurd (ho _ hs) (by decide)
  rw [heq, List.filter_append, List.filter_append, hleads, hothers,
    List.filter_eq_self.2 fun s hs => decide_eq_true (hp s hs), List.append_nil, List.append_nil]

/-- A compound mentions `&` when some are written first. -/
lemma parent_mem_iff : .parent ∈ c.components ↔ parents ≠ [] := by
  have hmem : .parent ∈ c.components ↔ .parent ∈ parents := by
    rw [← filter_parent_eq heq hp hl ho]
    simp
  rw [hmem]
  constructor
  · exact List.ne_nil_of_mem
  · intro hne
    obtain ⟨s, parents, rfl⟩ := List.exists_cons_of_ne_nil hne
    rw [hp s List.mem_cons_self]
    exact List.mem_cons_self

/-- The types and `*` of a compound are those written next. -/
lemma leads_eq : c.leads = leads := by
  have hparents : parents.filter (·.placement = 1) = [] := by
    refine List.filter_eq_nil_iff.2 fun s hs => ?_
    rw [hp s hs]
    decide
  have hothers : others.filter (·.placement = 1) = [] := by
    refine List.filter_eq_nil_iff.2 fun s hs hplace => ?_
    have := Simple.placement_of_not_typeLike (ho s hs)
    rw [of_decide_eq_true hplace] at this
    omega
  rw [Compound.leads, heq, List.filter_append, List.filter_append, hparents, hothers,
    List.filter_eq_self.2 fun s hs => decide_eq_true (hl s hs), List.append_nil, List.nil_append]

/-- The other components are those written last. -/
lemma filter_others_eq : c.components.filter (fun s => !s.isTypeLike) = others := by
  have hparents : parents.filter (fun s => !s.isTypeLike) = [] := by
    refine List.filter_eq_nil_iff.2 fun s hs => ?_
    rw [hp s hs]
    decide
  have hleads : leads.filter (fun s => !s.isTypeLike) = [] := by
    refine List.filter_eq_nil_iff.2 fun s hs => ?_
    obtain rfl | ⟨name, rfl⟩ := Simple.placement_eq_one.1 (hl s hs)
    · decide
    · exact Bool.false_ne_true
  rw [heq, List.filter_append, List.filter_append, hparents, hleads,
    List.filter_eq_self.2 fun s hs => by rw [ho s hs]; rfl, List.nil_append, List.nil_append]

omit hl in
/-- The type name of a compound is found among its types. -/
lemma findSome?_typeName?_eq :
    c.components.findSome? Simple.typeName? = leads.findSome? Simple.typeName? := by
  have hparents : parents.findSome? Simple.typeName? = none := by
    refine List.findSome?_eq_none_iff.2 fun s hs => ?_
    rw [hp s hs]
    rfl
  have hothers : others.findSome? Simple.typeName? = none :=
    List.findSome?_eq_none_iff.2 fun s hs => Simple.typeName?_of_not_typeLike (ho s hs)
  rw [heq, List.findSome?_append, List.findSome?_append, hparents, hothers, Option.or_none,
    Option.none_or]

end Led

/-- The `*` of a compound stands among its types. -/
lemma universal_mem_leads {c : Compound} : .universal ∈ c.leads ↔ .universal ∈ c.components := by
  simp [leads, Simple.placement]

/-- A compound is never read again as an empty one. -/
lemma IsComposed.reread_ne_nil {c : Compound} (h : c.IsComposed) : c.reread.components ≠ [] := by
  obtain ⟨parents, leads, others, heq, hp, hl, ho⟩ := h.isLed
  have hmerge : mergeLeads leads = [] → leads = [] := by
    unfold mergeLeads
    split <;> simp
  intro hnil
  rw [reread, filter_parent_eq heq hp hl ho, leads_eq heq hp hl ho, filter_others_eq heq hp hl ho,
    List.append_eq_nil_iff, List.append_eq_nil_iff, List.map_eq_nil_iff] at hnil
  apply h.nonempty
  rw [heq, hnil.1.1, hmerge hnil.1.2, hnil.2]
  rfl

end Compound

/-! ## Well-formed selectors -/

namespace Simple

variable {s : Simple}

/-- A value that is stable does not vanish. -/
lemma IsStable.isReadable (h : s.IsStable) : s.IsReadable := by
  intro m hm hid
  obtain ⟨c, cs, heq⟩ : ∃ c cs, m.value.toList = c :: cs := by
    refine List.exists_cons_of_ne_nil fun hnil => ?_
    rw [hnil] at hid
    exact absurd hid (by decide)
  have hbegin := h m hm hid
  rw [heq] at hbegin ⊢
  exact ⟨c, List.mem_cons_self, hbegin c rfl⟩

/-- A well-formed component is stable. -/
lemma IsWellFormed.isStable (h : s.IsWellFormed) : s.IsStable :=
  fun m hm => (h.2 m hm).2

/-- A well-formed component is read again as it is. -/
lemma IsWellFormed.reread_eq (h : s.IsWellFormed) : s.reread = s := by
  unfold reread
  split
  · next name m =>
    obtain ⟨hrun, hbegin⟩ := h.2 m rfl
    have hvalue : rereadValue m.value.toList = m.value.toList := by
      unfold rereadValue
      split
      · next hid => exact skipBlanks_eq_self (hbegin hid)
      · exact quoteBody_eq_self hrun
    rw [hvalue, String.ofList_toList]
  · rfl

end Simple

namespace Compound

namespace IsArranged

variable {c : Compound}

/-- Arranged components stand in the order in which they have to be written. -/
lemma isLed (h : c.IsArranged) : c.IsLed := by
  obtain ⟨n, lead, others, heq, hlead, ho, -⟩ := h
  refine ⟨_, _, _, heq, fun s hs => List.eq_of_mem_replicate hs, fun s hs => ?_, ho⟩
  exact Simple.placement_eq_one.2 (hlead s (Option.mem_toList.1 hs))

/-- Of an arranged compound nothing but a value can make the text unreadable. -/
lemma isReadable_iff (h : c.IsArranged) : c.IsReadable ↔ ∀ s ∈ c.components, s.IsReadable := by
  obtain ⟨n, lead, others, heq, hlead, ho, halpha⟩ := h
  have hp : ∀ s ∈ List.replicate n Simple.parent, s = .parent := fun s hs => List.eq_of_mem_replicate hs
  have hl : ∀ s ∈ lead.toList, s.placement = 1 := fun s hs =>
    Simple.placement_eq_one.2 (hlead s (Option.mem_toList.1 hs))
  refine ⟨fun hr => hr.2.2, fun hvalues => ⟨fun hparent => ?_, fun huniversal => ?_, hvalues⟩⟩
  · rw [findSome?_typeName?_eq heq hp ho]
    have hpos : 0 < n := by
      have hne := (parent_mem_iff heq hp hl ho).1 hparent
      exact Nat.pos_of_ne_zero (mt (List.replicate_eq_nil_iff _).2 hne)
    cases lead with
    | none => exact fun name hname => absurd hname (by simp)
    | some s =>
      have := halpha hpos
      cases hs : s.typeName? <;> simp_all
  · rw [← universal_mem_leads, leads_eq heq hp hl ho] at huniversal
    rw [leads_eq heq hp hl ho, Option.mem_toList.1 huniversal]
    rfl

/-- Reading again leaves a type or `*` alone. -/
lemma map_reread_lead {lead : Option Simple} (h : ∀ s ∈ lead, s = .universal ∨ ∃ name, s = .type name) :
    lead.toList.map Simple.reread = lead.toList := by
  cases lead with
  | none => rfl
  | some s => obtain rfl | ⟨name, rfl⟩ := h s rfl <;> rfl

/-- An arranged compound is read again component by component. -/
lemma reread_eq (h : c.IsArranged) : c.reread = ⟨c.components.map Simple.reread⟩ := by
  obtain ⟨n, lead, others, heq, hlead, ho, -⟩ := h
  have hp : ∀ s ∈ List.replicate n Simple.parent, s = .parent := fun s hs => List.eq_of_mem_replicate hs
  have hl : ∀ s ∈ lead.toList, s.placement = 1 := fun s hs =>
    Simple.placement_eq_one.2 (hlead s (Option.mem_toList.1 hs))
  have hmerge : mergeLeads lead.toList = lead.toList := by cases lead <;> rfl
  rw [reread, filter_parent_eq heq hp hl ho, leads_eq heq hp hl ho, filter_others_eq heq hp hl ho, hmerge,
    heq, List.map_append, List.map_append, List.map_replicate, map_reread_lead hlead]
  rfl

/-- Components stay arranged when they are read again. -/
lemma map_reread (h : c.IsArranged) : IsArranged ⟨c.components.map Simple.reread⟩ := by
  obtain ⟨n, lead, others, heq, hlead, ho, halpha⟩ := h
  refine ⟨n, lead, others.map Simple.reread, ?_, hlead, List.forall_mem_map.2 fun s hs => ?_, halpha⟩
  · rw [heq, List.map_append, List.map_append, List.map_replicate, map_reread_lead hlead]
    rfl
  · rw [Simple.isTypeLike_reread, ho s hs]

end IsArranged

namespace IsWellFormed

variable {c : Compound}

/-- A well-formed compound is composed. -/
lemma isComposed (h : c.IsWellFormed) : c.IsComposed :=
  ⟨h.nonempty, fun s hs => (h.components s hs).1, h.isArranged.isLed⟩

/-- The text of a well-formed compound is accepted. -/
lemma isReadable (h : c.IsWellFormed) : c.IsReadable :=
  h.isArranged.isReadable_iff.2 fun s hs => (h.components s hs).isStable.isReadable

/-- A well-formed compound is read again as it is. -/
lemma reread_eq (h : c.IsWellFormed) : c.reread = c := by
  have hcomponents : c.components.map Simple.reread = c.components :=
    (List.map_congr_left fun s hs => (h.components s hs).reread_eq).trans (List.map_id _)
  rw [h.isArranged.reread_eq, hcomponents]

end IsWellFormed

end Compound

namespace Complex.IsWellFormed

variable {x : Complex}

/-- A well-formed chain is composed. -/
lemma isComposed (h : x.IsWellFormed) : x.IsComposed :=
  ⟨h.nonempty, fun l hl => (h.compounds l hl).isComposed⟩

/-- The text of a well-formed chain is accepted. -/
lemma isReadable (h : x.IsWellFormed) : x.IsReadable :=
  fun l hl => (h.compounds l hl).isReadable

/-- A well-formed chain is read again as it is. -/
lemma reread_eq (h : x.IsWellFormed) : x.reread = x := by
  have hlinks : x.links.map Link.reread = x.links := by
    refine (List.map_congr_left fun l hl => ?_).trans (List.map_id x.links)
    rw [Link.reread, (h.compounds l hl).reread_eq]
    rfl
  rw [reread, hlinks]

end Complex.IsWellFormed

end ScssExtend
