import ScssExtend.Proofs.Selector.SimpleReading

/-!
# Compounds are read from their text

A compound ends at white space, at a comma or at the end of the text (`EndsCompound`). With such a
continuation the text of a composed compound is read as `Compound.reread` says when the compound is readable
(`readComponents_text`), and refused when it is not (`readComponents_text_error`). The readers are followed
along the three parts of the text: every `&`, then the types and `*`, then the other components.
-/

namespace ScssExtend.Grammar

open Text Simple

/-- The end of the text, white space or a comma. -/
def EndsCompound (rest : List Char) : Prop :=
  ∀ c ∈ rest.head?, c = ' ' ∨ c = ','

/-- The texts of components one behind the other. -/
def spelling (ss : List Simple) : List Char :=
  ss.flatMap fun s => s.text.toList

/-- No components have no text. -/
@[simp] lemma spelling_nil : spelling [] = [] := rfl

/-- A component is written in front of the others. -/
@[simp] lemma spelling_cons (s : Simple) (ss : List Simple) :
    spelling (s :: ss) = s.text.toList ++ spelling ss :=
  rfl

/-- Two runs of components are written one behind the other. -/
@[simp] lemma spelling_append (ss ts : List Simple) :
    spelling (ss ++ ts) = spelling ss ++ spelling ts :=
  List.flatMap_append

/-- The text of a compound is that of its components. -/
lemma toList_text (c : Compound) : c.text.toList = spelling c.components := by
  rw [Compound.text, String.toList_join, List.flatMap_map]
  rfl

/-- What ends a compound ends a simple selector. -/
lemma EndsCompound.endsSimple {rest : List Char} (h : EndsCompound rest) : EndsSimple rest := by
  intro c hc
  obtain rfl | rfl := h c hc <;> decide

/-! ## Steps of the reader -/

section Steps

variable {sofar : List Simple} {s : Simple} {cs rest : List Char}

/-- The reader of components takes one, and goes on unless it stands where it may not. -/
lemma readComponents_eq (sofar : List Simple) (cs : List Char) : readComponents sofar cs =
    match readFirst cs with
    | .error mistake => .error mistake
    | .ok none => .ok (sofar, cs)
    | .ok (some (s, rest)) =>
      if s.isTypeLike && sofar.any (· != .parent) then .error ⟨.mustComeFirst s, rest⟩
      else readComponents (sofar ++ [s]) rest := by
  cases cs with
  | nil => rw [readComponents, readFirst]
  | cons c cs =>
    rw [readComponents, readFirst]
    split
    · next h => rw [h]
    · next h => rw [h]
    · next h =>
      dsimp only
      rw [h]

/-- The components end where none is read. -/
lemma readComponents_end (h : readFirst cs = .ok none) : readComponents sofar cs = .ok (sofar, cs) := by
  rw [readComponents_eq, h]

/-- A mistake in a component is a mistake in the compound. -/
lemma readComponents_fault {mistake : Mistake} (h : readFirst cs = .error mistake) :
    readComponents sofar cs = .error mistake := by
  rw [readComponents_eq, h]

/-- A component is taken if it is no type, or if only `&` stand in front of it. -/
lemma readComponents_next (h : readFirst cs = .ok (some (s, rest)))
    (hplace : s.isTypeLike = false ∨ ∀ t ∈ sofar, t = .parent) :
    readComponents sofar cs = readComponents (sofar ++ [s]) rest := by
  have hguard : (s.isTypeLike && sofar.any (· != .parent)) = false := by
    rw [Bool.and_eq_false_iff, List.any_eq_false]
    exact hplace.imp_right fun hall t ht => by simp [hall t ht]
  rw [readComponents_eq, h]
  dsimp only
  rw [hguard]
  rfl

/-- A type or `*` behind anything but `&` is a mistake. -/
lemma readComponents_misplaced (h : readFirst cs = .ok (some (s, rest))) (hs : s.isTypeLike)
    (hsofar : ∃ t ∈ sofar, t ≠ .parent) :
    readComponents sofar cs = .error ⟨.mustComeFirst s, rest⟩ := by
  have hguard : (s.isTypeLike && sofar.any (· != .parent)) = true := by
    rw [hs, Bool.true_and, List.any_eq_true]
    simpa using hsofar
  rw [readComponents_eq, h]
  dsimp only
  rw [hguard]
  rfl

end Steps

/-- No component is read at the end of a compound. -/
lemma readFirst_of_endsCompound {rest : List Char} (h : EndsCompound rest) :
    readFirst rest = .ok none := by
  cases rest with
  | nil => rfl
  | cons c cs => obtain rfl | rfl := h c rfl <;> rfl

/-! ## Components other than `&`, `*` and types -/

/-- The components behind the types end a name in front of them. -/
lemma endsSimple_others {others : List Simple} {rest : List Char}
    (ho : ∀ s ∈ others, s.isTypeLike = false) (hrest : EndsSimple rest) :
    EndsSimple (spelling others ++ rest) := by
  cases others with
  | nil => exact hrest
  | cons s others =>
    intro c hc
    have hs := ho s List.mem_cons_self
    cases s with
    | parent | universal | type _ => cases hs
    | _ =>
      simp only [spelling_cons, text, String.toList_append, List.append_assoc] at hc
      cases hc
      decide

/-- Readable components behind the types are taken one after the other, as they are read again. -/
lemma readComponents_others {others : List Simple} {rest : List Char}
    (hs : ∀ s ∈ others, s.IsSpelled) (hr : ∀ s ∈ others, s.IsReadable)
    (ho : ∀ s ∈ others, s.isTypeLike = false) (hrest : EndsCompound rest) (sofar : List Simple) :
    readComponents sofar (spelling others ++ rest) = .ok (sofar ++ others.map reread, rest) := by
  induction others generalizing sofar with
  | nil =>
    rw [List.map_nil, List.append_nil]
    exact readComponents_end (readFirst_of_endsCompound hrest)
  | cons s others ih =>
    obtain ⟨hs, hss⟩ := List.forall_mem_cons.1 hs
    obtain ⟨hr, hrs⟩ := List.forall_mem_cons.1 hr
    obtain ⟨ho, hos⟩ := List.forall_mem_cons.1 ho
    have hplace : s.reread.isTypeLike = false := by rw [isTypeLike_reread, ho]
    have hread := readFirst_text hs hr ho (endsSimple_others hos hrest.endsSimple)
    rw [spelling_cons, List.append_assoc, readComponents_next hread (.inl hplace), ih hss hrs hos,
      List.map_cons, List.append_assoc, List.singleton_append]

/-- An unreadable component behind the types is a mistake. -/
lemma readComponents_others_error {others : List Simple} {rest : List Char}
    (hs : ∀ s ∈ others, s.IsSpelled) (hr : ∃ s ∈ others, ¬s.IsReadable)
    (ho : ∀ s ∈ others, s.isTypeLike = false) (hrest : EndsCompound rest) (sofar : List Simple) :
    ∃ mistake, readComponents sofar (spelling others ++ rest) = .error mistake := by
  induction others generalizing sofar with
  | nil =>
    obtain ⟨s, hs, -⟩ := hr
    cases hs
  | cons s others ih =>
    obtain ⟨hs, hss⟩ := List.forall_mem_cons.1 hs
    obtain ⟨ho, hos⟩ := List.forall_mem_cons.1 ho
    have hplace : s.reread.isTypeLike = false := by rw [isTypeLike_reread, ho]
    rw [spelling_cons, List.append_assoc]
    by_cases hread : s.IsReadable
    · obtain ⟨t, ht, hbad⟩ := hr
      obtain rfl | ht := List.mem_cons.1 ht
      · exact absurd hread hbad
      · have hnext := readFirst_text hs hread ho (endsSimple_others hos hrest.endsSimple)
        rw [readComponents_next hnext (.inl hplace)]
        exact ih hss ⟨t, ht, hbad⟩ hos _
    · obtain ⟨mistake, h⟩ := readFirst_text_error (spelling others ++ rest) hs hread
      exact ⟨mistake, readComponents_fault h⟩

/-! ## Every `&` -/

/-- No name continues behind a simple selector. -/
lemma isSuffixStart_of_endsSimple {rest : List Char} (h : EndsSimple rest) :
    rest.head?.any isSuffixStart = false := by
  cases rest with
  | nil => rfl
  | cons c cs =>
    obtain ⟨hident, hescape, -⟩ := h c rfl
    simp [isSuffixStart, hident, hescape]

/-- Every `&` is taken where no name follows the last one. -/
lemma readComponents_parents {parents sofar : List Simple} {tail : List Char}
    (hp : ∀ s ∈ parents, s = .parent) (hsofar : ∀ s ∈ sofar, s = .parent)
    (htail : parents ≠ [] → tail.head?.any isSuffixStart = false) :
    readComponents sofar (spelling parents ++ tail) = readComponents (sofar ++ parents) tail := by
  induction parents generalizing sofar with
  | nil => rw [List.append_nil]; rfl
  | cons s parents ih =>
    obtain ⟨rfl, hps⟩ := List.forall_mem_cons.1 hp
    -- behind this `&` stands another one or the tail
    have hnext : (spelling parents ++ tail).head?.any isSuffixStart = false := by
      cases parents with
      | nil => exact htail (List.cons_ne_nil _ _)
      | cons t parents =>
        rw [hps t List.mem_cons_self]
        rfl
    have hsofar' : ∀ s ∈ sofar ++ [.parent], s = .parent := by
      intro s hs
      obtain hs | hs := List.mem_append.1 hs
      · exact hsofar s hs
      · exact List.mem_singleton.1 hs
    have hstep : readComponents sofar ('&' :: (spelling parents ++ tail)) =
        readComponents (sofar ++ [.parent]) (spelling parents ++ tail) :=
      readComponents_next (readFirst_parent hnext) (.inr hsofar)
    change readComponents sofar ('&' :: (spelling parents ++ tail)) = _
    rw [hstep, ih hps hsofar' fun _ => htail (List.cons_ne_nil _ _), List.append_assoc,
      List.singleton_append]

/-- A name behind `&` is a mistake. -/
lemma readComponents_parents_error {parents : List Simple} {tail : List Char}
    (hp : ∀ s ∈ parents, s = .parent) (hne : parents ≠ []) (htail : tail.head?.any isSuffixStart) :
    readComponents [] (spelling parents ++ tail) = .error ⟨.parentSuffix, tail⟩ := by
  obtain ⟨front, s, rfl⟩ := (List.eq_nil_or_concat' parents).resolve_left hne
  obtain ⟨hfront, hs⟩ := List.forall_mem_append.1 hp
  obtain rfl := hs s (List.mem_singleton_self s)
  have hfault : readComponents front ('&' :: tail) = .error ⟨.parentSuffix, tail⟩ :=
    readComponents_fault (readFirst_parent_error htail)
  rw [spelling_append, List.append_assoc]
  rw [readComponents_parents hfront (List.forall_mem_nil _) fun _ => rfl]
  exact hfault

/-! ## Types and `*` -/

section Leads

variable {leads : List Simple} {tail : List Char}

/-- Among types and `*`, types stand first up to the first `*`. -/
lemma exists_types (hl : ∀ s ∈ leads, s.placement = 1) : ∃ types more, leads = types ++ more ∧
    (∀ s ∈ types, ∃ name, s = .type name) ∧ (more = [] ∨ ∃ others, more = .universal :: others) := by
  induction leads with
  | nil => exact ⟨[], [], rfl, List.forall_mem_nil _, .inl rfl⟩
  | cons s leads ih =>
    obtain ⟨hs, hls⟩ := List.forall_mem_cons.1 hl
    obtain rfl | ⟨name, rfl⟩ := placement_eq_one.1 hs
    · exact ⟨[], .universal :: leads, rfl, List.forall_mem_nil _, .inr ⟨leads, rfl⟩⟩
    · obtain ⟨types, more, rfl, htypes, hmore⟩ := ih hls
      exact ⟨.type name :: types, more, rfl, List.forall_mem_cons.2 ⟨⟨name, rfl⟩, htypes⟩, hmore⟩

/-- The text of types is a run of identifier characters and escapes. -/
lemma escapedRun_spelling {types : List Simple} (hs : ∀ s ∈ types, s.IsSpelled)
    (ht : ∀ s ∈ types, ∃ name, s = .type name) : EscapedRun isIdentChar (spelling types) := by
  induction types with
  | nil => exact .nil
  | cons s types ih =>
    obtain ⟨hs, hss⟩ := List.forall_mem_cons.1 hs
    obtain ⟨⟨name, rfl⟩, hts⟩ := List.forall_mem_cons.1 ht
    exact hs.1.2.append (ih hss hts)

/-- Types without anything between them are read as one. -/
lemma readFirst_types {types : List Simple} (hs : ∀ s ∈ types, s.IsSpelled)
    (ht : ∀ s ∈ types, ∃ name, s = .type name) (hne : types ≠ []) (htail : EndsName tail) :
    readFirst (spelling types ++ tail) = .ok (some (.type (String.ofList (spelling types)), tail)) := by
  have hrun := escapedRun_spelling hs ht
  obtain ⟨s, types, rfl⟩ := List.exists_cons_of_ne_nil hne
  obtain ⟨name, rfl⟩ := ht s List.mem_cons_self
  obtain ⟨hname, -, hdigit⟩ := hs _ List.mem_cons_self
  refine readFirst_type ⟨List.append_ne_nil_of_left_ne_nil hname.1 _, hrun⟩ ?_ htail
  intro c hc
  rw [spelling_cons, text, List.head?_append_of_ne_nil _ hname.1] at hc
  exact hdigit c hc

/-- A star is read as `*`. -/
lemma readFirst_universal (rest : List Char) :
    readFirst ('*' :: rest) = .ok (some (.universal, rest)) :=
  rfl

/-- Several types are read as the one type with their joined names. -/
lemma mergeLeads_types {types : List Simple} (ht : ∀ s ∈ types, ∃ name, s = .type name)
    (hne : types ≠ []) :
    Compound.mergeLeads types = [.type (String.ofList (spelling types))] := by
  match types with
  | [] => exact absurd rfl hne
  | [s] =>
    obtain ⟨name, rfl⟩ := ht s List.mem_cons_self
    rw [Compound.mergeLeads, spelling_cons, spelling_nil, List.append_nil, text, String.ofList_toList]
  | s :: t :: types =>
    have hjoin : String.join ((s :: t :: types).map text) = String.ofList (spelling (s :: t :: types)) := by
      rw [← String.toList_inj, String.toList_join, List.flatMap_map, String.toList_ofList]
      rfl
    simp only [Compound.mergeLeads, hjoin]

/-- A star, or what stands behind the types, ends a name. -/
lemma endsName_leads {more : List Simple} (hmore : more = [] ∨ ∃ others, more = .universal :: others)
    (htail : EndsSimple tail) : EndsName (spelling more ++ tail) := by
  obtain rfl | ⟨others, rfl⟩ := hmore
  · exact htail.endsName
  · intro c hc
    cases hc
    decide

/-- Behind another component than `&` a type or `*` is a mistake. -/
lemma readComponents_leads_error (hs : ∀ s ∈ leads, s.IsSpelled) (hl : ∀ s ∈ leads, s.placement = 1)
    (hne : leads ≠ []) (htail : EndsSimple tail) {sofar : List Simple}
    (hsofar : ∃ t ∈ sofar, t ≠ .parent) :
    ∃ mistake, readComponents sofar (spelling leads ++ tail) = .error mistake := by
  obtain ⟨types, more, rfl, ht, hmore⟩ := exists_types hl
  cases types with
  | nil =>
    obtain rfl | ⟨others, rfl⟩ := hmore
    · exact absurd rfl hne
    · exact ⟨_, readComponents_misplaced (readFirst_universal _) rfl hsofar⟩
  | cons s types =>
    have hread := readFirst_types (fun t ht => hs t (List.mem_append_left _ ht)) ht
      (List.cons_ne_nil _ _) (endsName_leads hmore htail)
    rw [spelling_append, List.append_assoc]
    exact ⟨_, readComponents_misplaced hread rfl hsofar⟩

/-- The types are taken as one, or else `*` alone. -/
lemma readComponents_leads (hs : ∀ s ∈ leads, s.IsSpelled) (hl : ∀ s ∈ leads, s.placement = 1)
    (halone : .universal ∈ leads → leads = [.universal]) (htail : EndsSimple tail) {sofar : List Simple}
    (hsofar : ∀ s ∈ sofar, s = .parent) :
    readComponents sofar (spelling leads ++ tail) =
      readComponents (sofar ++ Compound.mergeLeads leads) tail := by
  obtain ⟨types, more, rfl, ht, rfl | ⟨others, rfl⟩⟩ := exists_types hl
  · rw [List.append_nil] at hs ⊢
    cases types with
    | nil =>
      rw [Compound.mergeLeads, List.append_nil]
      rfl
    | cons s types =>
      have hread := readFirst_types hs ht (List.cons_ne_nil _ _) htail.endsName
      rw [readComponents_next hread (.inr hsofar), mergeLeads_types ht (List.cons_ne_nil _ _)]
  · rw [halone (List.mem_append_right _ List.mem_cons_self)]
    exact readComponents_next (readFirst_universal _) (.inr hsofar)

/-- Beside another type or `*` there is no place for `*`. -/
lemma readComponents_leads_crowded (hs : ∀ s ∈ leads, s.IsSpelled) (hl : ∀ s ∈ leads, s.placement = 1)
    (hmem : .universal ∈ leads) (hcrowd : leads ≠ [.universal]) (htail : EndsSimple tail)
    {sofar : List Simple} (hsofar : ∀ s ∈ sofar, s = .parent) :
    ∃ mistake, readComponents sofar (spelling leads ++ tail) = .error mistake := by
  obtain ⟨types, more, rfl, ht, hmore⟩ := exists_types hl
  obtain ⟨hst, hsm⟩ := List.forall_mem_append.1 hs
  obtain ⟨-, hlm⟩ := List.forall_mem_append.1 hl
  obtain rfl | ⟨others, rfl⟩ := hmore
  · rw [List.append_nil] at hmem
    obtain ⟨name, h⟩ := ht _ hmem
    cases h
  cases types with
  | nil =>
    have hne : others ≠ [] := by
      rintro rfl
      exact hcrowd rfl
    have hstep : readComponents sofar ('*' :: (spelling others ++ tail)) =
        readComponents (sofar ++ [.universal]) (spelling others ++ tail) :=
      readComponents_next (readFirst_universal _) (.inr hsofar)
    change ∃ mistake, readComponents sofar ('*' :: (spelling others ++ tail)) = .error mistake
    rw [hstep]
    exact readComponents_leads_error (List.forall_mem_cons.1 hsm).2 (List.forall_mem_cons.1 hlm).2 hne
      htail ⟨_, List.mem_append_right _ (List.mem_singleton_self _), by decide⟩
  | cons s types =>
    -- the types are read as one, and the `*` behind them is misplaced
    have hread := readFirst_types hst ht (List.cons_ne_nil _ _)
      (endsName_leads (.inr ⟨others, rfl⟩) htail)
    rw [spelling_append, List.append_assoc, readComponents_next hread (.inr hsofar)]
    exact readComponents_leads_error hsm hlm (List.cons_ne_nil _ _) htail
      ⟨_, List.mem_append_right _ (List.mem_singleton_self _), by simp⟩

/-- What stands behind `&` is no suffix exactly when a type there begins with a letter. -/
lemma isSuffixStart_leads (hs : ∀ s ∈ leads, s.IsSpelled) (hl : ∀ s ∈ leads, s.placement = 1)
    (halone : .universal ∈ leads → leads = [.universal]) (htail : EndsSimple tail) :
    (spelling leads ++ tail).head?.any isSuffixStart = false ↔
      ∀ name ∈ leads.findSome? typeName?, ∀ ch ∈ name.toList.head?, ch.isAlpha := by
  cases leads with
  | nil => exact ⟨fun _ name h => absurd h (by simp), fun _ => isSuffixStart_of_endsSimple htail⟩
  | cons s leads =>
    obtain rfl | ⟨name, rfl⟩ := placement_eq_one.1 (hl s List.mem_cons_self)
    · rw [halone List.mem_cons_self]
      exact ⟨fun _ name h => absurd h (by simp [typeName?]), fun _ => rfl⟩
    · obtain ⟨hname, -, -⟩ := hs _ List.mem_cons_self
      obtain ⟨c, cs, hcons⟩ := List.exists_cons_of_ne_nil hname.1
      have hhead : (spelling (.type name :: leads) ++ tail).head? = some c := by
        rw [spelling_cons, text, hcons]
        rfl
      have hfirst : (Simple.type name :: leads).findSome? typeName? = some name := rfl
      rw [hcons] at hname
      have hident : isIdentChar c ∨ c = '\\' := hname.head
      have hescape : c = '\\' → c.isAlpha = false := by
        rintro rfl
        decide
      -- among the characters that begin a name only letters are no suffix
      have hstart : isSuffixStart c = false ↔ c.isAlpha := by
        simp only [isSuffixStart, Bool.or_eq_false_iff, Bool.and_eq_false_iff, decide_eq_false_iff_not,
          Bool.not_eq_false']
        grind
      rw [hhead, hfirst, Option.any_some, hstart]
      simp [hcons]

end Leads

/-! ## Compounds -/

/-- The text of a readable compound is read through its end. -/
theorem readComponents_text {c : Compound} {rest : List Char} (h : c.IsComposed) (hr : c.IsReadable)
    (hrest : EndsCompound rest) :
    readComponents [] (c.text.toList ++ rest) = .ok (c.reread.components, rest) := by
  obtain ⟨parents, leads, others, heq, hp, hl, ho⟩ := h.isLed
  have hs := h.isSpelled
  obtain ⟨htype, halone, hvalues⟩ := hr
  rw [← Compound.universal_mem_leads, Compound.leads_eq heq hp hl ho] at halone
  rw [Compound.findSome?_typeName?_eq heq hp ho] at htype
  rw [Compound.reread, Compound.filter_parent_eq heq hp hl ho, Compound.leads_eq heq hp hl ho,
    Compound.filter_others_eq heq hp hl ho, toList_text]
  rw [heq] at hs hvalues ⊢
  obtain ⟨hs, hso⟩ := List.forall_mem_append.1 hs
  obtain ⟨-, hsl⟩ := List.forall_mem_append.1 hs
  obtain ⟨-, hvo⟩ := List.forall_mem_append.1 hvalues
  have htail := endsSimple_others ho hrest.endsSimple
  rw [spelling_append, spelling_append, List.append_assoc, List.append_assoc,
    readComponents_parents hp (List.forall_mem_nil _), List.nil_append,
    readComponents_leads hsl hl halone htail hp, readComponents_others hso hvo ho hrest]
  exact fun hne =>
    (isSuffixStart_leads hsl hl halone htail).2 (htype ((Compound.parent_mem_iff heq hp hl ho).2 hne))

/-- A compound that is not readable is a mistake. -/
theorem readComponents_text_error {c : Compound} {rest : List Char} (h : c.IsComposed)
    (hr : ¬c.IsReadable) (hrest : EndsCompound rest) :
    ∃ mistake, readComponents [] (c.text.toList ++ rest) = .error mistake := by
  obtain ⟨parents, leads, others, heq, hp, hl, ho⟩ := h.isLed
  have hs := h.isSpelled
  have htail := endsSimple_others ho hrest.endsSimple
  rw [heq] at hs
  obtain ⟨hspl, hso⟩ := List.forall_mem_append.1 hs
  obtain ⟨hsp, hsl⟩ := List.forall_mem_append.1 hspl
  rw [toList_text, heq, spelling_append, spelling_append, List.append_assoc, List.append_assoc]
  -- the first fault is a suffix, else a crowded `*`, else a value that vanishes
  by_cases hsuffix : parents ≠ [] ∧ (spelling leads ++ (spelling others ++ rest)).head?.any isSuffixStart
  · exact ⟨_, readComponents_parents_error hp hsuffix.1 hsuffix.2⟩
  have hclear : parents ≠ [] →
      (spelling leads ++ (spelling others ++ rest)).head?.any isSuffixStart = false := fun hne =>
    Bool.eq_false_iff.2 fun hstart => hsuffix ⟨hne, hstart⟩
  rw [readComponents_parents hp (List.forall_mem_nil _) hclear, List.nil_append]
  by_cases halone : .universal ∈ leads → leads = [.universal]
  · rw [readComponents_leads hsl hl halone htail hp]
    refine readComponents_others_error hso ?_ ho hrest _
    by_contra hvalues
    apply hr
    refine ⟨fun hparent => ?_, fun huniversal => ?_, ?_⟩
    · rw [Compound.findSome?_typeName?_eq heq hp ho]
      exact (isSuffixStart_leads hsl hl halone htail).1
        (hclear ((Compound.parent_mem_iff heq hp hl ho).1 hparent))
    · rw [← Compound.universal_mem_leads, Compound.leads_eq heq hp hl ho] at huniversal
      rw [Compound.leads_eq heq hp hl ho, halone huniversal]
    · intro s hs
      by_contra hbad
      have hother : s.isTypeLike = false :=
        Bool.eq_false_iff.2 fun hlead => hbad (isReadable_of_isTypeLike hlead)
      refine hvalues ⟨s, ?_, hbad⟩
      rw [← Compound.filter_others_eq heq hp hl ho]
      exact List.mem_filter.2 ⟨hs, by rw [hother]; rfl⟩
  · obtain ⟨hmem, hcrowd⟩ := Classical.not_imp.1 halone
    exact readComponents_leads_crowded hsl hl hmem hcrowd htail hp

end ScssExtend.Grammar
