import ScssExtend.Proofs.Stylesheet.Progress
import ScssExtend.Proofs.Token.Starts

/-!
# Statements stand where their tokens do

A statement gets the place where its first token stands, and the targets of a directive get theirs. Read in document
order, the places in a tree are those of tokens of the stream, white space and the end of the input apart, in their
order there and each at most once (`Stylesheet.places_sublist`): opening a block adds a place behind those of what was
read before, and closing it moves none. So the statements of a source text stand at later and later positions
(`Stylesheet.positions_increase`).
-/

namespace ScssExtend

open scoped List

mutual

/-- The statement and those in its block, in document order. -/
def Statement.preorder : Statement → List Statement
  | s@(.rule _ body _) | s@(.media _ body _) | s@(.keyframe _ body _) | s@(.atBlock _ _ body _) =>
    s :: Statement.bodyPreorder body
  | s@(.atRule ..) | s@(.declaration ..) | s@(.extend ..) => [s]

/-- All statements in a block, those of nested blocks included, in document order. -/
def Statement.bodyPreorder : List Statement → List Statement
  | [] => []
  | s :: ss => s.preorder ++ Statement.bodyPreorder ss

end

/-- All statements of the stylesheet, in document order. -/
def Stylesheet.preorder (sheet : Stylesheet) : List Statement :=
  Statement.bodyPreorder sheet.statements

namespace Statement

/-- The places in a block, in document order. -/
def bodyPlaces (body : List Statement) : List Position :=
  (bodyPreorder body).flatMap ownPlaces

/-- A rule and its selectors have the same place. -/
def IsPlaced : Statement → Prop
  | .rule selector _ position => selector.position = position
  | _ => True

/-- The statements of two blocks stand one behind the other. -/
lemma bodyPreorder_append (body more : List Statement) :
    bodyPreorder (body ++ more) = bodyPreorder body ++ bodyPreorder more := by
  induction body with
  | nil => rfl
  | cons s ss ih => rw [List.cons_append, bodyPreorder, bodyPreorder, ih, List.append_assoc]

/-- A statement at the end of a block comes last. -/
lemma bodyPreorder_concat (body : List Statement) (s : Statement) :
    bodyPreorder (body ++ [s]) = bodyPreorder body ++ s.preorder := by
  rw [bodyPreorder_append, bodyPreorder, bodyPreorder, List.append_nil]

/-- A statement without a block stands alone. -/
lemma preorder_of_hasBlock {s : Statement} (h : s.hasBlock = false) : s.preorder = [s] := by
  cases s with
  | atRule | declaration | extend => rfl
  | rule | media | keyframe | atBlock => cases h

/-- A statement without a block is no rule, so that it has no selectors to be placed. -/
lemma isPlaced_of_hasBlock {s : Statement} (h : s.hasBlock = false) : s.IsPlaced := by
  cases s with
  | rule => cases h
  | _ => trivial

/-- The places of a statement at the end of a block come last. -/
lemma bodyPlaces_concat (body : List Statement) (s : Statement) :
    bodyPlaces (body ++ [s]) = bodyPlaces body ++ s.preorder.flatMap ownPlaces := by
  rw [bodyPlaces, bodyPreorder_concat, List.flatMap_append]
  rfl

end Statement

namespace Parser

open Grammar Statement

variable {ending position : Position} {st st' : State} {us ts rest : List PlacedToken} {statements : List Statement}

/-- The statement that a block makes stands where the block was opened, in front of those in it. -/
lemma preorder_of_close {header : Header} {body : List Statement} {s : Statement}
    (h : header.close position body = .ok s) :
    s.preorder = s :: bodyPreorder body ∧ s.ownPlaces = [position] ∧ s.IsPlaced := by
  cases header with
  | rule text =>
    obtain ⟨selector, hparse, h⟩ := bind_eq_ok.1 h
    cases h
    exact ⟨rfl, rfl, (SelectorList.readSelectors_of_parse hparse).2⟩
  | media query =>
    cases h
    exact ⟨rfl, rfl, trivial⟩
  | keyframe step =>
    cases h
    exact ⟨rfl, rfl, trivial⟩
  | atBlock name preludeText =>
    cases h
    exact ⟨rfl, rfl, trivial⟩

/-- The places of a closed block are where it was opened and those in it. -/
lemma places_of_close {header : Header} {body : List Statement} {s : Statement}
    (h : header.close position body = .ok s) :
    s.preorder.flatMap ownPlaces = position :: bodyPlaces body := by
  obtain ⟨hpreorder, hplaces, -⟩ := preorder_of_close h
  rw [hpreorder, List.flatMap_cons, hplaces]
  rfl

/-! ## The places that were read so far -/

/-- The places of what was read so far, in document order, open blocks included. -/
def State.places (st : State) : List Position :=
  (st.frames.reverse.flatMap fun f => bodyPlaces f.before ++ [f.position]) ++ bodyPlaces st.statements

/-- A step adds places of tokens that it takes, behind those of what was read before. -/
lemma Takes.places (h : Takes st us (.next st' rest)) :
    ∃ new, st'.places = st.places ++ new ∧ new <+ starts us := by
  cases h with
  | skip => exact ⟨[], by simp, List.nil_sublist _⟩
  | @add s _ _ hblock hplaces =>
    refine ⟨s.ownPlaces, ?_, hplaces⟩
    simp [State.places, State.add, bodyPlaces_concat, preorder_of_hasBlock hblock]
  | @enter header position _ _ _ _ hplaces =>
    refine ⟨[position], ?_, hplaces⟩
    simp [State.places, State.enter, bodyPlaces, bodyPreorder]
  | close _ hframes hclose =>
    refine ⟨[], ?_, List.nil_sublist _⟩
    simp [State.places, hframes, bodyPlaces_concat, places_of_close hclose]

/-- A run adds the places of significant tokens, in their order. -/
lemma places_of_run (h : run ending st ts = .ok (statements, rest)) :
    ∃ new, bodyPlaces statements = st.places ++ new ∧ new <+ starts ts := by
  fun_induction run ending st ts with
  | case1 => cases h
  | case2 st ts statements' rest' hstep =>
    cases h
    obtain ⟨us, -, htakes⟩ := takes_of_step hstep
    cases htakes with
    | done hframes => exact ⟨[], by simp [State.places, hframes], List.nil_sublist _⟩
  | case3 st ts st' rest' hstep _ ih =>
    obtain ⟨us, htaken, htakes⟩ := takes_of_step hstep
    obtain ⟨new, hnew, hstarts⟩ := htakes.places
    obtain ⟨more, hmore, hstarts'⟩ := ih h
    refine ⟨new ++ more, by rw [hmore, hnew, List.append_assoc], ?_⟩
    rw [htaken.starts_eq]
    exact hstarts.append hstarts'

/-! ## The places of rules and of their selectors -/

/-- In what was read so far every rule has the place of its selectors. -/
structure State.IsPlaced (st : State) : Prop where
  statements : ∀ s ∈ bodyPreorder st.statements, s.IsPlaced
  frames : ∀ f ∈ st.frames, ∀ s ∈ bodyPreorder f.before, s.IsPlaced

/-- A placed statement may be added to placed ones. -/
lemma isPlaced_concat {body : List Statement} {s : Statement} (hbody : ∀ t ∈ bodyPreorder body, t.IsPlaced)
    (hs : ∀ t ∈ s.preorder, t.IsPlaced) : ∀ t ∈ bodyPreorder (body ++ [s]), t.IsPlaced := by
  rw [bodyPreorder_concat]
  exact List.forall_mem_append.2 ⟨hbody, hs⟩

/-- A step keeps rules and their selectors at one place. -/
lemma Takes.isPlaced (h : Takes st us (.next st' rest)) (hst : st.IsPlaced) : st'.IsPlaced := by
  cases h with
  | skip => exact hst
  | @add s _ _ hblock _ =>
    refine ⟨isPlaced_concat hst.statements ?_, hst.frames⟩
    rw [preorder_of_hasBlock hblock]
    exact List.forall_mem_singleton.2 (isPlaced_of_hasBlock hblock)
  | enter => exact ⟨List.forall_mem_nil _, List.forall_mem_cons.2 ⟨hst.statements, hst.frames⟩⟩
  | close _ hframes hclose =>
    obtain ⟨hbody, hbefore⟩ := hst
    rw [hframes] at hbefore
    obtain ⟨hframe, hframes⟩ := List.forall_mem_cons.1 hbefore
    obtain ⟨hpreorder, -, hs⟩ := preorder_of_close hclose
    refine ⟨isPlaced_concat hframe ?_, hframes⟩
    rw [hpreorder]
    exact List.forall_mem_cons.2 ⟨hs, hbody⟩

/-- A run gives rules whose selectors have the same place. -/
lemma isPlaced_of_run (h : run ending st ts = .ok (statements, rest)) (hst : st.IsPlaced) :
    ∀ s ∈ bodyPreorder statements, s.IsPlaced := by
  fun_induction run ending st ts with
  | case1 => cases h
  | case2 st ts statements' rest' hstep =>
    cases h
    obtain ⟨us, -, htakes⟩ := takes_of_step hstep
    cases htakes with
    | done => exact hst.statements
  | case3 st ts st' rest' hstep _ ih =>
    obtain ⟨us, -, htakes⟩ := takes_of_step hstep
    exact ih h (htakes.isPlaced hst)

end Parser

namespace Stylesheet

/-- The places in a tree are those of significant tokens of the stream, in their order. -/
theorem places_sublist {tokens : List PlacedToken} {sheet : Stylesheet} (h : ofTokens tokens = .ok sheet) :
    sheet.preorder.flatMap Statement.ownPlaces <+ Parser.starts tokens := by
  obtain ⟨rest, hrun⟩ := run_of_ofTokens h
  obtain ⟨new, hnew, hstarts⟩ := Parser.places_of_run hrun
  rw [preorder, ← Statement.bodyPlaces, hnew]
  exact hstarts

/-- In a stylesheet that is read from a source text, the statements stand in document order at later and later
places, each at that of a token that is neither white space nor the end of the input. A rule has the place of its
selectors. The targets of a directive stand behind it and in front of all that follows it. -/
theorem positions_increase {source : String} {sheet : Stylesheet} (hcounts : Position.Counts source.toList)
    (h : parse source = .ok sheet) :
    sheet.preorder.Pairwise (fun s t => s.position < t.position) ∧
    (∀ s ∈ sheet.preorder, ∃ t ∈ Lexer.tokenize source, t.token.isSignificant ∧ t.position = s.position) ∧
    (∀ selector body position, .rule selector body position ∈ sheet.preorder → selector.position = position) ∧
    ∀ before targets optional position after,
      sheet.preorder = before ++ .extend targets optional position :: after →
      position < targets.position ∧ ∀ s ∈ after, targets.position < s.position := by
  have hplaces := places_sublist h
  have hown (s : Statement) : s.position ∈ s.ownPlaces := by
    cases s <;> exact List.mem_cons_self
  have hstarts : (Parser.starts (Lexer.tokenize source)).Pairwise (· < ·) :=
    List.pairwise_map.2 ((Lexer.pairwise_tokenize hcounts).sublist List.filter_sublist)
  obtain ⟨hwithin, hbetween⟩ := List.pairwise_flatMap.1 (hstarts.sublist hplaces)
  refine ⟨hbetween.imp fun {s t} hst => hst _ (hown s) _ (hown t), fun s hs => ?_, ?_, ?_⟩
  · exact Parser.mem_starts.1 (hplaces.subset (List.mem_flatMap.2 ⟨s, hs, hown s⟩))
  · intro selector body position hmem
    obtain ⟨rest, hrun⟩ := run_of_ofTokens h
    exact Parser.isPlaced_of_run hrun ⟨List.forall_mem_nil _, List.forall_mem_nil _⟩ _ hmem
  · intro before targets optional position after heq
    rw [heq] at hwithin hbetween
    obtain ⟨-, hbehind, -⟩ := List.pairwise_append.1 hbetween
    refine ⟨?_, fun s hs => ?_⟩
    · have hpair := hwithin _ (List.mem_append_right _ List.mem_cons_self)
      exact List.rel_of_pairwise_cons hpair (List.mem_singleton_self _)
    · exact List.rel_of_pairwise_cons hbehind hs _ (by simp [Statement.ownPlaces]) _ (hown s)

/-- Comments and line breaks between the statements, nested rules, a directive and a keyframe step. -/
theorem positions_increase_nested : ∃ source sheet,
    source = "/* a */ @media x \x7b\n.a, b \x7b c: d; @extend /* b */ .t;\n&:hover \x7b\x7d e: f \x7d \x7d" ++
      "@keyframes k \x7b from \x7b g: h \x7d \x7d" ∧
    Position.Counts source.toList ∧ parse source = .ok sheet ∧
    sheet.preorder.flatMap Statement.ownPlaces =
      [⟨1, 9⟩, ⟨2, 1⟩, ⟨2, 9⟩, ⟨2, 15⟩, ⟨2, 31⟩, ⟨3, 1⟩, ⟨3, 12⟩, ⟨3, 20⟩, ⟨3, 35⟩, ⟨3, 42⟩] ∧
    sheet.preorder.Pairwise (fun s t => s.position < t.position) ∧
    (∀ s ∈ sheet.preorder, ∃ t ∈ Lexer.tokenize source, t.token.isSignificant ∧ t.position = s.position) ∧
    ∃ before targets optional after, sheet.preorder = before ++ .extend targets optional ⟨2, 15⟩ :: after ∧
      ⟨2, 15⟩ < targets.position ∧ ∀ s ∈ after, targets.position < s.position := by
  let source := "/* a */ @media x \x7b\n.a, b \x7b c: d; @extend /* b */ .t;\n&:hover \x7b\x7d e: f \x7d \x7d" ++
    "@keyframes k \x7b from \x7b g: h \x7d \x7d"
  have hcounts : Position.Counts source.toList := Position.counts_of_length (by decide +kernel)
  obtain ⟨sheet, hparse, hplaces, hdirective⟩ : ∃ sheet, parse source = .ok sheet ∧
      sheet.preorder.flatMap Statement.ownPlaces =
        [⟨1, 9⟩, ⟨2, 1⟩, ⟨2, 9⟩, ⟨2, 15⟩, ⟨2, 31⟩, ⟨3, 1⟩, ⟨3, 12⟩, ⟨3, 20⟩, ⟨3, 35⟩, ⟨3, 42⟩] ∧
      [⟨2, 15⟩, ⟨2, 31⟩] ∈ sheet.preorder.map Statement.ownPlaces :=
    exists_of_any_toOption (by decide +kernel)
  obtain ⟨hincrease, htokens, -, htargets⟩ := positions_increase hcounts hparse
  obtain ⟨s, hs, hextend⟩ := List.mem_map.1 hdirective
  obtain ⟨before, after, hsplit⟩ := List.append_of_mem hs
  cases s with
  | extend targets optional position =>
    obtain ⟨rfl, -⟩ : position = ⟨2, 15⟩ ∧ [targets.position] = [⟨2, 31⟩] := List.cons_eq_cons.1 hextend
    exact ⟨source, sheet, rfl, hcounts, hparse, hplaces, hincrease, htokens, before, targets, optional, after, hsplit,
      htargets _ _ _ _ _ hsplit⟩
  | _ => cases hextend

end Stylesheet

end ScssExtend
