import ScssExtend.Proofs.Stylesheet.Sources

/-!
# Reading a printed stylesheet

`StandsBefore` says where in a text a stream of tokens stands, white space apart, and `Rereads` that the reader gets
over what was printed for some statements, with statements that are printed like them. Statement by statement this
holds of all that is printed for a stylesheet whose texts are settled (`Parser.rereads_body`): none of the
printer's own braces, semicolons and margins gets into a text, and no text into another one. So the print of such a
stylesheet is a fixed point of reading and printing (`Stylesheet.print_fixpoint_of_parse`).
-/

namespace ScssExtend

namespace Parser

open Lexer Prelude Text

variable {ending : Position} {st : State} {ts : List PlacedToken} {cs : List Char}

/-! ## Standing in a text -/

/-- The stream is that of the text, white space at the beginning apart. -/
def StandsBefore (ts : List PlacedToken) (cs : List Char) : Prop :=
  lead (ts.map PlacedToken.token) = lead (tokensOf cs)

/-- The stream behind its first white space, cut at a token of the text. -/
lemma StandsBefore.exists_split {us vs : List Token} {t : Token} (h : StandsBefore ts cs)
    (hcs : tokensOf cs = us ++ t :: vs) (ht : t ≠ .whitespace) : ∃ us' t' vs',
      ts.dropWhile (·.token == .whitespace) = us' ++ t' :: vs' ∧ us'.map PlacedToken.token = lead us ∧
        t'.token = t ∧ vs'.map PlacedToken.token = vs := by
  have hlead : (ts.dropWhile (·.token == .whitespace)).map PlacedToken.token = lead us ++ t :: vs := by
    rw [map_token_dropWhile, h, hcs, lead, List.dropWhile_append]
    split
    · next hempty => simp [lead, List.isEmpty_iff.1 hempty, ht]
    · rfl
  obtain ⟨us', rest, heq, hus, hrest⟩ := List.map_eq_append_iff.1 hlead
  obtain ⟨t', vs', rfl, ht', hvs⟩ := List.map_eq_cons_iff.1 hrest
  exact ⟨us', t', vs', heq, hus, ht', hvs⟩

/-- The first token of a text stands behind the leading space of the stream. -/
lemma StandsBefore.exists_cons {vs : List Token} {t : Token} (h : StandsBefore ts cs) (hcs : tokensOf cs = t :: vs)
    (ht : t ≠ .whitespace) : ∃ t' vs', ts.dropWhile (·.token == .whitespace) = t' :: vs' ∧ t'.token = t ∧
      vs'.map PlacedToken.token = vs := by
  rw [← List.nil_append (t :: vs)] at hcs
  obtain ⟨us, t', vs', hdrop, hus, ht', hvs⟩ := h.exists_split hcs ht
  obtain rfl : us = [] := List.map_eq_nil_iff.1 hus
  exact ⟨t', vs', hdrop, ht', hvs⟩

/-! ## Reading what was printed -/

/-- From the stream on, the reader gets in front of the text and has added statements that are printed like `ss`. -/
def Rereads (ending : Position) (st : State) (ts : List PlacedToken) (ss : List Statement) (cs : List Char) : Prop :=
  ∃ ts' ss', Relation.ReflTransGen (Goes ending) (st, ts) (⟨st.frames, st.statements ++ ss'⟩, ts') ∧
    StandsBefore ts' cs ∧ ∀ level, Statement.printBody level ss' = Statement.printBody level ss

/-- Statements are printed one behind the other. -/
lemma printBody_append (level : Nat) (ss ss' : List Statement) : Statement.printBody level (ss ++ ss') =
    Statement.printBody level ss ++ Statement.printBody level ss' := by
  induction ss with
  | nil => simp [Statement.printBody]
  | cons s ss ih => rw [List.cons_append, Statement.printBody, ih, Statement.printBody, String.append_assoc]

/-- No statements are reread where the stream stands. -/
lemma rereads_nil (h : StandsBefore ts cs) : Rereads ending st ts [] cs :=
  ⟨ts, [], by simpa using .refl, h, fun _ => rfl⟩

/-- The first statement is reread, and then the others from wherever that led. -/
lemma Rereads.cons {s : Statement} {ss : List Statement} {ds : List Char} (hs : Rereads ending st ts [s] ds)
    (hss : ∀ statements ts', StandsBefore ts' ds → Rereads ending ⟨st.frames, statements⟩ ts' ss cs) :
    Rereads ending st ts (s :: ss) cs := by
  obtain ⟨ts', ss', hgoes, hts', hprint⟩ := hs
  obtain ⟨ts'', ss'', hgoes', hts'', hprint'⟩ := hss _ ts' hts'
  refine ⟨ts'', ss' ++ ss'', ?_, hts'', fun level => ?_⟩
  · rw [← List.append_assoc]
    exact hgoes.trans hgoes'
  · rw [printBody_append, hprint, hprint', ← printBody_append]
    rfl

/-- A block of one statement is printed as that statement. -/
lemma printBody_singleton (level : Nat) (s : Statement) : Statement.printBody level [s] = s.print level := by
  simp [Statement.printBody]

/-- A statement without a block is read in one step. -/
lemma rereads_of_goes {s s' : Statement} {rest : List PlacedToken}
    (hgoes : Goes ending (st, ts.dropWhile (·.token == .whitespace)) (st.add s', rest))
    (hrest : rest.map PlacedToken.token = tokensOf ('\n' :: cs)) (hprint : ∀ level, s'.print level = s.print level) :
    Rereads ending st ts [s] cs := by
  refine ⟨rest, [s'], (goes_dropWhile ending st ts).tail hgoes, ?_, fun level => ?_⟩
  · rw [StandsBefore, hrest, lead_space rfl]
  · rw [printBody_singleton, printBody_singleton, hprint]

/-! ## Blocks -/

/-- A block is read when its header is, its contents are and the statement can be made of both. -/
lemma rereads_block {s : Statement} {header : Header} {position : Position} {body : List Statement} {level : Nat}
    {rest : List PlacedToken} {opens : Bool}
    (hgoes : Goes ending (st, ts.dropWhile (·.token == .whitespace)) (st.enter header position, rest))
    (hrest : rest.map PlacedToken.token =
      tokensOf (Printer.blockTail level (Statement.printBody (level + 1) body) ++ cs))
    (hbody : ∀ st' ts' cs', st'.inKeyframes = header.isKeyframes → (opens → NeverOpens (tokensOf cs')) →
      StandsBefore ts' ((Statement.printBody (level + 1) body).toList ++ cs') → Rereads ending st' ts' body cs')
    (hcs : opens → NeverOpens (tokensOf cs))
    (hclose : ∀ body', (∀ level, Statement.printBody level body' = Statement.printBody level body) →
      ∃ s', header.close position body' = .ok s' ∧ ∀ level, s'.print level = s.print level) :
    Rereads ending st ts [s] cs := by
  -- the contents are read behind the brace; then the stream stands in the margin of the closing one
  obtain ⟨ts', body', hgoes', hts', hprint⟩ := hbody (st.enter header position) rest
    ((Printer.margin level).toList ++ '}' :: '\n' :: cs) (inKeyframes_eq _)
    (fun hopens => Printer.neverOpens_closing level (hcs hopens))
    (by rw [StandsBefore, hrest, Printer.lead_blockTail])
  obtain ⟨s', hs', hprint'⟩ := hclose body' hprint
  rw [StandsBefore, lead_spaces (Printer.isSpace_margin level)] at hts'
  obtain ⟨brace, rest', hdrop, hbrace, hrest'⟩ :=
    StandsBefore.exists_cons hts' (tokensOf_punctuation (by rfl) _) (by simp)
  refine ⟨rest', [s'], ?_, ?_, fun level => ?_⟩
  · refine ((((goes_dropWhile ending st ts).tail hgoes).trans hgoes').trans (goes_dropWhile ending _ ts')).tail ?_
    rw [hdrop]
    exact goes_close ⟨header, position, st.statements⟩ rfl hs' hbrace
  · rw [StandsBefore, hrest', lead_space rfl]
  · rw [printBody_singleton, printBody_singleton, hprint']

/-! ## Settled texts are read as they were printed -/

/-- Padding makes no difference to whether a plain token comes first. -/
lemma head_lead_of_pads {us vs : List Token} (h : Pads us vs) (hplain : us.head?.all isPlain) :
    (lead vs).head?.all isPlain := by
  induction h with
  | refl =>
    cases us with
    | nil => rfl
    | cons u us =>
      have hu : u ≠ .whitespace := by
        rintro rfl
        cases hplain
      rwa [lead, List.dropWhile_cons_of_neg (by simpa using hu)]
  | front _ ih => exact ih
  | @behind vs _ ih =>
    rw [lead, List.dropWhile_append]
    split
    · rfl
    · next hne =>
      rw [List.head?_append_of_ne_nil _ (by simpa [List.isEmpty_iff] using hne)]
      exact ih

/-- The header of a rule or of a keyframe step is read as it was printed. -/
lemma goes_printed_header (ending : Position) (st : State) {opens : Bool} {text : String} {level : Nat}
    {tail : List Char} (h : Printer.IsSettledHeader opens text)
    (hts : StandsBefore ts ((Printer.margin level).toList ++ (text.toList ++ ' ' :: '{' :: tail))) :
    ∃ position rest, rest.map PlacedToken.token = tokensOf tail ∧
      Goes ending (st, ts.dropWhile (·.token == .whitespace))
        (st.enter ((if st.inKeyframes then Header.keyframe else Header.rule) text) position, rest) := by
  obtain ⟨us, hwritten, ⟨hprelude, -⟩, hplain⟩ := h
  obtain ⟨us', htokens, hpads⟩ := Printer.tokensOf_prelude true hwritten tail
  rw [StandsBefore, lead_spaces (Printer.isSpace_margin level)] at hts
  obtain ⟨vs, brace, rest, hdrop, hvs, hbrace, hrest⟩ := StandsBefore.exists_split hts htokens (by decide)
  rw [← isPrelude_congr hpads.brackets_eq, ← isPrelude_congr (brackets_lead _), ← hvs] at hprelude
  have hhead := head_lead_of_pads hpads hplain
  rw [← hvs] at hhead
  obtain ⟨position, hgoes⟩ := goes_header ending st rest hprelude hhead hbrace
  rw [hvs, serialize_lead, hpads.serialize_eq, hwritten.serialize_eq] at hgoes
  rw [hdrop]
  exact ⟨position, rest, hrest, hgoes⟩

/-- What is printed for an at-rule is read as its keyword and a prelude with its text. -/
lemma exists_split_atRule (block : Bool) (level : Nat) {name preludeText : String} {us us' : List Token}
    {tail : List Char} (hts : StandsBefore ts ((Printer.margin level).toList ++ cs))
    (htokens : tokensOf cs = .atKeyword name :: (us' ++ Printer.stopToken block :: tokensOf tail))
    (hpads : Pads us us') (hprelude : isPrelude 0 us) (htext : serialize us = preludeText) :
    ∃ keyword vs stop rest, ts.dropWhile (·.token == .whitespace) = keyword :: (vs ++ stop :: rest) ∧
      keyword.token = .atKeyword name ∧ isPrelude 0 (vs.map PlacedToken.token) ∧
      serialize (vs.map PlacedToken.token) = preludeText ∧ stop.token = Printer.stopToken block ∧
      rest.map PlacedToken.token = tokensOf tail := by
  rw [StandsBefore, lead_spaces (Printer.isSpace_margin level)] at hts
  obtain ⟨keyword, more, hdrop, hkeyword, hmore⟩ := StandsBefore.exists_cons hts htokens (by simp)
  obtain ⟨vs, rest, rfl, hvs, hrest⟩ := List.map_eq_append_iff.1 hmore
  obtain ⟨stop, rest, rfl, hstop, hrest⟩ := List.map_eq_cons_iff.1 hrest
  refine ⟨keyword, vs, stop, rest, hdrop, hkeyword, ?_, ?_, hstop, hrest⟩
  · rwa [hvs, isPrelude_congr hpads.brackets_eq]
  · rwa [hvs, hpads.serialize_eq]

/-- The flag and the value that are read are those that were printed. -/
lemma stripFlag_printed {value : String} {important : Bool} {vs vs' : List Token}
    (hwritten : Printer.IsWritten (Printer.behindValue important) value vs)
    (hflag : important ∨ (stripFlag "important" vs).2 = false)
    (hvs : vs' = vs ++ Printer.flagTokens important ∨ vs' = .whitespace :: (vs ++ Printer.flagTokens important)) :
    (stripFlag "important" vs').2 = important ∧ serialize (stripFlag "important" vs').1 = value := by
  have hvalue := hwritten.serialize_eq
  cases important with
  | false =>
    have hnone := hflag.resolve_left Bool.false_ne_true
    have hnone' : (stripFlag "important" vs').2 = false := by
      obtain rfl | rfl := hvs <;> simpa [Printer.flagTokens, stripFlag_space] using hnone
    refine ⟨hnone', ?_⟩
    rw [stripFlag_of_false hnone', serialize_dropTrailingSpace]
    obtain rfl | rfl := hvs <;> simpa [Printer.flagTokens, serialize_space] using hvalue
  | true =>
    obtain ⟨front, rfl, hfront⟩ : ∃ front, vs' = front ++ [.delim '!', .ident "important"] ∧
        serialize front = value := by
      obtain rfl | rfl := hvs
      · exact ⟨vs ++ [.whitespace], by simp [Printer.flagTokens], by rwa [serialize_concat_space]⟩
      · exact ⟨.whitespace :: (vs ++ [.whitespace]), by simp [Printer.flagTokens],
          by rwa [serialize_space, serialize_concat_space]⟩
    rw [stripFlag_append (by decide)]
    exact ⟨rfl, by rwa [serialize_dropTrailingSpace]⟩

/-- No block is taken to follow a declaration: outside of brackets the semicolon tells it, and brackets that the
declaration leaves open are not closed in front of a brace. -/
lemma startsBlock_printed_declaration {opens : Bool} {ns vs : List Token} {us rest : List PlacedToken}
    {semicolon : PlacedToken} {tail : List Char} (hus : brackets (us.map PlacedToken.token) = brackets (ns ++ vs))
    (hclosed : if opens then (depthBehind? 0 (ns ++ vs)).isSome ∧ closesNothing 0 (ns ++ vs)
      else isPrelude 0 (ns ++ vs))
    (hsemicolon : semicolon.token = .semicolon) (hrest : rest.map PlacedToken.token = tokensOf tail)
    (htail : opens → NeverOpens (tokensOf tail)) : startsBlock 0 (us ++ semicolon :: rest) = false := by
  have hthrough (depth : Nat) (hdepth : depthBehind? 0 (ns ++ vs) = some depth)
      (hbehind : startsBlock depth (semicolon :: rest) = false) : startsBlock 0 (us ++ semicolon :: rest) = false := by
    rw [← depthBehind?_congr hus] at hdepth
    rw [startsBlock_through hdepth, hbehind]
  have hend : startsBlock 0 (semicolon :: rest) = false := by
    simp [startsBlock, hsemicolon, isStop]
  cases opens with
  | false => exact hthrough 0 (isPrelude_iff.1 hclosed) hend
  | true =>
    obtain ⟨depth, hsome⟩ := Option.isSome_iff_exists.1 hclosed.1
    refine hthrough depth hsome ?_
    cases depth with
    | zero => exact hend
    | succ depth => exact (htail rfl).cons (t := .semicolon) rfl (by simp) _ (by simp [hsemicolon, hrest]) depth

/-- A declaration is read as it was printed. -/
lemma goes_printed_declaration (ending : Position) (st : State) {opens : Bool} {name value : String} {important : Bool}
    {level : Nat} {tail : List Char} (h : Printer.IsSettledDeclaration opens name value important)
    (hne : name.isEmpty = false) (htail : opens → NeverOpens (tokensOf tail))
    (hts : StandsBefore ts
      ((Printer.margin level).toList ++ ((Printer.declaration name value important).toList ++ tail))) :
    ∃ position rest, rest.map PlacedToken.token = tokensOf tail ∧
      Goes ending (st, ts.dropWhile (·.token == .whitespace))
        (st.add (.declaration name value important position), rest) := by
  obtain ⟨ns, vs, hname, hvalue, hplain, hends, hprelude, hflag, hclosed⟩ := h
  obtain ⟨vs', htokens, hvs'⟩ := Printer.tokensOf_declaration hname hvalue tail
  rw [StandsBefore, lead_spaces (Printer.isSpace_margin level)] at hts
  obtain ⟨us, colon, more, hdrop, hus, hcolon, hmore⟩ := StandsBefore.exists_split hts htokens (by decide)
  obtain ⟨ws, more', rfl, hws, hmore'⟩ := List.map_eq_append_iff.1 hmore
  obtain ⟨semicolon, rest, rfl, hsemicolon, hrest⟩ := List.map_eq_cons_iff.1 hmore'
  rw [lead_of_head_isPlain hplain] at hus
  have htaken : (us ++ colon :: ws).map PlacedToken.token = ns ++ .colon :: vs' := by
    rw [List.map_append, List.map_cons, hus, hcolon, hws]
  have hbrackets : brackets ((us ++ colon :: ws).map PlacedToken.token) = brackets (ns ++ vs) := by
    rw [htaken, Printer.brackets_declaration hvs' ns]
  have hnone := startsBlock_printed_declaration hbrackets hclosed hsemicolon hrest htail
  rw [List.append_assoc, List.cons_append] at hnone
  have hhead : ((us ++ colon :: ws).map PlacedToken.token).head?.all isPlain := by
    rw [htaken]
    cases ns with
    | nil => rfl
    | cons n ns => exact hplain
  obtain ⟨hflag', hvalue'⟩ := stripFlag_printed hvalue hflag hvs'
  obtain ⟨position, hgoes⟩ := goes_declaration ending st rest hnone hhead
    (fun u hu => hends _ (by rw [← hus]; exact List.mem_map_of_mem hu)) hcolon
    (by rw [hus, hname.serialize_eq, hne]) (by rwa [hws, isPrelude_congr (Printer.brackets_printed hvs')]) hsemicolon
  rw [hus, hws, hname.serialize_eq, hvalue', hflag'] at hgoes
  rw [hdrop]
  exact ⟨position, rest, hrest, hgoes⟩

/-! ## Statements -/

/-- A selector whose components are stable is read from its text as one with the same text. -/
lemma exists_parse_text {l : SelectorList} (hc : l.IsComposed)
    (ha : ∀ x ∈ l.selectors, ∀ k ∈ x.links, k.compound.IsArranged) (hstable : ∀ s ∈ l.components, s.IsStable)
    (position : Position) :
    ∃ m, SelectorList.parse l.text position = .ok m ∧ m.text = l.text ∧ m.isEmpty = false := by
  have hc' : SelectorList.IsComposed ⟨l.selectors, position⟩ := ⟨hc.nonempty, hc.selectors⟩
  refine ⟨SelectorList.reread ⟨l.selectors, position⟩, ?_, ?_, ?_⟩
  · exact (SelectorList.parse_text_eq_ok_iff hc' ha).2 ⟨fun s hs => (hstable s hs).isReadable, rfl⟩
  · exact String.toList_inj.1 ((SelectorList.keptIf_text hc' ha).eq_iff.2 hstable)
  · simpa [SelectorList.reread, SelectorList.isEmpty] using hc.nonempty

/-- A composed list is not empty. -/
lemma isEmpty_of_isComposed {l : SelectorList} (h : l.IsComposed) : l.isEmpty = false := by
  simpa [SelectorList.isEmpty] using h.nonempty

section Blocks

variable {level : Nat} {body : List Statement} {inKeyframes opens : Bool}
  (hbody : ∀ st' ts' cs', st'.inKeyframes = inKeyframes → (opens → NeverOpens (tokensOf cs')) →
    StandsBefore ts' ((Statement.printBody (level + 1) body).toList ++ cs') → Rereads ending st' ts' body cs')
  (hcs : opens → NeverOpens (tokensOf cs))
include hbody hcs

/-- A rule is reread with the selectors that its text is read as. -/
lemma rereads_rule {selector : SelectorList} {position : Position} (hkeyframes : st.inKeyframes = false)
    (hk : inKeyframes = false) (hc : selector.IsComposed)
    (ha : ∀ x ∈ selector.selectors, ∀ k ∈ x.links, k.compound.IsArranged)
    (hstable : ∀ s ∈ selector.components, s.IsStable) (hsettled : Printer.IsSettledHeader opens selector.text)
    (hts : StandsBefore ts (((Statement.rule selector body position).print level).toList ++ cs)) :
    Rereads ending st ts [.rule selector body position] cs := by
  subst hk
  rw [Statement.print, isEmpty_of_isComposed hc, if_neg Bool.false_ne_true, Printer.toList_block] at hts
  obtain ⟨p, rest, hrest, hgoes⟩ := goes_printed_header ending st hsettled (by simpa using hts)
  rw [hkeyframes, if_neg Bool.false_ne_true] at hgoes
  refine rereads_block hgoes hrest hbody hcs fun body' hprint => ?_
  obtain ⟨m, hm, htext, hempty⟩ := exists_parse_text hc ha hstable p
  refine ⟨.rule m body' p, ?_, fun level => ?_⟩
  · rw [Header.close, hm]
    rfl
  · rw [Statement.print, Statement.print, hempty, isEmpty_of_isComposed hc, htext, hprint]

/-- A keyframe step is reread with the same text. -/
lemma rereads_keyframe {keyframe : String} {position : Position} (hkeyframes : st.inKeyframes = true)
    (hk : inKeyframes = false) (hsettled : Printer.IsSettledHeader opens keyframe)
    (hts : StandsBefore ts (((Statement.keyframe keyframe body position).print level).toList ++ cs)) :
    Rereads ending st ts [.keyframe keyframe body position] cs := by
  subst hk
  rw [Statement.print, Printer.toList_block] at hts
  obtain ⟨p, rest, hrest, hgoes⟩ := goes_printed_header ending st hsettled (by simpa using hts)
  rw [hkeyframes] at hgoes
  refine rereads_block hgoes hrest hbody hcs fun body' hprint => ⟨.keyframe keyframe body' p, rfl, fun level => ?_⟩
  rw [Statement.print, Statement.print, hprint]

/-- A media block is reread with the same query. -/
lemma rereads_media {query : String} {position : Position} (hk : inKeyframes = false)
    (hsettled : Printer.IsSettledPrelude opens true query)
    (hts : StandsBefore ts (((Statement.media query body position).print level).toList ++ cs)) :
    Rereads ending st ts [.media query body position] cs := by
  subst hk
  obtain ⟨us, hwritten, hclosed, -⟩ := hsettled
  obtain ⟨us', htokens, hpads⟩ := Printer.tokensOf_media hwritten
    (Printer.blockTail level (Statement.printBody (level + 1) body) ++ cs)
  rw [Statement.print, Printer.toList_block] at hts
  obtain ⟨keyword, us, brace, rest, hdrop, hkeyword, hprelude, htext, hbrace, hrest⟩ :=
    exists_split_atRule true level (by simpa using hts) htokens hpads hclosed
      hwritten.serialize_eq
  have hgoes := goes_atBlock ending st rest hprelude hkeyword (by decide) hbrace
  rw [← hdrop, htext] at hgoes
  refine rereads_block hgoes hrest hbody hcs fun body' hprint =>
    ⟨.media query body' keyword.position, rfl, fun level => ?_⟩
  rw [Statement.print, Statement.print, hprint]

/-- An at-rule with a block is reread with the same name and prelude. -/
lemma rereads_atBlock {name preludeText : String} {position : Position}
    (hk : inKeyframes = (Header.atBlock name preludeText).isKeyframes)
    (hname : sameLetters name "extend" = false) (hmedia : sameLetters name "media" = false)
    (hsettled : Printer.IsSettledAtRule opens true name preludeText)
    (hts : StandsBefore ts (((Statement.atBlock name preludeText body position).print level).toList ++ cs)) :
    Rereads ending st ts [.atBlock name preludeText body position] cs := by
  subst hk
  obtain ⟨hread, hapart, us, hwritten, hclosed, -⟩ := hsettled
  obtain ⟨us', htokens, hpads⟩ := Printer.tokensOf_atRule true hread hapart hwritten
    (Printer.blockTail level (Statement.printBody (level + 1) body) ++ cs)
  rw [Statement.print, Printer.toList_block] at hts
  obtain ⟨keyword, us, brace, rest, hdrop, hkeyword, hprelude, htext, hbrace, hrest⟩ :=
    exists_split_atRule true level (by simpa [Printer.behindPrelude] using hts) htokens hpads
      hclosed hwritten.serialize_eq
  have hgoes := goes_atBlock ending st rest hprelude hkeyword hname hbrace
  rw [← hdrop, htext, hmedia] at hgoes
  refine rereads_block hgoes hrest hbody hcs fun body' hprint =>
    ⟨.atBlock name preludeText body' keyword.position, rfl, fun level => ?_⟩
  rw [Statement.print, Statement.print, hprint]

end Blocks

/-- An at-rule without a block is reread with the same name and prelude. -/
lemma rereads_atRule {opens : Bool} {name preludeText : String} {position : Position} {level : Nat}
    (hname : sameLetters name "extend" = false) (hsettled : Printer.IsSettledAtRule opens false name preludeText)
    (hts : StandsBefore ts (((Statement.atRule name preludeText position).print level).toList ++ cs)) :
    Rereads ending st ts [.atRule name preludeText position] cs := by
  obtain ⟨hread, hapart, us, hwritten, hclosed, -⟩ := hsettled
  obtain ⟨us', htokens, hpads⟩ := Printer.tokensOf_atRule false hread hapart hwritten ('\n' :: cs)
  rw [Statement.print, Printer.line] at hts
  obtain ⟨keyword, us, semicolon, rest, hdrop, hkeyword, hprelude, htext, hsemicolon, hrest⟩ :=
    exists_split_atRule false level (by simpa [Printer.behindPrelude] using hts) htokens hpads
      hclosed hwritten.serialize_eq
  have hgoes := goes_atRule ending st rest hprelude hkeyword hname hsemicolon
  rw [← hdrop, htext] at hgoes
  exact rereads_of_goes hgoes hrest fun level => by rw [Statement.print, Statement.print]

/-- A declaration is reread with the same name, value and flag. -/
lemma rereads_declaration {opens : Bool} {name value : String} {important : Bool} {position : Position} {level : Nat}
    (hname : name.isEmpty = false) (hcs : opens → NeverOpens (tokensOf cs))
    (hsettled : Printer.IsSettledDeclaration opens name value important)
    (hts : StandsBefore ts (((Statement.declaration name value important position).print level).toList ++ cs)) :
    Rereads ending st ts [.declaration name value important position] cs := by
  rw [Statement.print, Printer.line] at hts
  obtain ⟨p, rest, hrest, hgoes⟩ := goes_printed_declaration ending st hsettled hname
    (fun hopens => (Printer.neverOpens_space (c := '\n') rfl).2 (hcs hopens)) (by simpa using hts)
  exact rereads_of_goes hgoes hrest fun level => by rw [Statement.print, Statement.print]

mutual

/-- The reader gets over a statement that was printed and adds one that is printed like it. -/
theorem rereads_statement {opens : Bool} : ∀ (s : Statement) (st : State) (ts : List PlacedToken) (level : Nat)
    (cs : List Char), s.IsNested st.inKeyframes → s.IsSettled opens → (opens → NeverOpens (tokensOf cs)) →
    StandsBefore ts ((s.print level).toList ++ cs) → Rereads ending st ts [s] cs
  | .rule selector body _, st, ts, level, cs, hnested, ⟨hheader, hstable, hbody⟩, hcs, hts => by
    obtain ⟨hkeyframes, hc, ha, hnested⟩ := hnested
    refine rereads_rule (fun st' ts' cs' hk hcs' hts' => ?_) hcs hkeyframes rfl hc ha hstable hheader hts
    exact rereads_body body st' ts' (level + 1) cs' (by rwa [hk]) hbody hcs' hts'
  | .media query body _, st, ts, level, cs, hnested, ⟨hquery, hbody⟩, hcs, hts => by
    refine rereads_media (fun st' ts' cs' hk hcs' hts' => ?_) hcs rfl hquery hts
    exact rereads_body body st' ts' (level + 1) cs' (by rwa [hk]) hbody hcs' hts'
  | .keyframe keyframe body _, st, ts, level, cs, ⟨hkeyframes, hnested⟩, ⟨hheader, hbody⟩, hcs, hts => by
    refine rereads_keyframe (fun st' ts' cs' hk hcs' hts' => ?_) hcs hkeyframes rfl hheader hts
    exact rereads_body body st' ts' (level + 1) cs' (by rwa [hk]) hbody hcs' hts'
  | .atRule name preludeText _, st, ts, level, cs, hnested, hsettled, _, hts => rereads_atRule hnested hsettled hts
  | .atBlock name preludeText body _, st, ts, level, cs, hnested, ⟨hatRule, hbody⟩, hcs, hts => by
    obtain ⟨⟨hname, hmedia⟩, hnested⟩ := hnested
    refine rereads_atBlock (fun st' ts' cs' hk hcs' hts' => ?_) hcs rfl hname hmedia hatRule hts
    exact rereads_body body st' ts' (level + 1) cs' (by rwa [hk]) hbody hcs' hts'
  | .declaration name value important _, st, ts, level, cs, hnested, hsettled, hcs, hts =>
    rereads_declaration hnested hcs hsettled hts
  | .extend .., st, ts, level, cs, _, _, _, hts => by
    rw [Statement.print] at hts
    obtain ⟨ts', ss', hgoes, hts', hprint⟩ : Rereads ending st ts [] cs := rereads_nil hts
    exact ⟨ts', ss', hgoes, hts', fun level => by rw [hprint, printBody_singleton, Statement.print]; rfl⟩

/-- The reader gets over the printed contents of a block. -/
theorem rereads_body {opens : Bool} : ∀ (ss : List Statement) (st : State) (ts : List PlacedToken) (level : Nat)
    (cs : List Char), Statement.BodyNested st.inKeyframes ss → Statement.BodySettled opens ss →
    (opens → NeverOpens (tokensOf cs)) → StandsBefore ts ((Statement.printBody level ss).toList ++ cs) →
    Rereads ending st ts ss cs
  | [], st, ts, level, cs, _, _, _, hts => rereads_nil hts
  | s :: ss, st, ts, level, cs, ⟨hnested, hnesteds⟩, ⟨hs, hss⟩, hcs, hts => by
    rw [Statement.printBody, String.toList_append, List.append_assoc] at hts
    -- the statements behind this one close none of the brackets that it leaves open
    have hbehind : opens → NeverOpens (tokensOf ((Statement.printBody level ss).toList ++ cs)) := by
      rintro rfl
      exact Statement.neverOpens_printBody ss level hss (hcs rfl)
    exact (rereads_statement s st ts level _ hnested hs hbehind hts).cons fun statements ts' hts' =>
      rereads_body ss ⟨st.frames, statements⟩ ts' level cs hnesteds hss hcs hts'

end

/-- At the end of the input a run ends with the statements that it has. -/
lemma run_of_eof {t : PlacedToken} (ht : t.token = .eof) (hframes : st.frames = []) :
    run ending st (t :: ts) = .ok (st.statements, t :: ts) := by
  obtain ⟨_, place⟩ := t
  subst ht
  have hstep : step ending st (⟨.eof, place⟩ :: ts) = .ok (.done st.statements (⟨.eof, place⟩ :: ts)) := by
    rw [step]
    simp only [finish, hframes]
  rw [run.eq_def]
  split <;> simp_all

/-- When nothing but white space is left, the reader ends with the statements that it has read. -/
lemma run_of_standsBefore_nil (ending : Position) (st : State) (hts : StandsBefore ts []) (hframes : st.frames = []) :
    ∃ rest, run ending st ts = .ok (st.statements, rest) := by
  obtain ⟨eof, rest, hdrop, heof, -⟩ := StandsBefore.exists_cons hts tokensOf_nil (by decide)
  have hspaces := run_of_goes (goes_dropWhile ending st ts)
  rw [hdrop] at hspaces
  exact ⟨eof :: rest, hspaces.trans (run_of_eof heof hframes)⟩

end Parser

namespace Stylesheet

/-- No semicolon, brace or margin of the printer gets into a settled text beside it. -/
lemma print_fixpoint_of_isSettled {source : String} {sheet : Stylesheet}
    (h : Stylesheet.parse source = .ok sheet) (hsettled : sheet.IsSettled) :
    ∃ again, Stylesheet.parse sheet.print = .ok again ∧ again.print = sheet.print := by
  obtain ⟨opens, hsettled⟩ := hsettled
  let tokens := Lexer.tokenize sheet.print
  let ending := (tokens.getLast?.map PlacedToken.position).getD .start
  have hts : Parser.StandsBefore tokens (sheet.print.toList ++ []) := by
    rw [List.append_nil]
    exact congrArg Prelude.lead (Lexer.tokens_eq_tokensOf sheet.print)
  have hrereads : Parser.Rereads ending .initial tokens sheet.statements [] :=
    Parser.rereads_body sheet.statements .initial tokens 0 [] (isNested_of_parse h) hsettled
      (fun _ => by rw [Lexer.tokensOf_nil]; exact Prelude.neverOpens_eof []) hts
  obtain ⟨ts, ss, hgoes, hend, hprint⟩ := hrereads
  obtain ⟨rest, hrun⟩ := Parser.run_of_standsBefore_nil ending ⟨[], ss⟩ hend rfl
  refine ⟨⟨ss⟩, ?_, hprint 0⟩
  have hall : Parser.run ending .initial tokens = .ok (ss, rest) := (Parser.run_of_goes hgoes).trans hrun
  rw [Stylesheet.parse, Stylesheet.ofTokens]
  dsimp only
  rw [hall]
  rfl

/-- A stylesheet whose texts are settled is printed as a text that is read as a stylesheet with the same print. The
texts are settled whenever the pieces of the source are kept and the selectors are plain. -/
theorem print_fixpoint_of_parse {source : String} {sheet : Stylesheet} (h : Stylesheet.parse source = .ok sheet) :
    (sheet.IsSettled → ∃ again, Stylesheet.parse sheet.print = .ok again ∧ again.print = sheet.print) ∧
      (Stylesheet.KeepsTexts source → sheet.HasPlainSelectors → sheet.IsSettled) :=
  ⟨print_fixpoint_of_isSettled h, isSettled_of_keepsTexts h⟩

/-- True of the one declaration whose name opens a bracket that nothing closes. -/
def opensInName : List Statement → Bool
  | [.declaration "[a" "b" false _] => true
  | _ => false

/-- A declaration whose name opens a bracket is settled if nothing behind it opens a block. -/
lemma isSettled_of_opensInName {sheet : Stylesheet} (h : opensInName sheet.statements) : sheet.IsSettled := by
  unfold opensInName at h
  split at h
  · next heq =>
    refine ⟨true, ?_⟩
    rw [heq]
    have hbracket : Lexer.IsRead .leftBracket := ⟨'[', [], by decide⟩
    have ha : Lexer.IsRead (.ident "a") := Lexer.isRead_ident (by decide)
    have hb : Lexer.IsRead (.ident "b") := Lexer.isRead_ident (by decide)
    refine ⟨⟨[.leftBracket, .ident "a"], [.ident "b"], ⟨by decide, by simp [hbracket, ha], by decide, by decide⟩,
      ⟨by decide, by simp [hb], by decide, by decide⟩, by decide, by decide, by decide, .inr (by decide), by decide⟩,
      trivial⟩
  · cases h

/-- A stylesheet with blocks in blocks, a flag and a directive that is not printed has kept pieces and plain selectors;
and a bracket that nothing closes may be left open in the name of a declaration. -/
theorem print_fixpoint_of_parse_nested :
    (∃ sheet again, Stylesheet.parse
        "@media x\x7b.a, .b > .c\x7bw: calc(1px + 2)!important;@extend .d;.e &\x7b\x7d\x7d\x7d" = .ok sheet ∧
      sheet.IsSettled ∧ Stylesheet.parse sheet.print = .ok again ∧ again.print = sheet.print) ∧
    ∃ sheet again, Stylesheet.parse "[a:b" = .ok sheet ∧ sheet.IsSettled ∧ Stylesheet.parse sheet.print = .ok again ∧
      again.print = sheet.print := by
  constructor
  · obtain ⟨sheet, h, hplain⟩ : ∃ sheet, Stylesheet.parse
        "@media x\x7b.a, .b > .c\x7bw: calc(1px + 2)!important;@extend .d;.e &\x7b\x7d\x7d\x7d" = .ok sheet ∧
          sheet.HasPlainSelectors :=
      exists_of_any_toOption (by decide +kernel)
    obtain ⟨hfixpoint, hsettles⟩ := print_fixpoint_of_parse h
    have hsettled := hsettles (by decide +kernel) hplain
    obtain ⟨again, hparse, hprint⟩ := hfixpoint hsettled
    exact ⟨sheet, again, h, hsettled, hparse, hprint⟩
  · obtain ⟨sheet, h, hopens⟩ : ∃ sheet, Stylesheet.parse "[a:b" = .ok sheet ∧ opensInName sheet.statements :=
      exists_of_any_toOption (by decide +kernel)
    have hsettled := isSettled_of_opensInName hopens
    obtain ⟨again, hparse, hprint⟩ := (print_fixpoint_of_parse h).1 hsettled
    exact ⟨sheet, again, h, hsettled, hparse, hprint⟩

/-- Two prints that differ as the parser computes them are different. -/
lemma exists_print_ne {source : String} (h : (Stylesheet.parse source).toOption.any fun sheet =>
      (Stylesheet.parse sheet.print).toOption.any fun again => decide (again.print ≠ sheet.print)) :
    ∃ sheet again, Stylesheet.parse source = .ok sheet ∧ Stylesheet.parse sheet.print = .ok again ∧
      again.print ≠ sheet.print := by
  cases hparse : Stylesheet.parse source with
  | error e =>
    rw [hparse] at h
    cases h
  | ok sheet =>
    rw [hparse] at h
    obtain ⟨again, hagain, hne⟩ := exists_of_any_toOption h
    exact ⟨sheet, again, rfl, hagain, hne⟩

/-- A backslash whose blank was trimmed away escapes the printed semicolon, so that a declaration takes in the next
one; and the two blanks around a comment are printed, and read as one. -/
theorem exists_print_changed :
    (∃ sheet again, Stylesheet.parse "x: a\\ ; y: b;" = .ok sheet ∧ Stylesheet.parse sheet.print = .ok again ∧
      again.print ≠ sheet.print) ∧
    ∃ sheet again, Stylesheet.parse "x: a /* c */ b;" = .ok sheet ∧ Stylesheet.parse sheet.print = .ok again ∧
      again.print ≠ sheet.print :=
  ⟨exists_print_ne (by decide +kernel), exists_print_ne (by decide +kernel)⟩

end Stylesheet

end ScssExtend
