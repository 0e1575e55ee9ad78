import ScssExtend.Proofs.Stylesheet.Headers
import ScssExtend.Proofs.Stylesheet.Nesting

/-!
# The pieces of a source

Braces and semicolons cut the tokens of a source into pieces. A piece is kept when its tokens, white space at the ends
apart, stand apart in front of a semicolon, when its brackets are closed, and when no token but white space has a blank
at an end (`Prelude.IsKept`). Preludes and lookaheads go to the end of such a piece (`Prelude.spanPrelude_piece`,
`Prelude.startsBlock_piece`), and the texts that are written in it are settled (`Printer.isSettledHeader_serialize`,
`Printer.isSettledAtRule_serialize`, `Printer.isSettledDeclaration_serialize`).
-/

namespace ScssExtend

namespace Prelude

open Lexer Text

/-! ## Pieces of a source -/

/-- True of the tokens between the pieces of a source. -/
def endsPiece (t : Token) : Bool :=
  isStop t || t == .eof

/-- The text of the piece, or of a part of it, is read as its tokens where it is printed. -/
structure IsKept (us : List Token) : Prop where
  apart : standApart [';'] (core us)
  closed : isPrelude 0 us
  trimmed : ∀ u ∈ us, u ≠ .whitespace → IsTrimmed u.text.toList

instance : DecidablePred IsKept := fun us =>
  decidable_of_iff (standApart [';'] (core us) ∧ isPrelude 0 us ∧ ∀ u ∈ us, u ≠ .whitespace → IsTrimmed u.text.toList)
    ⟨fun h => ⟨h.1, h.2.1, h.2.2⟩, fun h => ⟨h.apart, h.closed, h.trimmed⟩⟩

/-- The tokens were read, and make up pieces that are kept. -/
structure Keeps (ts : List Token) : Prop where
  read : ∀ t ∈ ts, t = .eof ∨ IsRead t
  pieces : ∀ us ∈ ts.splitOnP endsPiece, IsKept us

/-- No tokens are kept. -/
lemma isKept_nil : IsKept [] :=
  ⟨rfl, rfl, List.forall_mem_nil _⟩

/-- No tokens are made of kept pieces. -/
lemma keeps_nil : Keeps [] :=
  ⟨List.forall_mem_nil _, by simpa using isKept_nil⟩

/-- A piece is kept without the space at its beginning. -/
lemma IsKept.of_space {us : List Token} (h : IsKept (.whitespace :: us)) : IsKept us := by
  obtain ⟨hapart, hclosed, htrimmed⟩ := h
  refine ⟨hapart, ?_, fun u hu => htrimmed u (List.mem_cons_of_mem _ hu)⟩
  rwa [← isPrelude_congr (brackets_cons (t := .whitespace) rfl us)]

/-- Pieces are kept without the space in front of them. -/
lemma Keeps.of_space {ts : List Token} (h : Keeps (.whitespace :: ts)) : Keeps ts := by
  obtain ⟨hread, hpieces⟩ := h
  refine ⟨fun t ht => hread t (List.mem_cons_of_mem _ ht), ?_⟩
  rw [List.splitOnP_cons_eq_if_modifyHead, if_neg (by decide)] at hpieces
  cases hsplit : ts.splitOnP endsPiece with
  | nil => exact List.forall_mem_nil _
  | cons us pieces =>
    rw [hsplit] at hpieces
    obtain ⟨hus, hmore⟩ := List.forall_mem_cons.1 hpieces
    exact List.forall_mem_cons.2 ⟨hus.of_space, hmore⟩

/-- Pieces are kept behind the token that ends one of them. -/
lemma Keeps.of_stop {t : Token} {ts : List Token} (h : Keeps (t :: ts)) (ht : endsPiece t) : Keeps ts := by
  obtain ⟨hread, hpieces⟩ := h
  rw [List.splitOnP_cons_eq_if_modifyHead, if_pos ht] at hpieces
  exact ⟨fun t ht => hread t (List.mem_cons_of_mem _ ht), (List.forall_mem_cons.1 hpieces).2⟩

/-- A stream is cut in front of the first token that ends a piece. -/
lemma exists_cut (ts : List PlacedToken) : ∃ us rest, ts = us ++ rest ∧ (∀ u ∈ us, endsPiece u.token = false) ∧
    ∀ r ∈ rest.head?, endsPiece r.token := by
  refine ⟨ts.takeWhile fun t => !endsPiece t.token, ts.dropWhile fun t => !endsPiece t.token,
    List.takeWhile_append_dropWhile.symm, fun u hu => ?_, fun r hr => ?_⟩
  · simpa using List.mem_takeWhile_imp hu
  · have hnot := List.head?_dropWhile_not (fun t : PlacedToken => !endsPiece t.token) ts
    rw [hr] at hnot
    simpa using hnot

/-- A stream is a piece and what stands behind it. -/
lemma Keeps.exists_piece {ts : List PlacedToken} (h : Keeps (ts.map PlacedToken.token)) : ∃ us rest,
    ts = us ++ rest ∧ (∀ u ∈ us, endsPiece u.token = false) ∧ (∀ r ∈ rest.head?, endsPiece r.token) ∧
      (∀ u ∈ us, IsRead u.token) ∧ IsKept (us.map PlacedToken.token) ∧ Keeps (rest.map PlacedToken.token) := by
  obtain ⟨us, rest, rfl, hus, hrest⟩ := exists_cut ts
  obtain ⟨hread, hpieces⟩ := h
  have hread' (u : PlacedToken) (hu : u ∈ us) : IsRead u.token := by
    refine (hread u.token (by simp [List.mem_map_of_mem, hu])).resolve_left fun heof => ?_
    have hnot := hus u hu
    rw [heof] at hnot
    cases hnot
  have hnone : ∀ t ∈ us.map PlacedToken.token, endsPiece t = false := by
    simpa using hus
  refine ⟨us, rest, rfl, hus, hrest, hread', ?_⟩
  rw [List.map_append] at hpieces
  cases rest with
  | nil =>
    rw [List.map_nil, List.append_nil, List.splitOnP_eq_singleton hnone] at hpieces
    exact ⟨by simpa using hpieces, keeps_nil⟩
  | cons r rest =>
    have hr := hrest r rfl
    rw [List.map_cons, List.splitOnP_append_cons_of_forall_mem hnone _ hr] at hpieces
    obtain ⟨hkept, hmore⟩ := List.forall_mem_cons.1 hpieces
    refine ⟨hkept, fun t ht => hread t ?_, ?_⟩
    · rw [List.map_append]
      exact List.mem_append_right _ ht
    · rw [List.map_cons, List.splitOnP_cons_eq_if_modifyHead, if_pos hr]
      exact List.forall_mem_cons.2 ⟨isKept_nil, hmore⟩

section Piece

variable {us rest : List PlacedToken} (hclosed : isPrelude 0 (us.map PlacedToken.token))
  (hrest : ∀ r ∈ rest.head?, endsPiece r.token)
include hclosed hrest

omit hclosed in
/-- White space at the beginning of a piece is dropped from the piece only. -/
lemma dropWhile_piece : (us ++ rest).dropWhile (·.token == .whitespace) =
    us.dropWhile (·.token == .whitespace) ++ rest := by
  have hspaces : rest.dropWhile (·.token == .whitespace) = rest := by
    cases rest with
    | nil => rfl
    | cons r rest =>
      refine List.dropWhile_cons_of_neg fun hr => ?_
      have hends := hrest r rfl
      rw [beq_iff_eq.1 hr] at hends
      cases hends
  rw [List.dropWhile_append]
  split
  · next hempty => rw [hspaces, List.isEmpty_iff.1 hempty, List.nil_append]
  · rfl

/-- A prelude is taken to the end of its piece. -/
lemma spanPrelude_piece : spanPrelude 0 (us ++ rest) = (us.map PlacedToken.token, rest) := by
  rw [spanPrelude_through (isPrelude_iff.1 hclosed)]
  cases rest with
  | nil => simp [spanPrelude]
  | cons r rest =>
    have hr := hrest r rfl
    rw [endsPiece] at hr
    simp [spanPrelude, hr]

/-- A block follows if the piece ends at a brace. -/
lemma startsBlock_piece : startsBlock 0 (us ++ rest) = Parser.atBrace rest := by
  rw [startsBlock_through (isPrelude_iff.1 hclosed)]
  cases rest with
  | nil => rfl
  | cons r rest =>
    have hr := hrest r rfl
    rw [endsPiece] at hr
    by_cases hbrace : r.token = .leftBrace
    · simp [startsBlock, Parser.atBrace, hbrace]
    · simp [startsBlock, Parser.atBrace, hbrace, hr]

end Piece

/-! ## Texts that are written in a piece -/

/-- Spaces make no difference to whether a quote follows. -/
lemma quoteFollows_spaces (n : Nat) (behind : List Char) :
    quoteFollows ((Token.concatText (List.replicate n .whitespace)).toList ++ behind) = quoteFollows behind := by
  induction n with
  | zero => rfl
  | succ n ih =>
    rw [← ih, List.replicate_succ, toList_concatText_cons]
    rfl

/-- Spaces in front of what stops a token stop it too. -/
lemma stops_spaces (n : Nat) {behind : List Char} (h : Stops behind) :
    Stops ((Token.concatText (List.replicate n .whitespace)).toList ++ behind) := by
  cases n with
  | zero => exact h
  | succ n =>
    rw [List.replicate_succ, toList_concatText_cons]
    exact stops_space _

/-- The tokens of a core are among those of the piece. -/
lemma mem_of_mem_core {us : List Token} {u : Token} (hu : u ∈ core us) : u ∈ us := by
  obtain ⟨m, n, h⟩ := exists_core us
  rw [h]
  simp [hu]

section Core

variable {us : List Token} (hread : ∀ u ∈ us, IsRead u)
  (htrimmed : ∀ u ∈ us, u ≠ .whitespace → IsTrimmed u.text.toList)
include hread htrimmed

/-- Nothing is trimmed off a text that no white space stands at the ends of. -/
lemma isTrimmed_concatText (hhead : us.head? ≠ some .whitespace) (hlast : us.getLast? ≠ some .whitespace) :
    IsTrimmed (Token.concatText us).toList := by
  constructor
  · cases us with
    | nil => exact nofun
    | cons u us =>
      obtain ⟨c, cs, htext, -⟩ := (hread u List.mem_cons_self).exists_cons
      have hu := (htrimmed u List.mem_cons_self (by simpa using hhead)).1
      rw [htext] at hu
      rw [toList_concatText_cons, htext]
      exact hu
  · obtain rfl | ⟨front, u, rfl⟩ := us.eq_nil_or_concat'
    · exact nofun
    · obtain ⟨c, cs, htext, -⟩ := (hread u (by simp)).exists_cons
      have hu := (htrimmed u (by simp) (by simpa using hlast)).2
      have hsingle : (Token.concatText [u]).toList = u.text.toList := by simp [Token.concatText]
      rw [toList_concatText_append, hsingle, htext, List.getLast?_append_cons, ← htext]
      exact hu

/-- Tokens that stand apart, white space at their ends aside, write their text. -/
lemma isWritten_core {printed : String} (hapart : standApart printed.toList (core us)) :
    Printer.IsWritten printed (serialize us) (core us) := by
  have hread' (u : Token) (hu : u ∈ core us) : IsRead u := hread u (mem_of_mem_core hu)
  have htrim := isTrimmed_concatText hread' (fun u hu => htrimmed u (mem_of_mem_core hu)) (head?_core us)
    (getLast?_dropTrailingSpace _)
  have htext : Token.concatText (core us) = serialize us := by
    rw [← String.toList_inj, (pads_core us).serialize_eq, toList_serialize, trim_eq_self htrim]
  exact ⟨htext, hread', hapart, htext ▸ htrim⟩

end Core

section Apart

variable {us : List Token} (hread : ∀ u ∈ us, IsRead u) {behind behind' : List Char} (hstops : Stops behind)
  (hquote : quoteFollows behind = false) (hstops' : Stops behind') (hquote' : quoteFollows behind' = false)
include hread hstops hquote hstops' hquote'

/-- White space at the ends of tokens that stand apart is not missed. -/
lemma standApart_core (h : standApart behind us) : standApart behind' (core us) := by
  obtain ⟨m, n, hcore⟩ := exists_core us
  rw [hcore, standApart_append, standApart_append, Bool.and_eq_true, Bool.and_eq_true] at h
  have hread' (u : Token) (hu : u ∈ core us) : IsRead u := hread u (mem_of_mem_core hu)
  rw [standApart_congr hstops' (stops_spaces n hstops) ?_ hread' (getLast?_dropTrailingSpace _)]
  · exact h.2.1
  · rw [quoteFollows_spaces, hquote, hquote']

end Apart

/-- The depth behind tokens that no piece ends at. -/
lemma depthBehind?_eq_foldl {ts : List Token} (h : ∀ t ∈ ts, endsPiece t = false) (depth : Nat) :
    depthBehind? depth ts = some (ts.foldl depthAfter depth) := by
  induction ts generalizing depth with
  | nil => rfl
  | cons t ts ih =>
    obtain ⟨ht, hts⟩ := List.forall_mem_cons.1 h
    rw [endsPiece, Bool.or_eq_false_iff] at ht
    rw [depthBehind?, ht.1, ht.2, Bool.false_and, Bool.or_false, if_neg Bool.false_ne_true, ih hts]
    rfl

/-- The depth behind tokens grows with the depth before them. -/
lemma foldl_depthAfter_le (ts : List Token) {d e : Nat} (h : d ≤ e) :
    ts.foldl depthAfter d ≤ ts.foldl depthAfter e := by
  induction ts generalizing d e with
  | nil => exact h
  | cons t ts ih =>
    refine ih ?_
    cases t <;> simp only [depthAfter] <;> omega

/-- What stands at the end of a piece closes its own brackets. -/
lemma isPrelude_suffix (us : List Token) {vs : List Token} (h : isPrelude 0 (us ++ vs))
    (hnone : ∀ t ∈ us ++ vs, endsPiece t = false) : isPrelude 0 vs := by
  have hvs (t : Token) (ht : t ∈ vs) : endsPiece t = false := hnone t (List.mem_append_right _ ht)
  rw [isPrelude_iff, depthBehind?_eq_foldl hnone, List.foldl_append, Option.some.injEq] at h
  rw [isPrelude_iff, depthBehind?_eq_foldl hvs, Option.some.injEq]
  have hle := foldl_depthAfter_le vs (Nat.zero_le (us.foldl depthAfter 0))
  omega

end Prelude

namespace Printer

open Lexer Prelude Text

/-- What the printer writes behind a prelude stops a token. -/
lemma stops_behindPrelude (block : Bool) : Stops (behindPrelude block).toList := by
  cases block with
  | false => exact stops_mark (rfl : isMark ';') []
  | true => exact stops_space _

/-- What the printer writes behind a prelude does not begin with a quote. -/
lemma quoteFollows_behindPrelude (block : Bool) : quoteFollows (behindPrelude block).toList = false := by
  cases block <;> decide

/-- What the printer writes behind a value stops a token. -/
lemma stops_behindValue (important : Bool) : Stops (behindValue important).toList := by
  cases important with
  | false => exact stops_mark (rfl : isMark ';') []
  | true => exact stops_space _

/-- What the printer writes behind a value does not begin with a quote. -/
lemma quoteFollows_behindValue (important : Bool) : quoteFollows (behindValue important).toList = false := by
  cases important <;> decide

/-- White space at the ends of tokens aside, their first token is the same. -/
lemma head?_core_isPlain {us : List Token} (h : us.head?.all Parser.isPlain) :
    (core us).head?.all Parser.isPlain := by
  cases us with
  | nil => rfl
  | cons u us =>
    have hu : u ≠ .whitespace := by
      rintro rfl
      cases h
    have hcons : dropTrailingSpace (u :: us) = u :: dropTrailingSpace us := dropTrailingSpace_append_cons hu [] us
    rw [core, Parser.lead_of_head_isPlain h, hcons]
    exact h

section Kept

variable {us : List Token} (hread : ∀ u ∈ us, IsRead u) (h : IsKept us)
include hread h

/-- A whole piece writes its text in front of a brace or a semicolon, with its brackets closed. -/
lemma isWritten_piece (block : Bool) :
    IsWritten (behindPrelude block) (serialize us) (core us) ∧ ClosesBrackets false (core us) := by
  obtain ⟨hapart, hclosed, htrimmed⟩ := h
  refine ⟨isWritten_core hread htrimmed ?_, ?_, nofun⟩
  · rwa [standApart_congr (stops_behindPrelude block) (stops_mark (rfl : isMark ';') [])
      (quoteFollows_behindPrelude block) (fun u hu => hread u (mem_of_mem_core hu)) (getLast?_dropTrailingSpace _)]
  · rwa [← isPrelude_congr (pads_core us).brackets_eq]

/-- The text of a whole piece is settled as a prelude. -/
lemma isSettledPrelude_serialize (block : Bool) : IsSettledPrelude false block (serialize us) :=
  ⟨core us, isWritten_piece hread h block⟩

/-- The text of a whole piece is settled as a header if the piece can begin one. -/
lemma isSettledHeader_serialize (hplain : us.head?.all Parser.isPlain) : IsSettledHeader false (serialize us) := by
  obtain ⟨hwritten, hcloses⟩ := isWritten_piece hread h true
  exact ⟨core us, hwritten, hcloses, head?_core_isPlain hplain⟩

end Kept

/-- Behind the keyword at the beginning of a kept piece there is a kept piece, from which the keyword is apart. -/
lemma isKept_of_atKeyword {name : String} {us : List Token} (h : IsKept (.atKeyword name :: us)) :
    IsKept us ∧ ∃ n, isApart ((Token.concatText (List.replicate n .whitespace ++ core us)).toList ++ [';'])
      (.atKeyword name) := by
  obtain ⟨hapart, hclosed, htrimmed⟩ := h
  have hcore : core (.atKeyword name :: us) = .atKeyword name :: dropTrailingSpace us :=
    dropTrailingSpace_append_cons (by simp) [] us
  obtain ⟨n, hn, -⟩ := exists_dropTrailingSpace_core us
  rw [hcore, hn, standApart_cons, standApart_append, Bool.and_eq_true, Bool.and_eq_true] at hapart
  refine ⟨⟨hapart.2.2, ?_, fun u hu => htrimmed u (List.mem_cons_of_mem _ hu)⟩, n, hapart.1⟩
  rwa [← isPrelude_congr (brackets_cons (t := .atKeyword name) rfl us)]

/-- What is written behind a keyword continues nothing. -/
lemma stops_behindKeyword (block : Bool) (preludeText : String) :
    Stops ((atText preludeText).toList ++ (behindPrelude block).toList) := by
  unfold atText
  split
  · exact stops_behindPrelude block
  · rw [String.toList_append, List.append_assoc]
    exact stops_space _

/-- The name of an at-rule and the text behind it are settled if their piece is kept. -/
lemma isSettledAtRule_serialize {name : String} {us : List Token} (hread : ∀ u ∈ Token.atKeyword name :: us, IsRead u)
    (h : IsKept (.atKeyword name :: us)) (block : Bool) : IsSettledAtRule false block name (serialize us) := by
  obtain ⟨hname, hus⟩ := List.forall_mem_cons.1 hread
  obtain ⟨hkept, n, hapart⟩ := isKept_of_atKeyword h
  refine ⟨hname, ?_, isSettledPrelude_serialize hus hkept block⟩
  refine isApart_atKeyword (fun u hu => ?_) (stops_mark (rfl : isMark ';') []) hapart (stops_behindKeyword block _)
  obtain hu | hu := List.mem_append.1 hu
  · rw [List.eq_of_mem_replicate hu]
    exact ⟨' ', [], by decide⟩
  · exact hus u (mem_of_mem_core hu)

/-- The value in a piece, without its flag, is written in front of something that continues nothing. -/
lemma exists_value {us : List Token} (h : standApart [';'] (dropTrailingSpace us)) :
    ∃ vs behind, serialize (stripFlag "important" us).1 = serialize vs ∧ (∀ v ∈ vs, v ∈ us) ∧
      brackets vs = brackets us ∧ standApart behind vs ∧ Stops behind ∧ quoteFollows behind = false ∧
        ((stripFlag "important" us).2 ∨ (stripFlag "important" vs).2 = false) := by
  obtain ⟨n, hn⟩ := exists_dropTrailingSpace us
  have hpads := pads_replicate (dropTrailingSpace us) 0 n
  rw [List.replicate_zero, List.nil_append, ← hn] at hpads
  have hmem (v : Token) (hv : v ∈ dropTrailingSpace us) : v ∈ us := (dropTrailingSpace_isPrefix us).subset hv
  by_cases hflag : (stripFlag "important" us).2
  · -- the exclamation mark stands behind the value
    obtain ⟨front, m, name, heq, hfront⟩ := exists_of_stripFlag hflag
    have hbrackets := hpads.brackets_eq
    rw [heq] at h hmem hbrackets
    rw [standApart_append, Bool.and_eq_true, toList_concatText_cons, List.append_assoc] at h
    refine ⟨front, _, ?_, fun v hv => hmem v (List.mem_append_left _ hv), ?_, h.1, stops_mark (rfl : isMark '!') _,
      quoteFollows_mark (rfl : isMark '!') _, .inl hflag⟩
    · rw [hfront, serialize_dropTrailingSpace]
    · have hspaces : ∀ t ∈ Token.delim '!' :: (List.replicate m .whitespace ++ [.ident name]), isNeutral t := by
        simp [isNeutral, or_imp, forall_and, List.mem_replicate]
      rw [hbrackets, brackets_append, brackets_of_isNeutral hspaces, List.append_nil]
  · have hnone : (stripFlag "important" us).2 = false := Bool.eq_false_iff.2 hflag
    refine ⟨dropTrailingSpace us, [';'], by rw [stripFlag_of_false hnone], hmem, hpads.brackets_eq.symm, h,
      stops_mark (rfl : isMark ';') [], quoteFollows_mark (rfl : isMark ';') [], .inr ?_⟩
    rwa [← hpads.stripFlag_eq]

/-- The name and the value of a declaration are settled if their piece is kept. -/
lemma isSettledDeclaration_serialize {ns vs : List Token} (hread : ∀ u ∈ ns ++ .colon :: vs, IsRead u)
    (h : IsKept (ns ++ .colon :: vs)) (hnone : ∀ t ∈ ns ++ .colon :: vs, endsPiece t = false)
    (hplain : (ns ++ .colon :: vs).head?.all Parser.isPlain)
    (hends : ∀ n ∈ ns, n ≠ .colon ∧ Parser.endsName n = false) :
    IsSettledDeclaration false (serialize ns) (serialize (stripFlag "important" vs).1)
      (stripFlag "important" vs).2 := by
  obtain ⟨hapart, hclosed, htrimmed⟩ := h
  have hreadNs (n : Token) (hn : n ∈ ns) : IsRead n := hread n (List.mem_append_left _ hn)
  have hreadVs (v : Token) (hv : v ∈ vs) : IsRead v := hread v (List.mem_append_right _ (List.mem_cons_of_mem _ hv))
  have hvalue : isPrelude 0 vs := by
    have hsplit : ns ++ .colon :: vs = ns ++ [.colon] ++ vs := by simp
    rw [hsplit] at hclosed hnone
    exact isPrelude_suffix _ hclosed hnone
  -- the piece begins with no white space, so that only the end of the value may have some
  have hcore : core (ns ++ .colon :: vs) = ns ++ .colon :: dropTrailingSpace vs := by
    rw [core, Parser.lead_of_head_isPlain hplain, dropTrailingSpace_append_cons (by simp)]
  rw [hcore, standApart_append, standApart_cons, Bool.and_eq_true, Bool.and_eq_true, toList_concatText_cons,
    List.append_assoc] at hapart
  obtain ⟨hapartNs, -, hapartVs⟩ := hapart
  obtain ⟨ws, behind, hserialize, hmem, hbrackets, hapart, hstops, hquote, hflag⟩ := exists_value hapartVs
  have hreadWs (w : Token) (hw : w ∈ ws) : IsRead w := hreadVs w (hmem w hw)
  rw [hserialize]
  refine ⟨core ns, core ws, isWritten_core hreadNs (fun n hn => htrimmed n (List.mem_append_left _ hn)) ?_,
    isWritten_core hreadWs (fun w hw => htrimmed w (List.mem_append_right _ (List.mem_cons_of_mem _ (hmem w hw)))) ?_,
    head?_core_isPlain ?_, fun n hn => hends n (mem_of_mem_core hn), ?_, ?_, ?_⟩
  · exact standApart_core hreadNs (stops_mark (rfl : isMark ':') _) (quoteFollows_mark (rfl : isMark ':') _)
      (stops_mark (rfl : isMark ':') []) (quoteFollows_mark (rfl : isMark ':') []) hapartNs
  · exact standApart_core hreadWs hstops hquote (stops_behindValue _) (quoteFollows_behindValue _) hapart
  · cases ns with
    | nil => rfl
    | cons n ns => exact hplain
  · rwa [← isPrelude_congr (pads_core ws).brackets_eq, isPrelude_congr hbrackets]
  · rwa [← (pads_core ws).stripFlag_eq]
  · have hall : brackets (core ns ++ core ws) = brackets (ns ++ .colon :: vs) := by
      rw [brackets_append, ← (pads_core ns).brackets_eq, ← (pads_core ws).brackets_eq, hbrackets, brackets_append,
        brackets_cons (t := .colon) rfl]
    rwa [if_neg Bool.false_ne_true, isPrelude_congr hall]

end Printer

end ScssExtend
