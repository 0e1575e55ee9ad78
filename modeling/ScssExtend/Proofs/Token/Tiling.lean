import Mathlib.Data.List.Infix
import Mathlib.Data.List.TakeWhile
import Mathlib.Tactic.Lemma
import ScssExtend.Proofs.Token.Reading

/-!
# Tokens tile the source

The slices that the tokens are read from stand in the source one behind the other, and what lies between two of
them is a run of whole comments (`CommentRun`). `Tiles` says so with offsets into the source, and that each token
is placed where its slice begins and, white space, strings and addresses apart, is written as its slice. The
tokens of every source text tile it (`tokenize_tiles`).
-/

namespace ScssExtend

namespace Lexer

/-- A whole comment in front of the text `behind`: a block comment ends with the first `*/` or with the input, a
line comment in front of a newline or with the input. -/
inductive IsComment : List Char → List Char → Prop where
  | block {body behind} : ¬['*', '/'] <:+: body → IsComment ('/' :: '*' :: (body ++ ['*', '/'])) behind
  | openBlock {body} : ¬['*', '/'] <:+: body → IsComment ('/' :: '*' :: body) []
  | line {body behind} : '\n' ∉ body → (∀ c ∈ behind.head?, c = '\n') →
    IsComment ('/' :: '/' :: body) behind

/-- Whole comments one behind the other, in front of the text `behind`. -/
inductive CommentRun : List Char → List Char → Prop where
  | nil {behind} : CommentRun [] behind
  | cons {comment more behind} : IsComment comment (more ++ behind) → CommentRun more behind →
    CommentRun (comment ++ more) behind

/-- A slice of a text: the offsets where it begins and where it ends. -/
structure Span where
  start : Nat
  stop : Nat

/-- The token `t` was read from the nonempty slice `span` of `cs`; the offset `n` is the end of the slice before
it. -/
structure ReadFrom (cs : List Char) (n : Nat) (t : PlacedToken) (span : Span) : Prop where
  le_start : n ≤ span.start
  start_lt_stop : span.start < span.stop
  stop_le : span.stop ≤ cs.length
  gap : CommentRun (cs.extract n span.start) (cs.drop span.start)
  ne_eof : t.token ≠ .eof
  position : t.position = Position.start.advanceOver (cs.take span.start)
  text : t.token.isVerbatim → t.token.text.toList = cs.extract span.start span.stop

/-- From the offset `n` on, `cs` consists of the slices of the tokens and of comments. The end of the input is the
last token and no other one. -/
inductive Tiles (cs : List Char) : Nat → List PlacedToken → List Span → Prop where
  | eof {n} : n ≤ cs.length → CommentRun (cs.drop n) [] →
    Tiles cs n [⟨.eof, Position.start.advanceOver cs⟩] [⟨cs.length, cs.length⟩]
  | token {n t span tokens spans} : ReadFrom cs n t span → Tiles cs span.stop tokens spans →
    Tiles cs n (t :: tokens) (span :: spans)

/-! ## Comments -/

/-- A block comment's text is closed by its first `*/`, or goes on to the end of the input. -/
lemma spanBlockComment_cases (cs : List Char) :
    (∃ body, ¬['*', '/'] <:+: body ∧ (spanBlockComment cs).1 = body ++ ['*', '/']) ∨
    (¬['*', '/'] <:+: cs ∧ spanBlockComment cs = (cs, [])) := by
  fun_induction spanBlockComment cs with
  | case1 => exact .inr ⟨by simp, rfl⟩
  | case2 c => exact .inr ⟨fun h => absurd h.length_le (by simp), rfl⟩
  | case3 c d cs h =>
    obtain ⟨rfl, rfl⟩ := h
    exact .inl ⟨[], by simp, rfl⟩
  | case4 c d cs hopen taken rest heq ih =>
    -- a `*/` in what was taken is one behind `c`, or begins with it
    have hfirst {body : List Char} (hbody : ¬['*', '/'] <:+: body)
        (hd : ∀ e ∈ body.head?, e = d) : ¬['*', '/'] <:+: c :: body := by
      rw [List.infix_cons_iff]
      rintro (hfront | hinfix)
      · obtain ⟨more, hmore⟩ := hfront
        cases hmore
        exact hopen ⟨rfl, (hd '/' rfl).symm⟩
      · exact hbody hinfix
    rw [heq] at ih
    obtain ⟨body, hbody, htaken⟩ | ⟨hnone, hall⟩ := ih
    · refine .inl ⟨c :: body, hfirst hbody fun e he => ?_, by simpa using htaken⟩
      have happ := spanBlockComment_append (d :: cs)
      simp only at htaken
      rw [heq, htaken] at happ
      cases body with
      | nil => cases he
      | cons e' body =>
        cases he
        exact (List.cons.inj happ).1
    · cases hall
      refine .inr ⟨hfirst hnone fun e he => ?_, rfl⟩
      exact (Option.some.inj he).symm

/-- What is taken as a comment is one, with the text behind it. -/
lemma isComment_of_spanComment {cs comment rest : List Char} (h : spanComment cs = some (comment, rest)) :
    IsComment comment rest := by
  unfold spanComment at h
  split at h
  · next cs =>
    cases h
    obtain ⟨body, hbody, htaken⟩ | ⟨hnone, hall⟩ := spanBlockComment_cases cs
    · rw [htaken]
      exact .block hbody
    · rw [hall]
      exact .openBlock hnone
  · next cs =>
    cases h
    refine .line (fun hmem => ?_) fun c hc => ?_
    · exact absurd (List.mem_takeWhile_imp hmem) (by simp)
    · have hstop := List.head?_dropWhile_not (fun c => decide (c ≠ '\n')) cs
      rw [Option.mem_def.1 hc] at hstop
      simpa using hstop
  · cases h

/-- What is taken as comments is a run of them. -/
lemma commentRun_spanComments (cs : List Char) : CommentRun (spanComments cs).1 (spanComments cs).2 := by
  fun_induction spanComments cs with
  | case1 => exact .nil
  | case2 cs comment rest h _ more rest' heq ih =>
    rw [heq] at ih
    refine .cons ?_ ih
    have happ := spanComments_append rest
    rw [heq] at happ
    rw [happ]
    exact isComment_of_spanComment h

/-! ## The tiling -/

/-- The slice between two parts of a text. -/
lemma extract_middle (before slice behind : List Char) :
    (before ++ slice ++ behind).extract before.length (before ++ slice).length = slice := by
  simp [List.extract]

/-- Behind comments a token is read from its slice, at the position of its first character. -/
lemma readFrom_readToken {before gap rest : List Char} {c : Char} (hgap : CommentRun gap (c :: rest)) :
    ReadFrom (before ++ gap ++ c :: rest) before.length
      ⟨(readToken c rest).token, Position.start.advanceOver (before ++ gap)⟩
      ⟨(before ++ gap).length, (before ++ gap ++ (readToken c rest).slice).length⟩ := by
  have hread := readToken_append c rest
  have hslice := List.length_pos_iff.2 (readToken_slice_ne_nil c rest)
  refine ⟨?_, ?_, ?_, ?_, readToken_ne_eof c rest, ?_, fun hverbatim => ?_⟩
  · simp
  · simpa using hslice
  · rw [← hread]
    simp
  · rwa [extract_middle, List.drop_left]
  · rw [List.take_left]
  · rw [toList_text_readToken hverbatim, ← hread, ← List.append_assoc, extract_middle]

/-- The lexemes of a text tile it, whatever stands in front. -/
lemma exists_tiles (before cs : List Char) : ∃ spans,
    Tiles (before ++ cs) before.length (place (Position.start.advanceOver before) (lexemes cs)) spans := by
  fun_induction lexemes cs generalizing before with
  | case1 cs gap h =>
    have happ := spanComments_append cs
    have hgap := commentRun_spanComments cs
    rw [h] at happ hgap
    obtain rfl : gap = cs := by simpa using happ
    refine ⟨[⟨(before ++ gap).length, (before ++ gap).length⟩], ?_⟩
    rw [place, ← Position.advanceOver_append]
    exact .eof (by simp) (by simpa using hgap)
  | case2 cs gap c rest h reading _ ih =>
    have happ := spanComments_append cs
    have hgap := commentRun_spanComments cs
    rw [h] at happ hgap
    obtain ⟨spans, htiles⟩ := ih (before ++ gap ++ reading.slice)
    refine ⟨⟨(before ++ gap).length, (before ++ gap ++ reading.slice).length⟩ :: spans, ?_⟩
    have hread : reading.slice ++ reading.rest = c :: rest := readToken_append c rest
    rw [← happ, ← List.append_assoc, place, ← Position.advanceOver_append]
    refine .token (readFrom_readToken hgap) ?_
    rwa [← hread, ← List.append_assoc, ← Position.advanceOver_append]

/-- Every source text is tiled by its tokens. -/
theorem tokenize_tiles (source : String) : ∃ spans, Tiles source.toList 0 (tokenize source) spans :=
  exists_tiles [] source.toList

/-! ## Later passes -/

namespace Tokenizer

/-- A pass leaves nothing of the source. -/
lemma pass_eq (t : Tokenizer) :
    t.pass = ⟨[], t.position.advanceOver t.rest, t.tokens ++ place t.position (lexemes t.rest)⟩ := by
  simp only [pass, lexemes_tile, List.drop_length]

/-- Where nothing is left, a pass collects the end of the input and stays where it is. -/
lemma passes_of_rest_nil (n : Nat) (p : Position) (ts : List PlacedToken) :
    passes n ⟨[], p, ts⟩ = ⟨[], p, ts ++ List.replicate n ⟨.eof, p⟩⟩ := by
  induction n generalizing ts with
  | zero => simp [passes]
  | succ n ih =>
    have hend : place p (lexemes []) = [⟨.eof, p⟩] := by
      rw [lexemes_of_spanComments_nil (spanComments_of_none rfl)]
      rfl
    rw [passes, pass_eq, hend]
    dsimp only
    rw [Position.advanceOver_nil, ih, List.append_assoc]
    rfl

end Tokenizer

/-- The first pass collects the tokens of the source, and each later one the end of the input where the source ends. -/
theorem tokenizeRepeatedly_succ (source : String) (runs : Nat) : tokenizeRepeatedly source (runs + 1) =
    tokenize source ++ List.replicate runs ⟨.eof, Position.start.advanceOver source.toList⟩ := by
  rw [tokenizeRepeatedly, Tokenizer.passes, Tokenizer.pass_eq, Tokenizer.passes_of_rest_nil]
  rfl

end Lexer

end ScssExtend
