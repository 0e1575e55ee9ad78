import ScssExtend.Proofs.Stylesheet.Headers
import ScssExtend.Proofs.Stylesheet.Nesting
import ScssExtend.Proofs.Stylesheet.Pieces

/-!
# Sources whose texts are settled

Step by step the reader makes settled texts out of kept pieces (`Parser.settles_of_step`), where plain selectors are
settled in any case. So a stylesheet whose source has kept pieces only, and whose selectors are plain, has settled
texts (`Stylesheet.isSettled_of_keepsTexts`). Both conditions can be computed.
-/

namespace ScssExtend

open Lexer Prelude

mutual

/-- The selectors of the style rules in a statement, those in keyframe steps among them. -/
def Statement.allSelectors : Statement → List SelectorList
  | .rule selector body _ => selector :: Statement.bodyAllSelectors body
  | .media _ body _ | .keyframe _ body _ | .atBlock _ _ body _ => Statement.bodyAllSelectors body
  | .atRule .. | .declaration .. | .extend .. => []

/-- The selectors of the style rules in a block, those in keyframe steps among them. -/
def Statement.bodyAllSelectors : List Statement → List SelectorList
  | [] => []
  | s :: ss => s.allSelectors ++ Statement.bodyAllSelectors ss

end

namespace Stylesheet

/-- The pieces of the source are kept. -/
def KeepsTexts (source : String) : Prop :=
  ∀ us ∈ (Lexer.tokens source).splitOnP endsPiece, IsKept us

instance : DecidablePred KeepsTexts := fun source =>
  inferInstanceAs (Decidable (∀ us ∈ (Lexer.tokens source).splitOnP endsPiece, IsKept us))

/-- The selectors of all style rules are plain. -/
def HasPlainSelectors (sheet : Stylesheet) : Prop :=
  ∀ l ∈ Statement.bodyAllSelectors sheet.statements, l.IsPlain

instance : DecidablePred HasPlainSelectors := fun sheet =>
  inferInstanceAs (Decidable (∀ l ∈ Statement.bodyAllSelectors sheet.statements, l.IsPlain))

end Stylesheet

namespace Statement

/-- The texts of the statement are settled if its selectors are plain. -/
def Settles (s : Statement) : Prop :=
  (∀ l ∈ s.allSelectors, l.IsPlain) → s.IsSettled false

/-- The texts in a block of statements that settle are settled if the selectors in it are plain. -/
lemma bodySettled_of_settles {ss : List Statement} (h : ∀ s ∈ ss, s.Settles)
    (hplain : ∀ l ∈ bodyAllSelectors ss, l.IsPlain) : BodySettled false ss := by
  induction ss with
  | nil => trivial
  | cons s ss ih =>
    obtain ⟨hs, hss⟩ := List.forall_mem_cons.1 h
    rw [bodyAllSelectors, List.forall_mem_append] at hplain
    exact ⟨hs hplain.1, ih hss hplain.2⟩

end Statement

namespace Parser

open Grammar

variable {ending position : Position} {st st' : State} {ts rest : List PlacedToken}

/-! ## What is kept of what was read -/

/-- The texts of the header are settled; that of a rule is no selector yet. -/
def Header.IsSettled : Header → Prop
  | .rule _ => True
  | .media query => Printer.IsSettledPrelude false true query
  | .keyframe step => Printer.IsSettledHeader false step
  | .atBlock name preludeText => Printer.IsSettledAtRule false true name preludeText

/-- The texts of a block are settled when those of its header and of its contents are. -/
lemma Header.settles_of_close {header : Header} {body : List Statement} {s : Statement} (hheader : header.IsSettled)
    (hbody : ∀ t ∈ body, t.Settles) (h : header.close position body = .ok s) : s.Settles := by
  cases header with
  | rule selectorText =>
    obtain ⟨selector, hparse, h⟩ := bind_eq_ok.1 h
    cases h
    intro hplain
    obtain ⟨hselector, hplain⟩ := List.forall_mem_cons.1 hplain
    exact ⟨SelectorList.isSettledHeader_text (SelectorList.isComposed_of_parse hparse)
      (SelectorList.isArranged_of_parse hparse) hselector false,
      fun s hs => (hselector.components s hs).isStable, Statement.bodySettled_of_settles hbody hplain⟩
  | media | keyframe | atBlock =>
    cases h
    exact fun hplain => ⟨hheader, Statement.bodySettled_of_settles hbody hplain⟩

/-- The texts that were read so far are settled if their selectors are plain, and the pieces of the rest are kept. -/
structure Settles (st : State) (ts : List PlacedToken) : Prop where
  statements : ∀ s ∈ st.statements, s.Settles
  frames : ∀ f ∈ st.frames, f.header.IsSettled ∧ ∀ s ∈ f.before, s.Settles
  keeps : Keeps (ts.map PlacedToken.token)

/-- A statement whose texts settle may be added. -/
lemma Settles.add {s : Statement} (h : Settles st ts) (hs : s.Settles) (hrest : Keeps (rest.map PlacedToken.token)) :
    Settles (st.add s) rest :=
  ⟨List.forall_mem_append.2 ⟨h.statements, List.forall_mem_singleton.2 hs⟩, h.frames, hrest⟩

/-- Behind a semicolon the pieces are kept as well. -/
lemma keeps_skipSemicolon (h : Keeps (ts.map PlacedToken.token)) :
    Keeps ((skipSemicolon ts).map PlacedToken.token) := by
  obtain heq | ⟨t, ht, heq⟩ := skipSemicolon_cases ts
  · rwa [heq]
  · rw [heq, List.map_cons, ht] at h
    exact h.of_stop rfl

/-! ## One lemma for each reader -/

/-- Opening a block keeps what was read before it. -/
lemma settles_of_openBlock {header : Header} (hst : Settles st ts) (hheader : header.IsSettled)
    {stream : List PlacedToken} (hstream : Keeps (stream.map PlacedToken.token))
    (h : openBlock ending st header position stream = .ok (.next st' rest)) : Settles st' rest := by
  unfold openBlock at h
  split at h <;> cases h
  exact ⟨List.forall_mem_nil _, List.forall_mem_cons.2 ⟨⟨hheader, hst.statements⟩, hst.frames⟩, hstream.of_stop rfl⟩

/-- Closing a block makes a statement of its header and its contents. -/
lemma settles_of_closeBlock {place : Position} (hst : Settles st (⟨.rightBrace, place⟩ :: ts))
    (h : closeBlock st place ts = .ok (.next st' rest)) : Settles st' rest := by
  obtain rfl := closeBlock_rest h
  unfold closeBlock at h
  split at h
  · cases h
  · next frame frames hframes =>
    obtain ⟨s, hclose, h⟩ := bind_eq_ok.1 h
    cases h
    have hall := hst.frames
    rw [hframes] at hall
    obtain ⟨⟨hheader, hbefore⟩, hframes⟩ := List.forall_mem_cons.1 hall
    have hs : s.Settles := Header.settles_of_close hheader hst.statements hclose
    exact ⟨List.forall_mem_append.2 ⟨hbefore, List.forall_mem_singleton.2 hs⟩, hframes, hst.keeps.of_stop rfl⟩

/-- The prelude of an at-rule goes to the end of the piece that its keyword begins. -/
lemma exists_spanPrelude_atKeyword {name : String}
    (h : Keeps ((⟨.atKeyword name, position⟩ :: ts : List PlacedToken).map PlacedToken.token)) :
    ∃ taken rest, spanPrelude 0 (ts.dropWhile (·.token == .whitespace)) = (taken, rest) ∧
      (∀ block, Printer.IsSettledAtRule false block name (serialize taken)) ∧
        Keeps (rest.map PlacedToken.token) := by
  obtain ⟨us, rest, happ, -, hrest, hread, hkept, hkeeps⟩ := h.exists_piece
  cases us with
  | nil =>
    have hends := hrest ⟨.atKeyword name, position⟩ (by rw [List.nil_append] at happ; simp [← happ])
    cases hends
  | cons u us =>
    obtain ⟨rfl, htail⟩ := List.cons.inj happ
    rw [List.map_cons] at hkept
    have hclosed := (Printer.isKept_of_atKeyword hkept).1.closed
    refine ⟨lead (us.map PlacedToken.token), rest, ?_, fun block => ?_, hkeeps⟩
    · rw [htail, List.append_eq, dropWhile_piece hrest, spanPrelude_piece ?_ hrest, map_token_dropWhile]
      rwa [map_token_dropWhile, isPrelude_congr (brackets_lead _)]
    · rw [serialize_lead]
      refine Printer.isSettledAtRule_serialize ?_ hkept block
      simpa using hread

/-- An at-rule has a settled text, and a directive none that is printed. -/
lemma settles_of_readAtRule (hst : Settles st ts) (h : readAtRule ending st ts = .ok (.next st' rest)) :
    Settles st' rest := by
  unfold readAtRule at h
  split at h
  · next name position ts =>
    obtain ⟨taken, stream, hspan, hsettled, hstream⟩ := exists_spanPrelude_atKeyword hst.keeps
    dsimp only at h
    split at h
    · unfold readExtend at h
      rw [hspan] at h
      dsimp only at h
      split at h
      · cases h
      · obtain ⟨targets, -, h⟩ := bind_eq_ok.1 h
        cases h
        exact hst.add (fun _ => trivial) (keeps_skipSemicolon hstream)
    · rw [hspan] at h
      dsimp only at h
      split at h
      · cases h
        exact hst.add (fun _ => hsettled false) (keeps_skipSemicolon hstream)
      · split at h
        · refine settles_of_openBlock hst ?_ hstream h
          exact (hsettled true).2.2
        · refine settles_of_openBlock hst ?_ hstream h
          exact hsettled true
  · cases h

/-- A keyframe step goes to the end of its piece, and so does the header of a rule. -/
lemma settles_of_readQualifiedRule {t : PlacedToken} (ht : isPlain t.token) (hst : Settles st (t :: ts))
    (h : readQualifiedRule ending st (t :: ts) = .ok (.next st' rest)) : Settles st' rest := by
  obtain ⟨us, stream, happ, -, hstream, hread, hkept, hkeeps⟩ := hst.keeps.exists_piece
  have hplain : (us.map PlacedToken.token).head?.all isPlain := by
    cases us with
    | nil => rfl
    | cons u us =>
      obtain ⟨rfl, -⟩ := List.cons.inj happ
      simpa using ht
  rw [readQualifiedRule, happ, spanPrelude_piece hkept.closed hstream] at h
  refine settles_of_openBlock hst ?_ hkeeps h
  split
  · exact Printer.isSettledHeader_serialize (by simpa using hread) hkept hplain
  · trivial

/-- The name of a declaration and its colon stand in one piece, if no brace ends it. -/
lemma exists_piece_of_readPropertyName {start : Position} {us stream : List PlacedToken} {name : List Token}
    (hstream : ∀ r ∈ stream.head?, endsPiece r.token) (hbrace : atBrace stream = false)
    (h : readPropertyName start (us ++ stream) = .ok (name, rest)) : ∃ ns colon vs, us = ns ++ colon :: vs ∧
      rest = vs ++ stream ∧ ns.map PlacedToken.token = name ∧ colon.token = .colon ∧
        ∀ n ∈ ns, n.token ≠ .colon ∧ endsName n.token = false := by
  obtain ⟨ns, colon, happ, hmap, hcolon, hnames⟩ := readPropertyName_append h
  -- neither a colon nor a token of the name ends a piece
  have hhead (r : PlacedToken) (more : List PlacedToken) (hr : stream = r :: more) :
      r.token ≠ .colon ∧ endsName r.token := by
    have hends := hstream r (by simp [hr])
    rw [hr, atBrace, List.head?_cons, Option.any_some, beq_eq_false_iff_ne] at hbrace
    rw [endsPiece, isStop.eq_def] at hends
    revert hends hbrace
    cases r.token <;> simp [endsName]
  obtain ⟨ms, rfl, hms⟩ | ⟨ms, rfl, hms⟩ := List.append_eq_append_iff.1 happ
  · cases ms with
    | nil => exact absurd hcolon (hhead colon rest hms.symm).1
    | cons m ms =>
      obtain ⟨rfl, hrest⟩ := List.cons.inj hms
      exact ⟨ns, colon, ms, rfl, hrest, hmap, hcolon, hnames⟩
  · cases ms with
    | nil => exact absurd hcolon (hhead colon rest hms).1
    | cons m ms =>
      have hm := (hhead m (ms ++ colon :: rest) hms).2
      rw [(hnames m (by simp)).2] at hm
      cases hm

/-- The name and the value of a declaration are written in one piece. -/
lemma settles_of_readDeclaration {t : PlacedToken} (ht : isPlain t.token) (hnone : startsBlock 0 (t :: ts) = false)
    (hst : Settles st (t :: ts)) (h : readDeclaration ending st (t :: ts) = .ok (.next st' rest)) :
    Settles st' rest := by
  obtain ⟨us, stream, happ, hus, hstream, hread, hkept, hkeeps⟩ := hst.keeps.exists_piece
  rw [happ, startsBlock_piece hkept.closed hstream] at hnone
  obtain ⟨⟨name, more⟩, hname, h⟩ := bind_eq_ok.1 h
  rw [happ] at hname
  obtain ⟨ns, colon, vs, rfl, rfl, rfl, hcolon, hnames⟩ := exists_piece_of_readPropertyName hstream hnone hname
  have hplain : ((ns ++ colon :: vs).map PlacedToken.token).head?.all isPlain := by
    cases ns with
    | nil =>
      obtain ⟨rfl, -⟩ := List.cons.inj happ
      simpa using ht
    | cons n ns =>
      obtain ⟨rfl, -⟩ := List.cons.inj happ
      simpa using ht
  have hread' : ∀ u ∈ (ns ++ colon :: vs).map PlacedToken.token, IsRead u := List.forall_mem_map.2 hread
  have hends : ∀ u ∈ (ns ++ colon :: vs).map PlacedToken.token, endsPiece u = false := List.forall_mem_map.2 hus
  rw [List.map_append, List.map_cons, hcolon] at hplain hread' hends hkept
  have hvalue : isPrelude 0 (vs.map PlacedToken.token) := by
    refine isPrelude_suffix (ns.map PlacedToken.token ++ [.colon]) ?_ ?_
    · simpa using hkept.closed
    · simpa using hends
  dsimp only at h
  split at h
  · cases h
  · rw [spanPrelude_piece hvalue hstream] at h
    cases h
    refine hst.add (fun _ => ?_) (keeps_skipSemicolon hkeeps)
    exact Printer.isSettledDeclaration_serialize hread' hkept hends hplain (by simpa using hnames)

/-! ## Steps and runs -/

/-- A step keeps what was read settled, and leaves kept pieces. -/
theorem settles_of_step (hst : Settles st ts) (h : step ending st ts = .ok (.next st' rest)) : Settles st' rest := by
  cases ts with
  | nil => exact absurd h finish_ne_next
  | cons t ts =>
    obtain ⟨token, place⟩ := t
    by_cases ht : isPlain token
    · rw [step_of_isPlain ht] at h
      split at h
      · exact settles_of_readQualifiedRule ht hst h
      · next hnone => exact settles_of_readDeclaration ht (Bool.eq_false_iff.2 hnone) hst h
    · cases token with
      | whitespace =>
        cases h
        exact ⟨hst.statements, hst.frames, hst.keeps.of_space⟩
      | semicolon =>
        cases h
        exact ⟨hst.statements, hst.frames, hst.keeps.of_stop rfl⟩
      | eof => exact absurd h finish_ne_next
      | rightBrace => exact settles_of_closeBlock hst h
      | atKeyword name => exact settles_of_readAtRule hst h
      | _ => exact absurd rfl ht

/-- All texts of a run are settled if their selectors are plain. -/
theorem settles_of_run {statements : List Statement} (hst : Settles st ts)
    (h : run ending st ts = .ok (statements, rest)) : ∀ s ∈ statements, s.Settles := by
  fun_induction run ending st ts with
  | case1 => cases h
  | case2 st ts statements' rest' hstep =>
    cases h
    have hsteps := stepsTo_of_step hstep
    cases hsteps with
    | done => exact hst.statements
  | case3 st ts st' rest' hstep hlt ih => exact ih (settles_of_step hst hstep) h

end Parser

/-- A stylesheet whose selectors are plain, and whose source consists of kept pieces, has settled texts. -/
theorem Stylesheet.isSettled_of_keepsTexts {source : String} {sheet : Stylesheet}
    (h : Stylesheet.parse source = .ok sheet) (hkeeps : Stylesheet.KeepsTexts source)
    (hplain : sheet.HasPlainSelectors) : sheet.IsSettled := by
  obtain ⟨⟨statements, rest⟩, hrun, h⟩ := Grammar.bind_eq_ok.1 h
  cases h
  have hread (t : Token) (ht : t ∈ Lexer.tokens source) : t = .eof ∨ IsRead t := by
    rw [Lexer.tokens_eq_tokensOf] at ht
    exact isRead_of_mem_tokensOf ht
  have hinitial : Parser.Settles .initial (Lexer.tokenize source) :=
    ⟨List.forall_mem_nil _, List.forall_mem_nil _, hread, hkeeps⟩
  exact ⟨false, Statement.bodySettled_of_settles (Parser.settles_of_run hinitial hrun) hplain⟩

end ScssExtend
