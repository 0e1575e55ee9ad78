import ScssExtend.Proofs.Selector.Composition
import ScssExtend.Proofs.Stylesheet.Steps

/-!
# Which tokens a step takes

`Takes` says once which tokens a step takes off the stream and what they are to the tree: a separator, a statement
without a block, what stands before a block through its `{`, or the `}` of a block (`takes_of_step`). The end of the
input is never among them (`Taken`), and the places that a step gives to the tree are those of significant tokens
that it takes, in their order (`starts`).
-/

namespace ScssExtend

open scoped List

/-- True of the statements that have a block, which may be empty. -/
def Statement.hasBlock : Statement → Bool
  | .rule .. | .media .. | .keyframe .. | .atBlock .. => true
  | .atRule .. | .declaration .. | .extend .. => false

/-- The places of a statement itself: where it starts, and behind that where the targets of a directive start. -/
def Statement.ownPlaces : Statement → List Position
  | .extend targets _ position => [position, targets.position]
  | s => [s.position]

/-- The significant tokens are those other than white space and the end of the input. -/
lemma Token.isSignificant_iff {t : Token} : t.isSignificant ↔ t ≠ .whitespace ∧ t ≠ .eof := by
  cases t <;> simp [isSignificant]

/-- No selector is read from an empty text. -/
lemma Grammar.ne_nil_of_readSelectors {cs : List Char} {selectors : List Complex}
    (h : readSelectors cs = .ok selectors) : cs ≠ [] := by
  rintro rfl
  unfold readSelectors at h
  split at h
  · cases h
  · next hlinks => exact absurd (readLinks_length hlinks) (Nat.not_lt_zero _)

namespace Parser

open Grammar Prelude

/-- The tokens that are left behind a step. -/
def Step.rest : Step → List PlacedToken
  | done _ rest | next _ rest => rest

/-- The tokens `us` are taken off the stream `ts`, and `rest` is left; the end of the input is not taken. -/
structure Taken (ts us rest : List PlacedToken) : Prop where
  append : us ++ rest = ts
  ne_eof : ∀ u ∈ us, u.token ≠ .eof

/-- The places of the significant tokens. -/
def starts (ts : List PlacedToken) : List Position :=
  (ts.filter (·.token.isSignificant)).map PlacedToken.position

/-- What a step comes to from a state, and the tokens that it takes for it. -/
inductive Takes (st : State) : List PlacedToken → Step → Prop where
  | done {rest} : st.frames = [] → (∀ t ∈ rest.head?, t.token = .eof) → Takes st [] (.done st.statements rest)
  | skip {t rest} : Takes st [t] (.next st rest)
  | add {s us rest} : s.hasBlock = false → s.ownPlaces <+ starts us → Takes st us (.next (st.add s) rest)
  | enter {header position us brace rest} : brace.token = .leftBrace → [position] <+ starts (us ++ [brace]) →
    Takes st (us ++ [brace]) (.next (st.enter header position) rest)
  | close {brace frame frames s rest} : brace.token = .rightBrace → st.frames = frame :: frames →
    frame.header.close frame.position st.statements = .ok s →
    Takes st [brace] (.next ⟨frames, frame.before ++ [s]⟩ rest)

variable {ts us vs mid rest : List PlacedToken} {t : PlacedToken}

/-! ## Tokens that are taken -/

/-- A stream is left when nothing is taken. -/
lemma Taken.refl (ts : List PlacedToken) : Taken ts [] ts :=
  ⟨rfl, List.forall_mem_nil _⟩

/-- Tokens may be taken off a stream in two steps. -/
lemma Taken.trans (h : Taken ts us mid) (h' : Taken mid vs rest) : Taken ts (us ++ vs) rest := by
  obtain ⟨rfl, hus⟩ := h
  obtain ⟨rfl, hvs⟩ := h'
  exact ⟨List.append_assoc us vs rest, List.forall_mem_append.2 ⟨hus, hvs⟩⟩

/-- One more token may be taken in front. -/
lemma Taken.cons (ht : t.token ≠ .eof) (h : Taken ts us rest) : Taken (t :: ts) (t :: us) rest :=
  ⟨congrArg (t :: ·) h.append, List.forall_mem_cons.2 ⟨ht, h.ne_eof⟩⟩

/-- The first token of a stream may be taken alone. -/
lemma Taken.single (ht : t.token ≠ .eof) : Taken (t :: ts) [t] ts :=
  (Taken.refl ts).cons ht

/-- Leading space is taken off a stream token by token. -/
lemma taken_dropSpace (ts : List PlacedToken) : Taken ts (ts.takeWhile (·.token == .whitespace))
    (ts.dropWhile (·.token == .whitespace)) := by
  refine ⟨List.takeWhile_append_dropWhile, fun u hu => ?_⟩
  have hspace : u.token = .whitespace := by simpa using List.mem_takeWhile_imp hu
  simp [hspace]

/-- A prelude is taken off a stream as the tokens it is read as. -/
lemma taken_spanPrelude (depth : Nat) (ts : List PlacedToken) :
    ∃ us, Taken ts us (spanPrelude depth ts).2 ∧ us.map PlacedToken.token = (spanPrelude depth ts).1 := by
  obtain ⟨us, happ, hmap, hne⟩ := spanPrelude_append depth ts
  exact ⟨us, ⟨happ, hne⟩, hmap⟩

/-- A semicolon is taken off a stream, or nothing. -/
lemma taken_skipSemicolon (ts : List PlacedToken) : ∃ us, Taken ts us (skipSemicolon ts) := by
  obtain heq | ⟨t, ht, heq⟩ := skipSemicolon_cases ts
  · exact ⟨[], by rw [heq]; exact Taken.refl ts⟩
  · exact ⟨[t], heq.symm, List.forall_mem_singleton.2 (by simp [ht])⟩

/-- The name of a declaration is taken off a stream with its colon, so that some token is. -/
lemma taken_readPropertyName {start : Position} {name : List Token}
    (h : readPropertyName start ts = .ok (name, rest)) : ∃ us, us ≠ [] ∧ Taken ts us rest := by
  obtain ⟨us, colon, happ, -, hcolon, hnames⟩ := readPropertyName_append h
  have hne (u : PlacedToken) (hu : u ∈ us) : u.token ≠ .eof := ne_eof_of_endsName (hnames u hu).2
  refine ⟨us ++ [colon], List.concat_ne_nil _ _, by simpa using happ, List.forall_mem_append.2 ⟨hne, ?_⟩⟩
  exact List.forall_mem_singleton.2 (by simp [hcolon])

/-! ## The places of significant tokens -/

/-- The places of two runs follow each other. -/
lemma starts_append (ts us : List PlacedToken) : starts (ts ++ us) = starts ts ++ starts us := by
  rw [starts, List.filter_append, List.map_append]
  rfl

/-- A significant token adds its place in front. -/
lemma starts_cons (ht : t.token.isSignificant) (ts : List PlacedToken) :
    starts (t :: ts) = t.position :: starts ts := by
  simp [starts, ht]

/-- A place is that of a significant token. -/
lemma mem_starts {p : Position} : p ∈ starts ts ↔ ∃ t ∈ ts, t.token.isSignificant ∧ t.position = p := by
  simp only [starts, List.mem_map, List.mem_filter, and_assoc]

/-- The places of a stream are those of the tokens taken and of those left. -/
lemma Taken.starts_eq (h : Taken ts us rest) : starts ts = starts us ++ starts rest := by
  rw [← h.append, starts_append]

/-- Where a stream stands, its first token is, and this is one of those that are taken. -/
lemma Taken.location_sublist (h : Taken ts us rest) (hne : us ≠ []) (ending : Position)
    (hfirst : ∀ t ∈ ts.head?, t.token ≠ .whitespace) : [location ending ts] <+ starts us := by
  obtain ⟨u, us, rfl⟩ := List.exists_cons_of_ne_nil hne
  obtain ⟨rfl, hne⟩ := h
  have hsignificant : u.token.isSignificant :=
    Token.isSignificant_iff.2 ⟨hfirst u rfl, hne u List.mem_cons_self⟩
  rw [starts_cons hsignificant]
  exact (List.nil_sublist _).cons_cons _

/-! ## What a step takes -/

variable {ending position : Position} {st : State} {r : Step}

/-- A block opens at its `{`, which is the last token taken; `us` are those before the stream `mid`. -/
lemma takes_of_openBlock {header : Header} (h : openBlock ending st header position mid = .ok r)
    (hus : Taken ts us mid) (hposition : ∀ vs, Taken ts vs r.rest → vs ≠ [] → [position] <+ starts vs) :
    ∃ vs, Taken ts vs r.rest ∧ Takes st vs r := by
  unfold openBlock at h
  split at h
  · cases h
  · next place behind =>
    cases h
    have hbrace : Taken (⟨.leftBrace, place⟩ :: behind) [⟨.leftBrace, place⟩] behind := Taken.single (by simp)
    have htaken := hus.trans hbrace
    exact ⟨_, htaken, .enter rfl (hposition _ htaken (List.concat_ne_nil _ _))⟩
  · cases h

/-- At the end of the input a step takes nothing. -/
lemma takes_of_finish (hend : ∀ t ∈ ts.head?, t.token = .eof) (h : finish ending st ts = .ok r) :
    ∃ us, Taken ts us r.rest ∧ Takes st us r := by
  unfold finish at h
  split at h
  · next hframes =>
    cases h
    exact ⟨[], Taken.refl ts, .done hframes hend⟩
  · cases h

/-- A closing brace is taken alone. -/
lemma takes_of_closeBlock (ht : t.token = .rightBrace) (h : closeBlock st t.position ts = .ok r) :
    ∃ us, Taken (t :: ts) us r.rest ∧ Takes st us r := by
  unfold closeBlock at h
  split at h
  · cases h
  · next frame frames hframes =>
    obtain ⟨s, hclose, h⟩ := bind_eq_ok.1 h
    cases h
    exact ⟨[t], Taken.single (by simp [ht]), .close ht hframes hclose⟩

/-- The targets of a directive begin with a token, since no selector is read from an empty text. -/
lemma takes_of_readExtend (h : readExtend ending st position ts = .ok r)
    (hfirst : ∀ t ∈ ts.head?, t.token ≠ .whitespace) :
    ∃ us targets optional, Taken ts us r.rest ∧ [targets.position] <+ starts us ∧
      r = .next (st.add (.extend targets optional position)) r.rest := by
  unfold readExtend at h
  dsimp only at h
  split at h
  · cases h
  · obtain ⟨targets, hparse, h⟩ := bind_eq_ok.1 h
    cases h
    obtain ⟨us, hus, hmap⟩ := taken_spanPrelude 0 ts
    obtain ⟨vs, hvs⟩ := taken_skipSemicolon (spanPrelude 0 ts).2
    obtain ⟨hread, hplace⟩ := SelectorList.readSelectors_of_parse hparse
    have hne : us ≠ [] := by
      rintro rfl
      rw [← hmap] at hread
      exact ne_nil_of_readSelectors hread rfl
    refine ⟨us ++ vs, targets, _, hus.trans hvs, ?_, rfl⟩
    rw [hplace, starts_append]
    exact (hus.location_sublist hne ending hfirst).trans (List.sublist_append_left _ _)

/-- An at-rule without a block is taken whole, one with a block up to its brace. -/
lemma takes_of_readAtRule (ht : t.token ≠ .whitespace) (h : readAtRule ending st (t :: ts) = .ok r) :
    ∃ us, Taken (t :: ts) us r.rest ∧ Takes st us r := by
  unfold readAtRule at h
  split at h
  · next name place ts' heq =>
    cases heq
    have hspace := (taken_dropSpace ts).cons (t := ⟨.atKeyword name, place⟩) (by simp)
    have hfirst : ∀ t ∈ (ts.dropWhile (·.token == .whitespace)).head?, t.token ≠ .whitespace := by
      intro t ht
      have hstop := List.head?_dropWhile_not (·.token == .whitespace) ts
      rw [Option.mem_def.1 ht] at hstop
      simpa using hstop
    obtain ⟨us, hus, -⟩ := taken_spanPrelude 0 (ts.dropWhile (·.token == .whitespace))
    have hprelude := hspace.trans hus
    have hposition (vs : List PlacedToken) (hvs : Taken (⟨.atKeyword name, place⟩ :: ts) vs r.rest)
        (hne : vs ≠ []) : [place] <+ starts vs :=
      hvs.location_sublist hne ending (by simp)
    dsimp only at h
    split at h
    · obtain ⟨vs, targets, optional, hvs, hplaces, hr⟩ := takes_of_readExtend h hfirst
      refine ⟨_, hspace.trans hvs, ?_⟩
      rw [hr]
      refine .add rfl ?_
      rw [List.cons_append, starts_cons rfl, starts_append]
      exact (hplaces.trans (List.sublist_append_right _ _)).cons_cons _
    · split at h
      · cases h
        obtain ⟨vs, hvs⟩ := taken_skipSemicolon (spanPrelude 0 (ts.dropWhile (·.token == .whitespace))).2
        have htaken := hprelude.trans hvs
        exact ⟨_, htaken, .add rfl (hposition _ htaken (List.cons_ne_nil _ _))⟩
      · split at h <;> exact takes_of_openBlock h hprelude hposition
  · cases h

/-- A qualified rule is taken up to the brace of its block. -/
lemma takes_of_readQualifiedRule (ht : t.token ≠ .whitespace)
    (h : readQualifiedRule ending st (t :: ts) = .ok r) : ∃ us, Taken (t :: ts) us r.rest ∧ Takes st us r := by
  obtain ⟨us, hus, -⟩ := taken_spanPrelude 0 (t :: ts)
  exact takes_of_openBlock h hus fun vs hvs hne => hvs.location_sublist hne ending (by simpa using ht)

/-- A declaration is taken whole. -/
lemma takes_of_readDeclaration (ht : t.token ≠ .whitespace)
    (h : readDeclaration ending st (t :: ts) = .ok r) : ∃ us, Taken (t :: ts) us r.rest ∧ Takes st us r := by
  obtain ⟨⟨name, ts'⟩, hname, h⟩ := bind_eq_ok.1 h
  obtain ⟨us, hne, hus⟩ := taken_readPropertyName hname
  obtain ⟨vs, hvs, -⟩ := taken_spanPrelude 0 ts'
  obtain ⟨ws, hws⟩ := taken_skipSemicolon (spanPrelude 0 ts').2
  dsimp only at h
  split at h
  · cases h
  · cases h
    have htaken := (hus.trans hvs).trans hws
    refine ⟨_, htaken, .add rfl ?_⟩
    exact htaken.location_sublist (by simp [hne]) ending (by simpa using ht)

/-- A step takes tokens off the beginning of the stream, and comes to what they are. -/
lemma takes_of_step (h : step ending st ts = .ok r) : ∃ us, Taken ts us r.rest ∧ Takes st us r := by
  cases ts with
  | nil => exact takes_of_finish (by simp) h
  | cons t ts =>
    unfold step at h
    dsimp only at h
    split at h
    · next ht =>
      cases h
      exact ⟨[t], Taken.single (by simp [ht]), .skip⟩
    · next ht =>
      cases h
      exact ⟨[t], Taken.single (by simp [ht]), .skip⟩
    · next ht => exact takes_of_finish (by simpa using ht) h
    · next ht => exact takes_of_closeBlock ht h
    · next ht => exact takes_of_readAtRule (by simp [ht]) h
    · next hspace _ _ _ _ =>
      split at h
      · exact takes_of_readQualifiedRule hspace h
      · exact takes_of_readDeclaration hspace h

/-- Only the end of the stylesheet takes no token. -/
lemma Takes.ne_nil {st' : State} (h : Takes st us (.next st' rest)) : us ≠ [] := by
  cases h with
  | skip => exact List.cons_ne_nil _ _
  | @add s _ _ _ hplaces =>
    rintro rfl
    have hnil : s.ownPlaces = [] := List.sublist_nil.1 hplaces
    cases s <;> cases hnil
  | enter => exact List.concat_ne_nil _ _
  | close => exact List.cons_ne_nil _ _

end Parser

end ScssExtend
