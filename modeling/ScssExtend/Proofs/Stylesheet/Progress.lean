import ScssExtend.Proofs.Stylesheet.Consumption

/-!
# The reader comes to an end of its input

The statements of a block are read in a loop. `Pass` is one pass of it, with the whole loop of a nested block inside
(`Loop`), so that both follow the nesting of the blocks while a run follows the stream. Every pass takes tokens
(`Pass.taken`), and so a run that is cut off behind one step more than there are tokens is not cut off
(`runWithin_eq_some`). Wherever the reader comes to, it has left only blocks that their loops read up to a `}`
(`comes_of_goes`), and a run that succeeds is the loop outside all blocks, through the last token or up to the first
end of the input. `Stylesheet.reading_ends` is all of this together.
-/

namespace ScssExtend

namespace Parser

/-- The place that is told behind the last of the tokens. -/
def endOf (tokens : List PlacedToken) : Position :=
  (tokens.getLast?.map PlacedToken.position).getD .start

/-- The run of the reader, cut off with `none` behind the given number of steps. -/
def runWithin (ending : Position) :
    Nat → State → List PlacedToken → Option (Except ParseError (List Statement × List PlacedToken))
  | 0, _, _ => none
  | steps + 1, st, ts =>
    match step ending st ts with
    | .error e => some (.error e)
    | .ok (.done statements rest) => some (.ok (statements, rest))
    | .ok (.next st' rest) => runWithin ending steps st' rest

mutual

/-- A pass of the loop over the statements of a block: a step that leaves no block open, or one that opens a block,
the loop in that block, and the step that closes it at the `}` in front of which the loop stopped. -/
inductive Pass (ending : Position) : State × List PlacedToken → State × List PlacedToken → Prop where
  | flat {st statements ts rest} : Goes ending (st, ts) (⟨st.frames, statements⟩, rest) →
    Pass ending (st, ts) (⟨st.frames, statements⟩, rest)
  | block {st header position ts inner body brace rest s} :
    Goes ending (st, ts) (st.enter header position, inner) →
    Loop ending (st.enter header position, inner)
      (⟨(st.enter header position).frames, body⟩, brace :: rest) →
    brace.token = .rightBrace → header.close position body = .ok s →
    Goes ending (⟨(st.enter header position).frames, body⟩, brace :: rest) (st.add s, rest) →
    Pass ending (st, ts) (st.add s, rest)

/-- Passes of the loop, one behind the other. -/
inductive Loop (ending : Position) : State × List PlacedToken → State × List PlacedToken → Prop where
  | stop {a} : Loop ending a a
  | pass {a b c} : Pass ending a b → Loop ending b c → Loop ending a c

end

variable {ending : Position} {a b c : State × List PlacedToken} {st : State} {ts rest : List PlacedToken}
  {statements : List Statement}

/-! ## Passes -/

/-- A step that goes on takes some token. -/
lemma Goes.taken (h : Goes ending a b) : ∃ us, us ≠ [] ∧ Taken a.2 us b.2 := by
  obtain ⟨us, htaken, htakes⟩ := takes_of_step h
  exact ⟨us, htakes.ne_nil, htaken⟩

mutual

/-- A pass of the loop takes some token. -/
theorem Pass.taken : ∀ {a b : State × List PlacedToken}, Pass ending a b → ∃ us, us ≠ [] ∧ Taken a.2 us b.2
  | _, _, .flat hgoes => hgoes.taken
  | _, _, .block hopen hloop _ _ hclose => by
    obtain ⟨us, hne, hus⟩ := hopen.taken
    obtain ⟨vs, hvs⟩ := hloop.taken
    obtain ⟨ws, -, hws⟩ := hclose.taken
    exact ⟨us ++ (vs ++ ws), by simp [hne], hus.trans (hvs.trans hws)⟩

/-- The loop takes tokens off the front of the stream. -/
theorem Loop.taken : ∀ {a b : State × List PlacedToken}, Loop ending a b → ∃ us, Taken a.2 us b.2
  | _, _, .stop => ⟨[], Taken.refl _⟩
  | _, _, .pass hpass hloop => by
    obtain ⟨us, -, hus⟩ := hpass.taken
    obtain ⟨vs, hvs⟩ := hloop.taken
    exact ⟨us ++ vs, hus.trans hvs⟩

end

/-- A pass leaves the open blocks as they were. -/
lemma Pass.frames_eq (h : Pass ending a b) : b.1.frames = a.1.frames := by
  cases h with
  | flat => rfl
  | block => rfl

/-- The loop leaves the open blocks as they were. -/
theorem Loop.frames_eq : ∀ {a b : State × List PlacedToken}, Loop ending a b → b.1.frames = a.1.frames
  | _, _, .stop => rfl
  | _, _, .pass hpass hloop => hloop.frames_eq.trans hpass.frames_eq

/-! ## Blocks that are left -/

/-- From `a`, inside the block of the frame, the loop stops in front of a `}`. This closes the block, which makes the
statement `s`, and `behind` is left. -/
def Closes (ending : Position) (frame : Frame) (frames : List Frame) (a : State × List PlacedToken) (s : Statement)
    (behind : List PlacedToken) : Prop :=
  ∃ body brace, brace.token = .rightBrace ∧ Loop ending a (⟨frame :: frames, body⟩, brace :: behind) ∧
    frame.header.close frame.position body = .ok s ∧
    Goes ending (⟨frame :: frames, body⟩, brace :: behind) (⟨frames, frame.before ++ [s]⟩, behind)

/-- A block that is opened and closed is one pass of the loop around it. -/
lemma Closes.pass {header : Header} {position : Position} {inner behind : List PlacedToken} {s : Statement}
    (hopen : Goes ending (st, ts) (st.enter header position, inner))
    (h : Closes ending ⟨header, position, st.statements⟩ st.frames (st.enter header position, inner) s behind) :
    Pass ending (st, ts) (st.add s, behind) := by
  obtain ⟨body, brace, hbrace, hloop, hclose, hgoes⟩ := h
  exact .block hopen hloop hbrace hclose hgoes

/-- How the reader comes to `c`: by the loop in the block that it is in, into a nested block that is still open there,
or out of the block, which is closed on the way. -/
inductive Comes (ending : Position) (c : State × List PlacedToken) : State × List PlacedToken → Prop where
  | within {x} : Loop ending x c → Comes ending c x
  | deeper {x} : x.1.frames.length < c.1.frames.length → Comes ending c x
  | behind {x frame frames s left} : x.1.frames = frame :: frames → Closes ending frame frames x s left →
    Comes ending c (⟨frames, frame.before ++ [s]⟩, left) → Comes ending c x

/-- The reader still comes to the same state when a pass is put in front. -/
lemma Comes.pass (hpass : Pass ending a b) (h : Comes ending c b) : Comes ending c a := by
  cases h with
  | within hloop => exact .within (.pass hpass hloop)
  | deeper hdeeper => exact .deeper (hpass.frames_eq ▸ hdeeper)
  | behind hframes hcloses hcomes =>
    obtain ⟨body, brace, hbrace, hloop, hrest⟩ := hcloses
    exact .behind (hpass.frames_eq ▸ hframes) ⟨body, brace, hbrace, .pass hpass hloop, hrest⟩ hcomes

/-- Wherever the reader goes, it comes there by loops in blocks. -/
lemma comes_of_goes (h : Relation.ReflTransGen (Goes ending) a c) : Comes ending c a := by
  -- from the front: where a block is opened, it is known already how the reader goes on inside it
  induction h using Relation.ReflTransGen.head_induction_on with
  | refl => exact .within .stop
  | @head a b hgoes _ hcomes =>
    obtain ⟨⟨frames, before⟩, ts⟩ := a
    obtain ⟨st', rest⟩ := b
    obtain ⟨us, htaken, htakes⟩ := takes_of_step hgoes
    cases htakes with
    | skip => exact hcomes.pass (.flat hgoes)
    | add => exact hcomes.pass (.flat hgoes)
    | enter =>
      cases hcomes with
      | within hloop => exact .deeper (hloop.frames_eq ▸ Nat.lt_succ_self _)
      | deeper hdeeper => exact .deeper (Nat.lt_of_succ_lt hdeeper)
      | behind hframes hcloses hcomes =>
        cases hframes
        exact hcomes.pass (hcloses.pass hgoes)
    | @close brace frame frames' s _ hbrace hframes hclose =>
      obtain rfl : frames = frame :: frames' := hframes
      obtain rfl : ts = brace :: rest := htaken.append.symm
      exact .behind rfl ⟨_, _, hbrace, .stop, hclose, hgoes⟩ hcomes

/-- A block that the reader has left was closed. -/
lemma exists_closes {frame : Frame} {frames : List Frame} (h : Relation.ReflTransGen (Goes ending) a c)
    (hframes : a.1.frames = frame :: frames) (hleft : c.1.frames.length ≤ frames.length) :
    ∃ s behind, Closes ending frame frames a s behind := by
  cases comes_of_goes h with
  | within hloop =>
    rw [hloop.frames_eq, hframes] at hleft
    exact absurd hleft (Nat.not_succ_le_self _)
  | deeper hdeeper =>
    rw [hframes, List.length_cons] at hdeeper
    omega
  | behind hframes' hcloses _ =>
    rw [hframes] at hframes'
    cases hframes'
    exact ⟨_, _, hcloses⟩

/-! ## Runs -/

/-- A run that succeeds goes on until all blocks are closed and nothing is left, or the end of the input is next. -/
lemma goes_of_run (h : run ending st ts = .ok (statements, rest)) :
    Relation.ReflTransGen (Goes ending) (st, ts) (⟨[], statements⟩, rest) ∧ ∀ t ∈ rest.head?, t.token = .eof := by
  fun_induction run ending st ts with
  | case1 => cases h
  | case2 st ts statements' rest' hstep =>
    cases h
    obtain ⟨us, htaken, htakes⟩ := takes_of_step hstep
    obtain ⟨frames, before⟩ := st
    cases htakes with
    | done hframes hend =>
      cases hframes
      obtain rfl : ts = rest := htaken.append.symm
      exact ⟨.refl, hend⟩
  | case3 st ts st' rest' hstep _ ih =>
    obtain ⟨hgoes, hend⟩ := ih h
    exact ⟨hgoes.head (show Goes ending (st, ts) (st', rest') from hstep), hend⟩

/-- A run is not cut off if it has more steps than tokens. -/
lemma runWithin_eq_some {steps : Nat} (h : ts.length < steps) :
    runWithin ending steps st ts = some (run ending st ts) := by
  induction steps generalizing st ts with
  | zero => cases h
  | succ steps ih =>
    fun_cases run ending st ts with
    | case1 e hstep => simp [runWithin, hstep]
    | case2 statements rest hstep => simp [runWithin, hstep]
    | case3 st' rest hstep hlt =>
      rw [runWithin, hstep]
      exact ih (by omega)

end Parser

/-- A token stream is read by the run of the reader over it, whatever this leaves of the stream. -/
lemma Stylesheet.ofTokens_eq (tokens : List PlacedToken) : ofTokens tokens =
    (Parser.run (Parser.endOf tokens) .initial tokens).map fun read => ⟨read.1⟩ := by
  unfold ofTokens
  dsimp only [Parser.endOf]
  cases Parser.run ((tokens.getLast?.map PlacedToken.position).getD .start) .initial tokens <;> rfl

/-- The statements of a stylesheet are those that a run over its tokens gives. -/
lemma Stylesheet.run_of_ofTokens {tokens : List PlacedToken} {sheet : Stylesheet}
    (h : ofTokens tokens = .ok sheet) :
    ∃ rest, Parser.run (Parser.endOf tokens) .initial tokens = .ok (sheet.statements, rest) := by
  rw [ofTokens_eq] at h
  cases hrun : Parser.run (Parser.endOf tokens) .initial tokens with
  | error e =>
    rw [hrun] at h
    cases h
  | ok read =>
    rw [hrun] at h
    cases h
    exact ⟨read.2, rfl⟩

/-- Reading any tokens comes to its outcome in at most one step more than there are tokens, and every pass of a loop
over statements takes tokens. A block that was opened and left, whatever comes behind it, was closed by the `}` in
front of which the loop over its statements stopped. When a stylesheet is read, the tokens are taken through the last
one or up to the first end of the input, in passes of the loop outside all blocks, and all blocks that were opened are
closed in this way. -/
theorem Stylesheet.reading_ends (tokens : List PlacedToken) :
    (∃ outcome, Parser.runWithin (Parser.endOf tokens) (tokens.length + 1) .initial tokens = some outcome ∧
      ofTokens tokens = outcome.map fun read => ⟨read.1⟩) ∧
    (∀ a b, Parser.Pass (Parser.endOf tokens) a b → ∃ us, us ≠ [] ∧ us ++ b.2 = a.2) ∧
    (∀ st ts header position inner c, Parser.Goes (Parser.endOf tokens) (st, ts) (st.enter header position, inner) →
      Relation.ReflTransGen (Parser.Goes (Parser.endOf tokens)) (st.enter header position, inner) c →
      c.1.frames.length ≤ st.frames.length →
      ∃ s behind, Parser.Closes (Parser.endOf tokens) ⟨header, position, st.statements⟩ st.frames
        (st.enter header position, inner) s behind) ∧
    ∀ sheet, ofTokens tokens = .ok sheet → ∃ us rest,
      Parser.run (Parser.endOf tokens) .initial tokens = .ok (sheet.statements, rest) ∧
      us ++ rest = tokens ∧ (∀ u ∈ us, u.token ≠ .eof) ∧ (∀ t ∈ rest.head?, t.token = .eof) ∧
      Parser.Loop (Parser.endOf tokens) (.initial, tokens) (⟨[], sheet.statements⟩, rest) ∧
      ∀ st ts header position inner,
        Relation.ReflTransGen (Parser.Goes (Parser.endOf tokens)) (.initial, tokens) (st, ts) →
        Parser.Goes (Parser.endOf tokens) (st, ts) (st.enter header position, inner) →
        ∃ s behind, Parser.Closes (Parser.endOf tokens) ⟨header, position, st.statements⟩ st.frames
          (st.enter header position, inner) s behind := by
  refine ⟨⟨_, Parser.runWithin_eq_some (Nat.lt_succ_self _), ofTokens_eq tokens⟩, fun a b hpass => ?_, ?_,
    fun sheet h => ?_⟩
  · obtain ⟨us, hne, htaken⟩ := hpass.taken
    exact ⟨us, hne, htaken.append⟩
  · intro st ts header position inner c _ hgoes hleft
    exact Parser.exists_closes hgoes rfl hleft
  · obtain ⟨rest, hrun⟩ := run_of_ofTokens h
    obtain ⟨hgoes, hend⟩ := Parser.goes_of_run hrun
    have hloop : Parser.Loop (Parser.endOf tokens) (.initial, tokens) (⟨[], sheet.statements⟩, rest) := by
      cases Parser.comes_of_goes hgoes with
      | within hloop => exact hloop
      | deeper hdeeper => exact absurd hdeeper (Nat.not_lt_zero _)
      | behind hframes => cases hframes
    obtain ⟨us, htaken⟩ := hloop.taken
    refine ⟨us, rest, hrun, htaken.append, htaken.ne_eof, hend, hloop, ?_⟩
    intro st ts header position inner hreach hopen
    rw [Parser.run_of_goes (hreach.tail hopen)] at hrun
    exact Parser.exists_closes (Parser.goes_of_run hrun).1 rfl (Nat.zero_le _)

/-- A rule in a media block, and a stray brace behind the end of the input. -/
def Stylesheet.brokenOff : List PlacedToken :=
  [.atKeyword "media", .leftBrace, .ident "a", .leftBrace, .rightBrace, .semicolon, .rightBrace, .eof,
    .rightBrace].map (PlacedToken.mk · .start)

/-- A media block, and a brace behind it that closes nothing. -/
def Stylesheet.overclosed : List PlacedToken :=
  [.atKeyword "media", .leftBrace, .rightBrace, .rightBrace].map (PlacedToken.mk · .start)

/-- In the first stream the media block is closed by the second of its braces, and the brace behind the end of the
input is left; in the second one the block is closed although the stream is refused in the end. -/
theorem Stylesheet.reading_ends_midway :
    (∃ sheet us rest s behind, ofTokens brokenOff = .ok sheet ∧ us ++ rest = brokenOff ∧
      (∀ u ∈ us, u.token ≠ .eof) ∧ rest.map PlacedToken.token = [.eof, .rightBrace] ∧
      Parser.Loop (Parser.endOf brokenOff) (.initial, brokenOff) (⟨[], sheet.statements⟩, rest) ∧
      Parser.Closes (Parser.endOf brokenOff) ⟨.media "", .start, []⟩ []
        (Parser.State.initial.enter (.media "") .start, brokenOff.drop 2) s behind ∧
      Parser.Pass (Parser.endOf brokenOff) (.initial, brokenOff) (Parser.State.initial.add s, behind) ∧
      ∃ vs, vs ≠ [] ∧ vs ++ behind = brokenOff) ∧
    ∃ e s behind, ofTokens overclosed = .error e ∧ e = .unexpectedToken (.token .rightBrace) .start ∧
      Parser.Closes (Parser.endOf overclosed) ⟨.media "", .start, []⟩ []
        (Parser.State.initial.enter (.media "") .start, overclosed.drop 2) s behind := by
  constructor
  · obtain ⟨⟨statements, rest⟩, hrun, htokens⟩ : ∃ read,
        Parser.run (Parser.endOf brokenOff) .initial brokenOff = .ok read ∧
        read.2.map PlacedToken.token = [.eof, .rightBrace] :=
      exists_of_any_toOption (by decide +kernel)
    have hsheet : ofTokens brokenOff = .ok ⟨statements⟩ := by
      rw [ofTokens_eq, hrun]
      rfl
    have hopen : Parser.Goes (Parser.endOf brokenOff) (.initial, brokenOff)
        (Parser.State.initial.enter (.media "") .start, brokenOff.drop 2) := rfl
    obtain ⟨-, hpasses, -, hread⟩ := reading_ends brokenOff
    obtain ⟨us, rest', hrun', happ, hne, -, hloop, hblocks⟩ := hread _ hsheet
    obtain rfl : rest = rest' := by
      rw [hrun] at hrun'
      cases hrun'
      rfl
    obtain ⟨s, behind, hcloses⟩ := hblocks _ _ _ _ _ .refl hopen
    have hpass := hcloses.pass hopen
    exact ⟨⟨statements⟩, us, rest, s, behind, hsheet, happ, hne, htokens, hloop, hcloses, hpass, hpasses _ _ hpass⟩
  · obtain ⟨e, herror, he⟩ : ∃ e, ofTokens overclosed = .error e ∧ e = .unexpectedToken (.token .rightBrace) .start :=
      exists_error_of_test (by decide +kernel)
    have hopen : Parser.Goes (Parser.endOf overclosed) (.initial, overclosed)
        (Parser.State.initial.enter (.media "") .start, overclosed.drop 2) := rfl
    have hclose : Parser.Goes (Parser.endOf overclosed)
        (Parser.State.initial.enter (.media "") .start, overclosed.drop 2)
        (Parser.State.initial.add (.media "" [] .start), overclosed.drop 3) := rfl
    obtain ⟨-, -, hleft, -⟩ := reading_ends overclosed
    obtain ⟨s, behind, hcloses⟩ := hleft _ _ _ _ _ _ hopen (.single hclose) le_rfl
    exact ⟨e, s, behind, herror, he, hcloses⟩

end ScssExtend
