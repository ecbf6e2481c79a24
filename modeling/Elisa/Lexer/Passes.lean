import Elisa.Lexer.Moves

/-!
# Passes as chains of moves

Function by function, what the lexer does is cut into moves.  Between tokens these are trivia.
-/

namespace Elisa.Lexer

open Elisa.Lib Cursor Lexer

variable {inp : Input} {lexer : Lexer}

/-! ## Blanks -/

theorem trivia_of_blanks {State : Type*} {step : State → Option State} {fuel : Nat} {state : State}
    (cursor : State → Cursor)
    (blanks : ∀ state next, step state = some next →
      (cursor state).position < inp.sourceLength ∧
        (isBlank ((cursor state).currentChar inp) = true ∨ (cursor state).currentChar inp = '\n') ∧
        cursor next = (cursor state).advanceChar inp) (at_ : lexer.toCursor = cursor state) :
    Trivia inp lexer [] (lexer.moveTo (cursor (runSteps step fuel state))) := by
  induction fuel generalizing lexer state with
  | zero =>
    rw [runSteps_zero, ← at_]
    exact .refl lexer
  | succ fuel ih =>
    cases h : step state with
    | none =>
      rw [runSteps_of_none h, ← at_]
      exact .refl lexer
    | some next =>
      obtain ⟨more, blank, moved⟩ := blanks state next h
      rw [runSteps_of_some h]
      rw [← at_] at more blank moved
      have first : Trivium inp lexer [] (lexer.moveTo (cursor next)) := by
        rw [moved]
        exact .blank more blank
      exact .head first (ih rfl)

variable {c : Cursor}

theorem advanceChar_of_blank (more : c.position < inp.sourceLength)
    (blank : isBlank (c.currentChar inp) = true) : c.advanceChar inp = c.skip 1 := by
  refine advanceChar_of_inline more fun newline => ?_
  rw [newline] at blank
  exact absurd blank (by decide)

theorem skipSpaces_trivia :
    Trivia inp lexer [] (lexer.moveTo (skipSpaces inp lexer.toCursor)) := by
  refine trivia_of_blanks id (fun c next h => ?_) rfl
  unfold spacesStep at h
  split at h
  · exact absurd h (by simp)
  split at h
  · rename_i more blank
    have more : c.position < inp.sourceLength := by simpa [isEndOfSource, Input.isEnd] using more
    exact ⟨more, .inl blank, by rw [id, id, advanceChar_of_blank more blank, ← Option.some.inj h]⟩
  · exact absurd h (by simp)

theorem skipBlankLines_trivia :
    Trivia inp lexer [] (lexer.moveTo (skipBlankLines inp lexer.toCursor)) := by
  refine trivia_of_blanks id (fun c next h => ?_) rfl
  unfold blankLinesStep at h
  split at h
  · exact absurd h (by simp)
  split at h
  · rename_i more newline
    exact ⟨by simpa [isEndOfSource, Input.isEnd] using more, .inr newline, (Option.some.inj h).symm⟩
  · exact absurd h (by simp)

theorem measureIndent_trivia :
    Trivia inp lexer [] (lexer.moveTo (measureIndent inp lexer.toCursor).1) := by
  refine trivia_of_blanks Prod.fst (fun s next h => ?_) rfl
  unfold indentStep at h
  split at h
  · exact absurd h (by simp)
  rename_i more
  have more : s.1.position < inp.sourceLength := by simpa [isEndOfSource, Input.isEnd] using more
  split at h
  · rename_i space
    exact ⟨more, .inl (by rw [space]; rfl), by rw [← Option.some.inj h]⟩
  split at h
  · rename_i tab
    exact ⟨more, .inl (by rw [tab]; rfl), by rw [← Option.some.inj h]⟩
  · exact absurd h (by simp)

/-! ## Comments and directives -/

theorem skipLineComment_trivium (hash : lexer.currentChar inp = '#') :
    Trivium inp lexer
      [.comment (Token.of .comment lexer.toCursor lexer.position
        (runLineComment inp lexer.toCursor).position)] (lexer.skipLineComment inp) :=
  .comment runLineComment_moves (lt_runLineComment hash)

theorem skipBlockComment_trivium (quotes : isBlockCommentStart inp lexer.toCursor = true) :
    ∃ comment, Trivium inp lexer [.comment comment] (lexer.skipBlockComment inp) ∧
      lexer.position < (lexer.skipBlockComment inp).position := by
  obtain ⟨opened, within⟩ := afterThree_eq quotes
  have moved : Reaches inp lexer.toCursor (afterThree inp lexer.toCursor) := ⟨3, opened⟩
  have rest := @runBlockComment_moves inp (afterThree inp lexer.toCursor)
  have lt : lexer.position <
      (runBlockComment inp (afterThree inp lexer.toCursor)).1.position := by
    have first := @advanceChars_remaining inp lexer.toCursor 2 (by omega)
    rw [← opened] at first
    have := rest.position_le
    simp only [Input.remaining] at first
    omega
  exact ⟨_, .comment (moved.trans rest) lt, lt⟩

theorem tryConsumeLineDirective_eq :
    lexer.tryConsumeLineDirective inp =
      match directiveAt inp lexer.position with
      | none => (false, lexer.attempted inp)
      | some directive => (true, (lexer.attempted inp).consumed inp directive) := by
  simp only [tryConsumeLineDirective, directiveAt, attempted, directiveTraps]
  cases directiveNumberStart inp lexer.position with
  | none => simp
  | some numberStart =>
    simp only
    split
    · rfl
    · cases directiveBehind inp (runDirectiveNumber inp numberStart) <;> rfl

theorem tryConsumeLineDirective_trivia (hash : lexer.currentChar inp = '#')
    (start : lexer.column = 1) :
    ∃ events, Trivia inp lexer events (lexer.tryConsumeLineDirective inp).2 := by
  have looked : Trivium inp lexer [] (lexer.attempted inp) := .attempt hash start
  rw [tryConsumeLineDirective_eq]
  cases found : directiveAt inp lexer.position with
  | none => exact ⟨_, .of_trivium looked⟩
  | some directive =>
    have passed : Trivium inp (lexer.attempted inp) _ _ := .directive hash start found
    exact ⟨_, .head looked (.of_trivium passed)⟩

theorem tryConsumeLineDirective_column (start : lexer.column = 1) :
    (lexer.tryConsumeLineDirective inp).2.column = 1 := by
  rw [tryConsumeLineDirective_eq]
  cases directiveAt inp lexer.position with
  | none => exact start
  | some directive => rfl

/-- A comment sign that is looked at for a directive stands at the start of a line. -/
theorem LineStarted.column (started : lexer.LineStarted inp) (flag : lexer.atLineStart = true)
    (hash : lexer.currentChar inp = '#') : lexer.column = 1 := by
  refine (started flag).resolve_right fun ended => ?_
  have more := @Input.lt_of_charAt_ne inp lexer.position
    (by rw [show inp.charAt lexer.position = '#' from hash]; decide)
  simp [atLineEnd, isEndOfSource, Input.isEnd, hash, Nat.not_le.2 more] at ended

theorem consumeLineDirectivesAtLineStart_trivia (started : lexer.LineStarted inp) :
    (∃ events, Trivia inp lexer events (lexer.consumeLineDirectivesAtLineStart inp)) ∧
      (lexer.consumeLineDirectivesAtLineStart inp).LineStarted inp := by
  refine runSteps_keeps (fun s : Lexer × Bool => (∃ events, Trivia inp lexer events s.1) ∧
    s.1.LineStarted inp) ?_ ⟨⟨[], .refl lexer⟩, started⟩
  rintro s next ⟨⟨events, trivia⟩, started⟩ h
  unfold directivesStep at h
  split at h
  · exact absurd h (by simp)
  rename_i going
  simp only [not_or, not_not] at going
  have start := LineStarted.column started going.2.1 going.2.2.2
  obtain ⟨more, tried⟩ := tryConsumeLineDirective_trivia going.2.2.2 start
  rw [← Option.some.inj h]
  exact ⟨⟨_, trivia.append tried⟩, fun _ => .inl (tryConsumeLineDirective_column start)⟩

/-! ## Indentation -/

variable {indent : Nat}

/-- Behind a line's end the empty lines are passed, up to the start of a line. -/
theorem skipBlankLines_start (ended : lexer.atLineEnd inp = true) :
    let lines := lexer.moveTo (skipBlankLines inp lexer.toCursor)
    lines.column = 1 ∨ lines.atLineEnd inp = true := by
  have kept : (skipBlankLines inp lexer.toCursor).column = 1 ∨
      skipBlankLines inp lexer.toCursor = lexer.toCursor := by
    refine runSteps_keeps (fun c => c.column = 1 ∨ c = lexer.toCursor) (fun c next _ h => .inl ?_)
      (.inr rfl)
    unfold blankLinesStep at h
    split at h
    · exact absurd h (by simp)
    rename_i more
    split at h
    · rename_i newline
      rw [← Option.some.inj h, advanceChar, if_neg more, if_pos newline]
    · exact absurd h (by simp)
  refine kept.imp_right fun same => ?_
  show atLineEnd inp (lexer.moveTo (skipBlankLines inp lexer.toCursor)) = true
  rw [same]
  exact ended

theorem skipLineComment_ended : (lexer.skipLineComment inp).atLineEnd inp = true := by
  have halts := @runLineComment_halts inp lexer.toCursor
  show (isEndOfSource inp (runLineComment inp lexer.toCursor) ||
    currentChar inp (runLineComment inp lexer.toCursor) == '\n') = true
  unfold lineCommentStep at halts
  split at halts
  · rename_i ended
    rw [ended, Bool.true_or]
  split at halts
  · rename_i newline
    rw [newline, Bool.or_eq_true]
    exact .inr rfl
  · exact absurd halts (by simp)

/-- Where a line starts, and in its first column, if no indentation has been measured. -/
abbrev StartsLine (inp : Input) (lexer : Lexer) : Prop :=
  lexer.column = 1 ∨ lexer.atLineEnd inp = true

theorem consumeIndentationTrivia_trivia (start : indent = 0 → StartsLine inp lexer) :
    (∃ events, Trivia inp lexer events (lexer.consumeIndentationTrivia inp indent).2) ∧
      ((lexer.consumeIndentationTrivia inp indent).1 = true →
        StartsLine inp (lexer.consumeIndentationTrivia inp indent).2) := by
  unfold consumeIndentationTrivia
  split
  · exact ⟨⟨[], .refl lexer⟩, nofun⟩
  rename_i inline
  split
  · rename_i hash
    have comment : ∀ {next : Lexer} {events}, Trivia inp lexer events next →
        next.currentChar inp = '#' → (∃ events, Trivia inp lexer events
          ((next.skipLineComment inp).moveTo
            (skipBlankLines inp (next.skipLineComment inp).toCursor))) ∧
          StartsLine inp ((next.skipLineComment inp).moveTo
            (skipBlankLines inp (next.skipLineComment inp).toCursor)) :=
      fun first hash => ⟨⟨_, (first.append (.of_trivium (skipLineComment_trivium hash))).append
        skipBlankLines_trivia⟩, skipBlankLines_start skipLineComment_ended⟩
    have whole : (∃ events, Trivia inp lexer events
          (consumeHashCommentTrivia inp (indent == 0) lexer)) ∧
        StartsLine inp (consumeHashCommentTrivia inp (indent == 0) lexer) := by
      unfold consumeHashCommentTrivia
      cases zero : indent == 0 with
      | false => exact comment (.refl lexer) hash
      | true =>
        have column := (start (beq_iff_eq.mp zero)).resolve_right inline
        obtain ⟨events, tried⟩ := tryConsumeLineDirective_trivia hash column
        simp only [if_true]
        rw [tryConsumeLineDirective_eq] at tried ⊢
        cases found : directiveAt inp lexer.position with
        | none =>
          rw [found] at tried
          exact comment tried hash
        | some directive =>
          rw [found] at tried
          exact ⟨⟨events, tried⟩, .inl rfl⟩
    exact ⟨whole.1, fun _ => whole.2⟩
  split
  · exact ⟨⟨[], .refl lexer⟩, nofun⟩
  rename_i quotes
  obtain ⟨comment, passed, -⟩ := @skipBlockComment_trivium inp lexer (by simpa using quotes)
  have spaces := (Trivia.of_trivium passed).append skipSpaces_trivia
  simp only
  split
  · rename_i ended
    exact ⟨⟨_, spaces.append skipBlankLines_trivia⟩, fun _ => skipBlankLines_start ended⟩
  · exact ⟨⟨_, spaces⟩, nofun⟩

theorem measured_trivia : Trivia inp lexer [] (lexer.measured inp).lexer := measureIndent_trivia

/-- No indentation is measured where the cursor stays. -/
theorem measured_start (start : StartsLine inp lexer) (zero : (lexer.measured inp).indent = 0) :
    StartsLine inp (lexer.measured inp).lexer := by
  have kept : (measureIndent inp lexer.toCursor).2 = 0 →
      (measureIndent inp lexer.toCursor).1 = lexer.toCursor := by
    refine runSteps_keeps (fun s : Cursor × Nat => s.2 = 0 → s.1 = lexer.toCursor)
      (fun s next _ h => ?_) fun _ => rfl
    unfold indentStep at h
    split at h
    · exact absurd h (by simp)
    split at h
    · rw [← Option.some.inj h]
      exact fun none_ => absurd none_ (Nat.succ_ne_zero _)
    split at h
    · rw [← Option.some.inj h]
      exact fun none_ => absurd none_ (Nat.succ_ne_zero _)
    · exact absurd h (by simp)
  show StartsLine inp (lexer.moveTo (measureIndent inp lexer.toCursor).1)
  rw [kept zero]
  exact start

/-- What holds while the indentation is looked at. -/
structure Indenting (inp : Input) (lexer : Lexer) (s : IndentScan) : Prop where
  trivia : ∃ events, Trivia inp lexer events s.lexer
  start : s.state = .check → s.indent = 0 → StartsLine inp s.lexer
  lineEnd : s.state = .lineEnd → s.lexer.atLineEnd inp = true

theorem Indenting.measured (start : StartsLine inp lexer) :
    Indenting inp lexer (lexer.measured inp) where
  trivia := ⟨_, measured_trivia⟩
  start _ := measured_start start
  lineEnd := nofun

theorem Indenting.step {s next : IndentScan} (indenting : Indenting inp lexer s)
    (h : handleIndentationStep inp s = some next) : Indenting inp lexer next := by
  obtain ⟨before, trivia⟩ := indenting.trivia
  unfold handleIndentationStep at h
  split at h
  · exact absurd h (by simp)
  rename_i checking
  split at h
  · rename_i ended
    rw [← Option.some.inj h]
    exact ⟨indenting.trivia, nofun, fun _ => ended⟩
  obtain ⟨⟨events, passed⟩, start⟩ := @consumeIndentationTrivia_trivia inp s.lexer s.indent
    (indenting.start (not_not.mp checking))
  simp only at h
  split at h
  · rename_i consumed
    rw [← Option.some.inj h]
    exact ⟨⟨_, trivia.append (passed.append measured_trivia)⟩,
      fun _ => measured_start (start consumed), nofun⟩
  · rw [← Option.some.inj h]
    exact ⟨⟨_, trivia.append passed⟩, nofun, nofun⟩

def tokensOf (events : List Event) : List Token :=
  events.filterMap fun
    | .token token => some token
    | _ => none

theorem raiseIndentation_pending :
    (lexer.raiseIndentation indent).pendingTokens =
      lexer.pendingTokens ++ [Token.of .indent lexer.toCursor lexer.position lexer.position] := rfl

def openings (events : List Event) : Nat :=
  events.countP fun
    | .opened => true
    | _ => false

/-- Nothing is delivered, and so many blocks are opened at most. -/
structure Silent (opened : Nat) (events : List Event) : Prop where
  tokens : tokensOf events = []
  openings_le : openings events ≤ opened

variable {n : Nat}

theorem Silent.append {m : Nat} {first second : List Event} (before : Silent m first)
    (after : Silent n second) : Silent (m + n) (first ++ second) where
  tokens := by
    rw [tokensOf, List.filterMap_append, ← tokensOf, ← tokensOf, before.tokens, after.tokens]
    rfl
  openings_le := by
    rw [openings, List.countP_append, ← openings, ← openings]
    exact Nat.add_le_add before.openings_le after.openings_le

theorem Silent.nil : Silent n [] := ⟨rfl, Nat.zero_le n⟩

theorem applyIndentationLevel_moves (idle : lexer.pendingTokens = [])
    (more : lexer.position < inp.sourceLength) :
    ∃ events, Moves inp lexer events (lexer.applyIndentationLevel indent) ∧ Silent 1 events := by
  have none_ : ∀ token ∈ lexer.pendingTokens, token.kind = .dedent := by simp [idle]
  unfold applyIndentationLevel
  split
  · rename_i higher
    exact ⟨_, .of_move (.raise none_ more higher), rfl, Nat.le_refl _⟩
  split
  · exact ⟨_, .refl lexer, .nil⟩
  have closed : Moves inp lexer []
        (runSteps (dedentStep indent) lexer.indentationStack.length lexer) ∧
      (∀ token ∈ (runSteps (dedentStep indent) lexer.indentationStack.length
        lexer).pendingTokens, token.kind = .dedent) ∧
      (runSteps (dedentStep indent) lexer.indentationStack.length lexer).position <
        inp.sourceLength := by
    refine runSteps_keeps (fun next : Lexer => Moves inp lexer [] next ∧
      (∀ token ∈ next.pendingTokens, token.kind = .dedent) ∧ next.position < inp.sourceLength) ?_
      ⟨.refl lexer, none_, more⟩
    rintro a b ⟨moves, dedents, more⟩ h
    unfold dedentStep at h
    split at h
    · rename_i block
      rw [← Option.some.inj h]
      refine ⟨moves.append (.of_move (.dedent dedents block.1)), ?_, more⟩
      intro token mem
      rcases List.mem_append.1 mem with before | last
      · exact dedents token before
      · rw [List.mem_singleton.1 last]
        rfl
    · exact absurd h (by simp)
  obtain ⟨moves, dedents, more⟩ := closed
  simp only
  split
  · rename_i higher
    exact ⟨_, moves.append (.of_move (.raise dedents more higher)), rfl, Nat.le_refl _⟩
  · exact ⟨_, moves, .nil⟩

theorem tokensOf_append (first second : List Event) :
    tokensOf (first ++ second) = tokensOf first ++ tokensOf second :=
  List.filterMap_append

theorem openings_append (first second : List Event) :
    openings (first ++ second) = openings first + openings second :=
  List.countP_append

variable {events : List Event}

theorem Trivia.silent {next : Lexer} (trivia : Trivia inp lexer events next) : Silent 0 events := by
  induction trivia with
  | refl => exact .nil
  | head passed trivia ih =>
    refine Silent.append (m := 0) ?_ ih
    cases passed <;> exact ⟨rfl, Nat.le_refl _⟩

theorem handleIndentationStep_settled {s next : IndentScan}
    (h : handleIndentationStep inp s = some next) (settled : next.state = .settled) :
    next.lexer.position < inp.sourceLength := by
  have behind : ∀ {lexer : Lexer}, ¬ lexer.atLineEnd inp = true →
      lexer.position < inp.sourceLength := by
    intro lexer inline
    simp only [atLineEnd, Bool.or_eq_true, not_or] at inline
    simpa [isEndOfSource, Input.isEnd] using inline.1
  unfold handleIndentationStep at h
  split at h
  · exact absurd h (by simp)
  rename_i checking
  split at h
  · rw [← Option.some.inj h] at settled
    exact absurd settled (by simp)
  rename_i inline
  simp only at h
  split at h
  · rw [← Option.some.inj h] at settled
    exact absurd settled (by simp [measured])
  rename_i kept
  rw [← Option.some.inj h]
  unfold consumeIndentationTrivia at kept ⊢
  rw [if_neg inline] at kept ⊢
  split at kept
  · exact absurd rfl kept
  rename_i code
  rw [if_neg code]
  split at kept
  · rename_i code
    rw [if_pos code]
    exact behind inline
  rename_i quotes
  rw [if_neg quotes]
  simp only at kept ⊢
  split at kept
  · exact absurd rfl kept
  · rename_i inline
    rw [if_neg inline]
    exact behind inline

theorem handleIndentation_moves (idle : lexer.pendingTokens = []) (start : StartsLine inp lexer) :
    ∃ events, Moves inp lexer events (lexer.handleIndentation inp) ∧ Silent 1 events := by
  obtain ⟨indenting, more⟩ : Indenting inp lexer
        (runSteps (handleIndentationStep inp) (inp.remaining lexer.position + 1)
          (lexer.measured inp)) ∧
      ((runSteps (handleIndentationStep inp) (inp.remaining lexer.position + 1)
          (lexer.measured inp)).state = .settled →
        (runSteps (handleIndentationStep inp) (inp.remaining lexer.position + 1)
          (lexer.measured inp)).lexer.position < inp.sourceLength) := by
    refine runSteps_keeps (fun s : IndentScan => Indenting inp lexer s ∧
      (s.state = .settled → s.lexer.position < inp.sourceLength)) ?_
      ⟨.measured start, fun settled => absurd settled (by simp [measured])⟩
    rintro s next ⟨indenting, -⟩ h
    exact ⟨indenting.step h, handleIndentationStep_settled h⟩
  obtain ⟨events, trivia⟩ := indenting.trivia
  have moves := trivia.moves idle
  unfold handleIndentation
  generalize runSteps (handleIndentationStep inp) (inp.remaining lexer.position + 1)
    (lexer.measured inp) = s at trivia moves more
  simp only
  split
  · rename_i settled
    have stopped := moves.append (.of_move .settle)
    obtain ⟨rest, applied, silent⟩ := @applyIndentationLevel_moves inp
      { s.lexer with atLineStart := false } s.indent (trivia.pendingTokens_eq.trans idle)
      (more settled)
    exact ⟨_, stopped.append applied, by simpa using trivia.silent.append silent⟩
  · exact ⟨events, moves, trivia.silent.tokens, Nat.le_succ_of_le trivia.silent.openings_le⟩

/-! ## Lexemes -/

theorem readNumber_lexeme {c : Cursor} (starts : isDigit (c.currentChar inp) = true ∨
      (c.currentChar inp = '.' ∧ isDigit (c.peek inp 1) = true)) :
    Lexeme inp c (readNumber inp c).1 (readNumber inp c).2 := by
  have moved := @runNumber_moves inp c
  have begun := lt_runNumber starts
  have plain : ∀ suffix, TokenKind.isPlain
      (if (runNumber inp c).numberKind = .hexLit then .hexLit
        else if (runNumber inp c).numberKind = .floatLit ∨ suffixNamesFloat suffix = true then
          .floatLit
        else .intLit) = true := by
    intro suffix
    split_ifs <;> rfl
  unfold readNumber
  simp only
  cases found : readTypeSuffixAt inp (runNumber inp c).position with
  | none => exact .plain (plain none) moved begun (Nat.le_refl _) (by simp)
  | some text =>
    obtain ⟨skipped, -, short⟩ := readTypeSuffixAt_skip (c := (runNumber inp c).toCursor) found
    exact .plain (plain (some text)) (moved.trans skipped) begun (Nat.le_add_right _ _)
      (by rw [skip_position]; omega)

theorem readQuoted_lexeme {c : Cursor} {kind : TokenKind} {terminator : Char}
    (literal : (kind = .stringLit ∧ terminator = '"') ∨ (kind = .charLit ∧ terminator = '\''))
    (opened : c.currentChar inp = terminator) :
    Lexeme inp c (readQuoted inp terminator kind c).1 (readQuoted inp terminator kind c).2 := by
  have visible : terminator ≠ '\n' ∧ terminator ≠ nullChar := by
    rcases literal with ⟨-, rfl⟩ | ⟨-, rfl⟩ <;> decide
  have more : c.position < inp.sourceLength :=
    Input.lt_of_charAt_ne
      (by rw [show inp.charAt c.position = terminator from opened]; exact visible.2)
  have ended := runQuoted_ended visible (advanceChar_le (Nat.le_of_lt more))
  have start := advanceChar_position more
  simp only [readQuoted, start]
  exact .quoted literal opened ended

theorem readFString_lexeme {c : Cursor} (letter : c.currentChar inp = 'f')
    (opened : c.peek inp 1 = '"') :
    Lexeme inp c (readFString inp c).1 (readFString inp c).2 := by
  have more : c.position + 1 < inp.sourceLength :=
    Input.lt_of_charAt_ne (by rw [show inp.charAt (c.position + 1) = '"' from opened]; decide)
  have first := @advanceChar_position inp c (by omega)
  have second := @advanceChar_position inp (c.advanceChar inp) (by omega)
  have ended := @runFString_ended inp (c.advanceChars inp 2)
    (by rw [show (c.advanceChars inp 2).position = c.position + 2 by
      rw [show c.advanceChars inp 2 = (c.advanceChar inp).advanceChar inp from rfl]; omega]; omega)
  have start : ((c.advanceChar inp).advanceChar inp).position = c.position + 2 := by omega
  simp only [readFString, start]
  exact .fstring letter opened ended

theorem frontendLookupKeyword_isPlain (text : Bytes) :
    (frontendLookupKeyword text).isPlain = true := by
  have all : ∀ keyword ∈ keywords, keyword.2.isPlain = true := by decide
  unfold frontendLookupKeyword
  split
  · rename_i keyword found
    exact all keyword (List.mem_of_find?_eq_some found)
  · rfl

theorem readIdentifier_lexeme (more : lexer.position < inp.sourceLength)
    (starts : isIdentifierStart (lexer.currentChar inp) = true ∨
      startsUnicodeIdentifier inp lexer.position = true) :
    Lexeme inp lexer.toCursor (lexer.readIdentifier inp).1 (scanIdentifier inp lexer.toCursor) :=
  .plain (frontendLookupKeyword_isPlain _) scanIdentifier_moves (lt_scanIdentifier more starts)
    (Nat.le_refl _) (by simp)

theorem readChar_lexeme (quote : lexer.currentChar inp = '\'') :
    ∃ d pending, Lexeme inp lexer.toCursor (lexer.readChar inp).1 d ∧
      (lexer.readChar inp).2 = { lexer.moveTo d with pendingGroupedBlock := pending } := by
  unfold readChar
  simp only
  split
  · rename_i label
    simp only [LexerQuotedInputPolicy.charPrefixIsLoopLabel, Bool.and_eq_true] at label
    have more : lexer.position + 1 < inp.sourceLength := by
      refine Input.lt_of_charAt_ne fun zero => ?_
      have := label.1
      rw [show lexer.peek inp 1 = nullChar from zero] at this
      exact absurd this (by decide)
    have start := @advanceChar_position inp lexer.toCursor (by omega)
    have named := @lt_scanIdentifier inp (lexer.toCursor.advanceChar inp) (by omega)
      (.inl (by rw [currentChar, start]; exact label.1))
    refine ⟨scanIdentifier inp (lexer.toCursor.advanceChar inp), false, ?_, rfl⟩
    have token := Lexeme.label quote scanIdentifier_moves (by omega : lexer.position + 1 < _)
    simp only [readIdentifier, Lexer.moveTo, start]
    exact token
  · have read := @readQuoted_lexeme inp lexer.toCursor _ _
      (.inr ⟨rfl, rfl⟩ : (TokenKind.charLit = .stringLit ∧ _) ∨ _) quote
    exact ⟨_, lexer.pendingGroupedBlock, read, rfl⟩

/-! ## Operators -/

section Operators

variable {d : Cursor} {kind : TokenKind} (idle : lexer.pendingTokens = [])
  (more : lexer.position < inp.sourceLength)

abbrev Reads (inp : Input) (lexer : Lexer) (read : Token × Lexer) : Prop :=
  Moves inp lexer [.token read.1] read.2 ∧ lexer.position < read.2.position

theorem matchChar_moves (expected : Char) : Reaches inp c (c.matchChar inp expected).2 := by
  unfold matchChar
  split
  · exact .advanceChar
  · exact .refl c

include more

theorem tokenTo_lexeme (plain : kind.isPlain = true)
    (moved : Reaches inp (lexer.toCursor.advanceChar inp) d) :
    Lexeme inp lexer.toCursor (lexer.tokenTo kind d).1 d := by
  have := moved.position_le
  rw [advanceChar_position more] at this
  exact .plain plain (Reaches.advanceChar.trans moved) this (Nat.le_refl _) (by simp)

include idle

theorem tokenTo_reads (plain : kind.isPlain = true)
    (moved : Reaches inp (lexer.toCursor.advanceChar inp) d) :
    Reads inp lexer (lexer.tokenTo kind d) :=
  have read := tokenTo_lexeme more plain moved
  ⟨.of_move (.lexeme idle read), read.lt⟩

theorem eqSuffixToken_reads {withEq withoutEq : TokenKind} (plain : withEq.isPlain = true)
    (other : withoutEq.isPlain = true) (moved : Reaches inp (lexer.toCursor.advanceChar inp) d) :
    Reads inp lexer (lexer.eqSuffixToken inp withEq withoutEq d) := by
  refine tokenTo_reads idle more ?_ (moved.trans (matchChar_moves _))
  split
  · exact plain
  · exact other

theorem arrowOrEqToken_reads {pointed withEq withoutEq : TokenKind} (head : pointed.isPlain = true)
    (plain : withEq.isPlain = true) (other : withoutEq.isPlain = true)
    (moved : Reaches inp (lexer.toCursor.advanceChar inp) d) :
    Reads inp lexer (lexer.arrowOrEqToken inp pointed withEq withoutEq d) := by
  have next := moved.trans (matchChar_moves '>')
  unfold arrowOrEqToken
  simp only
  split
  · exact tokenTo_reads idle more head next
  · exact eqSuffixToken_reads idle more plain other next

theorem openGroup_reads (plain : kind.isPlain = true)
    (moved : Reaches inp (lexer.toCursor.advanceChar inp) d) :
    Reads inp lexer (lexer.openGroup kind d) :=
  have read := tokenTo_lexeme more plain moved
  ⟨(Moves.of_move (.openGroup idle read)).append
    (.of_move (.block lexer.groupedBlockContexts false)), read.lt⟩

theorem closeGroup_reads (plain : kind.isPlain = true)
    (moved : Reaches inp (lexer.toCursor.advanceChar inp) d) :
    Reads inp lexer (lexer.closeGroup kind d) := by
  have closed : (lexer.closeGroup kind d).2 =
      { lexer.moveTo d with
        groupDepth := lexer.groupDepth - 1
        pendingGroupedBlock := false } := by
    have depth : (if 0 < lexer.groupDepth then lexer.groupDepth - 1 else lexer.groupDepth) =
        lexer.groupDepth - 1 := by
      split <;> omega
    show ({ lexer.moveTo d with
      groupDepth := if 0 < lexer.groupDepth then lexer.groupDepth - 1 else lexer.groupDepth
      pendingGroupedBlock := false } : Lexer) = _
    rw [depth]
  have read := tokenTo_lexeme more plain moved
  refine ⟨?_, read.lt⟩
  show Moves inp lexer _ _
  rw [closed]
  exact (Moves.of_move (.closeGroup idle read)).append
    (.of_move (.block lexer.groupedBlockContexts false))

theorem dotToken_reads (moved : Reaches inp (lexer.toCursor.advanceChar inp) d) :
    Reads inp lexer (lexer.dotToken inp d) := by
  unfold dotToken
  simp only
  split
  · exact tokenTo_reads idle more rfl moved
  have second := moved.trans Reaches.advanceChar
  split
  · exact tokenTo_reads idle more rfl (second.trans Reaches.advanceChar)
  have lt := second.trans (matchChar_moves '<')
  split
  · exact tokenTo_reads idle more rfl lt
  have gt := lt.trans (matchChar_moves '>')
  split
  · exact tokenTo_reads idle more rfl gt
  · exact eqSuffixToken_reads idle more rfl rfl gt

theorem colonToken_reads (moved : Reaches inp (lexer.toCursor.advanceChar inp) d) :
    Reads inp lexer (lexer.colonToken inp d) := by
  have next := moved.trans (matchChar_moves ':')
  have plain : (if (d.matchChar inp ':').1 = true then TokenKind.scope else .colon).isPlain =
      true := by
    split <;> rfl
  have read := tokenTo_lexeme more plain next
  exact ⟨(Moves.of_move (.lexeme idle read)).append (.of_move (.block _ false)), read.lt⟩

theorem readOperatorToken_reads : Reads inp lexer (lexer.readOperatorToken inp) := by
  have moved : Reaches inp (lexer.toCursor.advanceChar inp) (lexer.toCursor.advanceChar inp) :=
    .refl _
  unfold readOperatorToken
  simp only
  split
  case h_1 =>
    have dash := moved.trans (matchChar_moves '-')
    split
    · exact tokenTo_reads idle more rfl dash
    · refine eqSuffixToken_reads idle more ?_ ?_ (dash.trans (matchChar_moves _)) <;> split <;> rfl
  case h_2 =>
    refine eqSuffixToken_reads idle more ?_ ?_ (matchChar_moves _) <;> split <;> rfl
  case h_13 => exact dotToken_reads idle more moved
  case h_14 => exact colonToken_reads idle more moved
  case h_3 | h_6 | h_11 => exact arrowOrEqToken_reads idle more rfl rfl rfl moved
  case h_15 | h_16 | h_24 | h_25 | h_26 => exact tokenTo_reads idle more rfl moved
  case h_17 | h_19 | h_21 => exact openGroup_reads idle more rfl moved
  case h_18 | h_20 | h_22 => exact closeGroup_reads idle more rfl moved
  all_goals exact eqSuffixToken_reads idle more rfl rfl moved

end Operators

/-! ## Passes -/

/-- A pass: its moves, the one token they deliver, if any, and how many blocks they open at
most.  A pass without a token takes at least one byte. -/
def Passing (inp : Input) (opened : Nat) (lexer : Lexer) (passed : Lexer.Passed) : Prop :=
  (∃ events, Moves inp lexer events passed.2 ∧ tokensOf events = passed.1.toList ∧
    openings events ≤ opened) ∧ (passed.1 = none → lexer.position < passed.2.position)

theorem Moves.passing {token : Token} {next : Lexer} (moves : Moves inp lexer [.token token] next) :
    Passing inp 0 lexer (some token, next) := ⟨⟨_, moves, rfl, Nat.le_refl _⟩, nofun⟩

theorem Trivia.passing {next : Lexer} (trivia : Trivia inp lexer events next)
    (idle : lexer.pendingTokens = []) (lt : lexer.position < next.position) :
    Passing inp 0 lexer (none, next) :=
  ⟨⟨events, trivia.moves idle, trivia.silent.tokens, trivia.silent.openings_le⟩, fun _ => lt⟩

theorem Passing.after {m k : Nat} {next : Lexer} {passed : Lexer.Passed}
    (passing : Passing inp n next passed) (moves : Moves inp lexer events next)
    (silent : Silent m events) (le : m + n ≤ k) : Passing inp k lexer passed := by
  obtain ⟨⟨rest, then_, tokens, opened⟩, lt⟩ := passing
  refine ⟨⟨_, moves.append then_, by rw [tokensOf_append, silent.tokens, tokens]; rfl, ?_⟩, ?_⟩
  · rw [openings_append]
    exact Nat.le_trans (Nat.add_le_add silent.openings_le opened) le
  · exact fun none_ => Nat.lt_of_le_of_lt moves.position_le (lt none_)

theorem continued_moves (idle : lexer.pendingTokens = []) :
    Moves inp lexer []
      { lexer.moveTo (skipSpaces inp lexer.toCursor) with atLineStart := false } :=
  (skipSpaces_trivia.moves idle).append (.of_move .settle)

theorem lt_newline (newline : lexer.currentChar inp = '\n') :
    lexer.position < (lexer.newline inp).2.position := by
  have more : lexer.position < inp.sourceLength := Input.lt_of_charAt_ne
    (by rw [show inp.charAt lexer.position = '\n' from newline]; decide)
  have first := advanceChar_position more
  unfold Lexer.newline
  simp only
  split
  · have := Trivia.position_le
      (@skipSpaces_trivia inp (lexer.moveTo (lexer.toCursor.advanceChar inp)))
    exact Nat.lt_of_lt_of_le (by simp only [Lexer.moveTo, first]; omega) this
  have := Trivia.position_le
    (@skipBlankLines_trivia inp (lexer.moveTo (lexer.toCursor.advanceChar inp)))
  split <;> exact Nat.lt_of_lt_of_le (by simp only [Lexer.moveTo, first]; omega) this

theorem newline_passing (idle : lexer.pendingTokens = [])
    (newline : lexer.currentChar inp = '\n') : Passing inp 0 lexer (lexer.newline inp) := by
  refine ⟨?_, fun _ => lt_newline newline⟩
  have started : Trivium inp lexer []
      { lexer.moveTo (lexer.toCursor.advanceChar inp) with atLineStart := true } :=
    .lineStart newline
  have startedMoves := (Trivia.of_trivium started).moves idle
  unfold Lexer.newline
  simp only
  split
  · exact ⟨_, startedMoves.append (continued_moves (started.pendingTokens_eq.trans idle)), rfl,
      Nat.le_refl _⟩
  have lines := Trivia.moves (@skipBlankLines_trivia inp
    { lexer.moveTo (lexer.toCursor.advanceChar inp) with atLineStart := true }) idle
  split
  · exact ⟨_, startedMoves.append lines, rfl, Nat.le_refl _⟩
  · exact ⟨_, (Moves.of_move (.newline idle newline)).append lines, rfl, Nat.le_refl _⟩

theorem dispatch_passing (idle : lexer.pendingTokens = [])
    (more : lexer.position < inp.sourceLength) : Passing inp 0 lexer (lexer.dispatch inp) := by
  have reads : ∀ {read : Cursor → Token × Cursor},
      Lexeme inp lexer.toCursor (read lexer.toCursor).1 (read lexer.toCursor).2 →
      Passing inp 0 lexer (Lexer.deliver (lexer.readWith read)) :=
    fun token => Moves.passing (.of_move (.lexeme idle token))
  unfold dispatch
  simp only
  split
  · rename_i number
    exact reads (readNumber_lexeme number)
  split
  · rename_i newline
    exact newline_passing idle newline
  split
  · rename_i hash
    exact (Trivia.of_trivium (skipLineComment_trivium hash)).passing idle (lt_runLineComment hash)
  split
  · rename_i quote
    split
    · rename_i quotes
      obtain ⟨comment, passed, lt⟩ := skipBlockComment_trivium quotes
      exact (Trivia.of_trivium passed).passing idle lt
    · exact reads (readQuoted_lexeme (.inl ⟨rfl, rfl⟩) quote)
  split
  · rename_i quote
    obtain ⟨d, pending, token, eq⟩ := readChar_lexeme quote
    have label : Moves inp (lexer.moveTo d) [] (lexer.readChar inp).2 := by
      rw [eq]
      exact .of_move (.block lexer.groupedBlockContexts pending)
    exact ((Moves.of_move (.lexeme idle token)).append label).passing
  split
  · rename_i fstring
    exact reads (readFString_lexeme fstring.1 fstring.2)
  split
  · rename_i starts
    have token := readIdentifier_lexeme more starts
    have read : Moves inp lexer [.token (lexer.readIdentifier inp).1]
      (lexer.readIdentifier inp).2 :=
      (Moves.of_move (.lexeme idle token)).append (.of_move (.block lexer.groupedBlockContexts _))
    exact read.passing
  · exact (readOperatorToken_reads idle more).1.passing

theorem scan_passing (idle : lexer.pendingTokens = []) : Passing inp 0 lexer (lexer.scan inp) := by
  have spaces := @skipSpaces_trivia inp lexer
  refine Passing.after (n := 0) ?_ (spaces.moves idle) (@Silent.nil 0) (Nat.le_refl _)
  have idle : (lexer.moveTo (skipSpaces inp lexer.toCursor)).pendingTokens = [] := idle
  unfold Lexer.scan
  simp only
  generalize lexer.moveTo (skipSpaces inp lexer.toCursor) = lexer at idle
  split
  · rename_i last
    rw [Input.isEnd_iff] at last
    split
    · rename_i block
      exact Moves.passing (.of_move (.lastDedent idle last block))
    · rename_i closed
      exact Moves.passing (.of_move (.eof idle last (by simpa using closed)))
  rename_i more
  have more : lexer.position < inp.sourceLength := by simpa [isEndOfSource, Input.isEnd] using more
  split
  · have cleared : Moves inp lexer [] { lexer with pendingGroupedBlock := false } :=
      .of_move (.block lexer.groupedBlockContexts false)
    have inner := @dispatch_passing inp { lexer with pendingGroupedBlock := false } idle more
    exact inner.after cleared (@Silent.nil 0) (Nat.le_refl _)
  · exact dispatch_passing idle more

theorem pendingOr_passing {next : Lexer → Lexer.Passed}
    (passing : lexer.pendingTokens = [] → Passing inp n lexer (next lexer)) :
    Passing inp n lexer (lexer.pendingOr next) := by
  unfold pendingOr
  split
  · rename_i pending
    exact ⟨⟨_, .of_move (.deliver pending), rfl, Nat.zero_le _⟩, nofun⟩
  · rename_i idle
    exact passing idle

theorem lineStarted_passing (idle : lexer.pendingTokens = []) (start : StartsLine inp lexer) :
    Passing inp 1 lexer (lexer.lineStarted inp) := by
  unfold lineStarted
  split
  · obtain ⟨events, moves, silent⟩ := @handleIndentation_moves inp _ idle start
    exact Passing.after (pendingOr_passing scan_passing)
      (moves.append (.of_move (.block _ (lexer.handleIndentation inp).pendingGroupedBlock)))
      (silent.append (@Silent.nil 0)) (by omega)
  · exact Passing.after (scan_passing idle) (.refl lexer) (@Silent.nil 0) (by omega)

theorem pass_passing (started : lexer.LineStarted inp) : Passing inp 1 lexer (lexer.pass inp) := by
  unfold Lexer.pass
  refine pendingOr_passing fun idle => ?_
  obtain ⟨⟨events, trivia⟩, started⟩ := consumeLineDirectivesAtLineStart_trivia started
  refine Passing.after (n := 1) ?_ (trivia.moves idle) trivia.silent (by omega)
  have idle := trivia.pendingTokens_eq.trans idle
  simp only
  split
  · rename_i flag
    have settled : Moves inp (lexer.consumeLineDirectivesAtLineStart inp) []
        { lexer.consumeLineDirectivesAtLineStart inp with atLineStart := false } :=
      .of_move .settle
    exact Passing.after (lineStarted_passing idle (started flag)) settled (@Silent.nil 0) (by omega)
  · exact Passing.after (scan_passing idle) (.refl _) (@Silent.nil 0) (by omega)

end Elisa.Lexer
