import Elisa.Lexer.Passes

/-!
# Tokenizing comes to an end

What is left to do is measured by `Lexer.potential`: the bytes that are left, the tokens that are
pending, the blocks that are open, and whether a line starts.  Opening a block raises it, but takes
the start of a line, which is worth more.  A pass without a token takes at least one byte.  So the
calls come to an `eof` token, which is the last one.
-/

namespace Elisa.Lexer

open Elisa.Lib Cursor Lexer

variable {inp : Input} {lexer next : Lexer} {events : List Event}

/-! ## The measure -/

def lineWorth (atLineStart : Bool) : Nat := if atLineStart then 3 else 0

theorem lineWorth_le (atLineStart : Bool) : lineWorth atLineStart ≤ 3 := by
  cases atLineStart <;> decide

def Lexer.potential (inp : Input) (lexer : Lexer) : Nat :=
  4 * inp.remaining lexer.position + lexer.pendingTokens.length + lexer.indentationStack.length +
    lineWorth lexer.atLineStart

/-- The tokens that are delivered before the last one. -/
def deliveries (events : List Event) : Nat :=
  (tokensOf events).countP fun token => token.kind != .eof

theorem deliveries_append (first second : List Event) :
    deliveries (first ++ second) = deliveries first + deliveries second := by
  rw [deliveries, tokensOf_append, List.countP_append, ← deliveries, ← deliveries]

theorem Trivium.le_length (passed : Trivium inp lexer events next)
    (within : lexer.position ≤ inp.sourceLength) : next.position ≤ inp.sourceLength := by
  cases passed with
  | blank => exact advanceChar_le within
  | lineStart => exact advanceChar_le within
  | comment moved => exact moved.le_length within
  | attempt => exact within
  | directive hash start found => exact (directiveAt_next found).2

theorem Move.le_length (move : Move inp lexer events next)
    (within : lexer.position ≤ inp.sourceLength) : next.position ≤ inp.sourceLength := by
  cases move with
  | trivium idle passed => exact passed.le_length within
  | newline => exact advanceChar_le within
  | lexeme idle read => exact read.moved.le_length within
  | openGroup idle read => exact read.moved.le_length within
  | closeGroup idle read => exact read.moved.le_length within
  | _ => exact within

theorem Moves.le_length (moves : Moves inp lexer events next)
    (within : lexer.position ≤ inp.sourceLength) : next.position ≤ inp.sourceLength := by
  induction moves with
  | refl => exact within
  | head move moves ih => exact ih (move.le_length within)

/-- Whatever is passed is worth more than the start of a line. -/
theorem potential_lt (lt : lexer.position < next.position)
    (within : next.position ≤ inp.sourceLength)
    (pending : next.pendingTokens = lexer.pendingTokens)
    (stack : next.indentationStack = lexer.indentationStack) :
    next.potential inp < lexer.potential inp := by
  have := lineWorth_le next.atLineStart
  simp only [potential, pending, stack, Input.remaining]
  omega

theorem Trivium.potential_le (passed : Trivium inp lexer events next)
    (within : lexer.position ≤ inp.sourceLength) : next.potential inp ≤ lexer.potential inp := by
  have last := passed.le_length within
  cases passed with
  | blank more =>
    have lt : lexer.position < (lexer.toCursor.advanceChar inp).position := by
      rw [advanceChar_position more]
      omega
    exact Nat.le_of_lt (potential_lt lt last rfl rfl)
  | lineStart newline => exact Nat.le_of_lt (potential_lt (lt_of_newline newline) last rfl rfl)
  | comment moved begun => exact Nat.le_of_lt (potential_lt begun last rfl rfl)
  | attempt => exact Nat.le_refl _
  | directive hash start found =>
    exact Nat.le_of_lt (potential_lt (directiveAt_next found).1 last rfl rfl)

theorem Lexeme.kind_ne_eof {c d : Cursor} {token : Token} (read : Lexeme inp c token d) :
    token.kind ≠ .eof := by
  cases read with
  | @plain d kind textEnd plain =>
    rintro (rfl : kind = .eof)
    exact absurd plain (by decide)
  | quoted literal => rcases literal with ⟨rfl, -⟩ | ⟨rfl, -⟩ <;> exact TokenKind.noConfusion
  | fstring => exact TokenKind.noConfusion
  | label => exact TokenKind.noConfusion

/-- A token other than the last one lowers the measure; opening a block raises it by two. -/
theorem Move.potential_le (move : Move inp lexer events next)
    (within : lexer.position ≤ inp.sourceLength) :
    next.potential inp + deliveries events ≤ lexer.potential inp + 2 * openings events := by
  have last := move.le_length within
  have one : ∀ {token : Token}, deliveries [.token token] ≤ 1 := by
    intro token
    exact List.countP_le_length
  have read : ∀ {token : Token}, next.potential inp < lexer.potential inp →
      next.potential inp + deliveries [.token token] ≤
        lexer.potential inp + 2 * openings [.token token] := by
    intro token lt
    have := @one token
    omega
  cases move with
  | trivium idle passed =>
    have silent := (Trivia.of_trivium passed).silent.tokens
    have := passed.potential_le within
    simp only [deliveries, silent, List.countP_nil]
    omega
  | settle =>
    simp [potential, deliveries, tokensOf, openings, lineWorth]
  | block => exact Nat.le_refl _
  | newline idle newline => exact read (potential_lt (lt_of_newline newline) last rfl rfl)
  | lexeme idle token => exact read (potential_lt token.lt last rfl rfl)
  | openGroup idle token => exact read (potential_lt token.lt last rfl rfl)
  | closeGroup idle token => exact read (potential_lt token.lt last rfl rfl)
  | raise dedents more higher =>
    simp [potential, deliveries, tokensOf, openings, raiseIndentation, pushIndent,
      emitPendingToken, pushPending]
    omega
  | dedent dedents block =>
    have := List.length_pos_of_ne_nil block
    simp [potential, deliveries, tokensOf, openings, popIndent, emitPendingToken,
      pushPending]
    omega
  | deliver pending =>
    refine read ?_
    simp [potential, pending]
  | lastDedent idle last block =>
    have := List.length_pos_of_ne_nil block
    refine read ?_
    simp [potential, popIndent]
    omega
  | eof => exact Nat.le_refl _

theorem Moves.potential_le (moves : Moves inp lexer events next)
    (within : lexer.position ≤ inp.sourceLength) :
    next.potential inp + deliveries events ≤ lexer.potential inp + 2 * openings events := by
  induction moves with
  | refl => exact Nat.le_refl _
  | head move moves ih =>
    have first := move.potential_le within
    have rest := ih (move.le_length within)
    rw [deliveries_append, openings_append]
    omega

/-! ## Machines that halt -/

theorem halts_of_advance {State : Type*} {step : State → Option State} {state : State}
    (cursor : State → Cursor)
    (moves : ∀ state next, step state = some next → (cursor state).position < inp.sourceLength ∧
      (cursor state).position < (cursor next).position) :
    step (runSteps step (inp.remaining (cursor state).position) state) = none :=
  runSteps_halts (fun s => inp.remaining (cursor s).position)
    (fun s next h => Input.remaining_lt_of_lt (moves s next h).1 (moves s next h).2) (Nat.le_refl _)

theorem more_of_not_end {c : Cursor} (more : ¬ c.isEndOfSource inp = true) :
    c.position < inp.sourceLength := by
  simpa [isEndOfSource, Input.isEnd] using more

theorem skipSpaces_halts (c : Cursor) : spacesStep inp (skipSpaces inp c) = none := by
  refine halts_of_advance id fun c next h => ?_
  unfold spacesStep at h
  split at h
  · exact absurd h (by simp)
  rename_i more
  split at h
  · rw [← Option.some.inj h]
    exact ⟨more_of_not_end more, Nat.lt_succ_self _⟩
  · exact absurd h (by simp)

theorem skipBlankLines_halts (c : Cursor) :
    blankLinesStep inp (skipBlankLines inp c) = none := by
  refine halts_of_advance id fun c next h => ?_
  unfold blankLinesStep at h
  split at h
  · exact absurd h (by simp)
  split at h
  · rename_i more newline
    rw [← Option.some.inj h]
    exact ⟨more_of_not_end more, lt_of_newline newline⟩
  · exact absurd h (by simp)

theorem measureIndent_halts (c : Cursor) : indentStep inp (measureIndent inp c) = none := by
  refine @halts_of_advance inp _ (indentStep inp) (c, 0) Prod.fst fun s next h => ?_
  unfold indentStep at h
  split at h
  · exact absurd h (by simp)
  rename_i more
  have more := more_of_not_end more
  have lt : s.1.position < (s.1.advanceChar inp).position := by
    rw [advanceChar_position more]
    omega
  split at h
  · rw [← Option.some.inj h]
    exact ⟨more, lt⟩
  split at h
  · rw [← Option.some.inj h]
    exact ⟨more, lt⟩
  · exact absurd h (by simp)

theorem runDirectiveNumber_halts (index : Nat) :
    directiveNumberStep inp (runDirectiveNumber inp index) = none := by
  refine runSteps_halts (fun s => inp.remaining s.index) (fun s next h => ?_) (Nat.le_refl _)
  unfold directiveNumberStep at h
  split at h
  · rename_i digit
    rw [← Option.some.inj h]
    exact Input.remaining_lt_of_lt digit.1 (Nat.lt_succ_self _)
  · exact absurd h (by simp)

theorem lt_tryConsumeLineDirective (consumed : (lexer.tryConsumeLineDirective inp).1 = true) :
    lexer.position < (lexer.tryConsumeLineDirective inp).2.position := by
  rw [tryConsumeLineDirective_eq] at consumed ⊢
  cases found : directiveAt inp lexer.position with
  | none =>
    rw [found] at consumed
    exact absurd consumed (by simp)
  | some directive => exact (directiveAt_next found).1

theorem directives_halts (lexer : Lexer) : directivesStep inp
    (runSteps (directivesStep inp) (inp.remaining lexer.position + 1) (lexer, false)) =
      none := by
  refine runSteps_halts (fun s => if s.2 then 0 else inp.remaining s.1.position + 1)
    (fun s next h => ?_) (by simp)
  unfold directivesStep at h
  split at h
  · exact absurd h (by simp)
  rename_i going
  simp only [not_or, not_not] at going
  obtain ⟨fresh, -, more, -⟩ := going
  have more := more_of_not_end more
  have lt := @lt_tryConsumeLineDirective inp s.1
  generalize s.1.tryConsumeLineDirective inp = tried at h lt
  obtain ⟨consumed, behind⟩ := tried
  rw [← Option.some.inj h, if_neg fresh]
  cases consumed with
  | false => simp
  | true =>
    have lower : inp.remaining behind.position < inp.remaining s.1.position :=
      Input.remaining_lt_of_lt more (lt rfl)
    simp only [Bool.not_true, Bool.false_eq_true, ↓reduceIte]
    omega

theorem dedent_halts (indent : Nat) (lexer : Lexer) : dedentStep indent
    (runSteps (dedentStep indent) lexer.indentationStack.length lexer) = none := by
  refine runSteps_halts (fun s => s.indentationStack.length) (fun s next h => ?_) (Nat.le_refl _)
  unfold dedentStep at h
  split at h
  · rename_i block
    have := List.length_pos_of_ne_nil block.1
    rw [← Option.some.inj h]
    simp [popIndent, emitPendingToken, pushPending]
    omega
  · exact absurd h (by simp)

theorem lt_consumeIndentationTrivia {indent : Nat}
    (consumed : (lexer.consumeIndentationTrivia inp indent).1 = true) :
    lexer.position < (lexer.consumeIndentationTrivia inp indent).2.position := by
  unfold consumeIndentationTrivia at consumed ⊢
  split at consumed
  · exact absurd consumed (by simp)
  rename_i inline
  rw [if_neg inline]
  split at consumed
  · rename_i hash
    rw [if_pos hash]
    have comment : ∀ {next : Lexer}, next.position = lexer.position →
        lexer.position < ((next.skipLineComment inp).moveTo
          (skipBlankLines inp (next.skipLineComment inp).toCursor)).position := by
      intro next here
      rw [← here]
      refine Nat.lt_of_lt_of_le (lt_runLineComment (by rw [currentChar, here]; exact hash))
        (Trivia.position_le (@skipBlankLines_trivia inp (next.skipLineComment inp)))
    show lexer.position < (consumeHashCommentTrivia inp (indent == 0) lexer).position
    unfold consumeHashCommentTrivia
    cases indent == 0 with
    | false => exact comment rfl
    | true =>
      have le := @lt_tryConsumeLineDirective inp lexer
      simp only [if_true]
      rw [tryConsumeLineDirective_eq] at le ⊢
      cases found : directiveAt inp lexer.position with
      | none => exact @comment (lexer.attempted inp) rfl
      | some directive =>
        rw [found] at le
        exact le rfl
  rename_i code
  rw [if_neg code]
  split at consumed
  · exact absurd consumed (by simp)
  rename_i quotes
  rw [if_neg quotes]
  obtain ⟨comment, -, lt⟩ := @skipBlockComment_trivium inp lexer (by simpa using quotes)
  have spaces := Trivia.position_le (@skipSpaces_trivia inp (lexer.skipBlockComment inp))
  simp only at consumed ⊢
  split at consumed
  · rename_i ended
    rw [if_pos ended]
    exact Nat.lt_of_lt_of_le lt (Nat.le_trans spaces (Trivia.position_le skipBlankLines_trivia))
  · exact absurd consumed (by simp)

theorem handleIndentation_halts (lexer : Lexer) : handleIndentationStep inp
    (runSteps (handleIndentationStep inp) (inp.remaining lexer.position + 1)
      (lexer.measured inp)) = none := by
  have le := Trivia.position_le (@measured_trivia inp lexer)
  refine runSteps_halts
    (fun s => if s.state = .check then inp.remaining s.lexer.position + 1 else 0)
    (fun s next h => ?_) ?_
  · unfold handleIndentationStep at h
    split at h
    · exact absurd h (by simp)
    rename_i checking
    rw [not_not] at checking
    simp only [checking, if_true]
    split at h
    · rw [← Option.some.inj h]
      simp
    rename_i inline
    simp only [atLineEnd, Bool.or_eq_true, not_or] at inline
    simp only at h
    split at h
    · rename_i consumed
      have lt := Nat.lt_of_lt_of_le (lt_consumeIndentationTrivia consumed)
        (Trivia.position_le (@measured_trivia inp _))
      have := Input.remaining_lt_of_lt (more_of_not_end inline.1) lt
      rw [← Option.some.inj h]
      split <;> omega
    · rw [← Option.some.inj h]
      simp
  · have := @Input.remaining_le_of_le inp _ _ le
    split <;> omega

/-! ## Where lines start -/

theorem applyIndentationLevel_flag {indent : Nat} :
    (lexer.applyIndentationLevel indent).atLineStart = lexer.atLineStart := by
  have closed : (runSteps (dedentStep indent) lexer.indentationStack.length lexer).atLineStart =
      lexer.atLineStart := by
    refine runSteps_keeps (fun s : Lexer => s.atLineStart = lexer.atLineStart)
      (fun s next kept h => ?_) rfl
    unfold dedentStep at h
    split at h
    · rw [← Option.some.inj h]
      exact kept
    · exact absurd h (by simp)
  unfold applyIndentationLevel
  split
  · rfl
  split
  · rfl
  simp only
  split
  · exact closed
  · exact closed

/-- An indentation is looked at until the line ends or something else comes. -/
theorem handleIndentation_ended (start : StartsLine inp lexer)
    (flag : (lexer.handleIndentation inp).atLineStart = true) :
    (lexer.handleIndentation inp).atLineEnd inp = true := by
  have indenting : Indenting inp lexer (runSteps (handleIndentationStep inp)
      (inp.remaining lexer.position + 1) (lexer.measured inp)) :=
    runSteps_keeps _ (fun _ _ kept => kept.step) (.measured start)
  have halts := @handleIndentation_halts inp lexer
  revert flag
  unfold handleIndentation
  generalize runSteps (handleIndentationStep inp) (inp.remaining lexer.position + 1)
    (lexer.measured inp) = s at indenting halts
  simp only
  split
  · intro flag
    rw [applyIndentationLevel_flag] at flag
    cases flag
  · rename_i kept
    intro _
    cases state : s.state with
    | settled => exact absurd state kept
    | lineEnd => exact indenting.lineEnd state
    | check =>
      unfold handleIndentationStep at halts
      rw [if_neg (not_not.mpr state)] at halts
      split at halts
      · cases halts
      · simp only at halts
        split at halts <;> cases halts

theorem newline_started (newline : lexer.currentChar inp = '\n') :
    (lexer.newline inp).2.LineStarted inp := by
  have started : (lexer.toCursor.advanceChar inp).column = 1 := by
    have more := @Input.lt_of_charAt_ne inp lexer.position
      (by rw [show inp.charAt lexer.position = '\n' from newline]; decide)
    rw [advanceChar, if_neg (by simpa [isEndOfSource, Input.isEnd] using more), if_pos newline]
  have lines : (skipBlankLines inp (lexer.toCursor.advanceChar inp)).column = 1 := by
    refine runSteps_keeps (fun c : Cursor => c.column = 1) (fun c next _ h => ?_) started
    unfold blankLinesStep at h
    split at h
    · exact absurd h (by simp)
    rename_i more
    split at h
    · rename_i at_
      rw [← Option.some.inj h, advanceChar, if_neg more, if_pos at_]
    · exact absurd h (by simp)
  unfold Lexer.newline
  simp only
  split
  · exact fun flag => absurd flag Bool.false_ne_true
  split
  · exact fun _ => .inl lines
  · exact fun _ => .inl lines

theorem arrowOrEqToken_flag {head withEq withoutEq : TokenKind} {c : Cursor} :
    (lexer.arrowOrEqToken inp head withEq withoutEq c).2.atLineStart = lexer.atLineStart := by
  unfold arrowOrEqToken
  simp only
  split <;> rfl

theorem dotToken_flag {c : Cursor} :
    (lexer.dotToken inp c).2.atLineStart = lexer.atLineStart := by
  unfold dotToken
  simp only
  split_ifs <;> rfl

theorem readOperatorToken_flag :
    (lexer.readOperatorToken inp).2.atLineStart = lexer.atLineStart := by
  unfold readOperatorToken
  simp only
  split
  case h_1 => split <;> rfl
  case h_13 => exact dotToken_flag
  case h_3 | h_6 | h_11 => exact arrowOrEqToken_flag
  all_goals rfl

theorem dispatch_started (start : lexer.currentChar inp = '\n' ∨ lexer.atLineStart = false) :
    (lexer.dispatch inp).2.LineStarted inp := by
  have kept : ∀ {next : Lexer}, lexer.currentChar inp ≠ '\n' →
      next.atLineStart = lexer.atLineStart → next.LineStarted inp := by
    intro next inline same flag
    rw [same, start.resolve_left inline] at flag
    cases flag
  unfold dispatch
  simp only
  split
  · rename_i number
    refine kept (fun newline => ?_) rfl
    rw [newline] at number
    simp [show isDigit '\n' = false from rfl] at number
  split
  · rename_i newline
    exact newline_started newline
  rename_i inline
  split
  · exact kept inline rfl
  split
  · split
    · exact kept inline rfl
    · exact kept inline rfl
  split
  · refine kept inline ?_
    show (lexer.readChar inp).2.atLineStart = _
    unfold readChar
    simp only
    split <;> rfl
  split
  · exact kept inline rfl
  split
  · exact kept inline rfl
  · exact kept inline readOperatorToken_flag

theorem scan_started (start : lexer.atLineStart = true → lexer.atLineEnd inp = true) :
    (lexer.scan inp).2.LineStarted inp := by
  have stays : lexer.atLineEnd inp = true → skipSpaces inp lexer.toCursor = lexer.toCursor := by
    intro ended
    refine runSteps_of_none ?_
    unfold spacesStep
    rw [atLineEnd, Bool.or_eq_true] at ended
    split
    · rfl
    rename_i more
    have newline := ended.resolve_left more
    rw [beq_iff_eq] at newline
    rw [newline]
    rfl
  have flag : (lexer.moveTo (skipSpaces inp lexer.toCursor)).atLineStart = true →
      atLineEnd inp (lexer.moveTo (skipSpaces inp lexer.toCursor)) = true := by
    intro flag
    have ended := start flag
    rw [stays ended]
    exact ended
  unfold Lexer.scan
  simp only
  generalize lexer.moveTo (skipSpaces inp lexer.toCursor) = lexer at flag
  split
  · rename_i last
    have ended : ∀ {next : Lexer}, next.position = lexer.position → next.LineStarted inp := by
      intro next same _
      refine .inr ?_
      show (inp.isEnd next.position || _) = true
      rw [same, show inp.isEnd lexer.position = true from last, Bool.true_or]
    split
    · exact ended rfl
    · exact ended rfl
  rename_i more
  have start : lexer.currentChar inp = '\n' ∨ lexer.atLineStart = false := by
    cases set : lexer.atLineStart with
    | false => exact .inr rfl
    | true =>
      have ended := flag set
      rw [atLineEnd, Bool.or_eq_true, beq_iff_eq] at ended
      exact .inl (ended.resolve_left more)
  split
  · exact dispatch_started start
  · exact dispatch_started start

theorem pendingOr_started {after : Lexer → Lexer.Passed} (started : lexer.LineStarted inp)
    (next : (after lexer).2.LineStarted inp) : (lexer.pendingOr after).2.LineStarted inp := by
  unfold pendingOr
  split
  · exact started
  · exact next

/-- The flag stands where a line starts behind every pass. -/
theorem pass_started (started : lexer.LineStarted inp) : (lexer.pass inp).2.LineStarted inp := by
  unfold Lexer.pass
  refine pendingOr_started started ?_
  have started := (consumeLineDirectivesAtLineStart_trivia started).2
  simp only
  split
  · rename_i flag
    unfold lineStarted
    split
    · have ended := @handleIndentation_ended inp { lexer.consumeLineDirectivesAtLineStart inp with
        atLineStart := false } (started flag)
      generalize handleIndentation inp _ = indented at ended ⊢
      exact pendingOr_started (fun flag => .inr (ended flag)) (scan_started ended)
    · exact scan_started fun flag => absurd flag Bool.false_ne_true
  · rename_i flag
    exact scan_started fun set => absurd set flag

/-! ## Passes -/

def Lexer.Passed.deliveries (passed : Lexer.Passed) : Nat :=
  passed.1.toList.countP fun token => token.kind != .eof

theorem Passing.potential_le {n : Nat} {passed : Lexer.Passed}
    (passing : Passing inp n lexer passed)
    (within : lexer.position ≤ inp.sourceLength) :
    passed.2.potential inp + passed.deliveries ≤ lexer.potential inp + 2 * n := by
  obtain ⟨⟨events, moves, tokens, opened⟩, -⟩ := passing
  have := moves.potential_le within
  rw [Lexer.deliveries, tokens] at this
  simp only [Lexer.Passed.deliveries]
  omega

theorem pass_potential_le (started : lexer.LineStarted inp)
    (within : lexer.position ≤ inp.sourceLength) :
    (lexer.pass inp).2.potential inp + (lexer.pass inp).deliveries ≤ lexer.potential inp := by
  unfold Lexer.pass pendingOr
  split
  · rename_i pending
    exact (Moves.passing (.of_move (.deliver pending))).potential_le within
  rename_i idle
  obtain ⟨⟨events, trivia⟩, started⟩ := consumeLineDirectivesAtLineStart_trivia started
  have passed := (trivia.moves idle).potential_le within
  have within := (trivia.moves idle).le_length within
  have opened := trivia.silent.openings_le
  have idle := trivia.pendingTokens_eq.trans idle
  simp only
  generalize lexer.consumeLineDirectivesAtLineStart inp = next at passed within idle started
  split
  · rename_i start
    have settled : potential inp { next with atLineStart := false } + 3 = next.potential inp := by
      simp [potential, lineWorth, start]
    have := (@lineStarted_passing inp { next with atLineStart := false } idle
      (started start)).potential_le within
    omega
  · have := (scan_passing idle).potential_le within
    omega

theorem nextTokenStep_some {before after : Lexer.Passed}
    (h : nextTokenStep inp before = some after) :
    before.1 = none ∧ before.2.pass inp = after := by
  obtain ⟨token, before⟩ := before
  cases token with
  | some token => exact absurd h (by simp [nextTokenStep])
  | none => exact ⟨rfl, Option.some.inj h⟩

/-- What holds while `next_token` makes its passes. -/
structure Underway (inp : Input) (lexer : Lexer) (s : Lexer.Passed) : Prop where
  moved : ∃ events, Moves inp lexer events s.2 ∧ tokensOf events = s.1.toList
  within : s.2.position ≤ inp.sourceLength
  started : s.2.LineStarted inp
  potential_le : s.2.potential inp + s.deliveries ≤ lexer.potential inp

theorem Underway.pass {before after : Lexer.Passed} (underway : Underway inp lexer before)
    (h : nextTokenStep inp before = some after) : Underway inp lexer after := by
  obtain ⟨silent, rfl⟩ := nextTokenStep_some h
  obtain ⟨events, moves, tokens⟩ := underway.moved
  obtain ⟨⟨rest, then_, delivered, -⟩, -⟩ := pass_passing underway.started
  refine ⟨⟨_, moves.append then_, ?_⟩, then_.le_length underway.within,
    pass_started underway.started, ?_⟩
  · rw [tokensOf_append, tokens, delivered, silent]
    rfl
  · exact Nat.le_trans (pass_potential_le underway.started underway.within)
      (Nat.le_trans (Nat.le_add_right _ _) underway.potential_le)

theorem Underway.start (started : lexer.LineStarted inp)
    (within : lexer.position ≤ inp.sourceLength) : Underway inp lexer (none, lexer) :=
  ⟨⟨[], .refl lexer, rfl⟩, within, started, Nat.le_refl _⟩

theorem nextToken_delivers (started : lexer.LineStarted inp)
    (within : lexer.position ≤ inp.sourceLength) :
    ∃ token next events, lexer.nextToken inp = (some token, next) ∧ Moves inp lexer events next ∧
      tokensOf events = [token] ∧ next.LineStarted inp ∧
      next.potential inp + (if token.kind = .eof then 0 else 1) ≤ lexer.potential inp := by
  have start := Underway.start started within
  have underway : Underway inp lexer (lexer.nextToken inp) :=
    runSteps_keeps _ (fun _ _ => Underway.pass) start
  have halts : nextTokenStep inp (lexer.nextToken inp) = none := by
    refine runSteps_halts_keeps (Underway inp lexer) (fun _ _ => Underway.pass)
      (fun s => if s.1 = none then inp.remaining s.2.position + 1 else 0) ?_ start (by simp)
    intro before after underway h
    have within := (underway.pass h).within
    obtain ⟨silent, rfl⟩ := nextTokenStep_some h
    have lt := (pass_passing underway.started).2
    simp only [silent, if_true]
    split
    · rename_i none_
      have := lt none_
      simp only [Input.remaining]
      omega
    · omega
  obtain ⟨⟨events, moves, tokens⟩, -, started, le⟩ := underway
  cases delivered : lexer.nextToken inp with
  | mk token next =>
    rw [delivered] at halts moves tokens started le
    cases token with
    | none => exact absurd halts (by simp [nextTokenStep])
    | some token =>
      refine ⟨token, next, events, rfl, moves, tokens, started, ?_⟩
      simpa [Lexer.Passed.deliveries, List.countP_cons] using le

/-! ## The end of a stream -/

structure Lexer.AtEnd (inp : Input) (lexer : Lexer) : Prop where
  last : inp.sourceLength ≤ lexer.position
  closed : lexer.indentationStack = []
  idle : lexer.pendingTokens = []

theorem Move.atEnd (move : Move inp lexer events next) (within : lexer.position ≤ inp.sourceLength)
    (ended : lexer.AtEnd inp) : next.AtEnd inp := by
  have last := Nat.le_antisymm within ended.last
  have stays : ∀ {d : Cursor}, Reaches inp lexer.toCursor d → ¬ lexer.position < d.position := by
    intro d moved lt
    have := moved.le_length within
    omega
  have visible : ∀ {c : Char}, c ≠ nullChar → lexer.currentChar inp ≠ c := by
    intro c visible at_
    rw [currentChar, Input.charAt_of_end ended.last] at at_
    exact visible at_.symm
  cases move with
  | trivium idle passed =>
    cases passed with
    | blank more => omega
    | lineStart newline => exact absurd newline (visible (by decide))
    | comment moved begun => exact absurd begun (stays moved)
    | attempt => exact ⟨ended.last, ended.closed, ended.idle⟩
    | directive hash => exact absurd hash (visible (by decide))
  | settle => exact ⟨ended.last, ended.closed, ended.idle⟩
  | block => exact ⟨ended.last, ended.closed, ended.idle⟩
  | newline idle newline => exact absurd newline (visible (by decide))
  | lexeme idle read => exact absurd read.lt (stays read.moved)
  | openGroup idle read => exact absurd read.lt (stays read.moved)
  | closeGroup idle read => exact absurd read.lt (stays read.moved)
  | raise dedents more => omega
  | dedent dedents block => exact absurd ended.closed block
  | deliver pending => exact absurd (ended.idle.symm.trans pending) (by simp)
  | lastDedent idle last block => exact absurd ended.closed block
  | eof => exact ended

/-! ## Loops -/

structure LoopsBreak (inp : Input) : Prop where
  identifier : ∀ c, identifierStep inp (scanIdentifier inp c) = none
  number : ∀ c, numberStep inp (runNumber inp c) = none
  quoted : ∀ c terminator, terminator = '"' ∨ terminator = '\'' →
    quotedStep inp terminator (runQuoted inp terminator c) = none
  fstring : ∀ c, fstringStep inp (runFString inp c) = none
  spaces : ∀ c, spacesStep inp (skipSpaces inp c) = none
  blankLines : ∀ c, blankLinesStep inp (skipBlankLines inp c) = none
  lineComment : ∀ c, lineCommentStep inp (runLineComment inp c) = none
  blockComment : ∀ c, blockCommentStep inp (runBlockComment inp c) = none
  directiveNumber : ∀ index, directiveNumberStep inp (runDirectiveNumber inp index) = none
  directives : ∀ lexer : Lexer, directivesStep inp
    (runSteps (directivesStep inp) (inp.remaining lexer.position + 1) (lexer, false)) = none
  indent : ∀ c, indentStep inp (measureIndent inp c) = none
  dedent : ∀ (indent : Nat) (lexer : Lexer), dedentStep indent
    (runSteps (dedentStep indent) lexer.indentationStack.length lexer) = none
  indentation : ∀ lexer : Lexer, handleIndentationStep inp
    (runSteps (handleIndentationStep inp) (inp.remaining lexer.position + 1)
      (lexer.measured inp)) = none
  scanned : ∀ kind index, scanWhile inp kind index < inp.sourceLength →
    kind (inp.charAt (scanWhile inp kind index)) = false
  trimmed : ∀ fileStart fileEnd, fileStart < trimFilename inp fileStart fileEnd →
    ¬ (isBlank (inp.charAt (trimFilename inp fileStart fileEnd - 1)) = true ∨
      inp.charAt (trimFilename inp fileStart fileEnd - 1) = '\r')
  blanks : ∀ index, (blanksAt inp index).1 < inp.sourceLength →
    isBlank (inp.charAt (blanksAt inp index).1) = false
  passes : ∀ lexer : Lexer, lexer.LineStarted inp → lexer.position ≤ inp.sourceLength →
    nextTokenStep inp (lexer.nextToken inp) = none

theorem trimFilename_stops {fileStart fileEnd : Nat}
    (more : fileStart < trimFilename inp fileStart fileEnd) :
    ¬ (isBlank (inp.charAt (trimFilename inp fileStart fileEnd - 1)) = true ∨
      inp.charAt (trimFilename inp fileStart fileEnd - 1) = '\r') := by
  have halts := @runSteps_halts Nat
    (fun stop => if fileStart < stop ∧ (isBlank (inp.charAt (stop - 1)) = true ∨
      inp.charAt (stop - 1) = '\r') then some (stop - 1) else none) (fileEnd - fileStart) fileEnd
    (fun stop => stop - fileStart)
    (fun a b h => by
      split at h
      · have := Option.some.inj h
        omega
      · exact absurd h (by simp))
    (Nat.le_refl _)
  exact fun taken => absurd (ite_eq_right_iff.1 halts ⟨more, taken⟩) (by simp)

theorem blanksAt_stops {index : Nat} (more : (blanksAt inp index).1 < inp.sourceLength) :
    isBlank (inp.charAt (blanksAt inp index).1) = false := by
  have halts := @runSteps_halts (Nat × Nat)
    (fun s => if s.1 < inp.sourceLength ∧ isBlank (inp.charAt s.1) = true then
      some (s.1 + 1, s.2 + if inp.charAt s.1 = '\t' then 4 else 1) else none)
    (inp.remaining index) (index, 0) (fun s => inp.remaining s.1)
    (fun a b h => by
      split at h
      · rename_i taken
        rw [← Option.some.inj h]
        exact Input.remaining_lt_of_lt taken.1 (Nat.lt_succ_self _)
      · exact absurd h (by simp))
    (Nat.le_refl _)
  by_contra taken
  rw [Bool.not_eq_false] at taken
  exact absurd (ite_eq_right_iff.1 halts ⟨more, taken⟩) (by simp)

theorem nextToken_halts (started : lexer.LineStarted inp)
    (within : lexer.position ≤ inp.sourceLength) :
    nextTokenStep inp (lexer.nextToken inp) = none := by
  obtain ⟨token, next, -, delivered, -⟩ := nextToken_delivers started within
  rw [delivered]
  rfl

theorem loopsBreak (inp : Input) : LoopsBreak inp where
  identifier _ := scanIdentifier_halts
  number _ := runNumber_halts
  quoted c terminator quote := by
    have visible : terminator ≠ '\n' ∧ terminator ≠ nullChar := by
      rcases quote with rfl | rfl <;> decide
    exact halts_of_moves id QuotedScan.quotedDone
      { toCursor := c, quotedTextEnd := c.position, quotedDone := false }
      fun _ _ => quotedStep_moves visible
  fstring c := halts_of_moves FStringScan.toQuotedScan FStringScan.isOver
    { toCursor := c, quotedTextEnd := c.position, quotedDone := false, fstringDepth := 0,
      state := .text } fun _ _ => fstringStep_moves
  spaces := skipSpaces_halts
  blankLines := skipBlankLines_halts
  lineComment _ := runLineComment_halts
  blockComment _ := runBlockComment_halts
  directiveNumber := runDirectiveNumber_halts
  directives := directives_halts
  indent := measureIndent_halts
  dedent := dedent_halts
  indentation := handleIndentation_halts
  scanned _ _ := scanWhile_stops
  trimmed _ _ := trimFilename_stops
  blanks _ := blanksAt_stops
  passes _ started within := nextToken_halts started within

/-! ## Runs -/

/-- What holds while a unit is tokenized. -/
structure Tokenizing.Ongoing (inp : Input) (start : Lexer) (s : Tokenizing) : Prop where
  moved : ∃ events, Moves inp start events s.lexer ∧ tokensOf events = s.tokens
  within : s.lexer.position ≤ inp.sourceLength
  started : s.lexer.LineStarted inp
  unended : ∀ token ∈ s.tokens.dropLast, token.kind ≠ .eof
  potential_le : s.lexer.potential inp ≤ start.potential inp

theorem tokenizeStep_some {s next : Tokenizing} (h : tokenizeStep inp s = some next)
    (started : s.lexer.LineStarted inp) (within : s.lexer.position ≤ inp.sourceLength) :
    s.finished = false ∧ ∃ token events, Moves inp s.lexer events next.lexer ∧
      tokensOf events = [token] ∧ next.tokens = s.tokens ++ [token] ∧
      next.lexer.LineStarted inp ∧
      next.lexer.potential inp + (if token.kind = .eof then 0 else 1) ≤ s.lexer.potential inp := by
  obtain ⟨token, lexer, events, delivered, moves, tokens, started, le⟩ :=
    nextToken_delivers started within
  unfold tokenizeStep at h
  rw [delivered] at h
  split at h
  · exact absurd h (by simp)
  rename_i going
  rw [← Option.some.inj h]
  exact ⟨by simpa using going, token, events, moves, tokens, rfl, started, le⟩

theorem Tokenizing.Ongoing.step {start : Lexer} {s next : Tokenizing}
    (ongoing : s.Ongoing inp start)
    (h : tokenizeStep inp s = some next) : next.Ongoing inp start := by
  obtain ⟨going, token, events, moves, delivered, tokens, started, le⟩ :=
    tokenizeStep_some h ongoing.started ongoing.within
  obtain ⟨before, moved, told⟩ := ongoing.moved
  refine ⟨⟨_, moved.append moves, by rw [tokensOf_append, told, delivered, tokens]⟩,
    moves.le_length ongoing.within, started, ?_, ?_⟩
  · rw [tokens, List.dropLast_concat]
    simpa [Tokenizing.finished] using going
  · have := ongoing.potential_le
    omega

/-- The calls of `next_token` come to an `eof` token, and more calls would not change anything. -/
structure Finishes (inp : Input) (start : Lexer) : Prop where
  finished : (tokenizeFrom inp start).finished = true
  stays : ∀ calls, inp.tokenLimit start.position ≤ calls →
    runSteps (tokenizeStep inp) calls { lexer := start, tokens := [] } = tokenizeFrom inp start

section Run

variable {start : Lexer} (started : start.LineStarted inp)
  (within : start.position ≤ inp.sourceLength)
include started within

theorem Tokenizing.ongoing_new : Tokenizing.Ongoing inp start { lexer := start, tokens := [] } :=
  ⟨⟨[], .refl start, rfl⟩, within, started, by simp, Nat.le_refl _⟩

theorem tokenizeFrom_ongoing : (tokenizeFrom inp start).Ongoing inp start :=
  runSteps_keeps _ (fun _ _ kept => kept.step) (Tokenizing.ongoing_new started within)

theorem tokenizeFrom_finishes (enough : start.potential inp < inp.tokenLimit start.position) :
    Finishes inp start := by
  have halts : tokenizeStep inp (tokenizeFrom inp start) = none := by
    refine runSteps_halts_keeps (Tokenizing.Ongoing inp start) (fun _ _ kept => kept.step)
      (fun s => if s.finished then 0 else s.lexer.potential inp + 1) (fun s next kept h => ?_)
      (Tokenizing.ongoing_new started within) enough
    obtain ⟨going, token, events, -, -, tokens, -, le⟩ :=
      tokenizeStep_some h kept.started kept.within
    simp only [going, Bool.false_eq_true, ↓reduceIte]
    by_cases last : token.kind = .eof
    · have ended : next.finished = true := by simp [Tokenizing.finished, tokens, last]
      simp [ended]
    · rw [if_neg last] at le
      split <;> omega
  refine ⟨?_, fun calls le => runSteps_of_le halts le⟩
  have ongoing := tokenizeFrom_ongoing started within
  obtain ⟨token, next, events, delivered, -⟩ := nextToken_delivers ongoing.started ongoing.within
  unfold tokenizeStep at halts
  rw [delivered] at halts
  split at halts
  · assumption
  · exact absurd halts (by simp)

end Run

theorem new_started {filename : Bytes} : (Lexer.new filename).LineStarted inp := fun _ => .inl rfl

theorem new_finishes {filename : Bytes} {position : Nat} (within : position ≤ inp.sourceLength) :
    Finishes inp { Lexer.new filename with position := position } := by
  refine tokenizeFrom_finishes (fun _ => .inl rfl) within ?_
  simp [potential, Lexer.new, lineWorth, Input.tokenLimit]

end Elisa.Lexer
