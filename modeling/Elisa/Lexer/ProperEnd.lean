import Elisa.Lexer.NumberedLines

/-!
# Where a stream ends properly

Columns and depths stay below the extent of a source, and so do lines that are counted from its
start.  A numbered line may be too great, or number the lines behind it with numbers that are.
Where none is (`NumbersFit`), no operation traps, and the stream comes to its `eof` token.
-/

namespace Elisa.Lexer

open Elisa.Lib Cursor Lexer

variable {inp : Input} {origin : Nat}

/-! ## Counters that fit -/

/-- The counters of a cursor fit, there is room for the newlines behind it, and in the first column
a line starts. -/
structure Cursor.Fits (inp : Input) (origin : Nat) (c : Cursor) : Prop where
  sound : c.trapped = false
  from_ : origin ≤ c.position
  within : c.position ≤ inp.sourceLength
  line : c.line + inp.newlinesFrom c.position < 2 ^ 63
  buffer : inp.renumberOnDirective = false → c.line ≤ c.position + 1
  column : 1 ≤ c.column ∧ c.column ≤ c.position + 1
  start : c.column = 1 → c.position < inp.sourceLength → LineStart inp origin c.position

/-- So does the depth of the brackets. -/
structure Lexer.Fits (inp : Input) (origin : Nat) (lexer : Lexer) : Prop where
  cursor : lexer.toCursor.Fits inp origin
  depth : lexer.groupDepth ≤ lexer.position

theorem fitsInt_of_lt {n : Nat} (lt : n < 2 ^ 63) : fitsInt n = true := decide_eq_true lt

variable (small : inp.sourceLength < 2 ^ 32)
include small

theorem Cursor.Fits.advanceChar {c : Cursor} (fits : c.Fits inp origin) :
    (c.advanceChar inp).Fits inp origin := by
  obtain ⟨sound, from_, within, line, buffer, column, start⟩ := fits
  rcases Nat.lt_or_ge c.position inp.sourceLength with more | last
  swap
  · rw [advanceChar_of_end last]
    exact ⟨sound, from_, within, line, buffer, column, start⟩
  have counted := newlinesFrom_of_lt more
  by_cases newline : c.currentChar inp = '\n'
  · have moved : c.advanceChar inp =
        ⟨c.position + 1, c.line + 1, 1, c.trapped || !fitsInt (c.line + 1)⟩ := by
      rw [Cursor.advanceChar, if_neg (by simpa [isEndOfSource, Input.isEnd] using more),
        if_pos newline]
    rw [if_pos newline] at counted
    have room : c.line + 1 + inp.newlinesFrom (c.position + 1) < 2 ^ 63 := by omega
    rw [moved]
    refine ⟨?_, Nat.le_succ_of_le from_, more, room, fun plain => Nat.succ_le_succ (buffer plain),
      ⟨Nat.le_refl _, Nat.succ_le_succ (Nat.zero_le _)⟩,
      fun _ _ => .inr ⟨Nat.lt_succ_of_le from_, newline⟩⟩
    rw [sound, fitsInt_of_lt (Nat.lt_of_le_of_lt (Nat.le_add_right _ _) room)]
    rfl
  · rw [if_neg newline] at counted
    rw [advanceChar_of_inline more newline]
    refine ⟨?_, Nat.le_succ_of_le from_, more, ?_, fun plain => Nat.le_succ_of_le (buffer plain),
      ⟨Nat.le_succ_of_le column.1, Nat.succ_le_succ column.2⟩, fun first => ?_⟩
    · show (c.trapped || !fitsInt (c.column + 1)) = false
      rw [sound, fitsInt_of_lt (by omega)]
      rfl
    · show c.line + inp.newlinesFrom (c.position + 1) < 2 ^ 63
      omega
    · have : c.column + 1 = 1 := first
      omega

theorem Cursor.Fits.reaches {c d : Cursor} (fits : c.Fits inp origin) (moved : Reaches inp c d) :
    d.Fits inp origin :=
  moved.keeps (Fits inp origin) (fun _ fits => fits.advanceChar small) fits

variable {lexer next : Lexer} {events : List Event}

theorem Lexer.Fits.reaches {d : Cursor} (fits : lexer.Fits inp origin)
    (moved : Reaches inp lexer.toCursor d) : (lexer.moveTo d).Fits inp origin :=
  ⟨fits.cursor.reaches small moved, Nat.le_trans fits.depth moved.position_le⟩

variable (numbers : NumbersFit inp origin)
include numbers

/-- A directive comes to a line with room for the newlines behind it. -/
theorem Lexer.Fits.consumed {directive : LineDirective} (fits : lexer.Fits inp origin)
    (hash : lexer.currentChar inp = '#') (start : LineStart inp origin lexer.position)
    (found : directiveAt inp lexer.position = some directive) :
    (lexer.consumed inp directive).Fits inp origin := by
  obtain ⟨first, stop, numbered, named, value, le, ended⟩ := directiveAt_numbered hash found
  obtain ⟨forth, within⟩ := directiveAt_next found
  have behind := lineEnd_next le ended
  have all := numbers _ _ _ start numbered
  have fewer : inp.newlinesFrom (directive.next inp) ≤ inp.remaining (directive.next inp) :=
    newlinesFrom_le
  have line : (lexer.consumed inp directive).line +
    inp.newlinesFrom (directive.next inp) < 2 ^ 63 := by
    simp only [Lexer.consumed]
    split
    · rename_i renumber
      have room := all.2 renumber named
      rw [value]
      omega
    · rename_i kept
      have buffer := fits.cursor.buffer (Bool.eq_false_iff.mpr kept)
      simp only [Input.remaining] at fewer
      omega
  refine ⟨⟨?_, Nat.le_trans fits.cursor.from_ (Nat.le_of_lt forth), within, line, fun plain => ?_,
    ⟨Nat.le_refl _, Nat.succ_le_succ (Nat.zero_le _)⟩, fun _ more => ?_⟩,
    Nat.le_trans fits.depth (Nat.le_of_lt forth)⟩
  · show (lexer.trapped || !fitsInt (lexer.consumed inp directive).line) = false
    rw [fits.cursor.sound, fitsInt_of_lt (by omega)]
    rfl
  · have buffer := fits.cursor.buffer plain
    simp only [Lexer.consumed, plain]
    show lexer.line + 1 ≤ directive.next inp + 1
    omega
  · rcases behind with last | between
    · exact absurd more (Nat.not_lt.mpr last.1)
    · exact .inr ⟨Nat.lt_of_le_of_lt fits.cursor.from_ forth, between.2.1⟩

theorem Trivium.fits (passed : Trivium inp lexer events next) (fits : lexer.Fits inp origin) :
    next.Fits inp origin := by
  have started : lexer.currentChar inp = '#' → lexer.column = 1 →
      LineStart inp origin lexer.position := by
    intro hash column
    refine fits.cursor.start column (Input.lt_of_charAt_ne ?_)
    rw [show inp.charAt lexer.position = '#' from hash]
    decide
  cases passed with
  | blank => exact fits.reaches small .advanceChar
  | lineStart newline =>
    have moved := fits.reaches small .advanceChar
    exact ⟨moved.cursor, moved.depth⟩
  | comment moved begun =>
    have moved := fits.reaches small moved
    exact ⟨moved.cursor, moved.depth⟩
  | attempt hash column =>
    have quiet : directiveTraps inp lexer.position = false := by
      rw [Bool.eq_false_iff]
      intro traps
      obtain ⟨first, stop, numbered, great⟩ := (directiveTraps_iff hash).mp traps
      exact Nat.not_lt.mpr great (numbers _ _ _ (started hash column) numbered).1
    have same : lexer.attempted inp = lexer := by
      simp only [attempted, quiet, Bool.or_false]
    rw [same]
    exact fits
  | directive hash column found =>
    exact fits.consumed small numbers hash (started hash column) found

theorem Move.fits (move : Move inp lexer events next) (fits : lexer.Fits inp origin) :
    next.Fits inp origin := by
  cases move with
  | trivium idle passed => exact passed.fits small numbers fits
  | newline idle newline =>
    have moved := fits.reaches small .advanceChar
    exact ⟨moved.cursor, moved.depth⟩
  | lexeme idle read => exact fits.reaches small read.moved
  | @openGroup token d idle read =>
    have moved := fits.reaches small read.moved
    have lt := read.lt
    have within : d.position ≤ inp.sourceLength := moved.cursor.within
    have depth := fits.depth
    have sound : d.trapped = false := moved.cursor.sound
    obtain ⟨-, from_, within, line, buffer, column, start⟩ := moved.cursor
    refine ⟨⟨?_, from_, within, line, buffer, column, start⟩, ?_⟩
    · show (d.trapped || !fitsInt (lexer.groupDepth + 1)) = false
      rw [sound, fitsInt_of_lt (by omega)]
      rfl
    · show lexer.groupDepth + 1 ≤ d.position
      omega
  | closeGroup idle read =>
    have moved := fits.reaches small read.moved
    exact ⟨moved.cursor, Nat.le_trans (Nat.sub_le _ _) moved.depth⟩
  | settle => exact ⟨fits.cursor, fits.depth⟩
  | block => exact ⟨fits.cursor, fits.depth⟩
  | raise => exact ⟨fits.cursor, fits.depth⟩
  | dedent => exact ⟨fits.cursor, fits.depth⟩
  | deliver => exact ⟨fits.cursor, fits.depth⟩
  | lastDedent => exact ⟨fits.cursor, fits.depth⟩
  | eof => exact fits

theorem Moves.fits (moves : Moves inp lexer events next) (fits : lexer.Fits inp origin) :
    next.Fits inp origin := by
  induction moves with
  | refl => exact fits
  | head move moves ih => exact ih (move.fits small numbers fits)

omit numbers in
theorem new_fits {filename : Bytes} {position : Nat} (within : position ≤ inp.sourceLength) :
    Lexer.Fits inp position { Lexer.new filename with position := position } := by
  have fewer : inp.newlinesFrom position ≤ inp.remaining position := newlinesFrom_le
  simp only [Input.remaining] at fewer
  refine ⟨⟨rfl, Nat.le_refl _, within, ?_, fun _ => Nat.succ_le_succ (Nat.zero_le _),
    ⟨Nat.le_refl _, Nat.succ_le_succ (Nat.zero_le _)⟩, fun _ _ => .inl rfl⟩, Nat.zero_le _⟩
  show 1 + inp.newlinesFrom position < 2 ^ 63
  omega

omit small numbers

/-! ## Streams that end properly -/

/-- There is one `eof` token, at the end, and it stands at the extent of what was read. -/
def ProperlyEnds (extent : Nat) (result : Option (List Token)) : Prop :=
  ∃ tokens, result = some tokens ∧ tokens.countP (fun token => token.kind == .eof) = 1 ∧
    (∃ last, tokens.getLast? = some last ∧ last.kind = .eof ∧ last.start = extent) ∧
    tokenStreamSourceLength tokens = extent

/-- The extent has to fit the 32 bits of a token's `start`. -/
theorem EndsAt.properlyEnds_iff {extent : Nat} {tokens : List Token} (ends : EndsAt extent tokens) :
    ProperlyEnds extent (some tokens) ↔ extent < 2 ^ 32 := by
  obtain ⟨before, last, rfl, eof, start, others⟩ := ends
  constructor
  · rintro ⟨_, same, -, ⟨found, at_, -, extent_⟩, -⟩
    obtain rfl := Option.some.inj same
    rw [List.getLast?_concat] at at_
    rw [← Option.some.inj at_, start] at extent_
    omega
  · intro short
    have at_ : last.start = extent := by rw [start, Nat.mod_eq_of_lt short]
    have none_ : before.countP (fun token => token.kind == .eof) = 0 := by
      rw [List.countP_eq_zero]
      intro token mem
      simpa using others token mem
    refine ⟨_, rfl, ?_, ⟨last, List.getLast?_concat, eof, at_⟩, ?_⟩
    · rw [List.countP_append, none_]
      simp [eof]
    · simp [tokenStreamSourceLength, eof, at_]

section Streams

variable {filename : Bytes} {position : Nat} (within : position ≤ inp.sourceLength)
include within

theorem tokenizeFrom_properlyEnds (numbers : NumbersFit inp position) :
    ProperlyEnds inp.sourceLength
        ((tokenizeFrom inp { Lexer.new filename with position := position }).result.map
          (·.tokens)) ↔
      inp.sourceLength < 2 ^ 32 := by
  have ends := (tokenizeFrom_endsAt (fun _ => .inl rfl) within rfl
    (@new_finishes inp filename _ within)).1
  have traps : inp.sourceLength < 2 ^ 32 →
      (tokenizeFrom inp { Lexer.new filename with position := position }).lexer.trapped =
        false := by
    intro small
    obtain ⟨events, moves, -⟩ := (@tokenizeFrom_ongoing inp
      { Lexer.new filename with position := position } (fun _ => .inl rfl) within).moved
    exact (moves.fits small numbers (new_fits small within)).cursor.sound
  unfold Tokenizing.result
  split
  · rename_i trapped
    refine ⟨fun proper => ?_, fun small => ?_⟩
    · obtain ⟨tokens, none_, -⟩ := proper
      cases none_
    · rw [traps small] at trapped
      cases trapped
  · exact ends.properlyEnds_iff

end Streams

/-! ## A first line that is too great -/

section Traps

theorem Cursor.advanceChar_trapped {c : Cursor} (traps : c.trapped = true) :
    (c.advanceChar inp).trapped = true := by
  unfold Cursor.advanceChar
  split
  · exact traps
  split
  · exact Bool.or_eq_true _ _ ▸ .inl traps
  · exact Bool.or_eq_true _ _ ▸ .inl traps

theorem Cursor.Reaches.trapped {c d : Cursor} (moved : Reaches inp c d) (traps : c.trapped = true) :
    d.trapped = true :=
  moved.keeps (fun c => c.trapped = true) (fun _ => advanceChar_trapped) traps

theorem Trivium.trapped (passed : Trivium inp lexer events next) (traps : lexer.trapped = true) :
    next.trapped = true := by
  cases passed with
  | blank => exact advanceChar_trapped traps
  | lineStart => exact advanceChar_trapped traps
  | comment moved => exact moved.trapped traps
  | attempt => exact Bool.or_eq_true _ _ ▸ .inl traps
  | directive => exact Bool.or_eq_true _ _ ▸ .inl traps

theorem Move.trapped (move : Move inp lexer events next) (traps : lexer.trapped = true) :
    next.trapped = true := by
  cases move with
  | trivium idle passed => exact passed.trapped traps
  | newline => exact advanceChar_trapped traps
  | lexeme idle read => exact read.moved.trapped traps
  | openGroup idle read => exact Bool.or_eq_true _ _ ▸ .inl (read.moved.trapped traps)
  | closeGroup idle read => exact read.moved.trapped traps
  | _ => exact traps

/-- What has trapped stays so. -/
theorem Moves.trapped (moves : Moves inp lexer events next) (traps : lexer.trapped = true) :
    next.trapped = true := by
  induction moves with
  | refl => exact traps
  | head move moves ih => exact ih (move.trapped traps)

theorem tryConsumeLineDirective_trapped
    (traps : (lexer.trapped || directiveTraps inp lexer.position) = true) :
    (lexer.tryConsumeLineDirective inp).2.trapped = true := by
  rw [tryConsumeLineDirective_eq]
  cases directiveAt inp lexer.position with
  | none => exact traps
  | some directive => exact Bool.or_eq_true _ _ ▸ .inl traps

/-- The first thing that is looked for at the start of a line is a directive. -/
theorem consumeLineDirectivesAtLineStart_trapped (flag : lexer.atLineStart = true)
    (hash : lexer.currentChar inp = '#') (traps : directiveTraps inp lexer.position = true) :
    (lexer.consumeLineDirectivesAtLineStart inp).trapped = true := by
  have more : lexer.isEndOfSource inp = false := by
    simpa [isEndOfSource, Input.isEnd] using Input.lt_of_charAt_ne
      (by rw [show inp.charAt lexer.position = '#' from hash]; decide)
  have first : directivesStep inp (lexer, false) =
      some ((lexer.tryConsumeLineDirective inp).2, !(lexer.tryConsumeLineDirective inp).1) := by
    rw [directivesStep, if_neg (by simp [flag, more, hash])]
  unfold consumeLineDirectivesAtLineStart
  rw [runSteps_of_some first]
  refine runSteps_keeps (fun s : Lexer × Bool => s.1.trapped = true) (fun s next kept h => ?_)
    (tryConsumeLineDirective_trapped (Bool.or_eq_true _ _ ▸ .inr traps))
  unfold directivesStep at h
  split at h
  · cases h
  · rw [← Option.some.inj h]
    exact tryConsumeLineDirective_trapped (Bool.or_eq_true _ _ ▸ .inl kept)

theorem pass_trapped (started : lexer.LineStarted inp) (idle : lexer.pendingTokens = [])
    (traps : (lexer.consumeLineDirectivesAtLineStart inp).trapped = true) :
    (lexer.pass inp).2.trapped = true := by
  obtain ⟨⟨events, trivia⟩, started⟩ := consumeLineDirectivesAtLineStart_trivia started
  have idle' := trivia.pendingTokens_eq.trans idle
  have moved : ∀ {n : Nat} {passed : Lexer.Passed}, Passing inp n
      (lexer.consumeLineDirectivesAtLineStart inp) passed → passed.2.trapped = true :=
    fun ⟨⟨_, moves, _⟩, _⟩ => moves.trapped traps
  unfold Lexer.pass Lexer.pendingOr
  rw [idle]
  simp only
  split
  · rename_i flag
    obtain ⟨⟨_, moves, _⟩, _⟩ := @lineStarted_passing inp
      { lexer.consumeLineDirectivesAtLineStart inp with atLineStart := false } idle' (started flag)
    exact moves.trapped traps
  · exact moved (scan_passing idle')

theorem nextToken_trapped (started : lexer.LineStarted inp)
    (traps : (lexer.pass inp).2.trapped = true) : (lexer.nextToken inp).2.trapped = true := by
  unfold Lexer.nextToken
  rw [runSteps_of_some (show nextTokenStep inp (none, lexer) = some (lexer.pass inp) from rfl)]
  refine (runSteps_keeps (fun passed : Lexer.Passed => passed.2.trapped = true ∧
    passed.2.LineStarted inp) (fun before after kept h => ?_) ⟨traps, pass_started started⟩).1
  obtain ⟨-, rfl⟩ := nextTokenStep_some h
  obtain ⟨⟨_, moves, _⟩, _⟩ := pass_passing kept.2
  exact ⟨moves.trapped kept.1, pass_started kept.2⟩

/-- A number on the first line that does not fit stops the program. -/
theorem tokenizeFrom_first_trapped {filename : Bytes} {position first stop : Nat}
    (within : position ≤ inp.sourceLength) (numbered : Numbered inp position first stop)
    (great : 2 ^ 63 ≤ inp.decimalAt first (stop - first)) :
    (tokenizeFrom inp { Lexer.new filename with position := position }).result = none := by
  have traps := (directiveTraps_iff numbered.hash).mpr ⟨first, stop, numbered, great⟩
  have started : Lexer.LineStarted inp { Lexer.new filename with position := position } :=
    fun _ => .inl rfl
  have passed := nextToken_trapped started (pass_trapped started rfl
    (consumeLineDirectivesAtLineStart_trapped rfl numbered.hash traps))
  obtain ⟨token, next, -, delivered, -⟩ := nextToken_delivers started within
  rw [delivered] at passed
  have first : tokenizeStep inp ⟨{ Lexer.new filename with position := position }, []⟩ =
      some ⟨next, [token]⟩ := by
    unfold tokenizeStep
    rw [delivered]
    rfl
  have stopped : (tokenizeFrom inp
      { Lexer.new filename with position := position }).lexer.trapped = true := by
    unfold tokenizeFrom
    rw [show inp.tokenLimit position = 4 * inp.remaining position + 3 + 1 from rfl,
      runSteps_of_some first]
    refine (runSteps_keeps (fun s : Tokenizing => s.lexer.trapped = true ∧
      s.Ongoing inp { Lexer.new filename with position := position })
      (fun s after kept h => ?_)
      ⟨passed, (Tokenizing.ongoing_new started within).step first⟩).1
    obtain ⟨-, _, _, moves, -⟩ := tokenizeStep_some h kept.2.started kept.2.within
    exact ⟨moves.trapped kept.1, kept.2.step h⟩
  rw [Tokenizing.result, if_pos stopped]

end Traps

/-! ## The entry points -/

/-- A source is lexed as a unit, as a unit that the driver has expanded, or in part. -/
inductive FrontendTokenizer where
  | withLength
  | expandedUnit
  | span (start stop : Nat)

namespace FrontendTokenizer

variable (sourceLength : Nat)

def start : FrontendTokenizer → Nat
  | .span start _ => start
  | _ => 0

def stop : FrontendTokenizer → Nat
  | .span _ stop => stop
  | _ => sourceLength

def input (source : Bytes) (tokenizer : FrontendTokenizer) : Input where
  source
  sourceLength := tokenizer.stop sourceLength
  renumberOnDirective :=
    match tokenizer with
    | .expandedUnit => false
    | _ => true

def tokens (filename source : Bytes) : FrontendTokenizer → Option (List Token)
  | .withLength => frontendTokenizeWithLength filename source sourceLength
  | .expandedUnit => frontendTokenizeExpandedUnit filename source sourceLength
  | .span start stop => frontendTokenizeSpan filename source sourceLength start stop

/-- Whether the part that is asked for is one. -/
def Within (tokenizer : FrontendTokenizer) : Prop :=
  tokenizer.start ≤ tokenizer.stop sourceLength ∧ tokenizer.stop sourceLength ≤ sourceLength

theorem tokens_of_within {filename source : Bytes} {tokenizer : FrontendTokenizer}
    (within : tokenizer.Within sourceLength) :
    tokenizer.tokens sourceLength filename source =
      (tokenizeFrom (tokenizer.input sourceLength source)
        { Lexer.new filename with position := tokenizer.start }).result.map (·.tokens) := by
  cases tokenizer with
  | withLength => rfl
  | expandedUnit => rfl
  | span start stop =>
    obtain ⟨le, fits⟩ : start ≤ stop ∧ stop ≤ sourceLength := within
    show frontendTokenizeSpan filename source sourceLength start stop = _
    rw [frontendTokenizeSpan, if_neg (by omega)]
    rfl

theorem not_properlyEnds_of_not_within {filename source : Bytes} {tokenizer : FrontendTokenizer}
    (without : ¬ tokenizer.Within sourceLength) :
    ¬ ProperlyEnds (tokenizer.stop sourceLength)
      (tokenizer.tokens sourceLength filename source) := by
  cases tokenizer with
  | withLength => exact absurd ⟨Nat.zero_le _, Nat.le_refl _⟩ without
  | expandedUnit => exact absurd ⟨Nat.zero_le _, Nat.le_refl _⟩ without
  | span start stop =>
    have wrong : stop < start ∨ sourceLength < stop := by
      by_contra right
      exact without ⟨Nat.le_of_not_lt fun lt => right (.inl lt),
        Nat.le_of_not_lt fun lt => right (.inr lt)⟩
    have none_ : FrontendTokenizer.tokens sourceLength filename source (.span start stop) =
        some [] := by
      show frontendTokenizeSpan filename source sourceLength start stop = some []
      rw [frontendTokenizeSpan, if_pos wrong]
    rw [none_]
    rintro ⟨tokens, same, one, -⟩
    rw [← Option.some.inj same] at one
    cases one

end FrontendTokenizer

end Elisa.Lexer
