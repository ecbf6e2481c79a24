import Elisa.Lexer.StreamEnd

/-!
# The positions of tokens

The cursor's line and column are those of its offset (`AtPosition`).  `advanceChar` keeps them so,
hence every scanner does.  Behind a directive the cursor stands at the start of a line again, if the
line of the directive is counted like any other.

A token tells the position of its lexeme, which begins before the quotes that its text leaves out; a
label's is that of its name.
-/

namespace Elisa.Lexer

open Elisa.Lib Cursor List

/-! ## Offsets -/

section Offsets

variable (inp : Input)

def Input.newlinesBefore (offset : Nat) : Nat :=
  (range offset).countP fun index => inp.charAt index == '\n'

def Input.bytesOnLine : Nat → Nat
  | 0 => 0
  | offset + 1 => if inp.charAt offset = '\n' then 0 else Input.bytesOnLine offset + 1

variable {inp}

theorem newlinesBefore_succ (offset : Nat) : inp.newlinesBefore (offset + 1) =
    inp.newlinesBefore offset + if inp.charAt offset = '\n' then 1 else 0 := by
  simp [Input.newlinesBefore, range_succ, countP_append, countP_cons]

theorem newlinesBefore_inline {start stop : Nat} (le : start ≤ stop)
    (inline : ∀ index, start ≤ index → index < stop → inp.charAt index ≠ '\n') :
    inp.newlinesBefore stop = inp.newlinesBefore start := by
  obtain ⟨count, rfl⟩ := Nat.exists_eq_add_of_le le
  induction count with
  | zero => rfl
  | succ count ih =>
    rw [← Nat.add_assoc, newlinesBefore_succ, if_neg (inline _ (by omega) (by omega)), Nat.add_zero]
    exact ih (by omega) fun index ge lt => inline index ge (by omega)

end Offsets

/-! ## The cursor -/

/-- The cursor counts the line and the column of its offset. -/
structure AtPosition (inp : Input) (c : Cursor) : Prop where
  line : c.line = 1 + inp.newlinesBefore c.position
  column : c.column = 1 + inp.bytesOnLine c.position

section Cursors

variable {inp : Input} {c d : Cursor}

theorem AtPosition.advanceChar (at_ : AtPosition inp c) : AtPosition inp (c.advanceChar inp) := by
  rcases Nat.lt_or_ge c.position inp.sourceLength with more | ended
  · rcases Decidable.em (c.currentChar inp = '\n') with newline | inline
    · have moved : c.advanceChar inp =
          ⟨c.position + 1, c.line + 1, 1, c.trapped || !fitsInt (c.line + 1)⟩ := by
        simp [Cursor.advanceChar, isEndOfSource, Input.isEnd, Nat.not_le.2 more, newline]
      rw [moved]
      constructor
      · rw [newlinesBefore_succ, if_pos newline, at_.line, Nat.add_assoc]
      · rw [Input.bytesOnLine, if_pos newline]
    · rw [advanceChar_of_inline more inline]
      constructor
      · rw [skip_position, newlinesBefore_succ, if_neg inline]
        exact at_.line
      · rw [skip_position, Input.bytesOnLine, if_neg inline]
        show c.column + 1 = _
        rw [at_.column, Nat.add_assoc]
  · rwa [advanceChar_of_end ended]

theorem AtPosition.reaches (at_ : AtPosition inp c) (moved : Reaches inp c d) : AtPosition inp d :=
  moved.keeps (AtPosition inp) (fun _ => AtPosition.advanceChar) at_

end Cursors

/-! ## Directives -/

section Directives

variable {inp : Input} {lexer : Lexer} {directive : Lexer.LineDirective} {position : Nat}

theorem ne_newline_of {kind : Char → Bool} {character : Char} (newline : kind '\n' = false)
    (h : kind character = true) : character ≠ '\n' := by
  rintro rfl
  rw [newline] at h
  cases h

theorem directiveAt_inline (hash : inp.charAt position = '#')
    (found : directiveAt inp position = some directive) :
    position ≤ directive.lineEnd ∧
      (∀ index, position ≤ index → index < directive.lineEnd → inp.charAt index ≠ '\n') ∧
      (directive.lineEnd < inp.sourceLength → inp.charAt directive.lineEnd = '\n') := by
  unfold directiveAt at found
  cases start : Lexer.directiveNumberStart inp position with
  | none => simp [start] at found
  | some numberStart =>
    obtain ⟨le, digits⟩ := @runDirectiveNumber_spec inp numberStart
    simp only [start] at found
    generalize Lexer.runDirectiveNumber inp numberStart = number at found le digits
    have word : position ≤ numberStart ∧
        ∀ index, position ≤ index → index < numberStart → inp.charAt index ≠ '\n' := by
      simp only [Lexer.directiveNumberStart] at start
      obtain ⟨leScanned, first⟩ := @scanWhile_spec inp isBlank (position + 1)
      generalize Lexer.scanWhile inp isBlank (position + 1) = scanned at start leScanned first
      split at start
      next => cases start
      rename_i letters
      simp only [not_or, not_not] at letters
      obtain ⟨l, i, n, e⟩ := letters
      split at start
      next blank =>
        obtain ⟨leNumber, second⟩ := @scanWhile_spec inp isBlank (scanned + 4)
        rw [Option.some.inj start] at leNumber second
        refine ⟨by omega, fun index ge lt => ?_⟩
        rcases Nat.lt_or_ge index (scanned + 4) with word | behind
        · rcases Nat.lt_or_ge index scanned with before | within
          · rcases Nat.eq_or_lt_of_le ge with rfl | later
            · rw [hash]
              decide
            · exact ne_newline_of rfl (first index later before).2
          obtain rfl | rfl | rfl | rfl : index = scanned ∨ index = scanned + 1 ∨
              index = scanned + 2 ∨ index = scanned + 3 := by omega
          · rw [l]; decide
          · rw [i]; decide
          · rw [n]; decide
          · rw [e]; decide
        · exact ne_newline_of rfl (second index behind lt).2
      next => cases start
    split at found
    next => cases found
    simp only [Lexer.directiveBehind] at found
    obtain ⟨leFile, blanks⟩ := @scanWhile_spec inp isBlank number.index
    generalize Lexer.scanWhile inp isBlank number.index = fileStart at found leFile blanks
    obtain ⟨leEnd, file⟩ := @scanWhile_spec inp (· != '\n') fileStart
    have stops := @scanWhile_stops inp (· != '\n') fileStart
    generalize Lexer.scanWhile inp (· != '\n') fileStart = lineEnd at found leEnd file stops
    split at found
    next => cases found
    rw [← Option.some.inj found]
    refine ⟨by dsimp only; omega, fun index ge lt => ?_, fun more => ?_⟩
    rotate_left
    · simpa using stops more
    rcases Nat.lt_or_ge index numberStart with before | behind
    · exact word.2 index ge before
    rcases Nat.lt_or_ge index number.index with digit | behind'
    · exact ne_newline_of rfl (digits index behind digit).2
    rcases Nat.lt_or_ge index fileStart with blank | name
    · exact ne_newline_of rfl (blanks index behind' blank).2
    · simpa using (file index name lt).2

/-- Where the cursor counts right, or has nothing in front of it. -/
def Counting (inp : Input) (lexer : Lexer) : Prop :=
  lexer.position < inp.sourceLength → AtPosition inp lexer.toCursor

theorem consumed_counting (kept : inp.renumberOnDirective = false)
    (hash : lexer.currentChar inp = '#')
    (found : directiveAt inp lexer.position = some directive) (counting : Counting inp lexer) :
    Counting inp (lexer.consumed inp directive) := by
  intro more
  obtain ⟨le, inline, stops⟩ := directiveAt_inline hash found
  have within : lexer.position < inp.sourceLength :=
    Nat.lt_trans (directiveAt_next found).1 more
  have newline : directive.lineEnd < inp.sourceLength ∧ inp.charAt directive.lineEnd = '\n' := by
    by_contra last
    have ended : directive.lineEnd < inp.sourceLength := by
      have := more
      simp only [Lexer.consumed, Lexer.LineDirective.next, if_neg last] at this
      exact this
    exact last ⟨ended, stops ended⟩
  have next : directive.next inp = directive.lineEnd + 1 := if_pos newline
  have before := newlinesBefore_inline le inline
  have here := (counting within).line
  constructor
  · show (if inp.renumberOnDirective then directive.number else lexer.line + 1) =
      1 + inp.newlinesBefore (directive.next inp)
    rw [kept, next, newlinesBefore_succ, if_pos newline.2, before, here]
    rfl
  · show 1 = 1 + inp.bytesOnLine (directive.next inp)
    rw [next, Input.bytesOnLine, if_pos newline.2]

end Directives

/-! ## Tokens -/

def TokenKind.quotesBefore : TokenKind → Nat
  | .stringLit | .charLit => 1
  | .fString => 2
  | _ => 0

/-- The token stands at the line and the column of the offset at which its lexeme begins. Its fields
have 32 bits. -/
def Positioned (inp : Input) (token : Token) : Prop :=
  ∃ offset, offset < inp.sourceLength ∧ token.start = (offset + token.kind.quotesBefore) % 2 ^ 32 ∧
    token.line = (1 + inp.newlinesBefore offset) % 2 ^ 32 ∧
    token.column = (1 + inp.bytesOnLine offset) % 2 ^ 32

def Token.HasSpan (token : Token) : Prop := token.length ≠ 0 ∨ token.suffixLength ≠ 0

section Tokens

variable {inp : Input} {lexer next : Lexer} {events : List Event} {tokens : List Token}

theorem quotesBefore_of_plain {kind : TokenKind} (plain : kind.isPlain = true) :
    kind.quotesBefore = 0 := by
  cases kind <;> first | rfl | cases plain

theorem Lexeme.positioned {c d : Cursor} {token : Token} (read : Lexeme inp c token d)
    (at_ : AtPosition inp c) (more : c.position < inp.sourceLength) : Positioned inp token := by
  cases read with
  | @plain d kind textEnd plain moved begun le short =>
    refine ⟨c.position, more, ?_, ?_, ?_⟩
    · rw [Token.withSuffix, quotesBefore_of_plain plain]
      rfl
    · rw [← at_.line]
      rfl
    · rw [← at_.column]
      rfl
  | @quoted scanned kind terminator literal opened ended =>
    refine ⟨c.position, more, ?_, ?_, ?_⟩
    · rcases literal with ⟨rfl, -⟩ | ⟨rfl, -⟩ <;> rfl
    · rw [← at_.line]
      rfl
    · rw [← at_.column]
      rfl
  | fstring letter opened ended =>
    refine ⟨c.position, more, rfl, ?_, ?_⟩
    · rw [← at_.line]
      rfl
    · rw [← at_.column]
      rfl
  | @label d opened moved named =>
    have position := advanceChar_position more
    have name := at_.advanceChar
    refine ⟨c.position + 1, ?_, rfl, ?_, ?_⟩
    · have within := moved.le_length (advanceChar_le (Nat.le_of_lt more))
      omega
    · rw [← position, ← name.line]
      rfl
    · rw [← position, ← name.column]
      rfl

theorem usizeSub_self {position : Nat} (small : position < 2 ^ 64) :
    usizeSub position position = 0 := by
  rw [usizeSub, Nat.add_sub_cancel' (Nat.le_of_lt small), Nat.mod_self]

theorem of_hasSpan {kind : TokenKind} {c : Cursor} {position : Nat} (small : position < 2 ^ 64) :
    ¬ (Token.of kind c position position).HasSpan := by
  simp [Token.HasSpan, Token.of, Token.withSuffix, usizeSub_self small]

/-- The tokens that were delivered stand at their positions, and those that are pending have no
span. -/
structure Placed (inp : Input) (lexer : Lexer) (tokens : List Token) : Prop where
  within : lexer.position ≤ inp.sourceLength
  counting : Counting inp lexer
  delivered : ∀ token ∈ tokens, token.HasSpan → Positioned inp token
  pending : ∀ token ∈ lexer.pendingTokens, ¬ token.HasSpan

theorem Counting.reaches {d : Cursor} (counting : Counting inp lexer)
    (moved : Reaches inp lexer.toCursor d) (more : d.position < inp.sourceLength) :
    AtPosition inp d :=
  (counting (Nat.lt_of_le_of_lt moved.position_le more)).reaches moved

theorem Trivium.counting (kept : inp.renumberOnDirective = false)
    (passed : Trivium inp lexer events next) (counting : Counting inp lexer) :
      Counting inp next := by
  cases passed with
  | blank more => exact counting.reaches .advanceChar
  | lineStart newline => exact counting.reaches .advanceChar
  | comment moved => exact counting.reaches moved
  | attempt =>
    intro more
    obtain ⟨line, column⟩ := counting more
    exact ⟨line, column⟩
  | directive hash start found => exact consumed_counting kept hash found counting

theorem Placed.lexeme {d : Cursor} {token : Token} (placed : Placed inp lexer tokens)
    (read : Lexeme inp lexer.toCursor token d) :
    ∀ delivered ∈ tokens ++ [token], delivered.HasSpan → Positioned inp delivered := by
  intro delivered mem span
  rcases mem_append.1 mem with before | last
  · exact placed.delivered delivered before span
  · have more : lexer.position < inp.sourceLength :=
      Nat.lt_of_lt_of_le read.lt (read.moved.le_length placed.within)
    rw [mem_singleton.1 last]
    exact read.positioned (placed.counting more) more

theorem Placed.move (size : inp.sourceLength < 2 ^ 64) (kept : inp.renumberOnDirective = false)
    (placed : Placed inp lexer tokens) (move : Move inp lexer events next) :
    Placed inp next (tokens ++ tokensOf events) := by
  have within := move.le_length placed.within
  have small : lexer.position < 2 ^ 64 := Nat.lt_of_le_of_lt placed.within size
  have silent (token : Token) (spanless : ¬ token.HasSpan) :
      ∀ delivered ∈ tokens ++ [token], delivered.HasSpan → Positioned inp delivered := by
    intro delivered mem span
    rcases mem_append.1 mem with before | last
    · exact placed.delivered delivered before span
    · rw [mem_singleton.1 last] at span
      exact absurd span spanless
  have waiting (token : Token) (spanless : ¬ token.HasSpan) :
      ∀ pending ∈ lexer.pendingTokens ++ [token], ¬ pending.HasSpan := by
    intro pending mem
    rcases mem_append.1 mem with before | last
    · exact placed.pending pending before
    · rwa [mem_singleton.1 last]
  have same : tokensOf [] = [] := rfl
  cases move with
  | trivium idle passed =>
    have none_ : ∀ token ∈ tokens ++ tokensOf events, token.HasSpan → Positioned inp token := by
      rw [(Trivia.of_trivium passed).silent.tokens, append_nil]
      exact placed.delivered
    have pending : ∀ token ∈ next.pendingTokens, ¬ token.HasSpan := by
      rw [passed.pendingTokens_eq]
      exact placed.pending
    exact ⟨within, passed.counting kept placed.counting, none_, pending⟩
  | settle =>
    rw [same, append_nil]
    exact ⟨within, placed.counting, placed.delivered, placed.pending⟩
  | block contexts pending =>
    rw [same, append_nil]
    exact ⟨within, placed.counting, placed.delivered, placed.pending⟩
  | newline idle newline =>
    exact ⟨within, placed.counting.reaches .advanceChar, silent _ (of_hasSpan small),
      placed.pending⟩
  | lexeme idle read =>
    exact ⟨within, placed.counting.reaches read.moved, placed.lexeme read, placed.pending⟩
  | openGroup idle read =>
    refine ⟨within, fun more => ?_, placed.lexeme read, placed.pending⟩
    obtain ⟨line, column⟩ := placed.counting.reaches read.moved more
    exact ⟨line, column⟩
  | closeGroup idle read =>
    exact ⟨within, placed.counting.reaches read.moved, placed.lexeme read, placed.pending⟩
  | raise dedents more higher =>
    refine ⟨within, placed.counting, ?_, waiting _ (of_hasSpan small)⟩
    simpa [tokensOf] using placed.delivered
  | dedent dedents block =>
    refine ⟨within, placed.counting, ?_, waiting _ (of_hasSpan small)⟩
    simpa [tokensOf] using placed.delivered
  | @deliver token rest pending =>
    have all := placed.pending
    rw [pending] at all
    exact ⟨within, placed.counting, silent token (all token mem_cons_self),
      fun other mem => all other (mem_cons_of_mem _ mem)⟩
  | lastDedent idle last block =>
    exact ⟨within, placed.counting, silent _ (of_hasSpan small), placed.pending⟩
  | eof idle last closed =>
    exact ⟨within, placed.counting, silent _ (of_hasSpan small), placed.pending⟩

theorem Placed.moves (size : inp.sourceLength < 2 ^ 64) (kept : inp.renumberOnDirective = false)
    (placed : Placed inp lexer tokens) (moves : Moves inp lexer events next) :
    Placed inp next (tokens ++ tokensOf events) := by
  induction moves generalizing tokens with
  | refl => simpa [tokensOf] using placed
  | head move moves ih =>
    have rest := ih (placed.move size kept move)
    rwa [tokensOf_append, ← append_assoc]

theorem Placed.new {filename : Bytes} : Placed inp (Lexer.new filename) [] where
  within := Nat.zero_le _
  counting _ := ⟨rfl, rfl⟩
  delivered := by simp
  pending := by simp [Lexer.new]

end Tokens

/-- The tokens of an expanded unit stand at the lines and the columns at which their lexemes
begin. -/
theorem frontendTokenizeExpandedUnit_positions (filename source : Bytes) (sourceLength : Nat)
    (size : sourceLength < 2 ^ 64) (tokens : List Token)
    (lexed : frontendTokenizeExpandedUnit filename source sourceLength = some tokens) :
    ∀ token ∈ tokens, token.HasSpan → Positioned ⟨source, sourceLength, false⟩ token := by
  have ongoing : (tokenizeFrom ⟨source, sourceLength, false⟩ (Lexer.new filename)).Ongoing
      ⟨source, sourceLength, false⟩ (Lexer.new filename) :=
        tokenizeFrom_ongoing new_started (Nat.zero_le _)
  obtain ⟨events, moves, delivered⟩ := ongoing.moved
  have placed := Placed.new.moves size rfl moves
  rw [nil_append, delivered, tokens_of_result lexed] at placed
  exact placed.delivered

/-- A name behind a directive and a block comment over two lines. -/
theorem frontendTokenizeExpandedUnit_positions_name :
    Positioned ⟨ascii "#line 7 f\n\"\"\"\n\"\"\" a", 19, false⟩
      (.of .ident ⟨18, 3, 5, false⟩ 18 19) :=
  frontendTokenizeExpandedUnit_positions [] (ascii "#line 7 f\n\"\"\"\n\"\"\" a") 19 (by decide)
    [.of .ident ⟨18, 3, 5, false⟩ 18 19, .of .eof ⟨19, 3, 6, false⟩ 19 19] (by decide +kernel) _
    (.head _) (.inl (by decide))

/-- A label stands at its name, not at the quote at which its lexeme begins. -/
theorem label_behind_its_quote :
    frontendTokenizeExpandedUnit [] (ascii "'ab") 3 =
        some [Token.of .label ⟨1, 1, 2, false⟩ 1 3, Token.of .eof ⟨3, 1, 4, false⟩ 3 3] ∧
      Input.charAt ⟨ascii "'ab", 3, false⟩ 0 = '\'' ∧
      (Token.of .label ⟨1, 1, 2, false⟩ 1 3).column ≠
        1 + Input.bytesOnLine ⟨ascii "'ab", 3, false⟩ 0 := by
  decide +kernel

end Elisa.Lexer
