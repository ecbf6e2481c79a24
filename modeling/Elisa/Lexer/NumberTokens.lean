import Elisa.Lexer.NumberTexts
import Elisa.Lexer.Spans

/-!
# The integer literals of a stream

Only the reader of numbers reads an integer literal, so the literals of a stream have the texts that
its machine can stop with (`Lexer/NumberTexts`).
-/

namespace Elisa.Lexer

open Elisa.Lib Cursor

variable {inp : Input} {lexer next : Lexer} {events : List Event}

/-! ## Readers -/

def TokenKind.isInteger (kind : TokenKind) : Bool := kind == .intLit || kind == .hexLit

def StartsNumber (inp : Input) (c : Cursor) : Prop :=
  isDigit (c.currentChar inp) = true ∨ (c.currentChar inp = '.' ∧ isDigit (c.peek inp 1) = true)

/-- A token that is no integer literal unless the reader of numbers has read it. -/
def Numeric (inp : Input) (token : Token) : Prop :=
  token.kind.isInteger = true → ∃ c, StartsNumber inp c ∧ token = (readNumber inp c).1

theorem Numeric.of_other {token : Token} (other : token.kind.isInteger = false) :
    Numeric inp token := by
  intro integer
  rw [other] at integer
  cases integer

theorem frontendLookupKeyword_other (text : Bytes) :
    (frontendLookupKeyword text).isInteger = false := by
  have all : ∀ keyword ∈ keywords, keyword.2.isInteger = false := by decide
  unfold frontendLookupKeyword
  split
  next keyword found => exact all keyword (List.mem_of_find?_eq_some found)
  next => rfl

theorem readChar_other : (lexer.readChar inp).1.kind.isInteger = false := by
  unfold Lexer.readChar
  simp only
  split
  · rfl
  · rfl

section Operators

variable {c : Cursor}

theorem eqSuffixToken_other {withEq withoutEq : TokenKind} (plain : withEq.isInteger = false)
    (other : withoutEq.isInteger = false) :
    (lexer.eqSuffixToken inp withEq withoutEq c).1.kind.isInteger = false := by
  unfold Lexer.eqSuffixToken
  simp only
  split
  · exact plain
  · exact other

theorem arrowOrEqToken_other {pointed withEq withoutEq : TokenKind}
    (head : pointed.isInteger = false) (plain : withEq.isInteger = false)
    (other : withoutEq.isInteger = false) :
    (lexer.arrowOrEqToken inp pointed withEq withoutEq c).1.kind.isInteger = false := by
  unfold Lexer.arrowOrEqToken
  simp only
  split
  · exact head
  · exact eqSuffixToken_other plain other

theorem dotToken_other : (lexer.dotToken inp c).1.kind.isInteger = false := by
  unfold Lexer.dotToken
  simp only
  split_ifs
  · rfl
  · rfl
  · rfl
  · rfl
  · exact eqSuffixToken_other rfl rfl

theorem colonToken_other : (lexer.colonToken inp c).1.kind.isInteger = false := by
  unfold Lexer.colonToken Lexer.tokenTo Token.of
  simp only [Token.withSuffix]
  split <;> rfl

theorem readOperatorToken_other : (lexer.readOperatorToken inp).1.kind.isInteger = false := by
  unfold Lexer.readOperatorToken
  simp only
  split
  case h_1 =>
    split
    · rfl
    · refine eqSuffixToken_other ?_ ?_ <;> split <;> rfl
  case h_2 => refine eqSuffixToken_other ?_ ?_ <;> split <;> rfl
  case h_3 => exact arrowOrEqToken_other rfl rfl rfl
  case h_6 => exact arrowOrEqToken_other rfl rfl rfl
  case h_11 => exact arrowOrEqToken_other rfl rfl rfl
  case h_13 => exact dotToken_other
  case h_14 => exact colonToken_other
  all_goals first
    | rfl
    | exact eqSuffixToken_other rfl rfl

end Operators

/-! ## Passes -/

def NumericPass (inp : Input) (passed : Lexer.Passed) : Prop :=
  ∀ token, passed.1 = some token → Numeric inp token

theorem NumericPass.nothing {after : Lexer} : NumericPass inp (none, after) := by
  intro token delivered
  cases delivered

theorem NumericPass.deliver {read : Token × Lexer} (numeric : Numeric inp read.1) :
    NumericPass inp (Lexer.deliver read) := by
  intro token delivered
  rwa [← Option.some.inj delivered]

theorem newline_numeric : NumericPass inp (lexer.newline inp) := by
  intro token delivered
  unfold Lexer.newline at delivered
  simp only at delivered
  split at delivered
  · cases delivered
  split at delivered
  · cases delivered
  · rw [← Option.some.inj delivered]
    exact .of_other rfl

theorem dispatch_numeric : NumericPass inp (lexer.dispatch inp) := by
  unfold Lexer.dispatch
  simp only
  split
  next number => exact .deliver fun _ => ⟨lexer.toCursor, number, rfl⟩
  split
  next => exact newline_numeric
  split
  next => exact .nothing
  split
  next =>
    split
    next => exact .nothing
    next => exact .deliver (.of_other rfl)
  split
  next => exact .deliver (.of_other readChar_other)
  split
  next => exact .deliver (.of_other rfl)
  split
  next => exact .deliver (.of_other (frontendLookupKeyword_other _))
  next => exact .deliver (.of_other readOperatorToken_other)

theorem scan_numeric : NumericPass inp (lexer.scan inp) := by
  unfold Lexer.scan
  simp only
  split
  next =>
    split
    next => exact .deliver (.of_other rfl)
    next => exact .deliver (.of_other rfl)
  split
  next => exact dispatch_numeric
  next => exact dispatch_numeric

def PendingPlain (lexer : Lexer) : Prop :=
  ∀ token ∈ lexer.pendingTokens, token.kind.isInteger = false

section Deliveries

variable (plain : PendingPlain lexer)
include plain

theorem PendingPlain.move (move : Move inp lexer events next) : PendingPlain next := by
  have emitted {kind : TokenKind} {lexer' : Lexer} (other : kind.isInteger = false)
      (same : lexer'.pendingTokens = lexer.pendingTokens) :
      PendingPlain (lexer'.emitPendingToken kind) := by
    intro token mem
    rcases List.mem_append.mp mem with before | last
    · exact plain token (same ▸ before)
    · rw [List.mem_singleton.mp last]
      exact other
  cases move with
  | trivium idle passed => exact fun token mem => plain token (passed.pendingTokens_eq ▸ mem)
  | raise => exact emitted rfl rfl
  | dedent => exact emitted rfl rfl
  | deliver pending => exact fun token mem => plain token (pending ▸ List.mem_cons_of_mem _ mem)
  | _ => exact plain

theorem PendingPlain.moves (moves : Moves inp lexer events next) : PendingPlain next := by
  induction moves with
  | refl => exact plain
  | head move moves ih => exact ih (plain.move move)

theorem pendingOr_numeric {after : Lexer → Lexer.Passed}
    (numeric : lexer.pendingTokens = [] → NumericPass inp (after lexer)) :
    NumericPass inp (lexer.pendingOr after) := by
  unfold Lexer.pendingOr
  split
  next first rest pending =>
    intro token delivered
    obtain rfl := Option.some.inj delivered
    exact .of_other (plain _ (pending ▸ List.mem_cons_self))
  next idle => exact numeric idle

theorem lineStarted_numeric (idle : lexer.pendingTokens = []) (start : StartsLine inp lexer) :
    NumericPass inp (lexer.lineStarted inp) := by
  unfold Lexer.lineStarted
  split
  next =>
    obtain ⟨events, moves, -⟩ := handleIndentation_moves idle start
    have trimmed : PendingPlain (lexer.handleIndentation inp).trimFinishedGroupedBlockContexts :=
      plain.moves
        (moves.append (.of_move (.block _ (lexer.handleIndentation inp).pendingGroupedBlock)))
    exact pendingOr_numeric trimmed fun _ => scan_numeric
  next => exact scan_numeric

theorem pass_numeric (started : lexer.LineStarted inp) : NumericPass inp (lexer.pass inp) := by
  unfold Lexer.pass
  refine pendingOr_numeric plain fun idle => ?_
  obtain ⟨⟨events, trivia⟩, started⟩ := consumeLineDirectivesAtLineStart_trivia started
  have plain := plain.moves (trivia.moves idle)
  simp only
  split
  next flag =>
    exact lineStarted_numeric plain (trivia.pendingTokens_eq.trans idle) (started flag)
  next => exact scan_numeric

/-! ## Streams -/

theorem nextToken_numeric (started : lexer.LineStarted inp) :
    NumericPass inp (lexer.nextToken inp) ∧ PendingPlain (lexer.nextToken inp).2 ∧
      (lexer.nextToken inp).2.LineStarted inp := by
  refine runSteps_keeps (fun passed => NumericPass inp passed ∧ PendingPlain passed.2 ∧
    passed.2.LineStarted inp) (fun before after kept step => ?_) ⟨.nothing, plain, started⟩
  obtain ⟨-, plain, started⟩ := kept
  obtain ⟨-, rfl⟩ := nextTokenStep_some step
  obtain ⟨⟨rest, moves, -⟩, -⟩ := pass_passing started
  exact ⟨pass_numeric plain started, plain.moves moves, pass_started started⟩

theorem tokenizeFrom_numeric (started : lexer.LineStarted inp) :
    ∀ token ∈ (tokenizeFrom inp lexer).tokens, Numeric inp token := by
  refine (runSteps_keeps (fun s : Tokenizing =>
    (∀ token ∈ s.tokens, Numeric inp token) ∧ PendingPlain s.lexer ∧ s.lexer.LineStarted inp)
    (fun s after kept step => ?_) ⟨fun _ mem => (List.not_mem_nil mem).elim, plain, started⟩).1
  unfold tokenizeStep at step
  split at step
  next => cases step
  have numeric := nextToken_numeric kept.2.1 kept.2.2
  split at step
  next token following delivered =>
    rw [delivered] at numeric
    obtain rfl := Option.some.inj step
    refine ⟨fun found mem => ?_, numeric.2⟩
    rcases List.mem_append.mp mem with before | last
    · exact kept.1 found before
    · rw [List.mem_singleton.mp last]
      exact numeric.1 token rfl
  next => cases step

end Deliveries

theorem frontendTokenize_numeric {filename source : Bytes} {sourceLength : Nat}
    {tokens : List Token}
    (lexed : frontendTokenizeWithLength filename source sourceLength = some tokens ∨
      frontendTokenizeExpandedUnit filename source sourceLength = some tokens) :
    ∃ renumber, ∀ token ∈ tokens, Numeric ⟨source, sourceLength, renumber⟩ token := by
  have plain : PendingPlain (Lexer.new filename) := fun _ mem => (List.not_mem_nil mem).elim
  rcases lexed with unit | expanded
  · exact ⟨true, tokens_of_result unit ▸ tokenizeFrom_numeric plain new_started⟩
  · exact ⟨false, tokens_of_result expanded ▸ tokenizeFrom_numeric plain new_started⟩

/-! ## Their texts -/

section Texts

variable {c : Cursor} (starts : StartsNumber inp c)
include starts

theorem StartsNumber.lt : c.position < inp.sourceLength := by
  refine Input.lt_of_charAt_ne fun null => ?_
  rcases starts with digit | dot
  · rw [currentChar, null] at digit
    exact absurd digit (by decide)
  · rw [currentChar, null] at dot
    exact absurd dot.1 (by decide)

theorem textOrEmpty_readNumber (small : inp.sourceLength < 2 ^ 32) :
    (readNumber inp c).1.textOrEmpty inp.source inp.sourceLength =
      inp.view c.position (runNumber inp c).position := by
  have begun := lt_runNumber starts
  have within := (readNumber_lexeme starts).moved.le_length (Nat.le_of_lt starts.lt)
  have suffix : (runNumber inp c).position ≤ (readNumber inp c).2.position ∧
      (readNumber inp c).2.position - (runNumber inp c).position < 2 ^ 16 := by
    simp only [readNumber]
    cases found : readTypeSuffixAt inp (runNumber inp c).position with
    | none => simp
    | some text =>
      obtain ⟨-, -, short⟩ := readTypeSuffixAt_skip (c := (runNumber inp c).toCursor) found
      simp only [skip_position]
      omega
  obtain ⟨start, length, -⟩ := @withSuffix_fields c (readNumber inp c).1.kind c.position
    (runNumber inp c).position (readNumber inp c).2.position (by omega)
      (Nat.le_of_lt begun) suffix.1
    suffix.2
  have fields : (readNumber inp c).1 = Token.withSuffix (readNumber inp c).1.kind c c.position
    (runNumber inp c).position (readNumber inp c).2.position := rfl
  rw [fields, Token.textOrEmpty, start, length, Nat.add_sub_cancel' (Nat.le_of_lt begun)]
  rfl

theorem hexText_of_readNumber (small : inp.sourceLength < 2 ^ 32)
    (hex : (readNumber inp c).1.kind = .hexLit) :
    HexText ((readNumber inp c).1.textOrEmpty inp.source inp.sourceLength) := by
  have within := runNumber_moves.le_length (Nat.le_of_lt starts.lt)
  have kind : (runNumber inp c).numberKind = .hexLit := by
    by_contra other
    revert hex
    unfold readNumber
    simp only [Token.withSuffix, if_neg other]
    split <;> exact TokenKind.noConfusion
  rw [textOrEmpty_readNumber starts small]
  cases runNumber_stopped starts.lt with
  | decimal decimal => rw [kind] at decimal; cases decimal
  | float float => rw [kind] at float; cases float
  | hex _ spelled run last =>
    exact hexText_view within (run.present (fun _ => id) spelled.present) spelled run last

end Texts

end Elisa.Lexer
