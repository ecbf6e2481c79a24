import Elisa.Lexer.StreamEnd

/-!
# Indentation

The open blocks are a stack of columns (`lexer_core.elisa`).  Every `indent` token pushes one and
every `dedent` token pops one, but the tokens of a line wait until the passes take them.  So the
stack is as high as the `indent` tokens, delivered or pending, are more than the `dedent` tokens
(`Layout.height`), and the delivered tokens never have more `dedent` tokens than `indent` tokens.
-/

namespace Elisa.Lexer

open Elisa.Lib Cursor List

variable {inp : Input} {lexer next : Lexer} {events : List Event} {tokens : List Token}

/-! ## Counting -/

def indents (tokens : List Token) : Nat := tokens.countP fun token => token.kind == .indent

def dedents (tokens : List Token) : Nat := tokens.countP fun token => token.kind == .dedent

@[simp] theorem indents_append (first second : List Token) :
    indents (first ++ second) = indents first + indents second := countP_append

@[simp] theorem dedents_append (first second : List Token) :
    dedents (first ++ second) = dedents first + dedents second := countP_append

@[simp] theorem indents_nil : indents [] = 0 := rfl

@[simp] theorem dedents_nil : dedents [] = 0 := rfl

theorem indents_singleton (token : Token) :
    indents [token] = if token.kind = .indent then 1 else 0 := by
  simp [indents, countP_cons]

theorem dedents_singleton (token : Token) :
    dedents [token] = if token.kind = .dedent then 1 else 0 := by
  simp [dedents, countP_cons]

/-- Every prefix has at least as many `indent` tokens as `dedent` tokens. -/
def Nested (tokens : List Token) : Prop :=
  ∀ before, before <+: tokens → dedents before ≤ indents before

theorem Nested.nil : Nested [] := by
  intro before shorter
  rw [prefix_nil.1 shorter]
  exact Nat.le_refl 0

theorem Nested.concat {token : Token} (nested : Nested tokens)
    (le : dedents (tokens ++ [token]) ≤ indents (tokens ++ [token])) :
    Nested (tokens ++ [token]) := by
  intro before shorter
  rcases prefix_concat_iff.1 shorter with rfl | inner
  · exact le
  · exact nested before inner

/-! ## The stack -/

/-- The stack of columns and the tokens that were delivered. -/
structure Layout (lexer : Lexer) (tokens : List Token) : Prop where
  increasing : lexer.indentationStack.Pairwise (· > ·)
  positive : ∀ column ∈ lexer.indentationStack, 0 < column
  height : lexer.indentationStack.length + dedents (tokens ++ lexer.pendingTokens) =
    indents (tokens ++ lexer.pendingTokens)
  pending : indents lexer.pendingTokens ≤ lexer.indentationStack.length
  nested : Nested tokens

/-- The stack and the pending tokens are all of the lexer that counts. -/
theorem Layout.congr (layout : Layout lexer tokens)
    (stack : next.indentationStack = lexer.indentationStack)
    (pending : next.pendingTokens = lexer.pendingTokens) : Layout next tokens := by
  obtain ⟨increasing, positive, height, le, nested⟩ := layout
  constructor
  · rwa [stack]
  · rwa [stack]
  · rwa [stack, pending]
  · rwa [stack, pending]
  · exact nested

theorem Layout.read {token : Token} (layout : Layout lexer tokens)
    (idle : lexer.pendingTokens = []) (stack : next.indentationStack = lexer.indentationStack)
    (pending : next.pendingTokens = lexer.pendingTokens)
    (other : token.kind ≠ .indent ∧ token.kind ≠ .dedent) : Layout next (tokens ++ [token]) := by
  obtain ⟨increasing, positive, height, le, nested⟩ := layout.congr stack pending
  have up : indents [token] = 0 := by rw [indents_singleton, if_neg other.1]
  have down : dedents [token] = 0 := by rw [dedents_singleton, if_neg other.2]
  rw [pending, idle] at height le
  simp only [append_nil] at height
  refine ⟨increasing, positive, ?_, ?_, nested.concat ?_⟩
  · rw [pending, idle]
    simp only [append_nil, indents_append, dedents_append, up, down]
    omega
  · rw [pending, idle]
    exact Nat.zero_le _
  · simp only [indents_append, dedents_append, up, down]
    omega

theorem le_indentationTop (increasing : lexer.indentationStack.Pairwise (· > ·)) :
    ∀ column ∈ lexer.indentationStack, column ≤ lexer.indentationTop := by
  intro column mem
  unfold Lexer.indentationTop
  cases stack : lexer.indentationStack with
  | nil =>
    rw [stack] at mem
    exact absurd mem (by simp)
  | cons top rest =>
    rw [stack] at mem increasing
    rcases mem_cons.1 mem with rfl | below
    · exact Nat.le_refl _
    · exact Nat.le_of_lt ((pairwise_cons.1 increasing).1 column below)

theorem indents_of_dedents {waiting : List Token} (all : ∀ token ∈ waiting, token.kind = .dedent) :
    indents waiting = 0 := by
  refine countP_eq_zero.2 fun token mem => ?_
  rw [all token mem]
  decide

theorem Lexeme.not_layout {c d : Cursor} {token : Token} (read : Lexeme inp c token d) :
    token.kind ≠ .indent ∧ token.kind ≠ .dedent := by
  cases read with
  | @plain d kind textEnd plain =>
    constructor
    · rintro (rfl : kind = .indent)
      exact absurd plain (by decide)
    · rintro (rfl : kind = .dedent)
      exact absurd plain (by decide)
  | quoted literal =>
    rcases literal with ⟨rfl, -⟩ | ⟨rfl, -⟩ <;> exact ⟨TokenKind.noConfusion, TokenKind.noConfusion⟩
  | fstring => exact ⟨TokenKind.noConfusion, TokenKind.noConfusion⟩
  | label => exact ⟨TokenKind.noConfusion, TokenKind.noConfusion⟩

theorem Layout.tail (layout : Layout lexer tokens) :
    lexer.indentationStack.tail.Pairwise (· > ·) ∧
      ∀ column ∈ lexer.indentationStack.tail, 0 < column :=
  ⟨layout.increasing.tail, fun column mem => layout.positive column (mem_of_mem_tail mem)⟩

theorem Layout.move (layout : Layout lexer tokens) (move : Move inp lexer events next) :
    Layout next (tokens ++ tokensOf events) := by
  have silent : next.indentationStack = lexer.indentationStack →
      next.pendingTokens = lexer.pendingTokens → tokensOf events = [] →
      Layout next (tokens ++ tokensOf events) := by
    intro stack pending none_
    rw [none_, append_nil]
    exact layout.congr stack pending
  cases move with
  | trivium idle passed =>
    have stack : next.indentationStack = lexer.indentationStack := by cases passed <;> rfl
    exact silent stack passed.pendingTokens_eq (Trivia.of_trivium passed).silent.tokens
  | settle => exact silent rfl rfl rfl
  | block => exact silent rfl rfl rfl
  | newline idle => exact layout.read idle rfl rfl ⟨TokenKind.noConfusion, TokenKind.noConfusion⟩
  | lexeme idle read => exact layout.read idle rfl rfl read.not_layout
  | openGroup idle read => exact layout.read idle rfl rfl read.not_layout
  | closeGroup idle read => exact layout.read idle rfl rfl read.not_layout
  | @raise indent closing more higher =>
    have top := le_indentationTop layout.increasing
    have none_ := indents_of_dedents closing
    have height := layout.height
    have one : indents [Token.of .indent lexer.toCursor lexer.position lexer.position] = 1 := rfl
    have zero : dedents [Token.of .indent lexer.toCursor lexer.position lexer.position] = 0 := rfl
    show Layout (lexer.raiseIndentation indent) (tokens ++ [])
    rw [append_nil]
    refine ⟨pairwise_cons.2 ⟨fun column mem => ?_, layout.increasing⟩, fun column mem => ?_, ?_, ?_,
      layout.nested⟩
    · exact Nat.lt_of_le_of_lt (top column mem) higher
    · rcases mem_cons.1 mem with rfl | below
      · exact Nat.lt_of_le_of_lt (Nat.zero_le _) higher
      · exact layout.positive column below
    · show (indent :: lexer.indentationStack).length + _ = _
      simp only [raiseIndentation_pending, indents_append, dedents_append, length_cons, one,
        zero] at height ⊢
      omega
    · show _ ≤ (indent :: lexer.indentationStack).length
      simp only [raiseIndentation_pending, indents_append, none_, one, length_cons]
      omega
  | dedent closing block =>
    have none_ := indents_of_dedents closing
    have height := layout.height
    have taller := length_pos_of_ne_nil block
    have one : dedents [Token.of .dedent lexer.toCursor lexer.position lexer.position] = 1 := rfl
    have zero : indents [Token.of .dedent lexer.toCursor lexer.position lexer.position] = 0 := rfl
    have pushed : (lexer.popIndent.emitPendingToken .dedent).pendingTokens =
        lexer.pendingTokens ++ [Token.of .dedent lexer.toCursor lexer.position lexer.position] :=
          rfl
    have popped : (lexer.popIndent.emitPendingToken .dedent).indentationStack =
        lexer.indentationStack.tail := rfl
    show Layout _ (tokens ++ [])
    rw [append_nil]
    refine ⟨layout.tail.1, layout.tail.2, ?_, ?_, layout.nested⟩
    · simp only [pushed, popped, indents_append, dedents_append, one, zero, length_tail]
        at height ⊢
      omega
    · rw [pushed, indents_append, none_, zero]
      exact Nat.zero_le _
  | @deliver token rest waiting =>
    obtain ⟨increasing, positive, height, le, nested⟩ := layout
    have split : lexer.pendingTokens = [token] ++ rest := waiting
    show Layout { lexer with pendingTokens := rest } (tokens ++ [token])
    rw [split] at height le
    simp only [indents_append, dedents_append] at height le
    refine ⟨increasing, positive, ?_, ?_, nested.concat ?_⟩
    · show lexer.indentationStack.length + _ = _
      simp only [indents_append, dedents_append]
      omega
    · show indents rest ≤ lexer.indentationStack.length
      omega
    · simp only [indents_append, dedents_append]
      omega
  | lastDedent idle last block =>
    have height := layout.height
    have taller := length_pos_of_ne_nil block
    have one : dedents [Token.of .dedent lexer.toCursor lexer.position lexer.position] = 1 := rfl
    have zero : indents [Token.of .dedent lexer.toCursor lexer.position lexer.position] = 0 := rfl
    have popped : lexer.popIndent.indentationStack = lexer.indentationStack.tail := rfl
    have waiting : lexer.popIndent.pendingTokens = [] := idle
    show Layout lexer.popIndent
      (tokens ++ [Token.of .dedent lexer.toCursor lexer.position lexer.position])
    rw [idle, append_nil] at height
    refine ⟨layout.tail.1, layout.tail.2, ?_, ?_, layout.nested.concat ?_⟩
    · simp only [waiting, popped, indents_append, dedents_append, one, zero, length_tail,
        append_nil]
      omega
    · rw [waiting]
      exact Nat.zero_le _
    · simp only [indents_append, dedents_append, one, zero]
      omega
  | eof idle => exact layout.read idle rfl rfl ⟨TokenKind.noConfusion, TokenKind.noConfusion⟩

theorem Layout.moves (layout : Layout lexer tokens) (moves : Moves inp lexer events next) :
    Layout next (tokens ++ tokensOf events) := by
  induction moves generalizing tokens with
  | refl => simpa [tokensOf] using layout
  | head move moves ih =>
    have rest := ih (layout.move move)
    rwa [tokensOf_append, ← append_assoc]

theorem Layout.new {filename : Bytes} : Layout (Lexer.new filename) [] :=
  ⟨.nil, by simp [Lexer.new], rfl, Nat.le_refl _, .nil⟩

/-! ## Runs -/

section Runs

variable {filename : Bytes}

theorem Tokenizing.Ongoing.layout {s : Tokenizing} (ongoing : s.Ongoing inp (Lexer.new filename)) :
    Layout s.lexer s.tokens := by
  obtain ⟨events, moves, tokens⟩ := ongoing.moved
  have := Layout.new.moves moves
  rwa [nil_append, tokens] at this

/-- In the stream of a unit no prefix has more `dedent` than `indent` tokens, as many of one as of
the other are in it, and no block is left open. -/
theorem tokenizeFrom_balanced : Nested (tokenizeFrom inp (Lexer.new filename)).tokens ∧
    indents (tokenizeFrom inp (Lexer.new filename)).tokens =
      dedents (tokenizeFrom inp (Lexer.new filename)).tokens ∧
    (tokenizeFrom inp (Lexer.new filename)).lexer.indentationStack = [] := by
  have finishes : Finishes inp (Lexer.new filename) := new_finishes (Nat.zero_le _)
  have ended := (tokenizeFrom_endsAt new_started (Nat.zero_le _) rfl finishes).2
  have ongoing : (tokenizeFrom inp (Lexer.new filename)).Ongoing inp (Lexer.new filename) :=
    tokenizeFrom_ongoing new_started (Nat.zero_le _)
  have layout := ongoing.layout
  have height := layout.height
  rw [ended.closed, ended.idle, append_nil] at height
  simp only [length_nil, Nat.zero_add] at height
  exact ⟨layout.nested, height.symm, ended.closed⟩

end Runs

/-- At every point of tokenizing a unit the columns of the stack increase from a positive one, and
there are as many as `indent` tokens, delivered or pending, less the `dedent` tokens.  The stream
that comes of it is balanced, and the stack is empty then. -/
theorem frontendTokenize_layout (filename source : Bytes) (sourceLength : Nat) :
    (∀ renumber calls passes,
      let s := runSteps (tokenizeStep ⟨source, sourceLength, renumber⟩) calls
        { lexer := Lexer.new filename, tokens := [] }
      let passed := runSteps (Lexer.nextTokenStep ⟨source, sourceLength, renumber⟩) passes
        (none, s.lexer)
      Layout passed.2 (s.tokens ++ passed.1.toList)) ∧
    (∀ renumber, (tokenizeFrom ⟨source, sourceLength, renumber⟩
      (Lexer.new filename)).lexer.indentationStack = []) ∧
    ∀ tokens, (frontendTokenizeWithLength filename source sourceLength = some tokens ∨
        frontendTokenizeExpandedUnit filename source sourceLength = some tokens ∨
        ∃ comments, frontendTokenizeExpandedUnitWithComments filename source sourceLength =
          some { tokens, comments }) →
      Nested tokens ∧ indents tokens = dedents tokens := by
  refine ⟨fun renumber calls passes => ?_, fun renumber => tokenizeFrom_balanced.2.2,
    fun tokens lexed => ?_⟩
  · intro s passed
    have ongoing : s.Ongoing ⟨source, sourceLength, renumber⟩ (Lexer.new filename) :=
      runSteps_keeps _ (fun _ _ kept => kept.step)
        (Tokenizing.ongoing_new new_started (Nat.zero_le _))
    have underway : Underway ⟨source, sourceLength, renumber⟩ s.lexer passed :=
      runSteps_keeps _ (fun _ _ => Underway.pass) (Underway.start ongoing.started ongoing.within)
    obtain ⟨events, moves, tokens⟩ := underway.moved
    exact tokens ▸ ongoing.layout.moves moves
  · have balanced : ∀ {renumber stream}, (tokenizeFrom ⟨source, sourceLength, renumber⟩
        (Lexer.new filename)).tokens = stream → Nested stream ∧
          indents stream = dedents stream := by
      rintro renumber - rfl
      exact ⟨tokenizeFrom_balanced.1, tokenizeFrom_balanced.2.1⟩
    rcases lexed with unit | expanded | ⟨comments, expanded⟩
    · exact balanced (tokens_of_result unit)
    · exact balanced (tokens_of_result expanded)
    have lexed : (tokenizeFrom ⟨source, sourceLength, false⟩ (Lexer.new filename)).tokens =
        tokens := by
      unfold frontendTokenizeExpandedUnitWithComments Tokenizing.result at expanded
      split at expanded
      · exact absurd expanded (by simp)
      · exact congrArg FrontendTokenBatch.tokens (Option.some.inj expanded)
    exact balanced lexed

end Elisa.Lexer
