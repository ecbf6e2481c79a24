import Elisa.Lexer.Termination

/-!
# The end of a token stream

A stream has one `eof` token, the last one, which is delivered at the end of the source, with all
blocks closed.  Its `start` has 32 bits: the extent of the source in a shorter one.
-/

namespace Elisa.Lexer

open Elisa.Lib Cursor

variable {inp : Input} {lexer next : Lexer} {events : List Event}

/-! ## The last token -/

/-- What the tokens that were delivered say of the lexer: no `eof` token is pending, and behind one
that was delivered there is nothing left. -/
structure Closing (inp : Input) (lexer : Lexer) (tokens : List Token) : Prop where
  pending : ∀ token ∈ lexer.pendingTokens, token.kind ≠ .eof
  delivered : ∀ token ∈ tokens, token.kind = .eof →
    token.start = inp.sourceLength % 2 ^ 32 ∧ lexer.AtEnd inp

/-- A token that is no `eof` leaves it so, and so does what tells of no token. -/
theorem Closing.move {tokens : List Token} (closing : Closing inp lexer tokens)
    (within : lexer.position ≤ inp.sourceLength) (move : Move inp lexer events next) :
    Closing inp next (tokens ++ tokensOf events) := by
  have ended : ∀ token ∈ tokens, token.kind = .eof →
      token.start = inp.sourceLength % 2 ^ 32 ∧ next.AtEnd inp := by
    intro token mem eof
    obtain ⟨start, at_⟩ := closing.delivered token mem eof
    exact ⟨start, move.atEnd within at_⟩
  have read : ∀ {token : Token}, next.pendingTokens = lexer.pendingTokens ∨
      (∃ first, lexer.pendingTokens = first :: next.pendingTokens) → token.kind ≠ .eof →
      Closing inp next (tokens ++ [token]) := by
    intro token pending other
    refine ⟨fun waiting mem => closing.pending waiting ?_, fun found mem eof => ?_⟩
    · rcases pending with same | ⟨first, same⟩
      · rwa [← same]
      · rw [same]
        exact List.mem_cons_of_mem _ mem
    · rcases List.mem_append.1 mem with before | last
      · exact ended found before eof
      · exact absurd (List.mem_singleton.1 last ▸ eof) other
  have silent : (∀ token ∈ next.pendingTokens, token ∈ lexer.pendingTokens ∨ token.kind ≠ .eof) →
      tokensOf events = [] → Closing inp next (tokens ++ tokensOf events) := by
    intro pending none_
    rw [none_, List.append_nil]
    refine ⟨fun token mem => ?_, ended⟩
    rcases pending token mem with before | other
    · exact closing.pending token before
    · exact other
  have emitted : ∀ {kind : TokenKind}, kind ≠ .eof →
      next.pendingTokens = lexer.pendingTokens ++
        [Token.of kind lexer.toCursor lexer.position lexer.position] →
      ∀ token ∈ next.pendingTokens, token ∈ lexer.pendingTokens ∨ token.kind ≠ .eof := by
    intro kind other pushed token mem
    rw [pushed] at mem
    rcases List.mem_append.1 mem with before | last
    · exact .inl before
    · rw [List.mem_singleton.1 last]
      exact .inr other
  cases move with
  | trivium idle passed =>
    exact silent (fun token mem => .inl (passed.pendingTokens_eq ▸ mem))
      (Trivia.of_trivium passed).silent.tokens
  | settle => exact silent (fun _ => .inl) rfl
  | block => exact silent (fun _ => .inl) rfl
  | newline => exact read (.inl rfl) nofun
  | lexeme idle token => exact read (.inl rfl) token.kind_ne_eof
  | openGroup idle token => exact read (.inl rfl) token.kind_ne_eof
  | closeGroup idle token => exact read (.inl rfl) token.kind_ne_eof
  | raise => exact silent (@emitted .indent nofun rfl) rfl
  | dedent => exact silent (@emitted .dedent nofun rfl) rfl
  | @deliver token rest pending =>
    exact read (.inr ⟨token, pending⟩) (closing.pending token (pending ▸ List.mem_cons_self))
  | lastDedent => exact read (.inl rfl) nofun
  | eof idle last closed =>
    have at_ := Nat.le_antisymm within last
    refine ⟨closing.pending, fun token mem eof => ?_⟩
    rcases List.mem_append.1 mem with before | new
    · exact ended token before eof
    · rw [List.mem_singleton.1 new]
      exact ⟨congrArg (· % 2 ^ 32) at_, last, closed, idle⟩

theorem Closing.moves {tokens : List Token} (closing : Closing inp lexer tokens)
    (within : lexer.position ≤ inp.sourceLength) (moves : Moves inp lexer events next) :
    Closing inp next (tokens ++ tokensOf events) := by
  induction moves generalizing tokens with
  | refl => simpa [tokensOf] using closing
  | head move moves ih =>
    have rest := ih (closing.move within move) (move.le_length within)
    rwa [tokensOf_append, ← List.append_assoc]

/-! ## Streams -/

def EndsAt (extent : Nat) (tokens : List Token) : Prop :=
  ∃ before last, tokens = before ++ [last] ∧ last.kind = .eof ∧ last.start = extent % 2 ^ 32 ∧
    ∀ token ∈ before, token.kind ≠ .eof

theorem EndsAt.tokenStreamSourceLength_eq {extent : Nat} {tokens : List Token}
    (ends : EndsAt extent tokens) : tokenStreamSourceLength tokens = extent % 2 ^ 32 := by
  obtain ⟨before, last, rfl, eof, start, -⟩ := ends
  simp [tokenStreamSourceLength, eof, start]

theorem tokenizeFrom_endsAt {start : Lexer} (started : start.LineStarted inp)
    (within : start.position ≤ inp.sourceLength) (idle : start.pendingTokens = [])
    (finishes : Finishes inp start) :
    EndsAt inp.sourceLength (tokenizeFrom inp start).tokens ∧
      (tokenizeFrom inp start).lexer.AtEnd inp := by
  have ongoing := tokenizeFrom_ongoing started within
  obtain ⟨events, moves, tokens⟩ := ongoing.moved
  have begun : Closing inp start [] := ⟨by simp [idle], by simp⟩
  have closing := begun.moves within moves
  rw [List.nil_append, tokens] at closing
  have unended := ongoing.unended
  have finished := finishes.finished
  simp only [Tokenizing.finished, List.any_eq_true, beq_iff_eq] at finished
  obtain ⟨last, mem, eof⟩ := finished
  obtain ⟨start, ended⟩ := closing.delivered last mem eof
  have some_ := List.ne_nil_of_mem mem
  have split := List.dropLast_concat_getLast some_
  refine ⟨⟨_, _, split.symm, ?_, ?_, unended⟩, ended⟩
  all_goals
    rw [← split] at mem
    rcases List.mem_append.1 mem with before | at_
    · exact absurd eof (unended last before)
    · rw [← List.mem_singleton.1 at_]
      assumption

theorem tokens_of_result {s : Tokenizing} {tokens : List Token}
    (result : s.result.map (·.tokens) = some tokens) : s.tokens = tokens := by
  unfold Tokenizing.result at result
  split at result
  · exact absurd result (by simp)
  · exact Option.some.inj result

/-- The stream of a unit ends at the extent of its source, if nothing has trapped. -/
theorem EndsAt.of_lexed {filename source : Bytes} {sourceLength : Nat} {tokens : List Token}
    (lexed : frontendTokenizeWithLength filename source sourceLength = some tokens ∨
      frontendTokenizeExpandedUnit filename source sourceLength = some tokens) :
    EndsAt sourceLength tokens := by
  have ends : ∀ renumber, EndsAt sourceLength
      (tokenizeFrom ⟨source, sourceLength, renumber⟩ (Lexer.new filename)).tokens := fun renumber =>
    (tokenizeFrom_endsAt new_started (Nat.zero_le _) rfl (new_finishes (Nat.zero_le _))).1
  rcases lexed with unit | expanded
  · exact tokens_of_result unit ▸ ends true
  · exact tokens_of_result expanded ▸ ends false

end Elisa.Lexer
