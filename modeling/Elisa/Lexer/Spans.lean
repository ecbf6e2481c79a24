import Elisa.Lexer.Positions

/-!
# Nothing of the source is lost

The moves of a run tile the source (`Tiling`): a token takes its span and the quotes around it, a
comment and the line of a directive take theirs, and between them stand blanks and newlines.  So
spans come in the order of the source and do not overlap, and every byte is in one of them, or is a
blank or a newline (`frontendTokenizeExpandedUnitWithComments_lossless`).
-/

namespace Elisa.Lexer

open Elisa.Lib Cursor List

/-! ## Regions -/

structure Region where
  first : Nat
  last : Nat
  deriving DecidableEq

def Region.covers (region : Region) (index : Nat) : Bool :=
  decide (region.first ≤ index ∧ index < region.last)

def Token.stop (token : Token) : Nat := token.start + token.length + token.suffixLength

def Token.span (token : Token) : Region := ⟨token.start, token.stop⟩

/-- How many bytes of a lexeme its token leaves out at its start. -/
def TokenKind.opening : TokenKind → Nat
  | .stringLit | .charLit | .label => 1
  | .fString => 2
  | _ => 0

def TokenKind.terminator? : TokenKind → Option Char
  | .stringLit | .fString => some '"'
  | .charLit => some '\''
  | _ => none

section Regions

variable (inp : Input)

/-- How many bytes of a lexeme its token leaves out at its end. -/
def Token.closing (token : Token) : Nat :=
  if token.kind.terminator? = some (inp.charAt token.stop) then 1 else 0

def Token.delimiters (token : Token) : List Region :=
  [⟨token.start - token.kind.opening, token.start⟩, ⟨token.stop, token.stop + token.closing inp⟩]

def Token.regions (token : Token) : List Region := token.span :: token.delimiters inp

/-- What an event tells of the source. -/
def Event.regions : Event → List Region
  | .token read => read.regions inp
  | .comment passed => [passed.span]
  | .directive first last => [⟨first, last⟩]
  | .opened => []

end Regions

/-- How many of some regions cover a byte. -/
def coverings (regions : List Region) (index : Nat) : Nat :=
  regions.countP fun region => region.covers index

section Coverings

variable {index : Nat} {first second : List Region}

@[simp] theorem coverings_nil : coverings [] index = 0 := rfl

@[simp] theorem coverings_append :
    coverings (first ++ second) index = coverings first index + coverings second index :=
  countP_append

@[simp] theorem coverings_cons (region : Region) :
    coverings (region :: first) index =
      coverings first index + if region.first ≤ index ∧ index < region.last then 1 else 0 := by
  simp [coverings, Region.covers, countP_cons]

end Coverings

/-! ## Extents -/

/-- The lexeme of a token: its span between its delimiters. -/
structure Extent (inp : Input) (token : Token) (first last : Nat) : Prop where
  opened : first + token.kind.opening = token.start
  closed : token.stop + token.closing inp = last
  within : last ≤ inp.sourceLength

section Extents

variable {inp : Input} {c d : Cursor} {token : Token} {kind : TokenKind}

theorem usizeSub_of_le {a b : Nat} (le : b ≤ a) (small : a < 2 ^ 64) : usizeSub a b = a - b := by
  rw [usizeSub, show a + (2 ^ 64 - b) = (a - b) + 2 ^ 64 by omega, Nat.add_mod_right,
    Nat.mod_eq_of_lt (by omega)]

theorem withSuffix_fields {start textEnd suffixEnd : Nat} (small : suffixEnd < 2 ^ 32)
    (text : start ≤ textEnd) (suffix : textEnd ≤ suffixEnd) (short : suffixEnd - textEnd < 2 ^ 16) :
    (Token.withSuffix kind c start textEnd suffixEnd).start = start ∧
      (Token.withSuffix kind c start textEnd suffixEnd).length = textEnd - start ∧
      (Token.withSuffix kind c start textEnd suffixEnd).suffixLength = suffixEnd - textEnd := by
  refine ⟨Nat.mod_eq_of_lt (by omega), ?_, ?_⟩
  · show usizeSub textEnd start % 2 ^ 32 = _
    rw [usizeSub_of_le text (by omega), Nat.mod_eq_of_lt (by omega)]
  · show usizeSub suffixEnd textEnd % 2 ^ 16 = _
    rw [usizeSub_of_le suffix (by omega), Nat.mod_eq_of_lt short]

theorem of_fields {start textEnd : Nat} (small : textEnd < 2 ^ 32) (text : start ≤ textEnd) :
    (Token.of kind c start textEnd).start = start ∧
    (Token.of kind c start textEnd).stop = textEnd := by
  obtain ⟨h1, h2, h3⟩ := @withSuffix_fields c kind start textEnd textEnd small text (Nat.le_refl _)
    (by omega)
  refine ⟨h1, ?_⟩
  show (Token.withSuffix kind c start textEnd textEnd).stop = textEnd
  rw [Token.stop, h1, h2, h3]
  omega

theorem opening_of_plain (plain : kind.isPlain = true) :
    kind.opening = 0 ∧ kind.terminator? = none := by
  cases kind <;> first | exact ⟨rfl, rfl⟩ | cases plain

theorem closing_of_none (none_ : token.kind.terminator? = none) : token.closing inp = 0 := by
  rw [Token.closing, none_, if_neg nofun]

theorem Lexeme.extent (small : inp.sourceLength < 2 ^ 32) (read : Lexeme inp c token d)
    (more : c.position < inp.sourceLength) : Extent inp token c.position d.position := by
  have within := read.moved.le_length (Nat.le_of_lt more)
  cases read with
  | @plain d kind textEnd plain moved begun le short =>
    obtain ⟨start, length, suffix⟩ :=
      @withSuffix_fields c kind c.position textEnd d.position (by omega)
        (Nat.le_of_lt begun) le short
    obtain ⟨opening, terminator⟩ := opening_of_plain plain
    refine ⟨?_, ?_, within⟩
    · rw [start]
      show c.position + kind.opening = c.position
      rw [opening, Nat.add_zero]
    · rw [closing_of_none terminator, Token.stop, start, length, suffix]
      omega
  | @quoted scanned kind terminator literal opened ended =>
    have start := advanceChar_position more
    have text := ended.le_textEnd
    have textEnd := ended.textEnd_le
    rw [start] at text
    obtain ⟨hstart, hstop⟩ := @of_fields c kind (c.position + 1) scanned.textEnd (by omega) text
    have opening : kind.opening = 1 ∧ kind.terminator? = some terminator := by
      rcases literal with ⟨rfl, rfl⟩ | ⟨rfl, rfl⟩ <;> exact ⟨rfl, rfl⟩
    refine ⟨?_, ?_, within⟩
    · rw [hstart]
      exact congrArg (c.position + ·) opening.1
    · rw [Token.closing, hstop, show (Token.of kind c _ _).kind = kind from rfl, opening.2,
        ended.position_eq]
      simp [eq_comm]
  | @fstring scanned letter opened ended =>
    have more' : c.position + 1 < inp.sourceLength :=
      Input.lt_of_charAt_ne (by rw [show inp.charAt (c.position + 1) = '"' from opened]; decide)
    have first := advanceChar_position more
    have second := @advanceChar_position inp (c.advanceChar inp) (by omega)
    have text := ended.le_textEnd
    have textEnd := ended.textEnd_le
    rw [show c.advanceChars inp 2 = (c.advanceChar inp).advanceChar inp from rfl, second, first]
      at text
    obtain ⟨hstart, hstop⟩ :=
      @of_fields c .fString (c.position + 2) scanned.textEnd (by omega) text
    refine ⟨?_, ?_, within⟩
    · rw [hstart]
      rfl
    · rw [Token.closing, hstop, ended.position_eq]
      simp [Token.of, Token.withSuffix, TokenKind.terminator?, eq_comm]
  | @label d opened moved named =>
    obtain ⟨hstart, hstop⟩ :=
      @of_fields (c.advanceChar inp) .label (c.position + 1) d.position
        (by omega) (Nat.le_of_lt named)
    refine ⟨?_, ?_, within⟩
    · rw [hstart]
      rfl
    · rw [closing_of_none rfl, hstop, Nat.add_zero]

theorem Extent.empty (small : inp.sourceLength < 2 ^ 32) (within : c.position ≤ inp.sourceLength)
    (opening : kind.opening = 0 ∧ kind.terminator? = none) :
    Extent inp (Token.of kind c c.position c.position) c.position c.position := by
  obtain ⟨start, stop⟩ := @of_fields c kind c.position c.position (by omega) (Nat.le_refl _)
  refine ⟨?_, ?_, within⟩
  · rw [start]
    exact congrArg (c.position + ·) opening.1
  · rw [closing_of_none opening.2, stop, Nat.add_zero]

end Extents

/-! ## Tilings -/

def IsDirective (inp : Input) (region : Region) : Prop :=
  inp.charAt region.first = '#' ∧
    ∃ directive, directiveAt inp region.first = some directive ∧ region.last = directive.next inp

/-- The events of a stretch of the source, in order, with blanks and newlines between them. -/
inductive Tiling (inp : Input) : Nat → List Event → Nat → Prop
  | nil (index : Nat) : Tiling inp index [] index
  | blank {first last : Nat} {events : List Event} (more : first < inp.sourceLength)
      (blank : isBlank (inp.charAt first) = true ∨ inp.charAt first = '\n')
      (rest : Tiling inp (first + 1) events last) : Tiling inp first events last
  | token {first next last : Nat} {token : Token} {events : List Event}
      (extent : Extent inp token first next) (rest : Tiling inp next events last) :
      Tiling inp first (.token token :: events) last
  | comment {first next last : Nat} {comment : Token} {events : List Event}
      (begun : comment.start = first) (ended : comment.stop = next) (le : first ≤ next)
      (within : next ≤ inp.sourceLength) (rest : Tiling inp next events last) :
      Tiling inp first (.comment comment :: events) last
  | directive {first next last : Nat} {events : List Event} (found : IsDirective inp ⟨first, next⟩)
      (rest : Tiling inp next events last) : Tiling inp first (.directive first next :: events) last
  | opened {first last : Nat} {events : List Event} (rest : Tiling inp first events last) :
      Tiling inp first (.opened :: events) last

section Tilings

variable {inp : Input} {first next last : Nat} {events rest : List Event} {token : Token}

theorem IsDirective.lt (found : IsDirective inp ⟨first, last⟩) :
    first < last ∧ last ≤ inp.sourceLength := by
  obtain ⟨-, directive, found, rfl⟩ := found
  exact directiveAt_next found

theorem Extent.le (extent : Extent inp token first last) : first ≤ last := by
  have opened := extent.opened
  have closed := extent.closed
  rw [Token.stop] at closed
  omega

theorem Tiling.le (tiling : Tiling inp first events last) : first ≤ last := by
  induction tiling with
  | nil => exact Nat.le_refl _
  | blank more blank rest ih => omega
  | token extent rest ih => exact Nat.le_trans extent.le ih
  | comment begun ended le within rest ih => exact Nat.le_trans le ih
  | directive found rest ih => exact Nat.le_trans (Nat.le_of_lt found.lt.1) ih
  | opened rest ih => exact ih

theorem Tiling.append (before : Tiling inp first events next) (behind : Tiling inp next rest last) :
    Tiling inp first (events ++ rest) last := by
  induction before with
  | nil => exact behind
  | blank more blank _ ih => exact .blank more blank (ih behind)
  | token extent _ ih => exact .token extent (ih behind)
  | comment begun ended le within _ ih => exact .comment begun ended le within (ih behind)
  | directive found _ ih => exact .directive found (ih behind)
  | opened _ ih => exact .opened (ih behind)

/-! ## The moves of a run -/

/-- Tokens that wait at a cursor have no span. -/
def Waiting (inp : Input) (lexer : Lexer) : Prop :=
  ∀ token ∈ lexer.pendingTokens, Extent inp token lexer.position lexer.position

end Tilings

section Moves

variable {inp : Input} {lexer next : Lexer} {events : List Event}

theorem more_of_newline (newline : lexer.currentChar inp = '\n') :
    lexer.position < inp.sourceLength :=
  Input.lt_of_charAt_ne (by rw [show inp.charAt lexer.position = '\n' from newline]; decide)

theorem Trivium.tiling (small : inp.sourceLength < 2 ^ 32)
    (within : lexer.position ≤ inp.sourceLength)
    (passed : Trivium inp lexer events next) : Tiling inp lexer.position events next.position := by
  have stays := passed.le_length within
  cases passed with
  | blank more blank =>
    show Tiling inp lexer.position [] (lexer.toCursor.advanceChar inp).position
    rw [advanceChar_position more]
    exact .blank more blank (.nil _)
  | lineStart newline =>
    have more := more_of_newline newline
    show Tiling inp lexer.position [] (lexer.toCursor.advanceChar inp).position
    rw [advanceChar_position more]
    exact .blank more (.inr newline) (.nil _)
  | @comment d moved begun =>
    obtain ⟨start, stop⟩ := @of_fields lexer.toCursor .comment lexer.position d.position
      (Nat.lt_of_le_of_lt stays small) (Nat.le_of_lt begun)
    exact .comment start stop (Nat.le_of_lt begun) stays (.nil _)
  | attempt => exact .nil _
  | directive hash start found => exact .directive ⟨hash, _, found, rfl⟩ (.nil _)

/-- What a run has told of tiles the source up to its cursor. -/
structure Tiled (inp : Input) (lexer : Lexer) (events : List Event) : Prop where
  within : lexer.position ≤ inp.sourceLength
  tiling : Tiling inp 0 events lexer.position
  waiting : Waiting inp lexer

theorem Waiting.of_idle (idle : lexer.pendingTokens = []) : Waiting inp lexer := by
  intro token mem
  rw [idle] at mem
  cases mem

theorem Waiting.push {kind : TokenKind} (small : inp.sourceLength < 2 ^ 32)
    (within : lexer.position ≤ inp.sourceLength) (waiting : Waiting inp lexer)
    (opening : kind.opening = 0 ∧ kind.terminator? = none) :
    Waiting inp (lexer.emitPendingToken kind) := by
  intro token mem
  rcases mem_append.1 mem with before | last
  · exact waiting token before
  · rw [mem_singleton.1 last]
    exact Extent.empty small within opening

theorem Tiled.move {told : List Event} (small : inp.sourceLength < 2 ^ 32)
    (tiled : Tiled inp lexer told) (move : Move inp lexer events next) :
    Tiled inp next (told ++ events) := by
  obtain ⟨within, tiling, waiting⟩ := tiled
  have stays := move.le_length within
  have read {token : Token} {d : Cursor} (read : Lexeme inp lexer.toCursor token d) :
      Tiling inp lexer.position [.token token] d.position := by
    have more : lexer.position < inp.sourceLength :=
      Nat.lt_of_lt_of_le read.lt (read.moved.le_length within)
    exact .token (read.extent small more) (.nil _)
  have layout (kind : TokenKind) (opening : kind.opening = 0 ∧ kind.terminator? = none) :
      Extent inp (Token.of kind lexer.toCursor lexer.position lexer.position) lexer.position
        lexer.position := Extent.empty small within opening
  cases move with
  | trivium idle passed =>
    exact ⟨stays, tiling.append (passed.tiling small within),
      .of_idle (passed.pendingTokens_eq.trans idle)⟩
  | settle =>
    rw [append_nil]
    exact ⟨within, tiling, waiting⟩
  | block contexts pending =>
    rw [append_nil]
    exact ⟨within, tiling, waiting⟩
  | newline idle newline =>
    have more := more_of_newline newline
    refine ⟨stays, tiling.append (.token (layout .newline ⟨rfl, rfl⟩) ?_), .of_idle idle⟩
    show Tiling inp lexer.position [] (lexer.toCursor.advanceChar inp).position
    rw [advanceChar_position more]
    exact .blank more (.inr newline) (.nil _)
  | lexeme idle lexeme => exact ⟨stays, tiling.append (read lexeme), .of_idle idle⟩
  | openGroup idle lexeme =>
    have opened := read lexeme
    exact ⟨stays, tiling.append opened, .of_idle idle⟩
  | closeGroup idle lexeme => exact ⟨stays, tiling.append (read lexeme), .of_idle idle⟩
  | raise dedents more higher =>
    exact ⟨within, tiling.append (.opened (.nil _)), waiting.push small within ⟨rfl, rfl⟩⟩
  | dedent dedents block =>
    rw [append_nil]
    exact ⟨within, tiling, waiting.push small within ⟨rfl, rfl⟩⟩
  | @deliver token rest pending =>
    have all := waiting
    unfold Waiting at all
    rw [pending] at all
    exact ⟨within, tiling.append (.token (all token mem_cons_self) (.nil _)),
      fun other mem => all other (mem_cons_of_mem _ mem)⟩
  | lastDedent idle last block =>
    exact ⟨within, tiling.append (.token (layout .dedent ⟨rfl, rfl⟩) (.nil _)), .of_idle idle⟩
  | eof idle last closed =>
    exact ⟨within, tiling.append (.token (layout .eof ⟨rfl, rfl⟩) (.nil _)), .of_idle idle⟩

theorem Tiled.moves {told : List Event} (small : inp.sourceLength < 2 ^ 32)
    (tiled : Tiled inp lexer told) (moves : Moves inp lexer events next) :
    Tiled inp next (told ++ events) := by
  induction moves generalizing told with
  | refl => simpa using tiled
  | head move moves ih =>
    have rest := ih (tiled.move small move)
    rwa [append_assoc] at rest

theorem Tiled.new {filename : Bytes} : Tiled inp (Lexer.new filename) [] :=
  ⟨Nat.zero_le _, .nil 0, .of_idle rfl⟩

def commentsOf (events : List Event) : List Token :=
  events.filterMap fun
    | .comment comment => some comment
    | _ => none

def directivesOf (events : List Event) : List Region :=
  events.filterMap fun
    | .directive first last => some ⟨first, last⟩
    | _ => none

theorem Move.comments (move : Move inp lexer events next) :
    next.comments = lexer.comments ++ commentsOf events := by
  cases move with
  | trivium idle passed => cases passed <;> simp [commentsOf, Lexer.moveTo, Lexer.pushComment,
      Lexer.attempted, Lexer.consumed]
  | _ => simp [commentsOf, Lexer.moveTo, Lexer.raiseIndentation, Lexer.pushIndent,
      Lexer.popIndent, Lexer.emitPendingToken, Lexer.pushPending]

theorem Moves.comments (moves : Moves inp lexer events next) :
    next.comments = lexer.comments ++ commentsOf events := by
  induction moves with
  | refl => simp [commentsOf]
  | head move moves ih => rw [ih, move.comments, append_assoc, commentsOf, commentsOf,
      commentsOf, filterMap_append]

end Moves

/-! ## Bytes -/

section Bytes

variable {inp : Input} {first last index : Nat} {events : List Event} {token : Token}

theorem Extent.coverings (extent : Extent inp token first last) :
    coverings (token.regions inp) index = if first ≤ index ∧ index < last then 1 else 0 := by
  have opened := extent.opened
  have closed := extent.closed
  have stop : token.start ≤ token.stop := by
    rw [Token.stop]
    omega
  simp only [Token.regions, Token.delimiters, Token.span, coverings_cons, coverings_nil]
  split_ifs <;> omega

/-- Of a stretch each byte is covered once, or it is a blank or a newline; no other is covered. -/
structure Covered (inp : Input) (regions : List Region) (first last index : Nat) : Prop where
  inside : first ≤ index → index < last → coverings regions index = 1 ∨
    coverings regions index = 0 ∧ (isBlank (inp.charAt index) = true ∨ inp.charAt index = '\n')
  outside : index < first ∨ last ≤ index → coverings regions index = 0

theorem Covered.cons {next : Nat} {head rest : List Region} (le : first ≤ next) (le' : next ≤ last)
    (once : coverings head index = if first ≤ index ∧ index < next then 1 else 0)
    (covered : Covered inp rest next last index) : Covered inp (head ++ rest) first last index := by
  constructor
  · intro ge lt
    rw [coverings_append, once]
    rcases Nat.lt_or_ge index next with before | behind
    · rw [if_pos ⟨ge, before⟩, covered.outside (.inl before)]
      exact .inl rfl
    · rw [if_neg (by omega), Nat.zero_add]
      exact covered.inside behind lt
  · intro out
    rw [coverings_append, once, if_neg (by omega), covered.outside (by omega)]

theorem Tiling.covered (tiling : Tiling inp first events last) :
    Covered inp (events.flatMap (Event.regions inp)) first last index := by
  induction tiling with
  | nil first =>
    refine ⟨fun ge lt => ?_, fun _ => rfl⟩
    omega
  | @blank first last events more blank rest ih =>
    refine ⟨fun ge lt => ?_, fun out => ih.outside (by omega)⟩
    rcases Nat.eq_or_lt_of_le ge with rfl | later
    · exact .inr ⟨ih.outside (.inl (Nat.lt_succ_self _)), blank⟩
    · exact ih.inside later lt
  | token extent rest ih =>
    rw [flatMap_cons]
    exact ih.cons extent.le rest.le extent.coverings
  | @comment first next last comment events begun ended le within rest ih =>
    rw [flatMap_cons]
    refine ih.cons le rest.le ?_
    rw [← begun, ← ended, Event.regions, Token.span, coverings_cons, coverings_nil, Nat.zero_add]
  | directive found rest ih =>
    rw [flatMap_cons]
    refine ih.cons (Nat.le_of_lt found.lt.1) rest.le ?_
    rw [Event.regions, coverings_cons, coverings_nil, Nat.zero_add]
  | opened rest ih =>
    rw [flatMap_cons]
    exact ih

theorem coverings_sorted (events : List Event) :
    coverings (events.flatMap (Event.regions inp)) index =
      coverings ((tokensOf events).flatMap (Token.regions inp)) index +
        coverings ((commentsOf events).map Token.span) index +
        coverings (directivesOf events) index := by
  induction events with
  | nil => rfl
  | cons event events ih =>
    rw [flatMap_cons, coverings_append, ih]
    cases event with
    | token token =>
      rw [show tokensOf (.token token :: events) = token :: tokensOf events from rfl,
        flatMap_cons, coverings_append]
      simp only [Event.regions, commentsOf, directivesOf, filterMap_cons]
      omega
    | comment comment =>
      rw [show commentsOf (.comment comment :: events) = comment :: commentsOf events from rfl,
        map_cons, coverings_cons]
      simp only [Event.regions, tokensOf, directivesOf, filterMap_cons, coverings_cons,
        coverings_nil]
      omega
    | directive first last =>
      rw [show directivesOf (.directive first last :: events) =
        ⟨first, last⟩ :: directivesOf events from rfl, coverings_cons]
      simp only [Event.regions, tokensOf, commentsOf, filterMap_cons, coverings_cons,
        coverings_nil]
      omega
    | opened => simp [Event.regions, tokensOf, commentsOf, directivesOf]

/-- Spans in the order of the source, none of which overlaps another one, from an index on. -/
def InOrder (spans : List Region) (first last : Nat) : Prop :=
  spans.Pairwise (fun before behind => before.last ≤ behind.first) ∧
    ∀ span ∈ spans, first ≤ span.first ∧ span.first ≤ span.last ∧ span.last ≤ last

theorem InOrder.of_le {spans : List Region} {next : Nat} (inOrder : InOrder spans next last)
    (le : first ≤ next) : InOrder spans first last :=
  ⟨inOrder.1, fun span mem => ⟨Nat.le_trans le (inOrder.2 span mem).1, (inOrder.2 span mem).2⟩⟩

theorem InOrder.cons {spans : List Region} {next : Nat} {span : Region} (le : first ≤ span.first)
    (le' : span.first ≤ span.last) (ended : span.last ≤ next) (within : next ≤ last)
    (inOrder : InOrder spans next last) : InOrder (span :: spans) first last := by
  refine ⟨pairwise_cons.2 ⟨fun other mem => ?_, inOrder.1⟩, fun other mem => ?_⟩
  · exact Nat.le_trans ended (inOrder.2 other mem).1
  · rcases mem_cons.1 mem with rfl | mem
    · exact ⟨le, le', Nat.le_trans ended within⟩
    · obtain ⟨ge, rest⟩ := inOrder.2 other mem
      exact ⟨by omega, rest⟩

theorem Tiling.inOrder (tiling : Tiling inp first events last) :
    InOrder ((tokensOf events).map Token.span) first last ∧
      InOrder ((commentsOf events).map Token.span) first last ∧
      ∀ region ∈ directivesOf events, IsDirective inp region := by
  induction tiling with
  | nil first => exact ⟨⟨.nil, nofun⟩, ⟨.nil, nofun⟩, nofun⟩
  | blank more blank rest ih =>
    obtain ⟨tokens, comments, directives⟩ := ih
    exact ⟨tokens.of_le (Nat.le_succ _), comments.of_le (Nat.le_succ _), directives⟩
  | @token first next last token events extent rest ih =>
    obtain ⟨tokens, comments, directives⟩ := ih
    have opened := extent.opened
    have closed := extent.closed
    refine ⟨tokens.cons ?_ ?_ ?_ rest.le, comments.of_le extent.le, directives⟩
    · show first ≤ token.start
      omega
    · show token.start ≤ token.stop
      rw [Token.stop]
      omega
    · show token.stop ≤ next
      omega
  | @comment first next last comment events begun ended le within rest ih =>
    obtain ⟨tokens, comments, directives⟩ := ih
    refine ⟨tokens.of_le le, comments.cons ?_ ?_ ?_ rest.le, directives⟩
    · exact Nat.le_of_eq begun.symm
    · show comment.start ≤ comment.stop
      omega
    · exact Nat.le_of_eq ended
  | directive found rest ih =>
    obtain ⟨tokens, comments, directives⟩ := ih
    have le := Nat.le_of_lt found.lt.1
    refine ⟨tokens.of_le le, comments.of_le le, fun region mem => ?_⟩
    rcases mem_cons.1 mem with rfl | mem
    · exact found
    · exact directives region mem
  | opened rest ih => exact ih

end Bytes

/-- The spans of the tokens and of the comments come in order and do not overlap, and each byte is
in one region, of one token, one comment or one directive, or it is a blank or a newline. -/
structure Lossless (inp : Input) (batch : FrontendTokenBatch) : Prop where
  tokens : InOrder (batch.tokens.map Token.span) 0 inp.sourceLength
  comments : InOrder (batch.comments.map Token.span) 0 inp.sourceLength
  bytes : ∃ directives : List Region, (∀ region ∈ directives, IsDirective inp region) ∧
    ∀ index < inp.sourceLength,
      coverings (batch.tokens.flatMap (Token.regions inp)) index +
          coverings (batch.comments.map Token.span) index + coverings directives index = 1 ∨
        coverings (batch.tokens.flatMap (Token.regions inp)) index +
          coverings (batch.comments.map Token.span) index + coverings directives index = 0 ∧
          (isBlank (inp.charAt index) = true ∨ inp.charAt index = '\n')

/-- Nothing of an expanded unit of fewer than 2^32 bytes is lost. -/
theorem frontendTokenizeExpandedUnitWithComments_lossless (filename source : Bytes)
    (sourceLength : Nat) (small : sourceLength < 2 ^ 32) (batch : FrontendTokenBatch)
    (lexed : frontendTokenizeExpandedUnitWithComments filename source sourceLength = some batch) :
    Lossless ⟨source, sourceLength, false⟩ batch := by
  have ongoing : (tokenizeFrom ⟨source, sourceLength, false⟩ (Lexer.new filename)).Ongoing
      ⟨source, sourceLength, false⟩ (Lexer.new filename) :=
        tokenizeFrom_ongoing new_started (Nat.zero_le _)
  obtain ⟨events, moves, delivered⟩ := ongoing.moved
  have finishes : Finishes ⟨source, sourceLength, false⟩ (Lexer.new filename) :=
    new_finishes (Nat.zero_le _)
  have ended := (tokenizeFrom_endsAt new_started (Nat.zero_le _) rfl finishes).2
  have comments := moves.comments
  obtain ⟨within, tiling, -⟩ := Tiled.new.moves small moves
  rw [nil_append, Nat.le_antisymm within ended.last] at tiling
  have same : batch = ⟨(tokenizeFrom ⟨source, sourceLength, false⟩ (Lexer.new filename)).tokens,
      (tokenizeFrom ⟨source, sourceLength, false⟩ (Lexer.new filename)).lexer.comments⟩ := by
    unfold frontendTokenizeExpandedUnitWithComments Tokenizing.result at lexed
    split at lexed
    · exact absurd lexed (by simp)
    · exact (Option.some.inj lexed).symm
  obtain ⟨tokens, recorded, directives⟩ := tiling.inOrder
  rw [same, ← delivered, comments, show (Lexer.new filename).comments = [] from rfl, nil_append]
  refine ⟨tokens, recorded, directivesOf events, directives, fun index lt => ?_⟩
  have covered := (@Tiling.covered _ _ _ index _ tiling).inside (Nat.zero_le _) lt
  rwa [coverings_sorted] at covered

/-- A directive, a string with a blank in it, a label and a comment. -/
theorem frontendTokenizeExpandedUnitWithComments_lossless_text :
    Lossless ⟨ascii "#line 7 f\n\"a b\" 'c # d", 22, false⟩
      ⟨[Token.of .stringLit ⟨10, 2, 1, false⟩ 11 14, Token.of .label ⟨17, 2, 8, false⟩ 17 18,
          Token.of .eof ⟨22, 2, 13, false⟩ 22 22],
        [Token.of .comment ⟨19, 2, 10, false⟩ 19 22]⟩ :=
  frontendTokenizeExpandedUnitWithComments_lossless [] (ascii "#line 7 f\n\"a b\" 'c # d") 22
    (by decide) _ (by decide +kernel)

end Elisa.Lexer
