import Elisa.Frontend.BinaryExpressions
import Elisa.Lib.Climbing

/-!
# The grouping of binary expressions

A sequence of one-token operands and binary operators has one tree that follows the table of binding
powers.  The operator levels build it (`loop_climbs`), unless an operator of the sequence is left to
another part of the parser (`loop_without`), or a `not in` stands directly behind an operator that
binds more loosely than a comparison: the token `not` hides the binding power of `not in` from the
lookahead, and the looser operator ends up inside the left operand of the membership test.
-/

namespace Elisa.Frontend

open Elisa.Climbing List

/-! ## Sequences -/

/-- The words that are read as something else than an operand of one token. -/
def contextualWord (text : String) : Bool :=
  opensConstruct text || text == "where" || text == "can"

def Token.isAtom (token : Token) : Bool :=
  (token.kind == .ident && !contextualWord token.text) || (primaryLiteral token).isSome

/-- An operand of one token: a literal, or a name. -/
abbrev Atom := { token : Token // token.isAtom }

def Atom.expr (atom : Atom) : Expr := (primaryLiteral atom.1).getD (.ident atom.1.text)

inductive BinaryOperator where
  | table (token : Token) (binds : 0 < precedence token.kind)
  | notIn
  | isNot
deriving DecidableEq

namespace BinaryOperator

def tokens : BinaryOperator → List Token
  | table token _ => [token]
  | notIn => [⟨.not, "not"⟩, ⟨.in_, "in"⟩]
  | isNot => [⟨.is, "is"⟩, ⟨.not, "not"⟩]

def lead : BinaryOperator → TokenKind
  | table token _ => token.kind
  | notIn => .not
  | isNot => .is

def power : BinaryOperator → Nat
  | table token _ => precedence token.kind
  | notIn => comparison
  | isNot => comparison

/-- The binding power that the lookahead sees. -/
def probe (op : BinaryOperator) : Nat := precedence op.lead

def apply (op : BinaryOperator) (left right : Expr) : Expr :=
  match op with
  | table token _ => .binary left token.kind right
  | notIn => .unary .not (.binary left .in_ right)
  | isNot => .unary .not (.binary left .is right)

end BinaryOperator

def toExpr : Tree BinaryOperator Atom → Expr
  | .leaf atom => atom.expr
  | .node left op right => op.apply (toExpr left) (toExpr right)

def spell : List (BinaryOperator × Atom) → List Token
  | [] => []
  | (op, atom) :: pairs => op.tokens ++ atom.1 :: spell pairs

def endsExpression : TokenKind → Bool
  | .newline | .eof | .rParen | .rBracket | .rBrace => Bool.true
  | _ => Bool.false

theorem eq_of_endsExpression {kind : TokenKind} (h : endsExpression kind) :
    kind = .newline ∨ kind = .eof ∨ kind = .rParen ∨ kind = .rBracket ∨ kind = .rBrace := by
  unfold endsExpression at h
  split at h
  · exact .inl rfl
  · exact .inr (.inl rfl)
  · exact .inr (.inr (.inl rfl))
  · exact .inr (.inr (.inr (.inl rfl)))
  · exact .inr (.inr (.inr (.inr rfl)))
  · exact absurd h Bool.false_ne_true

/-- What stands behind a whole expression. -/
def Ends (rest : List Token) : Prop := ∀ token ∈ rest.head?, endsExpression token.kind

/-- The operators that the levels leave to another part of the parser: `as`, whose
targets are no values, and what the flags of the parser suppress. -/
def Parser.leaves (parser : Parser) (kind : TokenKind) : Bool :=
  kind == .as || (kind == .pipe && parser.suppressPipe) || (kind == .arrow && parser.suppressArrow)

/-! ## Tokens of a sequence -/

def headKind (tokens : List Token) : TokenKind := (tokens.headD ⟨.eof, ""⟩).kind

def followsOperand (kind : TokenKind) : Bool :=
  decide (0 < precedence kind) || kind == .not || endsExpression kind

theorem kind_ne {P : TokenKind → Bool} {kind k : TokenKind} (h : P kind) (hk : P k = Bool.false) :
    (kind == k) = Bool.false := by
  rw [beq_eq_false_iff_ne]
  rintro rfl
  exact Bool.false_ne_true (hk.symm.trans h)

theorem headKind_spell {rest : List Token} (hrest : Ends rest)
    (pairs : List (BinaryOperator × Atom)) : followsOperand (headKind (spell pairs ++ rest)) := by
  cases pairs with
  | nil =>
    cases rest with
    | nil => rfl
    | cons token rest =>
      have htoken : endsExpression token.kind := hrest token rfl
      simp [spell, headKind, followsOperand, htoken]
  | cons pair pairs =>
    obtain ⟨op, atom⟩ := pair
    cases op with
    | table token binds => simp [spell, headKind, followsOperand, BinaryOperator.tokens, binds]
    | notIn => rfl
    | isNot => rfl

theorem precedence_headKind {rest : List Token} (hrest : Ends rest) :
    precedence (headKind rest) = 0 := by
  cases rest with
  | nil => rfl
  | cons token rest =>
    have htoken : endsExpression token.kind := hrest token rfl
    show precedence token.kind = 0
    rcases eq_of_endsExpression htoken with h | h | h | h | h <;> rw [h] <;> rfl

theorem headKind_cons (op : BinaryOperator) (atom : Atom) (pairs : List (BinaryOperator × Atom))
    (rest : List Token) : headKind (spell ((op, atom) :: pairs) ++ rest) = op.lead := by
  cases op <;> rfl

def atomKind : TokenKind → Bool
  | .ident | .intLit | .hexLit | .floatLit | .charLit | .stringLit | .true | .false | .null
  | .zeroed => Bool.true
  | _ => Bool.false

theorem Atom.kind (atom : Atom) : atomKind atom.1.kind := by
  obtain ⟨⟨kind, text⟩, h⟩ := atom
  revert h
  cases kind <;> simp [Token.isAtom, primaryLiteral, atomKind]

theorem Atom.kind_ne (atom : Atom) {k : TokenKind} (h : atomKind k = Bool.false) :
    (atom.1.kind == k) = Bool.false :=
  Frontend.kind_ne atom.kind h

theorem Atom.startsValue (atom : Atom) : tokenStartsValue atom.1.kind = Bool.true := by
  have hatom := atom.kind
  revert hatom
  cases atom.1.kind <;> first | exact fun _ => rfl | exact fun h => absurd h Bool.false_ne_true

/-! ## One operand -/

structure SameFlags (p q : Parser) : Prop where
  suppressPipe : q.suppressPipe = p.suppressPipe
  suppressArrow : q.suppressArrow = p.suppressArrow

theorem SameFlags.refl (p : Parser) : SameFlags p p := ⟨rfl, rfl⟩

theorem SameFlags.trans {p q r : Parser} (h : SameFlags p q) (h' : SameFlags q r) :
    SameFlags p r :=
  ⟨h'.suppressPipe.trans h.suppressPipe, h'.suppressArrow.trans h.suppressArrow⟩

theorem SameFlags.leaves {p q : Parser} (h : SameFlags p q) (kind : TokenKind) :
    q.leaves kind = p.leaves kind := by
  rw [Parser.leaves, Parser.leaves, h.suppressPipe, h.suppressArrow]

variable {p q : Parser} {rest tokens : List Token} {token : Token} {kind : TokenKind} {atom : Atom}
  {left right : Expr} {pairs : List (BinaryOperator × Atom)}

theorem peek_of (h : p.tokens = tokens) : p.peek = headKind tokens := by
  rw [← h]
  rfl

theorem peekAt_one (h : p.tokens = token :: tokens) : p.peekAt 1 = headKind tokens := by
  rw [Parser.peekAt, h]
  cases tokens <;> rfl

theorem peekAt_two {next : Token} (h : p.tokens = token :: next :: tokens) :
    p.peekAt 2 = headKind tokens := by
  rw [Parser.peekAt, h]
  cases tokens <;> rfl

theorem advance_of (h : p.tokens = token :: tokens) :
    p.advance = { p with tokens := tokens, previous := some token.kind } := by
  rw [Parser.advance, h]

theorem advance_tokens (h : p.tokens = token :: tokens) : p.advance.tokens = tokens := by
  rw [advance_of h]

theorem SameFlags.advance (p : Parser) : SameFlags p p.advance := by
  unfold Parser.advance
  split <;> exact ⟨rfl, rfl⟩

theorem ampersand_isInfix (h : p.tokens = token :: atom.1 :: tokens) :
    p.postfixAmpIsInfix = Bool.true := by
  have hrun : p.postfixAmpRun = 1 := by
    simp [Parser.postfixAmpRun, h, atom.kind_ne (k := .ampersand) rfl]
  have hpeek : p.peekAt 1 = atom.1.kind := by simp [Parser.peekAt, h]
  have htext : (p.tokens.getD 1 ⟨.eof, ""⟩).text = atom.1.text := by simp [h]
  have hclause : ∀ word, contextualWord word → (atom.1.kind == TokenKind.ident) →
      (atom.1.text == word) = Bool.false := by
    intro word hword hident
    rw [beq_eq_false_iff_ne]
    rintro rfl
    have hisAtom := atom.2
    simp [Token.isAtom, hword, primaryLiteral, eq_of_beq hident] at hisAtom
  simp only [Parser.postfixAmpIsInfix, hrun, hpeek, htext, atom.kind_ne (k := .lBracket) rfl,
    Bool.and_false, Bool.false_eq_true, if_false, atom.startsValue, Bool.true_and]
  split
  next hident => rw [hclause "where" (by decide) hident, hclause "can" (by decide) hident]; rfl
  next => rfl

theorem primaryExpression_atom (forms : Forms) (hrest : Ends rest)
    (h : p.tokens = atom.1 :: (spell pairs ++ rest)) :
    primaryExpression forms p = (some atom.expr, p.advance) := by
  have hcursor : p.cursor = atom.1 := by rw [Parser.cursor, h]; rfl
  have hatom := atom.2
  unfold primaryExpression
  rw [show p.peek = atom.1.kind from peek_of h, hcursor]
  split
  next hident =>
    have hliteral : primaryLiteral atom.1 = none := by
      rw [primaryLiteral, eq_of_beq hident]
    have hopens : opensConstruct atom.1.text = Bool.false := by
      simp only [Token.isAtom, hident, hliteral, contextualWord, Bool.true_and, Option.isSome_none,
        Bool.or_false, Bool.not_eq_true', Bool.or_eq_false_iff] at hatom
      exact hatom.1.1
    have hfollows := headKind_spell hrest pairs
    have hcontinues : continuesConstruct (headKind (spell pairs ++ rest)) = Bool.false := by
      generalize headKind (spell pairs ++ rest) = kind at hfollows
      unfold continuesConstruct
      split
      case h_5 => rfl
      all_goals exact absurd hfollows (by decide)
    rw [if_neg (by rw [Parser.constructAhead, hcursor, hopens, peekAt_one h, hcontinues]; nofun)]
    simp [Atom.expr, hliteral]
  rename_i hident
  cases hliteral : primaryLiteral atom.1 with
  | none => simp [Token.isAtom, hident, hliteral] at hatom
  | some literal => simp [Atom.expr, hliteral]

theorem spell_ampersand (hrest : Ends rest)
    (h : headKind (spell pairs ++ rest) = TokenKind.ampersand) :
    ∃ token atom tokens, spell pairs ++ rest = token :: (atom : Atom).1 :: tokens := by
  cases pairs with
  | nil =>
    have hzero := precedence_headKind hrest
    rw [show headKind rest = TokenKind.ampersand from h] at hzero
    cases hzero
  | cons pair pairs =>
    obtain ⟨op, atom⟩ := pair
    rw [headKind_cons] at h
    cases op with
    | table token binds => exact ⟨token, atom, spell pairs ++ rest, rfl⟩
    | notIn => cases h
    | isNot => cases h

theorem unaryExpression_atom (forms : Forms) (fuel : Nat) (hrest : Ends rest)
    (h : p.tokens = atom.1 :: (spell pairs ++ rest)) :
    unaryExpression forms (fuel + 1) p = some (some atom.expr, p.advance) := by
  have hfollows := headKind_spell hrest pairs
  have hone := peekAt_one h
  have hpeek : p.peek = atom.1.kind := peek_of h
  have hcursor : p.cursor = atom.1 := by rw [Parser.cursor, h]; rfl
  have hnode : p.nodeAllocAhead = Bool.false := by
    rw [Parser.nodeAllocAhead, hone, bne, kind_ne hfollows (k := .ident) rfl,
      kind_ne hfollows (k := .lBracket) rfl]
    rfl
  have howned : p.ownedQualifierAhead = Bool.false := by
    simp only [Parser.ownedQualifierAhead, hone, kind_ne hfollows (k := .ident) rfl,
      kind_ne hfollows (k := .mutable) rfl, kind_ne hfollows (k := .tail) rfl,
      kind_ne hfollows (k := .lParen) rfl, Bool.or_self, ite_self]
  have hcount : isPrefixOperator atom.1.kind = Bool.false := by
    have hatom := atom.kind
    revert hatom
    cases atom.1.kind <;> first | exact fun _ => rfl | exact fun h => absurd h Bool.false_ne_true
  simp only [unaryExpression, hpeek, hcursor, hnode, howned, Bool.and_false, Bool.false_and,
    Bool.false_eq_true, if_false, atom.kind_ne (k := .ampersand) rfl,
    atom.kind_ne (k := .bang) rfl, atom.kind_ne (k := .not) rfl, Bool.or_self, hcount]
  rw [postfixExpression, primaryExpression_atom forms hrest h]
  have htokens := advance_tokens h
  cases hamp : headKind (spell pairs ++ rest) == TokenKind.ampersand with
  | true =>
    obtain ⟨token, next, tokens, hspell⟩ := spell_ampersand hrest (eq_of_beq hamp)
    have hinfix := ampersand_isInfix (htokens.trans hspell)
    simp only [peek_of htokens, hamp, hinfix, Bool.and_self, if_true]
  | false =>
    have hsuffix : beginsSuffix (headKind (spell pairs ++ rest)) = Bool.false := by
      generalize headKind (spell pairs ++ rest) = kind at hfollows hamp
      unfold beginsSuffix
      split
      case h_5 => exact absurd hamp (by decide)
      case h_8 => rfl
      all_goals exact absurd hfollows (by decide)
    simp only [peek_of htokens, hamp, hsuffix, Bool.false_and, Bool.false_eq_true, if_false]

/-! ## Where a level stops -/

/-- The kinds that a header scan passes at the depth of the header. -/
def passes : TokenKind → Bool
  | .eof | .newline | .pipe | .lParen | .lBracket | .lBrace | .rParen | .rBracket | .rBrace =>
    Bool.false
  | _ => Bool.true

theorem captureHeaderScan_pass (h : passes token.kind) (tokens : List Token) :
    captureHeaderScan 0 (token :: tokens) = captureHeaderScan 0 tokens := by
  simp [captureHeaderScan, isOpener, isCloser, kind_ne h (k := .eof) rfl,
    kind_ne h (k := .lParen) rfl, kind_ne h (k := .lBracket) rfl, kind_ne h (k := .lBrace) rfl,
    kind_ne h (k := .rParen) rfl, kind_ne h (k := .rBracket) rfl, kind_ne h (k := .rBrace) rfl,
    kind_ne h (k := .pipe) rfl, kind_ne h (k := .newline) rfl]

theorem captureHeaderScan_ends (hrest : Ends rest) : captureHeaderScan 0 rest = Bool.false := by
  cases rest with
  | nil => rfl
  | cons token rest =>
    have htoken : endsExpression token.kind := hrest token rfl
    rw [captureHeaderScan]
    rcases eq_of_endsExpression htoken with h | h | h | h | h <;> rw [h] <;> rfl

theorem Atom.passes (atom : Atom) : passes atom.1.kind := by
  have hatom := atom.kind
  revert hatom
  cases atom.1.kind <;> first | exact fun _ => rfl | exact fun h => absurd h Bool.false_ne_true

theorem captureHeaderScan_spell (hrest : Ends rest) (pairs : List (BinaryOperator × Atom)) :
    captureHeaderScan 0 (spell pairs ++ rest) = Bool.false := by
  induction pairs with
  | nil => exact captureHeaderScan_ends hrest
  | cons pair pairs ih =>
    obtain ⟨op, atom⟩ := pair
    cases op with
    | table token binds =>
      show captureHeaderScan 0 (token :: atom.1 :: (spell pairs ++ rest)) = Bool.false
      cases hpass : passes token.kind with
      | true => rw [captureHeaderScan_pass hpass, captureHeaderScan_pass atom.passes, ih]
      | false =>
        have hpipe : token.kind = .pipe := by
          revert binds hpass
          cases token.kind <;> simp [passes, precedence]
        simp [captureHeaderScan, hpipe, isOpener, isCloser, beq_eq_false_iff_ne.mp
          (atom.kind_ne (k := .colon) rfl), beq_eq_false_iff_ne.mp
          (atom.kind_ne (k := .arrow) rfl)]
    | notIn =>
      show captureHeaderScan 0 (_ :: _ :: atom.1 :: (spell pairs ++ rest)) = Bool.false
      rw [captureHeaderScan_pass rfl, captureHeaderScan_pass rfl,
        captureHeaderScan_pass atom.passes, ih]
    | isNot =>
      show captureHeaderScan 0 (_ :: _ :: atom.1 :: (spell pairs ++ rest)) = Bool.false
      rw [captureHeaderScan_pass rfl, captureHeaderScan_pass rfl,
        captureHeaderScan_pass atom.passes, ih]

variable {op : BinaryOperator}

theorem loopHeaderAt_spell (hrest : Ends rest)
    (h : p.tokens = spell ((op, atom) :: pairs) ++ rest) : p.loopHeaderAt = Bool.false := by
  unfold Parser.loopHeaderAt
  rw [peek_of h, headKind_cons]
  cases op with
  | table token binds =>
    have hatom : p.tokens = token :: atom.1 :: (spell pairs ++ rest) := h
    have htwo := peekAt_two hatom
    have hfollows := headKind_spell hrest pairs
    have hassign : (headKind (spell pairs ++ rest) == TokenKind.assign) = Bool.false := by
      revert hfollows
      cases headKind (spell pairs ++ rest) <;>
      first | exact fun _ => rfl | exact fun h => absurd h Bool.false_ne_true
    have hscan : captureHeaderScan 0 p.tokens.tail = Bool.false := by
      rw [hatom]
      exact (captureHeaderScan_pass atom.passes _).trans (captureHeaderScan_spell hrest pairs)
    simp [htwo, hassign, Parser.captureHeaderAhead, hscan]
  | notIn => rfl
  | isNot => rfl

theorem stopsAt_spell (hrest : Ends rest) (h : p.tokens = spell ((op, atom) :: pairs) ++ rest) :
    p.stopsAt = p.leaves op.lead := by
  unfold Parser.stopsAt Parser.leaves
  rw [peek_of h, headKind_cons, loopHeaderAt_spell hrest h, Bool.or_false]
  cases has : op.lead == TokenKind.as with
  | false => rfl
  | true =>
    cases op with
    | notIn => cases has
    | isNot => cases has
    | table token binds =>
      have hatom : p.tokens = token :: atom.1 :: (spell pairs ++ rest) := h
      have hone : p.peekAt 1 = atom.1.kind := peekAt_one hatom
      have htwo := peekAt_two hatom
      have hfollows := headKind_spell hrest pairs
      have hdot : (headKind (spell pairs ++ rest) == TokenKind.dot) = Bool.false := by
        revert hfollows
        cases headKind (spell pairs ++ rest) <;>
      first | exact fun _ => rfl | exact fun h => absurd h Bool.false_ne_true
      have hreinterpret : p.reinterpretTarget = Bool.false := by
        rw [Parser.reinterpretTarget, hone, atom.kind_ne (k := .ampersand) rfl,
          atom.kind_ne (k := .bang) rfl]
        rfl
      have hpacked : p.packedPatternTarget = Bool.false := by
        rw [Parser.packedPatternTarget, htwo, hdot, Bool.and_false]
      rw [hreinterpret, hpacked]
      rfl

/-! ## One continuation -/

def continueWith (op : BinaryOperator) (active : Expr) :
    Option Expr × Parser → Option Expr × Parser
  | (none, q) => (some active, q)
  | (some right, q) =>
    (some (op.apply active (aliasTarget op.lead right q).1), (aliasTarget op.lead right q).2)

theorem noteStoreAs_of {active : Expr} (h : (p.peek == TokenKind.as) = Bool.false) :
    p.noteStoreAs active = p := by
  unfold Parser.noteStoreAs
  split
  · simp [h]
  · rfl

theorem noteArrow_tokens (p : Parser) : p.noteArrow.tokens = p.tokens := by
  unfold Parser.noteArrow
  split <;> rfl

theorem SameFlags.noteArrow (p : Parser) : SameFlags p p.noteArrow := by
  unfold Parser.noteArrow
  split <;> exact ⟨rfl, rfl⟩

theorem not_as_of_not_leaves (h : p.leaves kind = Bool.false) :
    (kind == TokenKind.as) = Bool.false := by
  simp only [Parser.leaves, Bool.or_eq_false_iff] at h
  exact h.1.1

theorem step_spell (forms : Forms) (hrest : Ends rest)
    (h : p.tokens = spell ((op, atom) :: pairs) ++ rest) (hleaves : p.leaves op.lead = Bool.false) :
    ∃ q : Parser, q.tokens = atom.1 :: (spell pairs ++ rest) ∧ SameFlags p q ∧
      ∀ fuel active minimum, minimum ≤ op.power →
        binaryExpressionStep forms (fuel + 1) active minimum p =
          (rightOperand forms fuel op.power q).map (continueWith op active) := by
  have hpeek : p.peek = op.lead := (peek_of h).trans (headKind_cons op atom pairs rest)
  have hstops : p.stopsAt = Bool.false := (stopsAt_spell hrest h).trans hleaves
  have hnote : ∀ active, p.noteStoreAs active = p := fun active =>
    noteStoreAs_of (by rw [hpeek]; exact not_as_of_not_leaves hleaves)
  cases op with
  | notIn =>
    have htokens : p.tokens = ⟨.not, "not"⟩ :: ⟨.in_, "in"⟩ :: atom.1 :: (spell pairs ++ rest) := h
    refine ⟨p.advance.advance, advance_tokens (advance_tokens htokens),
      (SameFlags.advance p).trans (SameFlags.advance _), fun fuel active minimum hmin => ?_⟩
    have hone : p.peekAt 1 = .in_ := peekAt_one htokens
    have hlt : ¬ comparison < minimum := Nat.not_lt.mpr hmin
    simp only [binaryExpressionStep, hstops, hnote, hpeek, hone, BinaryOperator.lead,
      beq_self_eq_true, Bool.and_self, if_true, if_neg hlt, Bool.false_eq_true, if_false]
    show _ = (rightOperand forms fuel comparison p.advance.advance).map _
    cases rightOperand forms fuel comparison p.advance.advance with
    | none => rfl
    | some result =>
      obtain ⟨right, q⟩ := result
      cases right <;> rfl
  | isNot =>
    have htokens : p.tokens = ⟨.is, "is"⟩ :: ⟨.not, "not"⟩ :: atom.1 :: (spell pairs ++ rest) := h
    have hfirst := advance_tokens ((noteArrow_tokens p).trans htokens)
    refine ⟨p.noteArrow.advance.advance, advance_tokens hfirst,
      ((SameFlags.noteArrow p).trans (SameFlags.advance _)).trans (SameFlags.advance _),
      fun fuel active minimum hmin => ?_⟩
    have hlt : ¬ precedence TokenKind.is < minimum := Nat.not_lt.mpr hmin
    have hnot : p.noteArrow.advance.peek = .not := peek_of hfirst
    simp only [binaryExpressionStep, hstops, hnote, hpeek, BinaryOperator.lead, if_neg hlt,
      Bool.false_eq_true, if_false, hnot, beq_self_eq_true, Bool.and_self, if_true]
    show _ = (rightOperand forms fuel (precedence TokenKind.is) _).map _
    cases rightOperand forms fuel (precedence TokenKind.is) p.noteArrow.advance.advance with
    | none => rfl
    | some result =>
      obtain ⟨right, q⟩ := result
      cases right <;> rfl
  | table token binds =>
    have htokens : p.tokens = token :: atom.1 :: (spell pairs ++ rest) := h
    have hfirst := advance_tokens ((noteArrow_tokens p).trans htokens)
    refine ⟨p.noteArrow.advance, hfirst,
      (SameFlags.noteArrow p).trans (SameFlags.advance _), fun fuel active minimum hmin => ?_⟩
    have hlt : ¬ precedence token.kind < minimum := Nat.not_lt.mpr hmin
    have hnot : p.noteArrow.advance.peek = atom.1.kind := peek_of hfirst
    have hlead : (token.kind == TokenKind.not) = Bool.false := by
      rw [beq_eq_false_iff_ne]
      intro hkind
      rw [hkind] at binds
      cases binds
    simp only [binaryExpressionStep, hstops, hnote, hpeek, BinaryOperator.lead, if_neg hlt, hlead,
      Bool.false_and, Bool.false_eq_true, if_false, hnot, atom.kind_ne (k := .not) rfl,
      Bool.and_false]
    show _ = (rightOperand forms fuel (precedence token.kind) _).map _
    cases rightOperand forms fuel (precedence token.kind) p.noteArrow.advance with
    | none => rfl
    | some result =>
      obtain ⟨right, q⟩ := result
      cases right <;> rfl

theorem step_declines (forms : Forms) (hrest : Ends rest)
    (h : p.tokens = spell ((op, atom) :: pairs) ++ rest) {minimum : Nat}
    (hdeclines : p.leaves op.lead = Bool.true ∨ op.power < minimum) (fuel : Nat) (active : Expr) :
    binaryExpressionStep forms (fuel + 1) active minimum p = some (none, p) := by
  have hpeek : p.peek = op.lead := (peek_of h).trans (headKind_cons op atom pairs rest)
  have hstops := stopsAt_spell hrest h
  cases hleaves : p.leaves op.lead with
  | true => simp only [binaryExpressionStep, hstops, hleaves, if_true]
  | false =>
    have hlt : op.power < minimum := by simpa [hleaves] using hdeclines
    have hnote : p.noteStoreAs active = p :=
      noteStoreAs_of (by rw [hpeek]; exact not_as_of_not_leaves hleaves)
    simp only [binaryExpressionStep, hstops, hleaves, hnote, hpeek, Bool.false_eq_true, if_false]
    cases op with
    | notIn =>
      have hone : p.peekAt 1 = .in_ := peekAt_one h
      simp only [BinaryOperator.lead, hone, beq_self_eq_true, Bool.and_self, if_true]
      exact if_pos hlt
    | isNot => exact if_pos hlt
    | table token binds =>
      have hlead : (token.kind == TokenKind.not) = Bool.false := by
        rw [beq_eq_false_iff_ne]
        intro hkind
        rw [hkind] at binds
        cases binds
      simp only [BinaryOperator.lead, hlead, Bool.false_and, Bool.false_eq_true, if_false]
      exact if_pos hlt

theorem step_ends (forms : Forms) (hrest : Ends rest) (h : p.tokens = rest) {minimum : Nat}
    (hmin : 1 ≤ minimum) (fuel : Nat) (active : Expr) :
    binaryExpressionStep forms (fuel + 1) active minimum p = some (none, p) := by
  have hpeek := peek_of h
  have hends : endsExpression (headKind rest) = Bool.true := by
    cases rest with
    | nil => rfl
    | cons token rest => exact hrest token rfl
  have hkinds := eq_of_endsExpression hends
  have hstops : p.stopsAt = Bool.false := by
    unfold Parser.stopsAt
    rw [hpeek]
    rcases hkinds with h | h | h | h | h <;> simp [h]
  have hnot : (headKind rest == TokenKind.not) = Bool.false := kind_ne hends rfl
  have hnote : p.noteStoreAs active = p := by
    refine noteStoreAs_of ?_
    rw [hpeek]
    rcases hkinds with h | h | h | h | h <;> simp [h]
  simp only [binaryExpressionStep, hstops, hnote, hpeek, hnot, precedence_headKind hrest,
    Bool.false_and, Bool.false_eq_true, if_false]
  exact if_pos hmin

theorem rightOperand_spell (forms : Forms) (hrest : Ends rest)
    (h : p.tokens = atom.1 :: (spell pairs ++ rest)) (fuel power : Nat) :
    rightOperand forms (fuel + 2) power p =
      if power < precedence (headKind (spell pairs ++ rest)) then
        (binaryExpressionLoop forms (fuel + 1) atom.expr (power + 1) 0 p.advance).map
          fun result => (some result.1, result.2)
      else some (some atom.expr, p.advance) := by
  rw [rightOperand, unaryExpression_atom forms fuel hrest h]
  show (if power < precedence p.advance.peek then _ else _) = _
  rw [peek_of (advance_tokens h)]
  split
  · cases binaryExpressionLoop forms (fuel + 1) atom.expr (power + 1) 0 p.advance <;> rfl
  · rfl

/-! ## Results without an operator -/

def Expr.hasOperator (kind : TokenKind) : Expr → Bool
  | .binary left operator right =>
    operator == kind || left.hasOperator kind || right.hasOperator kind
  | .unary _ operand => operand.hasOperator kind
  | .field object _ => object.hasOperator kind
  | _ => Bool.false

/-- What the operator levels do with a sequence when `kind` is left to another part of
the parser: the result has no such operator, and the cursor stands behind an operand. -/
structure Without (kind : TokenKind) (rest : List Token) (p : Parser) (result : Expr)
    (q : Parser) : Prop where
  operator : result.hasOperator kind = Bool.false
  cursor : ∃ pairs, q.tokens = spell pairs ++ rest
  flags : SameFlags p q

theorem Without.of_flags {r : Parser} {result : Expr} (h : SameFlags p q)
    (h' : Without kind rest q result r) : Without kind rest p result r :=
  ⟨h'.operator, h'.cursor, h.trans h'.flags⟩

theorem Atom.hasOperator (atom : Atom) (kind : TokenKind) :
    atom.expr.hasOperator kind = Bool.false := by
  obtain ⟨⟨k, text⟩, h⟩ := atom
  cases k <;> rfl

theorem apply_hasOperator (hleaves : p.leaves kind = Bool.true)
    (hop : p.leaves op.lead = Bool.false) (hleft : left.hasOperator kind = Bool.false)
    (hright : right.hasOperator kind = Bool.false) :
    (op.apply left right).hasOperator kind = Bool.false := by
  have hne : ∀ k, p.leaves k = Bool.false → k ≠ kind := by
    rintro k hk rfl
    rw [hk] at hleaves
    cases hleaves
  cases op with
  | notIn => simp [BinaryOperator.apply, Expr.hasOperator, hne .in_ rfl, hleft, hright]
  | isNot => simp [BinaryOperator.apply, Expr.hasOperator, hne .is rfl, hleft, hright]
  | table token binds =>
    simp [BinaryOperator.apply, Expr.hasOperator, hne token.kind hop, hleft, hright]

theorem aliasTarget_without {lead : TokenKind} (hrest : Ends rest)
    (h : Without kind rest p right q) :
    Without kind rest p (aliasTarget lead right q).1 (aliasTarget lead right q).2 := by
  obtain ⟨pairs, hpairs⟩ := h.cursor
  unfold aliasTarget
  split
  next hfires =>
    simp only [Bool.and_eq_true, beq_iff_eq] at hfires
    have has : headKind (spell pairs ++ rest) = .as := (peek_of hpairs).symm.trans hfires.1.2
    cases pairs with
    | nil =>
      have hzero := precedence_headKind hrest
      rw [show headKind rest = TokenKind.as from has] at hzero
      cases hzero
    | cons pair pairs =>
      obtain ⟨op, atom⟩ := pair
      rw [headKind_cons] at has
      cases op with
      | notIn => cases has
      | isNot => cases has
      | table token binds =>
        have htokens := advance_tokens (advance_tokens hpairs)
        have hflags := (h.flags.trans (SameFlags.advance q)).trans (SameFlags.advance _)
        cases right <;> exact ⟨by first | exact h.operator | rfl, ⟨pairs, htokens⟩,
          ⟨hflags.1, hflags.2⟩⟩
  next => exact h

theorem rightOperand_without (forms : Forms) (hrest : Ends rest) {fuel power : Nat}
    {answer : Option Expr × Parser} (ih : ∀ fuel' < fuel, ∀ {active result : Expr} {minimum count :
      Nat} {p q : Parser} (pairs : List (BinaryOperator × Atom)), p.leaves kind = Bool.true → 1 ≤
      minimum → p.tokens = spell pairs ++ rest → active.hasOperator kind = Bool.false →
      binaryExpressionLoop forms fuel' active minimum count p = some (result, q) → Without kind rest
      p result q) (h : p.tokens = atom.1 :: (spell pairs ++ rest))
    (hleaves : p.leaves kind = Bool.true)
    (hanswer : rightOperand forms fuel power p = some answer) :
    ∃ right q, answer = (some right, q) ∧ Without kind rest p right q := by
  have htokens := advance_tokens h
  have hflags := SameFlags.advance p
  match fuel, ih, hanswer with
  | 0, _, hanswer => cases hanswer
  | 1, _, hanswer => cases hanswer
  | fuel + 2, ih, hanswer =>
    rw [rightOperand_spell forms hrest h] at hanswer
    split at hanswer
    next =>
      obtain ⟨⟨right, q⟩, hloop, rfl⟩ := Option.map_eq_some_iff.mp hanswer
      exact ⟨right, q, rfl, (ih (fuel + 1) (by omega) pairs ((hflags.leaves kind).trans hleaves)
        (Nat.le_add_left 1 power) htokens (atom.hasOperator kind) hloop).of_flags hflags⟩
    next =>
      cases hanswer
      exact ⟨_, _, rfl, atom.hasOperator kind, ⟨pairs, htokens⟩, hflags⟩

theorem loop_without (forms : Forms) (hrest : Ends rest) :
    ∀ (fuel : Nat) {active result : Expr} {minimum count : Nat} {p q : Parser}
      (pairs : List (BinaryOperator × Atom)), p.leaves kind = Bool.true → 1 ≤ minimum →
      p.tokens = spell pairs ++ rest → active.hasOperator kind = Bool.false →
      binaryExpressionLoop forms fuel active minimum count p = some (result, q) →
      Without kind rest p result q := by
  intro fuel
  induction fuel using Nat.strong_induction_on with
  | h fuel ih =>
    intro active result minimum count p q pairs hleaves hmin hpairs hactive hresult
    have hstay : Without kind rest p active p := ⟨hactive, ⟨pairs, hpairs⟩, .refl p⟩
    cases fuel with
    | zero => cases hresult
    | succ fuel =>
      rw [binaryExpressionLoop] at hresult
      split at hresult
      next =>
        cases hresult
        exact ⟨hactive, ⟨pairs, hpairs⟩, ⟨rfl, rfl⟩⟩
      cases fuel with
      | zero => cases hresult
      | succ fuel =>
        cases pairs with
        | nil =>
          rw [step_ends forms hrest hpairs hmin] at hresult
          cases hresult
          exact hstay
        | cons pair pairs =>
          obtain ⟨op, atom⟩ := pair
          by_cases hdeclines : p.leaves op.lead = Bool.true ∨ op.power < minimum
          · rw [step_declines forms hrest hpairs hdeclines] at hresult
            cases hresult
            exact hstay
          rw [not_or, Bool.not_eq_true, Nat.not_lt] at hdeclines
          obtain ⟨q₁, htokens, hflags, hstep⟩ :=
            step_spell forms hrest hpairs hdeclines.1
          rw [hstep _ _ _ hdeclines.2] at hresult
          cases hright : rightOperand forms fuel op.power q₁ with
          | none => simp [hright] at hresult
          | some answer =>
            obtain ⟨right, q₂, rfl, hwithout⟩ := rightOperand_without forms hrest
              (fun fuel' hfuel => ih fuel' (by omega)) htokens
              ((hflags.leaves kind).trans hleaves) hright
            have halias := @aliasTarget_without _ _ _ _ _ op.lead hrest
              (hwithout.of_flags hflags)
            rw [hright] at hresult
            obtain ⟨pairs', hpairs'⟩ := halias.cursor
            exact (ih (fuel + 1) (by omega) pairs'
              ((halias.flags.leaves kind).trans hleaves) hmin hpairs'
              (apply_hasOperator hleaves hdeclines.1 hactive halias.operator)
              hresult).of_flags halias.flags

/-! ## The levels climb -/

/-- No operator of the sequence is left to another part of the parser. -/
def Parser.Takes (p : Parser) (pairs : List (BinaryOperator × Atom)) : Prop :=
  ∀ x ∈ pairs, p.leaves x.1.lead = Bool.false

instance (p : Parser) (pairs : List (BinaryOperator × Atom)) : Decidable (p.Takes pairs) :=
  inferInstanceAs (Decidable (∀ x ∈ pairs, p.leaves x.1.lead = Bool.false))

/-- A level of the parser ends where a level of the algorithm does, with its tree. -/
structure Climbs (rest : List Token) (p : Parser)
    (expected : Tree BinaryOperator Atom × List (BinaryOperator × Atom))
    (result : Expr) (q : Parser) : Prop where
  tree : result = toExpr expected.1
  cursor : q.tokens = spell expected.2 ++ rest
  flags : SameFlags p q

theorem precedence_spell (hrest : Ends rest) (op : BinaryOperator)
    (pairs : List (BinaryOperator × Atom)) :
    op.power < precedence (headKind (spell pairs ++ rest)) ↔
      descends BinaryOperator.power BinaryOperator.probe op pairs = Bool.true := by
  cases pairs with
  | nil =>
    have hzero : precedence (headKind (spell [] ++ rest)) = 0 := precedence_headKind hrest
    simp [hzero, descends]
  | cons pair pairs =>
    obtain ⟨next, atom⟩ := pair
    rw [headKind_cons, descends, decide_eq_true_iff]
    rfl

theorem aliasTarget_of {lead : TokenKind} (h : (p.peek == TokenKind.as) = Bool.false) :
    aliasTarget lead right p = (right, p) := by
  simp [aliasTarget, h]

theorem not_as_of_takes (hrest : Ends rest) (h : p.tokens = spell pairs ++ rest)
    (htakes : p.Takes pairs) : (p.peek == TokenKind.as) = Bool.false := by
  rw [peek_of h]
  cases pairs with
  | nil =>
    have hzero := precedence_headKind hrest
    rw [beq_eq_false_iff_ne]
    intro has
    rw [show headKind rest = TokenKind.as from has] at hzero
    cases hzero
  | cons pair pairs =>
    rw [headKind_cons]
    exact not_as_of_not_leaves (htakes pair mem_cons_self)

theorem Parser.Takes.suffix (used : List (BinaryOperator × Atom)) (h : p.Takes (used ++ pairs))
    (hflags : SameFlags p q) : q.Takes pairs := fun x hx =>
  (hflags.leaves _).trans (h x (mem_append_right used hx))

abbrev climbRight (n : Nat) (op : BinaryOperator) (atom : Atom)
    (pairs : List (BinaryOperator × Atom)) :
    Tree BinaryOperator Atom × List (BinaryOperator × Atom) :=
  if descends BinaryOperator.power BinaryOperator.probe op pairs then
    climb BinaryOperator.power BinaryOperator.probe n (.leaf atom) (op.power + 1) pairs
  else (.leaf atom, pairs)

theorem climbRight_suffix {n : Nat} {op : BinaryOperator} (h : pairs.length ≤ n) :
    ∃ used, pairs = used ++ (climbRight n op atom pairs).2 := by
  unfold climbRight
  split
  · obtain ⟨used, hused, -⟩ := @climb_spec _ _ BinaryOperator.power BinaryOperator.probe n
      (.leaf atom) (op.power + 1) pairs h
    exact ⟨used, hused⟩
  · exact ⟨[], rfl⟩

theorem rightOperand_climbs (forms : Forms) (hrest : Ends rest) (op : BinaryOperator)
    (n fuel : Nat) (ih : ∀ {p : Parser}, pairs.length ≤ n → 0 + pairs.length < binaryChainLimit →
      p.Takes pairs → p.tokens = spell pairs ++ rest →
      ∃ result q, binaryExpressionLoop forms (fuel + 1) (toExpr (.leaf atom)) (op.power + 1) 0 p =
        some (result, q) ∧ Climbs rest p (climb BinaryOperator.power BinaryOperator.probe n
          (.leaf atom) (op.power + 1) pairs) result q)
    (hlen : pairs.length ≤ n) (hcount : pairs.length < binaryChainLimit) (htakes : p.Takes pairs)
    (h : p.tokens = atom.1 :: (spell pairs ++ rest)) :
    ∃ right q, rightOperand forms (fuel + 2) op.power p = some (some right, q) ∧
      Climbs rest p (climbRight n op atom pairs) right q := by
  have hflags := SameFlags.advance p
  have htokens := advance_tokens h
  rw [rightOperand_spell forms hrest h]
  cases hdesc : descends BinaryOperator.power BinaryOperator.probe op pairs with
  | true =>
    obtain ⟨right, q, hloop, hclimbs⟩ := ih hlen (by omega)
      (Parser.Takes.suffix [] htakes hflags) htokens
    refine ⟨right, q, ?_, ?_⟩
    · rw [if_pos ((precedence_spell hrest op pairs).mpr hdesc)]
      exact congrArg (Option.map _) hloop
    · rw [climbRight, if_pos hdesc]
      exact ⟨hclimbs.tree, hclimbs.cursor, hflags.trans hclimbs.flags⟩
  | false =>
    refine ⟨atom.expr, p.advance, ?_, ?_⟩
    · refine if_neg fun hlt => ?_
      rw [(precedence_spell hrest op pairs).mp hlt] at hdesc
      cases hdesc
    · rw [climbRight, if_neg (by rw [hdesc]; nofun)]
      exact ⟨rfl, htokens, hflags⟩

/-- The levels of the parser build the tree of the algorithm, with the lookahead that
sees the first token of an operator only. -/
theorem loop_climbs (forms : Forms) (hrest : Ends rest) :
    ∀ (n : Nat) {left : Tree BinaryOperator Atom} {minimum count fuel : Nat} {p : Parser}
      {pairs : List (BinaryOperator × Atom)}, pairs.length ≤ n → 3 * n + 4 ≤ fuel →
      count + pairs.length < binaryChainLimit → 1 ≤ minimum → p.Takes pairs →
      p.tokens = spell pairs ++ rest →
      ∃ result q, binaryExpressionLoop forms fuel (toExpr left) minimum count p = some (result, q) ∧
        Climbs rest p (climb BinaryOperator.power BinaryOperator.probe n left minimum pairs)
          result q := by
  intro n
  induction n with
  | zero =>
    intro left minimum count fuel p pairs hlen hfuel hcount hmin htakes hpairs
    have hnil := length_eq_zero_iff.mp (Nat.le_zero.mp hlen)
    subst hnil
    obtain ⟨fuel, rfl⟩ : ∃ m, fuel = m + 2 := ⟨fuel - 2, by omega⟩
    have hlimit : ¬ binaryChainLimit ≤ count := by simp at hcount; omega
    refine ⟨toExpr left, p, ?_, rfl, hpairs, .refl p⟩
    rw [binaryExpressionLoop, if_neg hlimit, step_ends forms hrest hpairs hmin]
    rfl
  | succ n ih =>
    intro left minimum count fuel p pairs hlen hfuel hcount hmin htakes hpairs
    obtain ⟨fuel, rfl⟩ : ∃ m, fuel = m + 4 := ⟨fuel - 4, by omega⟩
    have hlimit : ¬ binaryChainLimit ≤ count := by omega
    cases pairs with
    | nil =>
      refine ⟨toExpr left, p, ?_, rfl, hpairs, .refl p⟩
      rw [binaryExpressionLoop, if_neg hlimit, step_ends forms hrest hpairs hmin]
      rfl
    | cons pair pairs =>
      obtain ⟨op, atom⟩ := pair
      rw [length_cons] at hlen hcount
      unfold climb
      split
      next hlt =>
        refine ⟨toExpr left, p, ?_, rfl, hpairs, .refl p⟩
        rw [binaryExpressionLoop, if_neg hlimit, step_declines forms hrest hpairs (.inr hlt)]
        rfl
      rename_i hge
      have hop := htakes (op, atom) mem_cons_self
      obtain ⟨q₁, htokens, hflags, hstep⟩ := step_spell forms hrest hpairs hop
      have htakes' : q₁.Takes pairs := Parser.Takes.suffix [(op, atom)] htakes hflags
      -- the right operand
      obtain ⟨right, q₂, hright, hclimbs⟩ := rightOperand_climbs forms hrest op n fuel
        (fun hlen hcount htakes hpairs =>
          ih hlen (by omega) hcount (Nat.le_add_left 1 _) htakes hpairs)
        (by omega) (by omega) htakes' htokens
      obtain ⟨used, hused⟩ := @climbRight_suffix atom pairs n op (by omega)
      have hflags₂ := hflags.trans hclimbs.flags
      have htakes₂ : q₂.Takes (climbRight n op atom pairs).2 :=
        Parser.Takes.suffix used (hused ▸ htakes') hclimbs.flags
      have hlength : pairs.length = used.length + (climbRight n op atom pairs).2.length :=
        (congrArg length hused).trans length_append
      -- the loop goes on behind it
      obtain ⟨result, q, hresult, hfinal⟩ := @ih
        (.node left op (climbRight n op atom pairs).1) minimum (count + 1) (fuel + 3) q₂ _
        (by omega) (by omega) (by omega) hmin htakes₂ hclimbs.cursor
      refine ⟨result, q, ?_, hfinal.tree, hfinal.cursor, hflags₂.trans hfinal.flags⟩
      have hactive : op.apply (toExpr left) right =
          toExpr (.node left op (climbRight n op atom pairs).1) := by
        rw [hclimbs.tree]
        rfl
      rw [binaryExpressionLoop, if_neg hlimit, hstep _ _ _ (Nat.le_of_not_lt hge), hright]
      simp only [Option.map_some, continueWith,
        aliasTarget_of (not_as_of_takes hrest hclimbs.cursor htakes₂), hactive]
      exact hresult

/-! ## Trees and their expressions -/

theorem apply_eq {op' : BinaryOperator} {l r l' r' : Expr} (h : op.apply l r = op'.apply l' r') :
    op.power = op'.power ∧ l = l' ∧ r = r' := by
  cases op <;> cases op' <;> simp_all [BinaryOperator.apply, BinaryOperator.power]

theorem Atom.expr_ne (atom : Atom) (l r : Expr) : atom.expr ≠ op.apply l r := by
  obtain ⟨⟨k, text⟩, h⟩ := atom
  revert h
  cases op <;> cases k <;> exact fun _ => Expr.noConfusion

theorem wellGrouped_congr : ∀ {t t' : Tree BinaryOperator Atom}, toExpr t = toExpr t' →
    t.ops.map BinaryOperator.power = t'.ops.map BinaryOperator.power ∧
      (WellGrouped BinaryOperator.power t → WellGrouped BinaryOperator.power t')
  | .leaf _, .leaf _, _ => ⟨rfl, fun _ => trivial⟩
  | .leaf atom, .node l' op' r', h => absurd h (atom.expr_ne _ _)
  | .node l op r, .leaf atom, h => absurd h.symm (atom.expr_ne _ _)
  | .node l op r, .node l' op' r', h => by
      obtain ⟨hop, hl, hr⟩ := apply_eq h
      obtain ⟨hlops, hlgrouped⟩ := wellGrouped_congr hl
      obtain ⟨hrops, hrgrouped⟩ := wellGrouped_congr hr
      refine ⟨by simp [hlops, hrops, hop], fun hgrouped => ?_⟩
      obtain ⟨h1, h2, h3, h4⟩ := hgrouped
      refine ⟨hlgrouped h1, hrgrouped h2, ?_, ?_⟩
      · rw [← hop]
        rw [← forall_mem_map (P := (op.power ≤ ·)), ← hlops, forall_mem_map]
        exact h3
      · rw [← hop]
        rw [← forall_mem_map (P := (op.power < ·)), ← hrops, forall_mem_map]
        exact h4

theorem hasOperator_apply
    (h : left.hasOperator kind = Bool.true ∨ right.hasOperator kind = Bool.true) :
    (op.apply left right).hasOperator kind = Bool.true := by
  rcases h with h | h <;> cases op <;> simp [BinaryOperator.apply, Expr.hasOperator, h]

theorem toExpr_hasOperator {binds : 0 < precedence token.kind} :
    ∀ {t : Tree BinaryOperator Atom}, BinaryOperator.table token binds ∈ t.ops →
      (toExpr t).hasOperator token.kind = Bool.true
  | .leaf _, h => nomatch h
  | .node l op r, h => by
      rw [Tree.ops_node, mem_append, mem_cons] at h
      rcases h with h | rfl | h
      · exact hasOperator_apply (.inl (toExpr_hasOperator h))
      · simp [toExpr, BinaryOperator.apply, Expr.hasOperator]
      · exact hasOperator_apply (.inr (toExpr_hasOperator h))

/-! ## The grouping -/

def TightBeforeNotIn (op next : BinaryOperator) : Prop := next = .notIn → comparison ≤ op.power

instance : DecidableRel TightBeforeNotIn := fun op next =>
  inferInstanceAs (Decidable (next = .notIn → comparison ≤ op.power))

theorem honest_iff (op next : BinaryOperator) :
    Honest BinaryOperator.power BinaryOperator.probe op next ↔ TightBeforeNotIn op next := by
  cases next with
  | table token binds => exact ⟨fun _ h => (nomatch h), fun _ h => h⟩
  | isNot => exact ⟨fun _ h => (nomatch h), fun _ h => h⟩
  | notIn =>
    show (op.power < comparison → op.power < 0) ↔ (_ → comparison ≤ op.power)
    constructor
    · intro h _
      by_contra hlt
      exact Nat.not_lt_zero _ (h (Nat.lt_of_not_le hlt))
    · intro h hlt
      exact absurd (h rfl) (Nat.not_le.mpr hlt)

theorem one_le_power (op : BinaryOperator) : 1 ≤ op.power := by
  cases op with
  | table token binds => exact binds
  | notIn => exact Nat.le_add_left 1 2
  | isNot => exact Nat.le_add_left 1 2

theorem climb_all (a : Atom) (pairs : List (BinaryOperator × Atom)) :
    (climb BinaryOperator.power BinaryOperator.probe pairs.length (.leaf a) arrowOr pairs).1.first
        = a ∧
      (climb BinaryOperator.power BinaryOperator.probe pairs.length (.leaf a) arrowOr pairs).1.pairs
        = pairs ∧
      (climb BinaryOperator.power BinaryOperator.probe pairs.length (.leaf a) arrowOr pairs).2
        = [] := by
  obtain ⟨used, h1, h2, h3, -, h5⟩ := @climb_spec _ _ BinaryOperator.power BinaryOperator.probe
    pairs.length (.leaf a) arrowOr pairs (Nat.le_refl _)
  generalize climb BinaryOperator.power BinaryOperator.probe pairs.length (.leaf a) arrowOr pairs =
    out at h1 h2 h3 h5 ⊢
  have hout : out.2 = [] := by
    cases hback : out.2 with
    | nil => rfl
    | cons x back =>
      have hlt := h5 x (by rw [hback]; rfl)
      exact absurd (one_le_power x.1) (Nat.not_le.mpr hlt)
  rw [hout, append_nil] at h1
  exact ⟨h2, h3.trans h1.symm, hout⟩

theorem climb_grouped_iff (a : Atom) (pairs : List (BinaryOperator × Atom)) :
    WellGrouped BinaryOperator.power
        (climb BinaryOperator.power BinaryOperator.probe pairs.length (.leaf a) arrowOr pairs).1 ↔
      (pairs.map Prod.fst).IsChain TightBeforeNotIn := by
  obtain ⟨-, -, hout⟩ := climb_all a pairs
  rw [← List.IsChain.iff honest_iff]
  refine climb_wellGrouped_iff pairs.length (.leaf a) arrowOr pairs pairs (Nat.le_refl _) ?_ trivial
    fun _ _ _ mem => (not_mem_nil mem).elim
  rw [hout, append_nil]

theorem binaryExpression_atom (forms : Forms) {fuel : Nat} {a : Atom} (hrest : Ends rest)
    (h : p.tokens = a.1 :: (spell pairs ++ rest)) (hfuel : 0 < fuel) :
    binaryExpression forms fuel p =
      (binaryExpressionLoop forms fuel (toExpr (.leaf a)) arrowOr 0 p.advance).map
        fun result => (some result.1, result.2) := by
  obtain ⟨fuel, rfl⟩ : ∃ m, fuel = m + 1 := ⟨fuel - 1, by omega⟩
  rw [binaryExpression, unaryExpression_atom forms fuel hrest h]
  show (binaryExpressionLoop forms (fuel + 1) a.expr arrowOr 0 p.advance >>= _) = _
  rw [toExpr]
  cases binaryExpressionLoop forms (fuel + 1) a.expr arrowOr 0 p.advance <;> rfl

/-- A sequence of operands and operators has one tree that follows the table, and the levels build
it exactly when they leave none of its operators to another part of the parser and no `not in`
stands directly behind an operator looser than a comparison. -/
theorem binary_expression_follows_the_table (forms : Forms) (p : Parser) (a : Atom)
    (pairs : List (BinaryOperator × Atom)) (rest : List Token) (fuel : Nat)
    (htokens : p.tokens = a.1 :: (spell pairs ++ rest)) (hrest : Ends rest)
    (hlimit : pairs.length < binaryChainLimit) (hfuel : 3 * pairs.length + 4 ≤ fuel) :
    (∃! t : Tree BinaryOperator Atom,
      WellGrouped BinaryOperator.power t ∧ t.first = a ∧ t.pairs = pairs) ∧
    ((∃ t : Tree BinaryOperator Atom,
      (WellGrouped BinaryOperator.power t ∧ t.first = a ∧ t.pairs = pairs) ∧
        ∃ q, binaryExpression forms fuel p = some (some (toExpr t), q) ∧ q.tokens = rest) ↔
      p.Takes pairs ∧ (pairs.map Prod.fst).IsChain TightBeforeNotIn) := by
  constructor
  · obtain ⟨t, ht, hfirst, hpairs⟩ := exists_wellGrouped BinaryOperator.power a pairs
    refine ⟨t, ⟨ht, hfirst, hpairs⟩, fun t' ⟨ht', hfirst', hpairs'⟩ => ?_⟩
    exact ht'.unique ht (hfirst'.trans hfirst.symm) (hpairs'.trans hpairs.symm)
  have hflags := SameFlags.advance p
  have hadvance := advance_tokens htokens
  rw [binaryExpression_atom forms hrest htokens (by omega)]
  -- without stopped operators the levels climb
  have hclimbs : p.Takes pairs → ∃ q, binaryExpressionLoop forms fuel (toExpr (.leaf a)) arrowOr 0
      p.advance = some (toExpr (climb BinaryOperator.power BinaryOperator.probe pairs.length
        (.leaf a) arrowOr pairs).1, q) ∧ q.tokens = rest := by
    intro htakes
    obtain ⟨result, q, hloop, hresult⟩ := @loop_climbs rest forms hrest pairs.length (.leaf a)
      arrowOr 0 fuel p.advance pairs (Nat.le_refl _) hfuel (by omega) (Nat.le_refl 1)
      (Parser.Takes.suffix [] htakes hflags) hadvance
    refine ⟨q, by rw [hloop, hresult.tree], ?_⟩
    rw [hresult.cursor, (climb_all a pairs).2.2]
    rfl
  constructor
  · rintro ⟨t, ⟨ht, hfirst, hpairs⟩, q, hresult, -⟩
    obtain ⟨⟨result, q'⟩, hloop, hsome⟩ := Option.map_eq_some_iff.mp hresult
    simp only [Prod.mk.injEq, Option.some.injEq] at hsome
    obtain ⟨rfl, rfl⟩ := hsome
    have htakes : p.Takes pairs := by
      intro x hx
      obtain ⟨op, atom⟩ := x
      cases hleaves : p.leaves op.lead with
      | false => rfl
      | true =>
        cases op with
        | notIn => cases hleaves
        | isNot => cases hleaves
        | table token binds =>
          have hwithout := loop_without forms hrest fuel pairs
            ((hflags.leaves _).trans hleaves) (Nat.le_refl 1) hadvance
            (a.hasOperator token.kind) hloop
          have hmem : BinaryOperator.table token binds ∈ t.ops := by
            rw [Tree.ops, hpairs]
            exact mem_map_of_mem hx
          have hhas := toExpr_hasOperator hmem
          cases hhas.symm.trans hwithout.operator
    obtain ⟨q, hclimb, -⟩ := hclimbs htakes
    have heq := hloop.symm.trans hclimb
    simp only [Option.some.injEq, Prod.mk.injEq] at heq
    exact ⟨htakes, (climb_grouped_iff a pairs).mp ((wellGrouped_congr heq.1).2 ht)⟩
  · rintro ⟨htakes, hchain⟩
    obtain ⟨q, hclimb, hq⟩ := hclimbs htakes
    obtain ⟨hfirst, hpairs, -⟩ := climb_all a pairs
    exact ⟨_, ⟨(climb_grouped_iff a pairs).mpr hchain, hfirst, hpairs⟩, q,
      by rw [hclimb]; rfl, hq⟩

/-! ## A membership test behind `and` -/

def noForms : Forms := ⟨fun parser => (none, parser), fun operand parser => (some operand, parser)⟩

def atomX : Atom := ⟨⟨.ident, "x"⟩, by decide⟩
def atomY : Atom := ⟨⟨.ident, "y"⟩, by decide⟩
def atomZ : Atom := ⟨⟨.ident, "z"⟩, by decide⟩
def atomS : Atom := ⟨⟨.ident, "s"⟩, by decide⟩

def andOperator : BinaryOperator := .table ⟨.and, "and"⟩ (by decide)

def plusOperator : BinaryOperator := .table ⟨.plus, "+"⟩ (by decide)

/-- A parser at the tokens of an expression, outside of every header and annotation. -/
def parserAt (tokens : List Token) : Parser :=
  ⟨tokens, none, Bool.false, Bool.false, Bool.false, Bool.false, [], []⟩

/-- The tree of `x and not (y in s)`. -/
def andMembership : Tree BinaryOperator Atom :=
  .node (.leaf atomX) andOperator (.node (.leaf atomY) .notIn
    (.leaf atomS))

/-- `x and y + z not in s` is grouped by the table: the lookahead sees the `+`. -/
theorem membership_behind_and_and_plus :
    ∃ t : Tree BinaryOperator Atom, (WellGrouped BinaryOperator.power t ∧
      t.first = atomX ∧ t.pairs = [(andOperator, atomY),
        (plusOperator, atomZ), (.notIn, atomS)]) ∧
      ∃ q, binaryExpression noForms 13 (parserAt (atomX.1 ::
        (spell [(andOperator, atomY), (plusOperator, atomZ),
          (.notIn, atomS)] ++ []))) = some (some (toExpr t), q) ∧ q.tokens = [] :=
  (binary_expression_follows_the_table noForms _ _ _ [] 13 rfl
    (fun _ mem => (Option.not_mem_none _ mem).elim) (by decide) (by decide)).2.mpr
      ⟨by decide, by decide⟩

/-- `x and y not in s` is read as `not ((x and y) in s)`, though its well-grouped tree is
the one of `x and not (y in s)`. -/
theorem membership_behind_and :
    (binaryExpression noForms 10 (parserAt (atomX.1 ::
        spell [(andOperator, atomY), (.notIn, atomS)]))).map Prod.fst =
      some (some (.unary .not
        (.binary (.binary (.ident "x") .and (.ident "y")) .in_ (.ident "s")))) ∧
    (WellGrouped BinaryOperator.power andMembership ∧ andMembership.first = atomX ∧
      andMembership.pairs = [(andOperator, atomY), (.notIn, atomS)]) ∧
    toExpr andMembership =
      .binary (.ident "x") .and (.unary .not (.binary (.ident "y") .in_ (.ident "s"))) := by
  refine ⟨by decide, ⟨?_, rfl, rfl⟩, by decide⟩
  have leaf (P : BinaryOperator → Prop) : ∀ o ∈ (Tree.leaf atomY).ops, P o :=
    fun _ mem => (not_mem_nil mem).elim
  refine ⟨trivial, ⟨trivial, trivial, leaf _, leaf _⟩, leaf _, ?_⟩
  show ∀ o ∈ [BinaryOperator.notIn], andOperator.power < o.power
  decide

end Elisa.Frontend
