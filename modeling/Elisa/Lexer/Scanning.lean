import Elisa.Lexer.NextToken

/-!
# What the scanners do with the cursor

Every scanner moves the cursor as some number of calls of `advanceChar` would, whether it calls it
or moves the cursor by hand.  Every machine breaks before its fuel is used up.
-/

namespace Elisa.Lexer

open Elisa.Lib Cursor Lexer

variable {inp : Input} {c d : Cursor}

namespace Input

theorem isEnd_iff {position : Nat} : inp.isEnd position = true ↔ inp.sourceLength ≤ position := by
  simp [isEnd]

theorem remaining_lt_of_lt {a b : Nat} (more : a < inp.sourceLength) (lt : a < b) :
    inp.remaining b < inp.remaining a := by
  simp only [remaining]
  omega

theorem remaining_le_of_le {a b : Nat} (le : a ≤ b) : inp.remaining b ≤ inp.remaining a := by
  simp only [remaining]
  omega

theorem lt_of_charAt_ne {index : Nat} (h : inp.charAt index ≠ nullChar) :
    index < inp.sourceLength := by
  by_contra ge
  exact h (charAt_of_end (Nat.not_lt.1 ge))

end Input

/-! ## Machines over the cursor -/

/-- A machine whose steps move the cursor along moves it along. -/
theorem reaches_runSteps {State : Type*} {step : State → Option State} {fuel : Nat}
    {state : State} (cursor : State → Cursor)
    (moves : ∀ state next, step state = some next → Reaches inp (cursor state) (cursor next)) :
    Reaches inp (cursor state) (cursor (runSteps step fuel state)) :=
  runSteps_related (fun a b => Reaches inp (cursor a) (cursor b))
    (fun _ => Reaches.refl _) Reaches.trans moves

theorem advanceChar_remaining (more : c.position < inp.sourceLength) :
    inp.remaining (c.advanceChar inp).position < inp.remaining c.position := by
  rw [Cursor.advanceChar_position more]
  exact Input.remaining_lt_of_lt more (by omega)

theorem advanceChars_remaining {count : Nat} (more : c.position < inp.sourceLength) :
    inp.remaining (c.advanceChars inp (count + 1)).position < inp.remaining c.position :=
  Nat.lt_of_le_of_lt
    (Input.remaining_le_of_le (Cursor.Reaches.advanceChars count).position_le)
    (advanceChar_remaining more)

/-! ## Identifiers -/

theorem identifierStep_moves {next : Cursor} (h : identifierStep inp c = some next) :
    Reaches inp c next := by
  unfold identifierStep at h
  split at h
  · exact absurd h (by simp)
  split at h
  · rw [← Option.some.inj h]
    exact .advanceChar
  split at h
  · rw [← Option.some.inj h]
    exact .advanceChars _
  · exact absurd h (by simp)

theorem identifierStep_remaining {next : Cursor} (h : identifierStep inp c = some next) :
    inp.remaining next.position < inp.remaining c.position := by
  unfold identifierStep at h
  split at h
  · exact absurd h (by simp)
  have more : c.position < inp.sourceLength := by simp_all [isEndOfSource, Input.isEnd]
  split at h
  · rw [← Option.some.inj h]
    exact advanceChar_remaining more
  split at h
  · rename_i continues
    simp only [continuesUnicodeIdentifier, decide_eq_true_eq] at continues
    rw [← Option.some.inj h, advanceLatin1IdentifierChar, ← Nat.succ_pred_eq_of_pos continues]
    exact advanceChars_remaining more
  · exact absurd h (by simp)

theorem scanIdentifier_moves : Reaches inp c (scanIdentifier inp c) :=
  reaches_runSteps id fun _ _ => identifierStep_moves

/-- The bound on the steps is never what ends the scan. -/
theorem scanIdentifier_halts : identifierStep inp (scanIdentifier inp c) = none :=
  runSteps_halts (fun c => inp.remaining c.position) (fun _ _ => identifierStep_remaining)
    (Nat.le_refl _)

theorem lt_scanIdentifier (more : c.position < inp.sourceLength)
    (starts : isIdentifierStart (c.currentChar inp) = true ∨
      startsUnicodeIdentifier inp c.position = true) :
    c.position < (scanIdentifier inp c).position := by
  have step : identifierStep inp c ≠ none := by
    have char : isIdentifierStart (c.currentChar inp) = true →
        isIdentifierChar (c.currentChar inp) = true := by
      simp only [isIdentifierStart, isIdentifierChar, isAlphanumeric, Bool.or_eq_true]
      rintro ((h | h) | h)
      · exact .inl (.inl h)
      · exact .inl (.inr h)
      · exact .inr (.inl h)
    have unicode := @continuesUnicodeIdentifier_of_starts inp c.position
    unfold identifierStep
    rw [if_neg (by simpa [isEndOfSource, Input.isEnd] using more)]
    split
    · simp
    split
    · simp
    · rcases starts with h | h
      · exact absurd (char h) (by assumption)
      · exact absurd (unicode h) (by assumption)
  rcases Nat.lt_or_ge c.position (scanIdentifier inp c).position with lt | ge
  · exact lt
  · have halts : identifierStep inp (scanIdentifier inp c) = none := scanIdentifier_halts
    rw [scanIdentifier_moves.eq_of_le ge] at halts
    exact absurd halts step

/-! ## Numbers -/

/-- How many steps the machine may take without moving. -/
def NumberState.rank : NumberState → Nat
  | .lead => 2
  | .done => 0
  | _ => 1

/-- A step of a number reads characters, or goes to a later state. -/
theorem numberStep_cases {s next : NumberScan} (h : numberStep inp s = some next) :
    s.position < inp.sourceLength ∧
      ((next.toCursor = s.toCursor ∧ next.state.rank < s.state.rank) ∨
        ((∃ count, next.toCursor = s.toCursor.advanceChars inp (count + 1)) ∧
          next.state.rank ≤ 1)) := by
  unfold numberStep at h
  split at h
  · exact absurd h (by simp)
  rename_i more
  refine ⟨by simpa [isEndOfSource, Input.isEnd] using more, ?_⟩
  generalize classifyNumberInput inp s.position = kindOfChar at h
  obtain ⟨cursor, kind, state⟩ := s
  cases state <;> cases kindOfChar <;> simp only [reduceCtorEq, Option.some.injEq] at h <;> subst h
  all_goals first
    | exact .inr ⟨⟨0, rfl⟩, by simp [NumberScan.take, NumberState.rank]⟩
    | exact .inr ⟨⟨1, rfl⟩, by simp [NumberScan.take, NumberState.rank]⟩
    | exact .inl ⟨rfl, by simp [NumberState.rank]⟩

theorem numberStep_moves {s next : NumberScan} (h : numberStep inp s = some next) :
    Reaches inp s.toCursor next.toCursor := by
  obtain ⟨-, ⟨same, -⟩ | ⟨⟨count, moved⟩, -⟩⟩ := numberStep_cases h
  · rw [same]
  · exact ⟨count + 1, moved⟩

theorem runNumber_moves : Reaches inp c (runNumber inp c).toCursor :=
  reaches_runSteps NumberScan.toCursor fun _ _ => numberStep_moves

theorem runNumber_halts : numberStep inp (runNumber inp c) = none := by
  refine runSteps_halts (fun s => 2 * inp.remaining s.position + s.state.rank) ?_ (Nat.le_refl _)
  intro s next h
  obtain ⟨more, ⟨same, lower⟩ | ⟨⟨count, moved⟩, low⟩⟩ := numberStep_cases h
  · rw [same]
    omega
  · have := @advanceChars_remaining inp _ count more
    rw [← moved] at this
    omega

theorem ne_of_isDigit {a b : Char} (digit : isDigit a = true) (other : isDigit b = false) :
    a ≠ b := by
  rintro rfl
  rw [digit] at other
  exact Bool.noConfusion other

theorem lt_of_isDigit {index : Nat} (digit : isDigit (inp.charAt index) = true) :
    index < inp.sourceLength :=
  Input.lt_of_charAt_ne (ne_of_isDigit digit (by decide))

variable {position : Nat}

theorem classifyNumberInput_of_isDigit (digit : isDigit (inp.charAt position) = true) :
    classifyNumberInput inp position = .hexPrefix ∨ classifyNumberInput inp position = .digit := by
  have underscore : inp.charAt position ≠ '_' := ne_of_isDigit digit (by decide)
  have dot : inp.charAt position ≠ '.' := ne_of_isDigit digit (by decide)
  have small : inp.charAt position ≠ 'e' := ne_of_isDigit digit (by decide)
  have capital : inp.charAt position ≠ 'E' := ne_of_isDigit digit (by decide)
  simp only [classifyNumberInput, separatorClass, underscore, dot, small, capital, classifyChar,
    digit, false_and, or_self, if_false, if_true]
  split
  · exact .inl rfl
  · exact .inr rfl

theorem classifyNumberInput_of_dot (dot : inp.charAt position = '.')
    (digit : isDigit (inp.charAt (position + 1)) = true) :
    classifyNumberInput inp position = .fractionDot := by
  have second : inp.charAt (position + 1) ≠ '.' := ne_of_isDigit digit (by decide)
  simp [classifyNumberInput, separatorClass, dot, shouldReadFloatFraction, second, digit]

/-- Where a number starts, at least one character is read. -/
theorem lt_runNumber (starts : isDigit (c.currentChar inp) = true ∨
      (c.currentChar inp = '.' ∧ isDigit (c.peek inp 1) = true)) :
    c.position < (runNumber inp c).position := by
  have more : c.position < inp.sourceLength := by
    rcases starts with digit | ⟨-, digit⟩
    · exact lt_of_isDigit digit
    · have := lt_of_isDigit digit
      omega
  have last : ∀ {fuel} {s : NumberScan}, s.position ≤ (runSteps (numberStep inp) fuel s).position :=
    fun {_ _} => (reaches_runSteps NumberScan.toCursor
      fun _ _ => numberStep_moves).position_le
  have going : c.isEndOfSource inp = false := by simpa [isEndOfSource, Input.isEnd] using more
  have moved := advanceChar_position more
  have lead : ∀ {next}, numberStep inp { toCursor := c, numberKind := .intLit, state := .lead } =
      some next → next.position ≤ (runNumber inp c).position := by
    intro next h
    rw [runNumber, Input.stepsFrom, runSteps_of_some h]
    exact last
  have whole : ∀ {kind state},
      numberStep inp { toCursor := c, numberKind := .intLit, state := .lead } =
        some { toCursor := c, numberKind := .intLit, state := .whole } →
      numberStep inp { toCursor := c, numberKind := .intLit, state := .whole } =
        some { toCursor := c.advanceChar inp, numberKind := kind, state } →
      c.position < (runNumber inp c).position := by
    intro kind state first second
    rw [runNumber, Input.stepsFrom, runSteps_of_some first, runSteps_of_some second]
    exact Nat.lt_of_lt_of_le (by rw [moved]; omega) last
  rcases starts with digit | ⟨dot, digit⟩
  · rcases classifyNumberInput_of_isDigit digit with kind | kind
    · have first : numberStep inp { toCursor := c, numberKind := .intLit, state := .lead } =
          some { toCursor := (c.advanceChar inp).advanceChar inp, numberKind := .hexLit,
                 state := .hex } := by
        simp [numberStep, going, kind, NumberScan.take]
      calc c.position < (c.advanceChar inp).position := by omega
        _ ≤ ((c.advanceChar inp).advanceChar inp).position := position_le_advanceChar
        _ ≤ (runNumber inp c).position := lead first
    · exact whole (by simp [numberStep, going, kind])
        (by simp [numberStep, going, kind, NumberScan.take]; exact ⟨rfl, rfl⟩)
  · have kind := classifyNumberInput_of_dot dot digit
    exact whole (by simp [numberStep, going, kind])
      (by simp [numberStep, going, kind, NumberScan.take]; exact ⟨rfl, rfl⟩)

/-! ## Type suffixes -/

theorem toNat_charAt {index : Nat} (within : index < inp.sourceLength) :
    (inp.charAt index).toNat = inp.byteAt index := by
  have small : inp.byteAt index < 256 := UInt8.toNat_lt _
  have valid : (inp.byteAt index).isValidChar := .inl (by omega)
  rw [Input.charAt, if_pos within, Char.ofNat, dif_pos valid]
  rfl

/-- A byte of a view is a byte of the source. -/
theorem view_getElem? {start stop i : Nat} {byte : UInt8}
    (h : (inp.view start stop)[i]? = some byte) :
    start + i < inp.sourceLength ∧ inp.byteAt (start + i) = byte.toNat := by
  unfold Input.view at h
  split at h
  · simp at h
  rename_i fits
  simp only [not_or, Nat.not_le, Nat.not_lt] at fits
  rw [List.getElem?_take] at h
  split at h
  · rename_i lt
    rw [List.getElem?_drop] at h
    exact ⟨by omega, by simp [Input.byteAt, List.getD_eq_getElem?_getD, h]⟩
  · exact absurd h (by simp)

theorem readTypeSuffixAt_skip {text : Bytes}
    (found : readTypeSuffixAt inp c.position = some text) :
    Reaches inp c (c.skip text.length) ∧ 0 < text.length ∧ text.length < 2 ^ 16 := by
  simp only [readTypeSuffixAt] at found
  split at found
  · exact absurd found (by simp)
  split at found
  · rename_i valid
    have eq := Option.some.inj found
    rw [eq] at valid
    have letters : ∀ suffix ∈ typeSuffixes.map ascii,
        0 < suffix.length ∧ suffix.length ≤ 5 ∧ ∀ byte ∈ suffix, byte.toNat ≠ '\n'.toNat := by
      decide +kernel
    obtain ⟨some_, five, inline⟩ := letters text (List.contains_iff_mem.1 valid)
    have short : text.length < 2 ^ 16 := by omega
    have at_ : ∀ i < text.length, c.position + i < inp.sourceLength ∧ c.peek inp i ≠ '\n' := by
      intro i lt
      have shown : (inp.view c.position ((probeAlphanumeric inp)^[5] (c.position + 1)))[i]? =
          some text[i] := by
        rw [eq]
        exact List.getElem?_eq_getElem lt
      obtain ⟨within, byte⟩ := view_getElem? shown
      refine ⟨within, fun newline => inline text[i] (List.getElem_mem lt) ?_⟩
      rw [← byte, ← toNat_charAt within]
      exact congrArg Char.toNat newline
    have last := (at_ (text.length - 1) (by omega)).1
    exact ⟨.skip (by omega) some_ fun i lt => (at_ i lt).2, some_, short⟩
  · exact absurd found (by simp)

/-! ## Quoted literals -/

/-- What a step does to a text that has not ended: it takes some characters, or the text ends, at
its terminator, or somewhere else. -/
inductive QuotedMove (inp : Input) (terminator : Char) (s next : QuotedScan) : Bool → Prop
  | take (count : Nat) (same : next.quotedDone = s.quotedDone)
      (moved : next.toCursor = s.toCursor.advanceChars inp (count + 1)) :
      QuotedMove inp terminator s next false
  | close (done : next.quotedDone = true) (textEnd : next.quotedTextEnd = s.position)
      (closed : inp.charAt s.position = terminator)
      (moved : next.toCursor = s.toCursor.advanceChar inp) : QuotedMove inp terminator s next true
  | stop (done : next.quotedDone = true) (textEnd : next.quotedTextEnd = next.position)
      (other : inp.charAt next.position ≠ terminator)
        (moved : Reaches inp s.toCursor next.toCursor) :
      QuotedMove inp terminator s next true

/-- Where a quoted text ends: at the end of the source, at its terminator, which is taken, or
somewhere else, where the cursor stays. -/
structure QuotedScan.Ended (inp : Input) (terminator : Char) (c : Cursor) (s : QuotedScan) :
    Prop where
  moved : Reaches inp c s.toCursor
  le_textEnd : c.position ≤ s.textEnd
  textEnd_le : s.textEnd ≤ inp.sourceLength
  position_eq : s.position = s.textEnd + if inp.charAt s.textEnd = terminator then 1 else 0

section Ended

variable {State : Type*} {step : State → Option State} {terminator : Char}
  (scan : State → QuotedScan) (isOver : State → Bool) (start : State)

theorem QuotedMove.moves {s next : QuotedScan} {ends : Bool}
    (move : QuotedMove inp terminator s next ends) : Reaches inp s.toCursor next.toCursor := by
  cases move with
  | take count same moved => exact ⟨count + 1, moved⟩
  | close done textEnd closed moved =>
    rw [moved]
    exact .advanceChar
  | stop done textEnd other moved => exact moved

/-- A quoted scan ends by itself, as each of its steps reads a character. -/
theorem halts_of_moves
    (moves : ∀ s next, step s = some next → (scan s).position < inp.sourceLength ∧
      isOver s = false ∧ QuotedMove inp terminator (scan s) (scan next) (isOver next)) :
    step (runSteps step (inp.stepsFrom (scan start).position) start) = none := by
  refine runSteps_halts
    (fun s => 2 * inp.remaining (scan s).position + if isOver s then 0 else 1) ?_ ?_
  · intro s next h
    obtain ⟨more, body, move⟩ := moves s next h
    have le := @Input.remaining_le_of_le inp _ _ move.moves.position_le
    generalize isOver next = ends at move
    cases move with
    | take count same moved =>
      have := @advanceChars_remaining inp _ count more
      rw [← moved] at this
      simp only [body]
      simp only [Bool.false_eq_true, ↓reduceIte]
      omega
    | close | stop =>
      simp only [body, Bool.false_eq_true, ↓reduceIte]
      omega
  · simp only [Input.stepsFrom]
    split <;> omega

/-- A quoted scan ends behind its terminator or at the end of the source. -/
theorem ended_of_moves (visible : terminator ≠ nullChar)
    (moves : ∀ s next, step s = some next → (scan s).position < inp.sourceLength ∧
      isOver s = false ∧ QuotedMove inp terminator (scan s) (scan next) (isOver next))
    (breaks : ∀ s, step s = none → inp.sourceLength ≤ (scan s).position ∨ isOver s = true)
    (within : (scan start).position ≤ inp.sourceLength) (still : isOver start = false)
    (unread : (scan start).quotedDone = false) :
    (scan (runSteps step (inp.stepsFrom (scan start).position) start)).Ended inp terminator
      (scan start).toCursor := by
  have moved : Reaches inp (scan start).toCursor
      (scan (runSteps step (inp.stepsFrom (scan start).position) start)).toCursor :=
    reaches_runSteps (fun s => (scan s).toCursor) fun s next h => (moves s next h).2.2.moves
  have halts := halts_of_moves scan isOver start moves
  have ended := @runSteps_keeps State step (inp.stepsFrom (scan start).position) start
    (fun s => (scan start).position ≤ (scan s).position ∧
      (isOver s = (scan s).quotedDone) ∧ ((scan s).quotedDone = true →
        (scan start).position ≤ (scan s).quotedTextEnd ∧
        (scan s).position = (scan s).quotedTextEnd +
          if inp.charAt (scan s).quotedTextEnd = terminator then 1 else 0))
    (by
      rintro s next ⟨le, same, -⟩ h
      obtain ⟨more, body, move⟩ := moves s next h
      have on := move.moves.position_le
      have less : (scan start).position ≤ (scan next).position := Nat.le_trans le on
      rw [body] at same
      generalize isOver next = ends at move ⊢
      cases move with
      | take count unread moved =>
        rw [← same] at unread
        exact ⟨less, unread.symm, fun done => absurd (unread.symm.trans done) (by simp)⟩
      | close done textEnd closed moved =>
        refine ⟨less, done.symm, fun _ => ?_⟩
        rw [textEnd, if_pos closed, moved, advanceChar_position more]
        exact ⟨le, rfl⟩
      | stop done textEnd other moved =>
        refine ⟨less, done.symm, fun _ => ?_⟩
        rw [textEnd, if_neg other]
        exact ⟨less, rfl⟩)
    ⟨Nat.le_refl _, by rw [still, unread], fun done => absurd (unread.symm.trans done) (by simp)⟩
  generalize runSteps step (inp.stepsFrom (scan start).position) start = last at moved halts ended
  obtain ⟨-, same, ended⟩ := ended
  have bound := moved.le_length within
  cases done : (scan last).quotedDone with
  | true =>
    obtain ⟨le, eq⟩ := ended done
    have textEnd : (scan last).textEnd = (scan last).quotedTextEnd := by
      simp [QuotedScan.textEnd, done]
    exact ⟨moved, by omega, by omega, by rw [textEnd]; exact eq⟩
  | false =>
    have textEnd : (scan last).textEnd = (scan last).position := by
      simp [QuotedScan.textEnd, done]
    have end_ : inp.sourceLength ≤ (scan last).position := by
      rcases breaks last halts with stop | stop
      · exact stop
      · rw [same, done] at stop
        exact absurd stop (by simp)
    refine ⟨moved, by rw [textEnd]; exact moved.position_le, by omega, ?_⟩
    rw [textEnd, Input.charAt_of_end end_, if_neg visible.symm]
    rfl

end Ended

/-- A step inside a string takes characters, or ends behind the terminator. -/
theorem quotedStep_moves {terminator : Char} (visible : terminator ≠ '\n' ∧ terminator ≠ nullChar)
    {s next : QuotedScan} (h : quotedStep inp terminator s = some next) :
    s.position < inp.sourceLength ∧ s.quotedDone = false ∧
      QuotedMove inp terminator s next next.quotedDone := by
  unfold quotedStep at h
  split at h
  · exact absurd h (by simp)
  rename_i going
  obtain ⟨more, body⟩ := not_or.1 going
  have more : s.position < inp.sourceLength := by
    simpa [isEndOfSource, Input.isEnd] using more
  have body : s.quotedDone = false := by simpa using body
  refine ⟨more, body, ?_⟩
  cases kind : classifyQuotedInput inp terminator s.position <;>
    simp only [kind, Option.some.injEq] at h <;> subst h <;>
    simp only [classifyQuotedInput, LexerQuotedInputPolicy.classify] at kind
  case terminator =>
    refine .close rfl rfl ?_ rfl
    split_ifs at kind
    assumption
  case newline =>
    refine .stop rfl rfl ?_ (.refl _)
    split_ifs at kind
    assumption
  case escapeTerm =>
    refine .stop rfl rfl ?_ .advanceChar
    show inp.charAt (s.toCursor.advanceChar inp).position ≠ terminator
    rw [advanceChar_position more]
    split_ifs at kind with _ _ _ nothing
    simp only [Bool.or_eq_true, Input.isEnd_iff, beq_iff_eq] at nothing
    rcases nothing with ended | newline
    · rw [Input.charAt_of_end ended]
      exact visible.2.symm
    · rw [newline]
      exact visible.1.symm
  case escape =>
    rw [body]
    exact .take 1 body.symm rfl
  case other =>
    rw [body]
    exact .take 0 body.symm rfl

theorem runQuoted_ended {terminator : Char} (visible : terminator ≠ '\n' ∧ terminator ≠ nullChar)
    (start : c.position ≤ inp.sourceLength) :
    (runQuoted inp terminator c).Ended inp terminator c := by
  refine ended_of_moves id QuotedScan.quotedDone
    { toCursor := c, quotedTextEnd := c.position, quotedDone := false } visible.2
    (fun s next => quotedStep_moves visible) ?_ start rfl rfl
  intro s broken
  unfold quotedStep at broken
  split at broken
  · rename_i stop
    simpa [isEndOfSource, Input.isEnd] using stop
  · split at broken <;> exact absurd broken (by simp)

/-! ## F-strings -/

variable {depth : Nat}

theorem charAt_of_quote (kind : classifyFStringInput inp position depth = .quote) :
    inp.charAt position = '"' := by
  simp only [classifyFStringInput, ite_eq_iff, reduceCtorEq, and_false, or_false, and_true] at kind
  exact kind

theorem charAt_of_newline (kind : classifyFStringInput inp position depth = .newline) :
    inp.charAt position = '\n' := by
  simp only [classifyFStringInput, ite_eq_iff, reduceCtorEq, and_false, false_or, or_false,
    and_true] at kind
  exact kind.2

theorem charAt_of_escapeTerm (kind : classifyFStringInput inp position depth = .escapeTerm) :
    inp.charAt (position + 1) ≠ '"' := by
  simp only [classifyFStringInput, ite_eq_iff, reduceCtorEq, and_false, false_or, or_false,
    and_true] at kind
  obtain ⟨-, -, -, nothing⟩ := kind
  simp only [escapesNothing, Bool.or_eq_true, Input.isEnd_iff, beq_iff_eq] at nothing
  rcases nothing with ended | newline
  · rw [Input.charAt_of_end ended]
    decide
  · rw [newline]
    decide

def FStringScan.isOver (s : FStringScan) : Bool := decide (s.state = .done)

theorem fstringStep_moves {s next : FStringScan} (h : fstringStep inp s = some next) :
    s.position < inp.sourceLength ∧ s.isOver = false ∧
      QuotedMove inp '"' s.toQuotedScan next.toQuotedScan next.isOver := by
  unfold fstringStep at h
  split at h
  · exact absurd h (by simp)
  rename_i more
  have more : s.position < inp.sourceLength := by
    simpa [isEndOfSource, Input.isEnd] using more
  have quote := @charAt_of_quote inp s.position s.fstringDepth
  have newline := @charAt_of_newline inp s.position s.fstringDepth
  have escape := @charAt_of_escapeTerm inp s.position s.fstringDepth
  refine ⟨more, ?_⟩
  generalize classifyFStringInput inp s.position s.fstringDepth = kind at h quote newline escape
  obtain ⟨⟨cursor, textEnd, done⟩, depth, state⟩ := s
  cases kind <;> cases state <;> simp only [reduceCtorEq, Option.some.injEq] at h <;> subst h <;>
    refine ⟨rfl, ?_⟩
  case quote.text => exact .close rfl rfl (quote rfl) rfl
  case newline.text | newline.expr =>
    refine .stop rfl rfl ?_ (.refl _)
    show inp.charAt cursor.position ≠ '"'
    rw [newline rfl]
    decide
  case escapeTerm.text =>
    refine .stop rfl rfl ?_ .advanceChar
    show inp.charAt (cursor.advanceChar inp).position ≠ '"'
    rw [advanceChar_position more]
    exact escape rfl
  all_goals exact .take _ rfl rfl

theorem runFString_ended (start : c.position ≤ inp.sourceLength) :
    (runFString inp c).toQuotedScan.Ended inp '"' c := by
  refine ended_of_moves FStringScan.toQuotedScan FStringScan.isOver
    { toCursor := c, quotedTextEnd := c.position, quotedDone := false, fstringDepth := 0,
      state := .text } (by decide)
    (fun s next => fstringStep_moves) ?_ start rfl rfl
  intro s broken
  unfold fstringStep at broken
  split at broken
  · rename_i stop
    exact .inl (by simpa [isEndOfSource, Input.isEnd] using stop)
  · generalize classifyFStringInput inp s.position s.fstringDepth = kind at broken
    obtain ⟨scan, depth, state⟩ := s
    cases state <;> cases kind <;> simp only [reduceCtorEq] at broken
    all_goals exact .inr rfl

/-! ## Comments -/

theorem afterOne_of_lt (more : position < inp.sourceLength) :
    afterOne inp position = position + 1 := if_pos more

theorem lineCommentStep_eq {next : Cursor} (h : lineCommentStep inp c = some next) :
    c.position < inp.sourceLength ∧ next = c.advanceChar inp := by
  unfold lineCommentStep at h
  split at h
  · exact absurd h (by simp)
  rename_i more
  have more : c.position < inp.sourceLength := by simpa [isEndOfSource, Input.isEnd] using more
  split at h
  · exact absurd h (by simp)
  rename_i inline
  rw [afterOne_of_lt more] at h
  exact ⟨more, by rw [advanceChar_of_inline more inline]; exact (Option.some.inj h).symm⟩

theorem runLineComment_moves : Reaches inp c (runLineComment inp c) :=
  reaches_runSteps id fun _ _ h => by
    rw [(lineCommentStep_eq h).2]
    exact .advanceChar

theorem runLineComment_halts : lineCommentStep inp (runLineComment inp c) = none := by
  refine runSteps_halts (fun c => inp.remaining c.position) ?_ (Nat.le_refl _)
  intro c next h
  obtain ⟨more, rfl⟩ := lineCommentStep_eq h
  exact advanceChar_remaining more

theorem lt_runLineComment (hash : c.currentChar inp = '#') :
    c.position < (runLineComment inp c).position := by
  have more : c.position < inp.sourceLength :=
    Input.lt_of_charAt_ne (by rw [show inp.charAt c.position = '#' from hash]; decide)
  rcases Nat.lt_or_ge c.position (runLineComment inp c).position with lt | ge
  · exact lt
  have halts := @runLineComment_halts inp c
  rw [runLineComment_moves.eq_of_le ge, lineCommentStep,
    if_neg (by simpa [isEndOfSource, Input.isEnd] using more), if_neg (by rw [hash]; decide)]
    at halts
  exact absurd halts (by simp)

theorem afterThree_eq (quotes : isBlockCommentStart inp c = true) :
    afterThree inp c = c.advanceChars inp 3 ∧ c.position + 3 ≤ inp.sourceLength := by
  simp only [isBlockCommentStart, Bool.and_eq_true, beq_iff_eq] at quotes
  obtain ⟨⟨first, second⟩, third⟩ := quotes
  have more : c.position + 2 < inp.sourceLength :=
    Input.lt_of_charAt_ne (by rw [show inp.charAt (c.position + 2) = '"' from third]; decide)
  have inline : ∀ offset < 3, c.peek inp offset ≠ '\n' := by
    intro offset lt
    have : offset = 0 ∨ offset = 1 ∨ offset = 2 := by omega
    rcases this with rfl | rfl | rfl
    · rw [show c.peek inp 0 = '"' from first]
      decide
    · rw [second]
      decide
    · rw [third]
      decide
  refine ⟨?_, by omega⟩
  rw [advanceChars_of_inline (by omega) (by omega) inline]
  simp [afterThree, skip, afterOne_of_lt, more, show c.position < inp.sourceLength by omega,
    show c.position + 1 < inp.sourceLength by omega]

theorem blockCommentStep_moves {s next : Cursor × Bool}
    (h : blockCommentStep inp s = some next) :
    s.1.position < inp.sourceLength ∧ s.2 = false ∧
      ∃ count, next.1 = s.1.advanceChars inp (count + 1) := by
  unfold blockCommentStep at h
  split at h
  · exact absurd h (by simp)
  rename_i going
  obtain ⟨more, still⟩ := not_or.1 going
  refine ⟨by simpa [isEndOfSource, Input.isEnd] using more, by simpa using still, ?_⟩
  split at h
  · rename_i quotes
    rw [← Option.some.inj h]
    exact ⟨2, (afterThree_eq quotes).1⟩
  · rw [← Option.some.inj h]
    exact ⟨0, rfl⟩

theorem runBlockComment_moves : Reaches inp c (runBlockComment inp c).1 :=
  reaches_runSteps Prod.fst fun _ _ h => by
    obtain ⟨-, -, count, moved⟩ := blockCommentStep_moves h
    exact ⟨count + 1, moved⟩

theorem runBlockComment_halts :
    blockCommentStep inp (runBlockComment inp c) = none := by
  refine runSteps_halts (fun s => 2 * inp.remaining s.1.position) ?_ (by simp [Input.stepsFrom])
  intro s next h
  obtain ⟨more, -, count, moved⟩ := blockCommentStep_moves h
  have := @advanceChars_remaining inp _ count more
  rw [← moved] at this
  omega

/-! ## Scanning indices -/

section Indices

variable {kind : Char → Bool} {index : Nat}

theorem scanWhile_step {a b : Nat}
    (h : (if a < inp.sourceLength ∧ kind (inp.charAt a) = true then some (a + 1) else none) =
      some b) : a < inp.sourceLength ∧ kind (inp.charAt a) = true ∧ b = a + 1 := by
  split at h
  · rename_i taken
    exact ⟨taken.1, taken.2, (Option.some.inj h).symm⟩
  · exact absurd h (by simp)

/-- A scan over a kind of character passes only such characters. -/
theorem scanWhile_spec :
    index ≤ scanWhile inp kind index ∧
      ∀ i, index ≤ i → i < scanWhile inp kind index →
        i < inp.sourceLength ∧ kind (inp.charAt i) = true := by
  refine runSteps_keeps (fun stop => index ≤ stop ∧ ∀ i, index ≤ i → i < stop →
    i < inp.sourceLength ∧ kind (inp.charAt i) = true) ?_ ⟨Nat.le_refl _, by omega⟩
  rintro a b ⟨le, all⟩ h
  obtain ⟨more, taken, rfl⟩ := scanWhile_step h
  refine ⟨by omega, fun i from_ lt => ?_⟩
  rcases Nat.lt_or_ge i a with before | at_
  · exact all i from_ before
  · obtain rfl : i = a := by omega
    exact ⟨more, taken⟩

theorem le_scanWhile : index ≤ scanWhile inp kind index := scanWhile_spec.1

theorem scanWhile_le (within : index ≤ inp.sourceLength) :
    scanWhile inp kind index ≤ inp.sourceLength := by
  rcases Nat.eq_or_lt_of_le (@le_scanWhile inp kind index) with eq | lt
  · omega
  · have := (@scanWhile_spec inp kind index).2 (scanWhile inp kind index - 1) (by omega) (by omega)
    omega

theorem scanWhile_stops (more : scanWhile inp kind index < inp.sourceLength) :
    kind (inp.charAt (scanWhile inp kind index)) = false := by
  have halts := @runSteps_halts Nat
    (fun index => if index < inp.sourceLength ∧ kind (inp.charAt index) = true then
      some (index + 1) else none) (inp.remaining index) index (fun i => inp.remaining i)
    (fun a b h => by
      obtain ⟨lt, -, rfl⟩ := scanWhile_step h
      exact Input.remaining_lt_of_lt lt (by omega))
    (Nat.le_refl _)
  by_contra taken
  exact absurd halts (by
    show (if scanWhile inp kind index < inp.sourceLength ∧
      kind (inp.charAt (scanWhile inp kind index)) = true then _ else _) ≠ none
    rw [if_pos ⟨more, by simpa using taken⟩]
    simp)

theorem runDirectiveNumber_spec :
    index ≤ (runDirectiveNumber inp index).index ∧
      ∀ i, index ≤ i → i < (runDirectiveNumber inp index).index →
        i < inp.sourceLength ∧ isDigit (inp.charAt i) = true := by
  refine runSteps_keeps (fun s : DirectiveNumber => index ≤ s.index ∧
    ∀ i, index ≤ i → i < s.index → i < inp.sourceLength ∧ isDigit (inp.charAt i) = true) ?_
    ⟨Nat.le_refl _, by simp; omega⟩
  rintro a b ⟨le, all⟩ h
  unfold directiveNumberStep at h
  split at h
  · rename_i taken
    rw [← Option.some.inj h]
    refine ⟨Nat.le_succ_of_le le, fun i from_ lt => ?_⟩
    rcases Nat.lt_or_ge i a.index with before | at_
    · exact all i from_ before
    · obtain rfl : i = a.index := by
        have : i < a.index + 1 := lt
        omega
      exact taken
  · exact absurd h (by simp)

end Indices

end Elisa.Lexer
