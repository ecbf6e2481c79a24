import Elisa.Lexer.StreamEnd

/-!
# Numbered lines

What `try_consume_line_directive` looks for at the start of a line, as a text: `#line` and a number,
with blanks between them and maybe behind the `#`.  The number is added up in a signed 64-bit
integer, and one that is too great stops the program, whether a file is named behind it or the line
is a comment after all.  Where it becomes the number of a line, the lines behind it are counted on
from there.
-/

namespace Elisa.Lexer

open Elisa.Lib Cursor Lexer

variable {inp : Input}

/-! ## The text -/

/-- A line starts at the origin and behind every newline. -/
def LineStart (inp : Input) (origin p : Nat) : Prop :=
  p = origin ∨ origin < p ∧ inp.charAt (p - 1) = '\n'

def BlanksBetween (inp : Input) (start stop : Nat) : Prop :=
  ∀ i, start ≤ i → i < stop → isBlank (inp.charAt i) = true

/-- From `p` on there stand `#line` and a number, the digits from `first` up to `stop`. -/
structure Numbered (inp : Input) (p first stop : Nat) : Prop where
  hash : inp.charAt p = '#'
  word : ∃ w, p < w ∧ BlanksBetween inp (p + 1) w ∧ spellsAt inp ['l', 'i', 'n', 'e'] w = true ∧
    w + 4 < first ∧ BlanksBetween inp (w + 4) first
  some_ : first < stop
  digits : ∀ i, first ≤ i → i < stop → isDigit (inp.charAt i) = true
  ended : isDigit (inp.charAt stop) = false

/-- The number that so many digits from an index on are. -/
def Input.decimalAt (inp : Input) (first : Nat) : Nat → Nat
  | 0 => 0
  | count + 1 => inp.decimalAt first count * 10 + ((inp.charAt (first + count)).toNat - 48)

/-- Behind an index its line goes on with something else than blanks and carriage returns. -/
def Names (inp : Input) (stop : Nat) : Prop :=
  ∃ i, stop ≤ i ∧ i < inp.sourceLength ∧
    ¬ (isBlank (inp.charAt i) = true ∨ inp.charAt i = '\r') ∧
    ∀ j, stop ≤ j → j ≤ i → inp.charAt j ≠ '\n'

def Input.newlinesFrom (inp : Input) (p : Nat) : Nat :=
  (List.range' p (inp.remaining p)).countP fun i => inp.charAt i == '\n'

/-- The number of every numbered line fits a signed 64-bit integer, and if it is to number the lines
behind it, the last of them as well. -/
def NumbersFit (inp : Input) (origin : Nat) : Prop :=
  ∀ p first stop, LineStart inp origin p → Numbered inp p first stop →
    inp.decimalAt first (stop - first) < 2 ^ 63 ∧
      (inp.renumberOnDirective = true → Names inp stop →
        inp.decimalAt first (stop - first) + inp.newlinesFrom stop ≤ 2 ^ 63)

/-! ## Newlines -/

section Newlines

variable {p q : Nat}

theorem newlinesFrom_of_end (last : inp.sourceLength ≤ p) : inp.newlinesFrom p = 0 := by
  simp [Input.newlinesFrom, Input.remaining, Nat.sub_eq_zero_of_le last]

theorem newlinesFrom_of_lt (more : p < inp.sourceLength) :
    inp.newlinesFrom p =
      (if inp.charAt p = '\n' then 1 else 0) + inp.newlinesFrom (p + 1) := by
  have one : inp.remaining p = inp.remaining (p + 1) + 1 := by
    simp only [Input.remaining]
    omega
  simp only [Input.newlinesFrom, one, List.range'_succ, List.countP_cons, beq_iff_eq]
  omega

theorem newlinesFrom_le : inp.newlinesFrom p ≤ inp.remaining p := by
  refine Nat.le_trans List.countP_le_length ?_
  rw [List.length_range']

theorem newlinesFrom_anti (le : p ≤ q) : inp.newlinesFrom q ≤ inp.newlinesFrom p := by
  induction le with
  | refl => exact Nat.le_refl _
  | @step q le ih =>
    refine Nat.le_trans ?_ ih
    rcases Nat.lt_or_ge q inp.sourceLength with more | last
    · rw [newlinesFrom_of_lt more]
      exact Nat.le_add_left _ _
    · rw [newlinesFrom_of_end (Nat.le_succ_of_le last)]
      exact Nat.zero_le _

end Newlines

/-! ## The number -/

theorem decimalDigitValue_of_isDigit {character : Char} (digit : isDigit character = true) :
    LexerDirectiveDigit.decimalDigitValue character = character.toNat - 48 := by
  simp only [isDigit, decide_eq_true_eq] at digit
  exact if_pos digit

/-- What holds while a number is added up. -/
structure Lexer.DirectiveNumber.Counts (inp : Input) (first : Nat) (s : DirectiveNumber) :
    Prop where
  le : first ≤ s.index
  digits : ∀ i, first ≤ i → i < s.index → isDigit (inp.charAt i) = true
  value : s.value = inp.decimalAt first (s.index - first)
  trapped : s.trapped = true ↔ 2 ^ 63 ≤ s.value

variable {first stop p : Nat}

theorem Lexer.DirectiveNumber.Counts.step {s next : DirectiveNumber} (counts : s.Counts inp first)
    (h : directiveNumberStep inp s = some next) : next.Counts inp first := by
  unfold directiveNumberStep at h
  split at h
  swap
  · exact absurd h (by simp)
  rename_i taken
  rw [← Option.some.inj h]
  have le := counts.le
  have digit := decimalDigitValue_of_isDigit taken.2
  refine ⟨Nat.le_succ_of_le le, fun i from_ lt => ?_, ?_, ?_⟩
  · rcases Nat.lt_or_ge i s.index with before | at_
    · exact counts.digits i from_ before
    · obtain rfl : i = s.index := Nat.le_antisymm (Nat.le_of_lt_succ lt) at_
      exact taken.2
  · rw [Nat.sub_add_comm le, Input.decimalAt, ← counts.value, Nat.add_sub_cancel' le, digit]
  · have grows : s.value ≤
        s.value * 10 + LexerDirectiveDigit.decimalDigitValue (inp.charAt s.index) := by omega
    simp only [Bool.or_eq_true, counts.trapped, fitsInt, Bool.not_eq_true', decide_eq_false_iff_not,
      Nat.not_lt]
    omega

theorem runDirectiveNumber_counts : (runDirectiveNumber inp first).Counts inp first :=
  runSteps_keeps _ (fun _ _ counts => counts.step)
    ⟨Nat.le_refl _, fun i from_ lt => absurd lt (Nat.not_lt.mpr from_), by
      rw [Nat.sub_self]
      rfl, by simp⟩

theorem runDirectiveNumber_ended :
    isDigit (inp.charAt (runDirectiveNumber inp first).index) = false := by
  have halts := @runDirectiveNumber_halts inp first
  unfold directiveNumberStep at halts
  by_contra digit
  have digit := Bool.not_eq_false _ |>.mp digit
  have more := Input.lt_of_charAt_ne fun null => by
    rw [null] at digit
    cases digit
  rw [if_pos ⟨more, digit⟩] at halts
  cases halts

/-- The lexer finds the number that stands in the text. -/
theorem runDirectiveNumber_index (digits : ∀ i, first ≤ i → i < stop →
    isDigit (inp.charAt i) = true)
    (ended : isDigit (inp.charAt stop) = false) (le : first ≤ stop) :
    (runDirectiveNumber inp first).index = stop := by
  have counts := @runDirectiveNumber_counts inp first
  rcases Nat.lt_trichotomy (runDirectiveNumber inp first).index stop with lt | same | gt
  · exact absurd (digits _ counts.le lt) (by simp [runDirectiveNumber_ended])
  · exact same
  · rw [counts.digits stop le gt] at ended
    cases ended

/-! ## Where the number starts -/

theorem scanWhile_eq {kind : Char → Bool} (null : kind nullChar = false) (le : first ≤ stop)
    (all : ∀ i, first ≤ i → i < stop → kind (inp.charAt i) = true)
    (ended : kind (inp.charAt stop) = false) : scanWhile inp kind first = stop := by
  obtain ⟨from_, between⟩ := @scanWhile_spec inp kind first
  rcases Nat.lt_trichotomy (scanWhile inp kind first) stop with lt | same | gt
  · have taken := all _ from_ lt
    have more := Input.lt_of_charAt_ne fun at_ => by
      rw [at_, null] at taken
      cases taken
    rw [scanWhile_stops more] at taken
    cases taken
  · exact same
  · rw [(between stop le gt).2] at ended
    cases ended

theorem spellsAt_line {w : Nat} : spellsAt inp ['l', 'i', 'n', 'e'] w = true ↔
    ¬ (inp.charAt w ≠ 'l' ∨ inp.charAt (w + 1) ≠ 'i' ∨ inp.charAt (w + 2) ≠ 'n' ∨
      inp.charAt (w + 3) ≠ 'e') := by
  simp [spellsAt]

theorem numbered_of_start (hash : inp.charAt p = '#')
    (found : directiveNumberStart inp p = some first)
    (some_ : (runDirectiveNumber inp first).index ≠ first) :
    Numbered inp p first (runDirectiveNumber inp first).index := by
  have counts := @runDirectiveNumber_counts inp first
  refine ⟨hash, ⟨scanWhile inp isBlank (p + 1), le_scanWhile, ?_⟩, ?_, counts.digits,
    runDirectiveNumber_ended⟩
  · simp only [directiveNumberStart] at found
    split at found
    · cases found
    rename_i word
    split at found
    swap
    · cases found
    rename_i blank
    rw [← Option.some.inj found]
    refine ⟨fun i from_ lt => (scanWhile_spec.2 i from_ lt).2, spellsAt_line.mpr word, ?_,
      fun i from_ lt => (scanWhile_spec.2 i from_ lt).2⟩
    have le := @le_scanWhile inp isBlank (scanWhile inp isBlank (p + 1) + 4)
    refine Nat.lt_of_le_of_ne le fun same => ?_
    have more := Input.lt_of_charAt_ne fun null => by
      rw [null] at blank
      cases blank
    have stops := @scanWhile_stops inp isBlank (scanWhile inp isBlank (p + 1) + 4)
    rw [← same, blank] at stops
    exact absurd (stops more) (by simp)
  · exact Nat.lt_of_le_of_ne counts.le some_.symm

theorem Numbered.start (numbered : Numbered inp p first stop) :
    directiveNumberStart inp p = some first := by
  obtain ⟨w, lt, before, word, behind, blanks⟩ := numbered.word
  have letters := spellsAt_line.mp word
  have digit := numbered.digits first (Nat.le_refl _) numbered.some_
  have number : scanWhile inp isBlank (w + 4) = first := by
    refine scanWhile_eq rfl (Nat.le_of_lt behind) blanks ?_
    by_contra blank
    simp only [isBlank, Bool.not_eq_false, Bool.or_eq_true, beq_iff_eq] at blank
    rcases blank with space | tab
    · simp [space, isDigit] at digit
    · simp [tab, isDigit] at digit
  have scanned : scanWhile inp isBlank (p + 1) = w := by
    refine scanWhile_eq rfl lt before ?_
    simp only [not_or, not_not] at letters
    rw [letters.1]
    rfl
  simp only [directiveNumberStart, scanned]
  rw [if_neg letters, if_pos (blanks _ (Nat.le_refl _) behind), number]

theorem Numbered.index (numbered : Numbered inp p first stop) :
    (runDirectiveNumber inp first).index = stop :=
  runDirectiveNumber_index numbered.digits numbered.ended (Nat.le_of_lt numbered.some_)

theorem Numbered.value (numbered : Numbered inp p first stop) :
    (runDirectiveNumber inp first).value = inp.decimalAt first (stop - first) := by
  rw [runDirectiveNumber_counts.value, numbered.index]

/-- Adding up a number traps where there is one that does not fit. -/
theorem directiveTraps_iff (hash : inp.charAt p = '#') :
    directiveTraps inp p = true ↔
      ∃ first stop, Numbered inp p first stop ∧ 2 ^ 63 ≤ inp.decimalAt first (stop - first) := by
  constructor
  · intro traps
    unfold directiveTraps at traps
    split at traps
    · cases traps
    rename_i first found
    have counts := @runDirectiveNumber_counts inp first
    have great := counts.trapped.mp traps
    refine ⟨first, _, numbered_of_start hash found fun same => ?_, counts.value ▸ great⟩
    rw [counts.value, same, Nat.sub_self] at great
    exact absurd great (by simp [Input.decimalAt])
  · rintro ⟨first, stop, numbered, great⟩
    have counts := @runDirectiveNumber_counts inp first
    rw [← numbered.value] at great
    simp only [directiveTraps, numbered.start]
    exact counts.trapped.mpr great

theorem trimFilename_between {fileStart fileEnd : Nat} (le : fileStart ≤ fileEnd) :
    fileStart ≤ trimFilename inp fileStart fileEnd ∧
      trimFilename inp fileStart fileEnd ≤ fileEnd := by
  refine runSteps_keeps (fun stop => fileStart ≤ stop ∧ stop ≤ fileEnd) (fun stop next kept h => ?_)
    ⟨le, Nat.le_refl _⟩
  split at h
  · rw [← Option.some.inj h]
    omega
  · cases h

/-- A line starts behind a directive, or the source ends there, and there are fewer newlines. -/
theorem lineEnd_next {directive : LineDirective} (le : stop ≤ directive.lineEnd)
    (ended : directive.lineEnd < inp.sourceLength → inp.charAt directive.lineEnd = '\n') :
    (inp.sourceLength ≤ directive.next inp ∧ inp.newlinesFrom (directive.next inp) = 0) ∨
      (stop < directive.next inp ∧ inp.charAt (directive.next inp - 1) = '\n' ∧
        inp.newlinesFrom (directive.next inp) + 1 ≤ inp.newlinesFrom stop) := by
  unfold LineDirective.next
  split
  · rename_i more
    have fewer := @newlinesFrom_anti inp _ _ le
    rw [newlinesFrom_of_lt more.1, if_pos more.2] at fewer
    refine .inr ⟨Nat.lt_succ_of_le le, more.2, ?_⟩
    omega
  · rename_i last
    have last : inp.sourceLength ≤ directive.lineEnd :=
      Nat.le_of_not_lt fun more => last ⟨more, ended more⟩
    exact .inl ⟨last, newlinesFrom_of_end last⟩

/-- The number of a directive stands in its text, and so does the name behind it. -/
theorem directiveAt_numbered {directive : LineDirective} (hash : inp.charAt p = '#')
    (found : directiveAt inp p = some directive) :
    ∃ first stop, Numbered inp p first stop ∧ Names inp stop ∧
      directive.number = inp.decimalAt first (stop - first) ∧ stop ≤ directive.lineEnd ∧
      (directive.lineEnd < inp.sourceLength → inp.charAt directive.lineEnd = '\n') := by
  unfold directiveAt at found
  split at found
  · cases found
  rename_i first start
  simp only at found
  split at found
  · cases found
  rename_i some_
  have numbered := numbered_of_start hash start some_
  have value := numbered.value
  generalize runDirectiveNumber inp first = number at found numbered value
  simp only [directiveBehind] at found
  split at found
  · cases found
  rename_i named
  obtain ⟨behind, blanks⟩ := @scanWhile_spec inp isBlank number.index
  obtain ⟨line, inline⟩ := @scanWhile_spec inp (· != '\n') (scanWhile inp isBlank number.index)
  have ends := @scanWhile_stops inp (· != '\n') (scanWhile inp isBlank number.index)
  generalize scanWhile inp isBlank number.index =
    fileStart at found named behind blanks line inline ends
  generalize scanWhile inp (· != '\n') fileStart = lineEnd at found named line inline ends
  obtain ⟨from_, within⟩ := @trimFilename_between inp _ _ line
  have some_ := Nat.lt_of_le_of_ne from_ (Ne.symm named)
  rw [← Option.some.inj found]
  refine ⟨first, number.index, numbered, ?_, value, Nat.le_trans behind line, fun more => ?_⟩
  · refine ⟨trimFilename inp fileStart lineEnd - 1, by omega,
      (inline _ (by omega) (by omega)).1, trimFilename_stops some_, fun j le ge newline => ?_⟩
    rcases Nat.lt_or_ge j fileStart with before | at_
    · have blank := (blanks j le before).2
      rw [newline] at blank
      cases blank
    · have other := (inline j at_ (by omega)).2
      rw [newline] at other
      cases other
  · simpa using ends more

end Elisa.Lexer
