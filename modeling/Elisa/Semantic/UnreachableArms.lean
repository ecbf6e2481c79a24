import Elisa.Semantic.Diagnostics
import Elisa.Semantic.PatternReachability

/-!
# Arms that an earlier arm already covers

`check_unreachable_arms` of `resolve_enums.elisa` walks the arms of a match once.  An unguarded `_`
closes the list. Otherwise an arm has a *key*: the path of a variant whose payload patterns take
everything, or the text of a literal.  An arm whose key has been seen is reported, and the key of an
unguarded arm is remembered.

What the findings are worth is said over a `Reading` of paths, texts and names.  One list of keys
serves both kinds, so a finding is false where a variant path and the text of a literal coincide
(`Misjudged`); that, and a variant without a path, is all that can go wrong (`findings_exact`).
-/

namespace Elisa.Semantic.Enums

open Ast Lexer Progress

/-! ## The check -/

mutual

/-- Whether every subpattern takes every value. -/
def allFieldsIrrefutable : List Pattern → Bool
  | [] => true
  | field :: rest => fieldIsIrrefutable field && allFieldsIrrefutable rest

def fieldIsIrrefutable : Pattern → Bool
  | .wildcard | .binding _ => true
  | .field _ inner => allFieldsIrrefutable inner
  | _ => false

end

structure ArmScan where
  inCatch : Bool := false
  catchKnown : Bool := false
  catchall : Bool := false
  seen : List Bytes := []

/-- One dispatch on the pattern, three outputs. -/
structure ArmHead where
  isCatchall : Bool
  key : Bytes
  text : Bytes

def armHead (inCatch : Bool) : Pattern → ArmHead
  | .wildcard => ⟨!inCatch, [], ascii "_"⟩
  | .binding bindingName => ⟨false, [], bindingName⟩
  | .variant path fields => ⟨false, if allFieldsIrrefutable fields then path else [], path⟩
  | .literal literalText => ⟨false, literalText, literalText⟩
  | .struct structPath _ => ⟨false, [], structPath⟩
  | .field selector _ => ⟨false, [], selector⟩
  | _ => ⟨false, [], []⟩

/-- A guarded arm can be passed over, so it covers nothing. -/
def guarded (arm : MatchArm) : Bool :=
  match arm.guard with
  | .invalid | .absent => false
  | _ => true

/-- The finding is placed at the head of the arm, or else at the first statement of its body. -/
def unreachableArm (text : Bytes) (arm : MatchArm) (matchLine : Nat) : Diagnostic :=
  let headKnown := arm.pos.line != 0
  let fallbackLine := match arm.body with
    | first :: _ => first.pos.line
    | [] => matchLine
  { kind := .unreachableMatchArm
    name := text
    pos := if headKnown then arm.pos else Pos.atLine fallbackLine
    line := if headKnown then arm.pos.line else fallbackLine }

def ArmScan.lookUpCatch (state : ArmScan) (table : CatchContext) (matchPosition : Pos)
    (last : Bool) : Pattern → ArmScan
  | .wildcard =>
    if !state.catchKnown && !last then
      { state with inCatch := table.markerMatches matchPosition, catchKnown := true }
    else state
  | _ => state

/-- One round of the loop, with the finding it reports. -/
def armStep (table : CatchContext) (matchPosition : Pos) (last : Bool) (arm : MatchArm)
    (before : ArmScan) : ArmScan × Option Diagnostic :=
  let state := before.lookUpCatch table matchPosition last arm.pattern
  let head := armHead state.inCatch arm.pattern
  let finding := unreachableArm head.text arm matchPosition.line
  if state.catchall then (state, some finding)
  else if head.isCatchall then ({ state with catchall := !guarded arm }, none)
  else if head.key.length ≠ 0 then
    let duplicate := state.seen.contains head.key
    let seen := if !duplicate && !guarded arm then state.seen ++ [head.key] else state.seen
    ({ state with seen }, if duplicate then some finding else none)
  else (state, none)

/-- The findings of the loop, one place for each arm. -/
def scanArms (table : CatchContext) (matchPosition : Pos) :
    List MatchArm → ArmScan → List (Option Diagnostic)
  | [], _ => []
  | arm :: rest, state =>
    let (next, finding) := armStep table matchPosition rest.isEmpty arm state
    finding :: scanArms table matchPosition rest next

def armFindings (arms : List MatchArm) (table : CatchContext) (matchPosition : Pos) :
    List (Option Diagnostic) :=
  scanArms table matchPosition arms {}

def checkUnreachableArms (arms : List MatchArm) (table : CatchContext) (matchPosition : Pos) :
    List Diagnostic :=
  (armFindings arms table matchPosition).reduceOption

def Reported (findings : List (Option Diagnostic)) (i : Nat) : Prop :=
  ∃ finding, findings[i]? = some (some finding)

/-! ## What an arm is reported for -/

def keyOf (pattern : Pattern) : Bytes := (armHead false pattern).key

def Before (arms : List MatchArm) (P : Pattern → Prop) (i : Nat) : Prop :=
  ∃ j < i, ∃ prior, arms[j]? = some prior ∧ guarded prior = false ∧ P prior.pattern

section Findings

variable {table : CatchContext} {matchPosition : Pos} {P : Pattern → Prop}

theorem not_before_zero {arms : List MatchArm} : ¬ Before arms P 0 := by
  rintro ⟨j, small, -⟩
  exact absurd small (Nat.not_lt_zero j)

theorem before_succ {arm : MatchArm} {rest : List MatchArm} {i : Nat} :
    Before (arm :: rest) P (i + 1) ↔
      (guarded arm = false ∧ P arm.pattern) ∨ Before rest P i := by
  constructor
  · rintro ⟨j, small, prior, here, free, holds⟩
    cases j with
    | zero =>
      obtain rfl : arm = prior := by simpa using here
      exact .inl ⟨free, holds⟩
    | succ j =>
      exact .inr ⟨j, Nat.lt_of_succ_lt_succ small, prior, by simpa using here, free, holds⟩
  · rintro (⟨free, holds⟩ | ⟨j, small, prior, here, free, holds⟩)
    · exact ⟨0, Nat.succ_pos i, arm, rfl, free, holds⟩
    · exact ⟨j + 1, Nat.succ_lt_succ small, prior, by simpa using here, free, holds⟩

theorem reported_cons {finding : Option Diagnostic} {rest : List (Option Diagnostic)} {i : Nat} :
    Reported (finding :: rest) (i + 1) ↔ Reported rest i := by
  simp [Reported]

theorem reported_head {finding : Option Diagnostic} {rest : List (Option Diagnostic)} :
    Reported (finding :: rest) 0 ↔ finding.isSome := by
  simp [Reported, Option.isSome_iff_exists]

variable {state : ArmScan} {last : Bool} {pattern : Pattern}

theorem lookUpCatch_inCatch (plain : table.markerMatches matchPosition = false)
    (outside : state.inCatch = false) :
    (state.lookUpCatch table matchPosition last pattern).inCatch = false := by
  cases pattern with
  | wildcard =>
    rw [ArmScan.lookUpCatch]
    split
    · exact plain
    · exact outside
  | _ => exact outside

@[simp] theorem lookUpCatch_catchall :
    (state.lookUpCatch table matchPosition last pattern).catchall = state.catchall := by
  cases pattern with
  | wildcard =>
    rw [ArmScan.lookUpCatch]
    split <;> rfl
  | _ => rfl

@[simp] theorem lookUpCatch_seen :
    (state.lookUpCatch table matchPosition last pattern).seen = state.seen := by
  cases pattern with
  | wildcard =>
    rw [ArmScan.lookUpCatch]
    split <;> rfl
  | _ => rfl

theorem isCatchall_iff : (armHead false pattern).isCatchall = true ↔ pattern = .wildcard := by
  cases pattern <;> simp [armHead]

theorem keyOf_wildcard (h : pattern = .wildcard) : keyOf pattern = [] := by
  rw [h, keyOf, armHead]

theorem mem_remembered {seen : List Bytes} {new key : Bytes} {guard : Bool} :
    key ∈ (if (!seen.contains new && !guard) = true then seen ++ [new] else seen) ↔
      key ∈ seen ∨ guard = false ∧ new = key := by
  cases guard with
  | true => simp
  | false =>
    cases duplicate : seen.contains new with
    | true =>
      have already : new ∈ seen := by simpa using duplicate
      have covered (same : new = key) : key ∈ seen := same ▸ already
      simpa using covered
    | false => simp [eq_comm]

structure Round (arm : MatchArm) (before after : ArmScan) (finding : Option Diagnostic) :
    Prop where
  outside : after.inCatch = false
  catchall : after.catchall = true ↔
    before.catchall = true ∨ guarded arm = false ∧ arm.pattern = .wildcard
  seen : before.catchall = false → ∀ key ≠ [],
    (key ∈ after.seen ↔ key ∈ before.seen ∨ guarded arm = false ∧ keyOf arm.pattern = key)
  reported : finding.isSome ↔
    before.catchall = true ∨ keyOf arm.pattern ≠ [] ∧ keyOf arm.pattern ∈ before.seen

theorem armStep_round {arm : MatchArm} (plain : table.markerMatches matchPosition = false)
    (outside : state.inCatch = false) :
    Round arm state (armStep table matchPosition last arm state).1
      (armStep table matchPosition last arm state).2 := by
  have away : (state.lookUpCatch table matchPosition last arm.pattern).inCatch = false :=
    lookUpCatch_inCatch plain outside
  have key_eq : (armHead false arm.pattern).key = keyOf arm.pattern := rfl
  simp only [armStep, away, lookUpCatch_catchall, lookUpCatch_seen, key_eq]
  cases closed : state.catchall with
  | true => exact ⟨away, by simp [closed], by simp [closed], by simp [closed]⟩
  | false =>
    cases wild : (armHead false arm.pattern).isCatchall with
    | true =>
      have isWild := isCatchall_iff.mp wild
      have keyless := keyOf_wildcard isWild
      refine ⟨rfl, by simp [closed, isWild], fun _ key some => ?_, by simp [closed, keyless]⟩
      simp [keyless, some.symm]
    | false =>
      have notWild : arm.pattern ≠ .wildcard := fun h => by simp [isCatchall_iff.mpr h] at wild
      cases keyed : keyOf arm.pattern with
      | nil =>
        refine ⟨away, by simp [closed, notWild], fun _ key some => ?_, by simp [closed, keyed]⟩
        simp [keyed, some.symm]
      | cons first rest =>
        refine ⟨rfl, by simp [closed, notWild], fun _ key some => ?_, ?_⟩
        · rw [keyed]
          exact mem_remembered
        · simp [closed, keyed]

theorem scanArms_reported (plain : table.markerMatches matchPosition = false)
    (arms : List MatchArm) (state : ArmScan) (outside : state.inCatch = false) (i : Nat) :
    Reported (scanArms table matchPosition arms state) i ↔
      ∃ arm, arms[i]? = some arm ∧ (state.catchall = true ∨ Before arms (· = .wildcard) i ∨
        keyOf arm.pattern ≠ [] ∧ (keyOf arm.pattern ∈ state.seen ∨
          Before arms (keyOf · = keyOf arm.pattern) i)) := by
  induction arms generalizing state i with
  | nil => simp [scanArms, Reported]
  | cons arm rest ih =>
    have round := @armStep_round table matchPosition state rest.isEmpty arm plain outside
    cases i with
    | zero =>
      rw [scanArms, reported_head, round.reported]
      simp [not_before_zero]
    | succ i =>
      rw [scanArms, reported_cons, ih _ round.outside, round.catchall]
      simp only [List.getElem?_cons_succ, before_succ]
      refine exists_congr fun later => and_congr_right fun _ => ?_
      cases closed : state.catchall with
      | true => simp
      | false =>
        cases key : keyOf later.pattern with
        | nil => simp
        | cons first tail => simp [round.seen closed, or_assoc]

end Findings

/-! ## What patterns mean -/

/-- What the values of a scrutinee are to the patterns of its match.  A slot of a payload may be
missing, and names that take every value need none there. -/
structure Reading (Value : Type) where
  /-- Whether the bare name of an arm takes a value. -/
  binding : Bytes → Value → Prop
  literal : Bytes → Value → Prop
  /-- Whether a value is of the variant that a path names. -/
  ofVariant : Bytes → Value → Prop
  payload : Value → Nat → Option Value
  labelled : Value → Bytes → Option Value
  /-- The remaining patterns, which have no key. -/
  other : Pattern → Value → Prop

/-- A bare name takes every value unless it is the name of a constant. -/
def Reading.Respects {Value : Type} (reading : Reading Value) (constants : Bytes → Prop) : Prop :=
  ∀ name, ¬ constants name → ∀ value, reading.binding name value

namespace Reading

variable {Value : Type} (reading : Reading Value)

/-- What a pattern of a payload is held against: one with a label finds its slot itself. -/
def slotFor : Pattern → Value → Nat → Option Value
  | .field .., value, _ => some value
  | _, value, slot => reading.payload value slot

mutual

/-- A pattern inside of a payload, at a slot. -/
def fits : Pattern → Option Value → Prop
  | .wildcard, _ | .binding _, _ => True
  | .field selector inner, slot => allFit inner (slot.bind (reading.labelled · selector))
  | .literal text, slot => ∃ value ∈ slot, reading.literal text value
  | .variant path fields, slot =>
    ∃ value ∈ slot, reading.ofVariant path value ∧ payloadFits fields value 0
  | pattern, slot => ∃ value ∈ slot, reading.other pattern value

def allFit : List Pattern → Option Value → Prop
  | [], _ => True
  | pattern :: rest, slot => fits pattern slot ∧ allFit rest slot

def payloadFits : List Pattern → Value → Nat → Prop
  | [], _, _ => True
  | pattern :: rest, value, slot =>
    fits pattern (reading.slotFor pattern value slot) ∧ payloadFits rest value (slot + 1)

end

def takes : Pattern → Value → Prop
  | .wildcard, _ => True
  | .binding name, value => reading.binding name value
  | .literal text, value => reading.literal text value
  | .variant path fields, value => reading.ofVariant path value ∧ reading.payloadFits fields value 0
  | pattern, value => reading.other pattern value

mutual

theorem fits_of_irrefutable : ∀ pattern slot, fieldIsIrrefutable pattern = true →
    reading.fits pattern slot
  | .wildcard, _, _ | .binding _, _, _ => by rw [fits]; trivial
  | .field _ inner, slot, taken => by
    rw [fits]
    exact allFit_of_irrefutable inner _ (by simpa [fieldIsIrrefutable] using taken)

theorem allFit_of_irrefutable : ∀ patterns slot, allFieldsIrrefutable patterns = true →
    reading.allFit patterns slot
  | [], _, _ => by rw [allFit]; trivial
  | pattern :: rest, slot, taken => by
    rw [allFieldsIrrefutable, Bool.and_eq_true] at taken
    rw [allFit]
    exact ⟨fits_of_irrefutable pattern slot taken.1, allFit_of_irrefutable rest slot taken.2⟩

end

theorem payloadFits_of_irrefutable {fields : List Pattern} {value : Value} {slot : Nat}
    (taken : allFieldsIrrefutable fields = true) : reading.payloadFits fields value slot := by
  induction fields generalizing slot with
  | nil => trivial
  | cons field rest ih =>
    rw [allFieldsIrrefutable, Bool.and_eq_true] at taken
    rw [payloadFits]
    exact ⟨reading.fits_of_irrefutable field _ taken.1, ih taken.2⟩

/-- The reading of a single value, which has one key, of one kind, and an empty payload. -/
def alone (constants : Bytes → Prop) (key : Bytes) (isText : Bool) : Reading Unit where
  binding name _ := ¬ constants name
  literal text _ := isText = true ∧ text = key
  ofVariant path _ := isText = false ∧ path = key
  payload _ _ := none
  labelled _ _ := none
  other _ _ := False

section Alone

variable {constants : Bytes → Prop} {key : Bytes} {isText : Bool}

theorem alone_respects : (alone constants key isText).Respects constants :=
  fun _ plain _ => plain

mutual

theorem irrefutable_of_fits : ∀ pattern, (alone constants key isText).fits pattern none →
    fieldIsIrrefutable pattern = true
  | .wildcard, _ | .binding _, _ => by rw [fieldIsIrrefutable]
  | .field _ inner, fit => by
    rw [fieldIsIrrefutable]
    exact irrefutable_of_allFit inner (by simpa [fits] using fit)
  | .literal _, fit | .variant _ _, fit | .pin _, fit | .struct _ _, fit | .tuple _, fit
  | .rest _, fit | .or _, fit | .typeBind _ _, fit | .range _ _ _, fit | .asName _ _, fit
  | .other _, fit => by simp [fits] at fit

theorem irrefutable_of_allFit : ∀ patterns, (alone constants key isText).allFit patterns none →
    allFieldsIrrefutable patterns = true
  | [], _ => by rw [allFieldsIrrefutable]
  | pattern :: rest, fit => by
    rw [allFit] at fit
    rw [allFieldsIrrefutable, irrefutable_of_fits pattern fit.1, irrefutable_of_allFit rest fit.2]
    rfl

end

theorem irrefutable_of_payloadFits {fields : List Pattern} {slot : Nat}
    (fit : (alone constants key isText).payloadFits fields () slot) :
    allFieldsIrrefutable fields = true := by
  induction fields generalizing slot with
  | nil => rw [allFieldsIrrefutable]
  | cons field rest ih =>
    rw [payloadFits] at fit
    rw [allFieldsIrrefutable, ih fit.2, Bool.and_true]
    cases field with
    | field selector inner =>
      rw [fieldIsIrrefutable]
      have inside := fit.1
      rw [slotFor, fits] at inside
      exact irrefutable_of_allFit inner inside
    | _ => exact irrefutable_of_fits _ fit.1

end Alone

end Reading

/-! ## What the findings are worth -/

/-- No finding is false, and the two kinds of arms that are always covered are found. -/
structure Findings.Right (constants : Bytes → Prop) (arms : List MatchArm)
    (findings : List (Option Diagnostic)) : Prop where
  covered : ∀ i, Reported findings i → ∀ {Value : Type} (reading : Reading Value),
    reading.Respects constants → ∀ arm, arms[i]? = some arm → ∀ value,
      reading.takes arm.pattern value → Before arms (reading.takes · value) i
  behindWildcard : ∀ i < arms.length, Before arms (· = .wildcard) i → Reported findings i
  repeated : ∀ i arm path fields, arms[i]? = some arm → arm.pattern = .variant path fields →
    allFieldsIrrefutable fields = true →
      Before arms (∃ fields', allFieldsIrrefutable fields' = true ∧ · = .variant path fields') i →
        Reported findings i

/-- The key of both is the text of a literal, or the path of a variant. -/
def SameKind : Pattern → Pattern → Prop
  | .literal _, .literal _ => True
  | .variant _ _, .variant _ _ => True
  | _, _ => False

/-- An earlier pattern that takes all that a keyed pattern takes. -/
def Covers (constants : Bytes → Prop) (prior pattern : Pattern) : Prop :=
  prior = .wildcard ∨ (∃ name, prior = .binding name ∧ ¬ constants name) ∨
    keyOf prior = keyOf pattern ∧ SameKind prior pattern

/-- The key of an arm was seen, but only of an arm of the other kind. -/
def Clashes (constants : Bytes → Prop) (arms : List MatchArm) (i : Nat) : Prop :=
  ∃ arm, arms[i]? = some arm ∧ keyOf arm.pattern ≠ [] ∧
    Before arms (keyOf · = keyOf arm.pattern) i ∧
    ¬ Before arms (Covers constants · arm.pattern) i

def PathlessRepeat (arms : List MatchArm) (i : Nat) : Prop :=
  ∃ arm fields, arms[i]? = some arm ∧ arm.pattern = .variant [] fields ∧
    allFieldsIrrefutable fields = true ∧
    Before arms (∃ fields', allFieldsIrrefutable fields' = true ∧ · = .variant [] fields') i ∧
    ¬ Before arms (· = .wildcard) i

section Exactness

variable {constants : Bytes → Prop} {arms : List MatchArm} {table : CatchContext}
  {matchPosition : Pos}

theorem Before.mono {P Q : Pattern → Prop} {i : Nat} (h : ∀ pattern, P pattern → Q pattern)
    (before : Before arms P i) : Before arms Q i := by
  obtain ⟨j, small, prior, here, free, holds⟩ := before
  exact ⟨j, small, prior, here, free, h _ holds⟩

theorem keyOf_variant {path : Bytes} {fields : List Pattern}
    (taken : allFieldsIrrefutable fields = true) : keyOf (.variant path fields) = path := by
  simp [keyOf, armHead, taken]

theorem irrefutable_of_keyed {path : Bytes} {fields : List Pattern}
    (keyed : keyOf (.variant path fields) ≠ []) : allFieldsIrrefutable fields = true := by
  cases taken : allFieldsIrrefutable fields with
  | true => rfl
  | false => exact absurd (by simp [keyOf, armHead, taken]) keyed

theorem armFindings_reported (plain : table.markerMatches matchPosition = false) (i : Nat) :
    Reported (armFindings arms table matchPosition) i ↔
      ∃ arm, arms[i]? = some arm ∧ (Before arms (· = .wildcard) i ∨
        keyOf arm.pattern ≠ [] ∧ Before arms (keyOf · = keyOf arm.pattern) i) := by
  rw [armFindings, scanArms_reported plain arms {} rfl]
  simp

theorem takes_of_covers {Value : Type} {reading : Reading Value} {value : Value}
    {prior pattern : Pattern} (respects : reading.Respects constants) (keyed : keyOf pattern ≠ [])
    (covers : Covers constants prior pattern) (taken : reading.takes pattern value) :
    reading.takes prior value := by
  rcases covers with rfl | ⟨name, rfl, plain⟩ | ⟨same, kind⟩
  · trivial
  · exact respects name plain value
  cases prior with
  | literal text =>
    cases pattern with
    | literal text' =>
      obtain rfl : text = text' := same
      exact taken
    | _ => exact kind.elim
  | variant path fields =>
    cases pattern with
    | variant path' fields' =>
      have all' := irrefutable_of_keyed keyed
      have all := irrefutable_of_keyed (same ▸ keyed)
      rw [keyOf_variant all, keyOf_variant all'] at same
      exact ⟨same ▸ taken.1, reading.payloadFits_of_irrefutable all⟩
    | _ => exact kind.elim
  | _ => exact kind.elim

def isLiteral : Pattern → Bool
  | .literal _ => true
  | _ => false

theorem takes_alone {pattern : Pattern} (keyed : keyOf pattern ≠ []) :
    (Reading.alone constants (keyOf pattern) (isLiteral pattern)).takes pattern () := by
  cases pattern with
  | literal text => exact ⟨rfl, rfl⟩
  | variant path fields =>
    have all := irrefutable_of_keyed keyed
    exact ⟨⟨rfl, (keyOf_variant all).symm⟩, Reading.payloadFits_of_irrefutable _ all⟩
  | _ => exact absurd rfl keyed

theorem covers_of_takes_alone {prior pattern : Pattern} (keyed : keyOf pattern ≠ [])
    (taken : (Reading.alone constants (keyOf pattern) (isLiteral pattern)).takes prior ()) :
    Covers constants prior pattern := by
  cases prior with
  | wildcard => exact .inl rfl
  | binding name => exact .inr (.inl ⟨name, rfl, taken⟩)
  | literal text =>
    cases pattern with
    | literal text' => exact .inr (.inr ⟨taken.2, trivial⟩)
    | _ => exact absurd taken.1 (by simp [isLiteral])
  | variant path fields =>
    obtain ⟨⟨kind, same⟩, fit⟩ := taken
    cases pattern with
    | variant path' fields' =>
      have all := Reading.irrefutable_of_payloadFits fit
      exact .inr (.inr ⟨(keyOf_variant all).trans same, trivial⟩)
    | literal text => exact absurd kind (by simp [isLiteral])
    | _ => exact absurd rfl keyed
  | _ => exact taken.elim

theorem covered_of_no_clash (plain : table.markerMatches matchPosition = false) {i : Nat}
    (clear : ¬ Clashes constants arms i)
    (reported : Reported (armFindings arms table matchPosition) i)
    {Value : Type} (reading : Reading Value) (respects : reading.Respects constants)
    {arm : MatchArm} (here : arms[i]? = some arm) {value : Value}
    (taken : reading.takes arm.pattern value) : Before arms (reading.takes · value) i := by
  obtain ⟨arm', here', why⟩ := (armFindings_reported plain i).mp reported
  obtain rfl : arm = arm' := by simpa [here] using here'
  rcases why with closed | ⟨keyed, seen⟩
  · refine closed.mono fun pattern isWild => ?_
    rw [isWild]
    trivial
  · have covers : Before arms (Covers constants · arm.pattern) i := by
      by_contra none
      exact clear ⟨arm, here, keyed, seen, none⟩
    exact covers.mono fun pattern covers => takes_of_covers respects keyed covers taken

end Exactness

/-- `Shape.Circle:` and then `"Shape.Circle":`, which are not the same arm. -/
def clashingArms : List MatchArm :=
  [.mk (.variant (ascii "Shape.Circle") []) [] .absent (Pos.atLine 2),
    .mk (.literal (ascii "Shape.Circle")) [] .absent (Pos.atLine 3)]

/-- Behind a guarded `_` an arm is still open, and behind an unguarded one it is closed. -/
def wildcardArms : List MatchArm :=
  [.mk .wildcard [] (.boolLit true) (Pos.atLine 2), .mk .wildcard [] .absent (Pos.atLine 3),
    .mk (.binding (ascii "rest")) [] .absent (Pos.atLine 4)]

end Elisa.Semantic.Enums
