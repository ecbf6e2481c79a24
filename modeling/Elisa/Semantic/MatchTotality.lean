import Elisa.Semantic.EnumHierarchy

/-!
# What a verdict of exhaustiveness is worth

A verdict that a match is exhaustive says that every value of its scrutinee is taken by an arm that
cannot be passed over (`Total`), in a `Reading` of values and patterns.  It rests on one arm alone
where such an arm takes every value by its text, and else on the variants and enums that the arms
name.  It is right where the texts it rests on mean what it takes them for (`RestsOnArm`,
`CountsRight`) and every variant of the type is asked for (`AskedFor`).  Payload patterns are not
looked at: `payload_uncovered`.
-/

namespace Elisa.Semantic.Matches

open Ast Lexer Enums Progress List

/-! ## Patterns and values -/

/-- A pattern behind the `or`s of an arm. -/
inductive Choice : Pattern → Pattern → Prop
  | one {pattern : Pattern} (single : ∀ options, pattern ≠ .or options) : Choice pattern pattern
  | option {options : List Pattern} {option choice : Pattern} (mem : option ∈ options)
      (inside : Choice option choice) : Choice (.or options) choice

/-- What the values of a scrutinee and of its parts are to patterns.  A part may be missing, and
patterns that take every value need none there. -/
structure Reading (Value : Type) where
  /-- The names that are read as constants where they stand alone in an arm or in an option. -/
  constants : Bytes → Prop
  constant : Bytes → Value → Prop
  literal : Bytes → Value → Prop
  /-- Whether a value is of the variant or of the struct that a path names. -/
  named : Bytes → Value → Prop
  /-- Whether a value is of an enum or one of its refinements. -/
  ofCategory : Bytes → Value → Prop
  payload : Value → Nat → Option Value
  labelled : Value → Bytes → Option Value
  /-- The remaining patterns: pins, ranges, rests and others. -/
  other : Pattern → Value → Prop

namespace Reading

variable {Value : Type} (reading : Reading Value)

def partFor : Pattern → Option Value → Nat → Option Value
  | .field _ _, slot, _ => slot
  | _, slot, i => slot.bind (reading.payload · i)

mutual

/-- A pattern inside of another one: there a bare name binds, whatever else has the name. -/
def fits : Pattern → Option Value → Prop
  | .wildcard, _ | .binding _, _ => True
  | .literal text, slot => ∃ value ∈ slot, reading.literal text value
  | .variant path fields, slot =>
    (∃ value ∈ slot, reading.named path value) ∧ partsFit fields slot 0
  -- The value of a struct has its one shape.
  | .struct _ fields, slot => partsFit fields slot 0
  | .tuple elements, slot => partsFit elements slot 0
  | .field selector inner, slot => allFit inner (slot.bind (reading.labelled · selector))
  | .or options, slot => someFits options slot
  -- There is one pattern behind the name.
  | .asName _ inner, slot => someFits inner slot
  | .typeBind type _, slot => ∃ value ∈ slot, reading.ofCategory type value
  | pattern, slot => ∃ value ∈ slot, reading.other pattern value

def allFit : List Pattern → Option Value → Prop
  | [], _ => True
  | pattern :: rest, slot => fits pattern slot ∧ allFit rest slot

def someFits : List Pattern → Option Value → Prop
  | [], _ => False
  | pattern :: rest, slot => fits pattern slot ∨ someFits rest slot

def partsFit : List Pattern → Option Value → Nat → Prop
  | [], _, _ => True
  | pattern :: rest, slot, i =>
    fits pattern (reading.partFor pattern slot i) ∧ partsFit rest slot (i + 1)

end

def takesChoice : Pattern → Value → Prop
  | .binding name, value => ¬ reading.constants name ∨ reading.constant name value
  | pattern, value => reading.fits pattern (some value)

def takes (pattern : Pattern) (value : Value) : Prop :=
  ∃ choice, Choice pattern choice ∧ reading.takesChoice choice value

/-- An arm that is taken whenever its pattern takes the value. -/
def Open (arm : MatchArm) : Prop := guarded arm = false ∨ unconditional arm = true

/-- Every one of some values is taken by an arm that cannot be passed over. -/
def Total (arms : List MatchArm) (values : Value → Prop) : Prop :=
  ∀ value, values value → ∃ arm ∈ arms, Open arm ∧ reading.takes arm.pattern value

theorem someFits_of_mem {patterns : List Pattern} {pattern : Pattern} {slot : Option Value}
    (mem : pattern ∈ patterns) (fit : reading.fits pattern slot) :
    reading.someFits patterns slot := by
  induction patterns with
  | nil => cases mem
  | cons first rest ih =>
    rw [someFits]
    rcases mem_cons.mp mem with rfl | later
    · exact .inl fit
    · exact .inr (ih later)

variable {reading}

theorem takesChoice_of_fits {choice : Pattern} {value : Value}
    (plain : ∀ name, choice = .binding name → ¬ reading.constants name)
    (fit : reading.fits choice (some value)) : reading.takesChoice choice value := by
  cases choice with
  | binding name => exact .inl (plain name rfl)
  | _ => exact fit

/-! ## Patterns that take everything -/

mutual

theorem fits_of_structField : ∀ (pattern : Pattern) (slot : Option Value),
    structFieldIsIrrefutable pattern = true → reading.fits pattern slot
  | .wildcard, _, _ | .binding _, _, _ => by rw [fits]; trivial
  | .field _ [inner], slot, taken => by
    rw [structFieldIsIrrefutable] at taken
    rw [fits, allFit, allFit]
    exact ⟨fits_of_structField inner _ taken, trivial⟩
  | .struct _ nested, slot, taken => by
    rw [structFieldIsIrrefutable] at taken
    rw [fits]
    exact partsFit_of_structFields nested slot 0 taken

theorem partsFit_of_structFields : ∀ (patterns : List Pattern) (slot : Option Value) (i : Nat),
    structPatternFieldsAreIrrefutable patterns = true → reading.partsFit patterns slot i
  | [], _, _, _ => by rw [partsFit]; trivial
  | pattern :: rest, slot, i, taken => by
    rw [structPatternFieldsAreIrrefutable, Bool.and_eq_true] at taken
    rw [partsFit]
    exact ⟨fits_of_structField pattern _ taken.1,
      partsFit_of_structFields rest slot (i + 1) taken.2⟩

end

mutual

theorem fits_of_irrefutable : ∀ (pattern : Pattern) (slot : Option Value),
    patternIsIrrefutable pattern = true → reading.fits pattern slot
  | .wildcard, _, _ | .binding _, _, _ => by rw [fits]; trivial
  | .tuple elements, slot, taken => by
    rw [patternIsIrrefutable, Bool.and_eq_true] at taken
    rw [fits]
    exact partsFit_of_irrefutable elements slot 0 taken.2
  | .asName _ [inner], slot, taken => by
    rw [patternIsIrrefutable] at taken
    rw [fits, someFits]
    exact .inl (fits_of_irrefutable inner slot taken)
  | .or options, slot, taken => by
    rw [patternIsIrrefutable] at taken
    rw [fits]
    exact someFits_of_irrefutable options slot taken

theorem partsFit_of_irrefutable : ∀ (patterns : List Pattern) (slot : Option Value) (i : Nat),
    allIrrefutable patterns = true → reading.partsFit patterns slot i
  | [], _, _, _ => by rw [partsFit]; trivial
  | pattern :: rest, slot, i, taken => by
    rw [allIrrefutable, Bool.and_eq_true] at taken
    rw [partsFit]
    exact ⟨fits_of_irrefutable pattern _ taken.1,
      partsFit_of_irrefutable rest slot (i + 1) taken.2⟩

theorem someFits_of_irrefutable : ∀ (patterns : List Pattern) (slot : Option Value),
    anyIrrefutable patterns = true → reading.someFits patterns slot
  | pattern :: rest, slot, taken => by
    rw [anyIrrefutable, Bool.or_eq_true] at taken
    rw [someFits]
    exact taken.imp (fits_of_irrefutable pattern slot) (someFits_of_irrefutable rest slot)

end

section Literals

variable {literal : Bytes → PatternMatch} {value : Value}

/-- The pattern is known to match. -/
def Matched (found : PatternMatch) : Prop := found.known = true ∧ found.matched = true

theorem known_of_optionsMatch {patterns : List Pattern} {so_far : PatternMatch}
    (found : (optionsMatch literal patterns so_far).known = true) : so_far.known = true := by
  induction patterns generalizing so_far with
  | nil => exact found
  | cons pattern rest ih =>
    rw [optionsMatch] at found
    exact (Bool.and_eq_true _ _ ▸ ih found).1

mutual

theorem fits_of_patternMatches
    (reads : ∀ text, Matched (literal text) → reading.literal text value) :
    ∀ pattern : Pattern, Matched (patternMatches literal pattern) →
      reading.fits pattern (some value)
  | .wildcard, _ | .binding _, _ => by rw [fits]; trivial
  | .literal text, found => by
    rw [patternMatches] at found
    rw [fits]
    exact ⟨value, rfl, reads text found⟩
  | .or options, found => by
    rw [patternMatches] at found
    rw [fits]
    exact (someFits_of_optionsMatch reads options _ found).resolve_left nofun
  | .asName _ [inner], found => by
    rw [patternMatches] at found
    rw [fits, someFits]
    exact .inl (fits_of_patternMatches reads inner found)

theorem someFits_of_optionsMatch
    (reads : ∀ text, Matched (literal text) → reading.literal text value) :
    ∀ (patterns : List Pattern) (so_far : PatternMatch),
      Matched (optionsMatch literal patterns so_far) →
      so_far.matched = true ∨ reading.someFits patterns (some value)
  | [], so_far, found => .inl found.2
  | pattern :: rest, so_far, found => by
    rw [optionsMatch] at found
    rw [someFits]
    have known := (Bool.and_eq_true _ _).mp (known_of_optionsMatch found.1)
    rcases someFits_of_optionsMatch reads rest _ found with matched | later
    · refine ((Bool.or_eq_true _ _).mp matched).imp_right fun here => .inl ?_
      exact fits_of_patternMatches reads pattern ⟨known.2, here⟩
    · exact .inr (.inr later)

end

end Literals

end Reading

/-! ## Paths of arms -/

inductive Alternative : Pattern → Bytes → List Pattern → Prop
  | variant {path : Bytes} {fields : List Pattern} : Alternative (.variant path fields) path fields
  | option {options fields : List Pattern} {option : Pattern} {path : Bytes}
      (mem : option ∈ options) (inside : Alternative option path fields) :
    Alternative (.or options) path fields
  | asName {inner fields : List Pattern} {pattern : Pattern} {name path : Bytes}
      (mem : pattern ∈ inner) (inside : Alternative pattern path fields) :
    Alternative (.asName name inner) path fields

section Alternatives

variable {Value : Type} {reading : Reading Value} {pattern : Pattern} {path : Bytes}
  {fields : List Pattern}

theorem Alternative.fits {slot : Option Value} (alternative : Alternative pattern path fields)
    (fit : reading.fits (.variant path fields) slot) : reading.fits pattern slot := by
  induction alternative with
  | variant => exact fit
  | option mem _ ih =>
    rw [Reading.fits]
    exact reading.someFits_of_mem mem (ih fit)
  | asName mem _ ih =>
    rw [Reading.fits]
    exact reading.someFits_of_mem mem (ih fit)

theorem Alternative.takes {value : Value} (alternative : Alternative pattern path fields)
    (fit : reading.fits (.variant path fields) (some value)) : reading.takes pattern value := by
  induction alternative with
  | variant => exact ⟨_, .one nofun, fit⟩
  | option mem _ ih =>
    obtain ⟨choice, inside, taken⟩ := ih fit
    exact ⟨choice, .option mem inside, taken⟩
  | @asName inner fields _ name path mem inside _ =>
    have whole : Alternative (.asName name inner) path fields := .asName mem inside
    exact ⟨_, .one nofun, whole.fits fit⟩

end Alternatives

/-! ## What arms name -/

/-- The paths that unguarded arms name.  Options that bind names are not looked at. -/
def countedPaths (arms : List MatchArm) : List Bytes :=
  arms.flatMap fun arm =>
    if guarded arm || armOrPatternBindsNames arm.pattern then []
    else (collectArmVariantPaths arm.pattern).paths

def countedCategory (arm : MatchArm) : Option Bytes :=
  if guarded arm then none
  else
    match arm.pattern with
    | .typeBind category _ => some category
    | _ => none

/-- The enums that stand in unguarded arms. -/
def countedCategories (arms : List MatchArm) : List Bytes := arms.filterMap countedCategory

theorem coveredPaths_eq {arms : List MatchArm} {before covered : List Bytes}
    (found : coveredPaths arms before = some covered) : covered = before ++ countedPaths arms := by
  induction arms generalizing before with
  | nil =>
    obtain rfl := Option.some.inj found
    exact (append_nil _).symm
  | cons arm rest ih =>
    rw [coveredPaths] at found
    rw [countedPaths, flatMap_cons]
    split at found
    next skipped =>
      rw [if_pos skipped]
      exact ih found
    next counted =>
      rw [if_neg counted]
      simp only at found
      split at found
      next => rw [ih found, append_assoc]; rfl
      next => cases found

theorem countedCategory_of_other {arm : MatchArm}
    (other : ∀ category binder, arm.pattern = .typeBind category binder → False) :
    countedCategory arm = none := by
  unfold countedCategory
  split
  next => rfl
  split
  next category binder is => exact (other category binder is).elim
  next => rfl

theorem coverageOf_eq {table : EnumTable} {arms : List MatchArm} {before coverage : Coverage}
    (found : coverageOf table arms before = some coverage) :
    coverage =
      ⟨before.covered ++ countedPaths arms, before.categories ++ countedCategories arms⟩ := by
  induction arms generalizing before with
  | nil =>
    obtain rfl := Option.some.inj found
    simp [countedPaths, countedCategories]
  | cons arm rest ih =>
    rw [coverageOf] at found
    rw [countedPaths, flatMap_cons, countedCategories, filterMap_cons]
    split at found
    next skipped =>
      rw [countedCategory, if_pos skipped, if_pos (by rw [skipped, Bool.true_or])]
      exact ih found
    next open_ =>
      split at found
      next own binder isCategory =>
        split at found
        next =>
          rw [ih found, countedCategory, if_neg open_, isCategory]
          simp [armOrPatternBindsNames, collectArmVariantPaths, countedPaths, countedCategories]
        next => cases found
      next other =>
        simp only at found
        split at found
        next => cases found
        next counted =>
          rw [Bool.or_eq_true, not_or] at counted
          rw [ih found, countedCategory_of_other other, if_neg (by simp [open_, counted.1])]
          simp [countedPaths, countedCategories]

/-! ## What the verdicts rest on -/

def withPattern (arm : MatchArm) (pattern : Pattern) : MatchArm :=
  .mk pattern arm.body arm.guard arm.pos

/-- An arm that `matchArmsExhaustive` takes for one that takes every value. -/
def coversAll (table : EnumTable) (arm : MatchArm) : Bool :=
  matchHasCatchAll [arm] || matchArmIsUnguardedStruct table arm

def knownToMatch (arm : MatchArm) (found : PatternMatch) : Bool :=
  unconditional arm && found.known && found.matched

/-- An arm that `progressMatchIsTotal` takes for one that is taken by every value. -/
def progressDecides (scrutinee : Expr) (table : EnumTable) (arm : MatchArm) : Bool :=
  match literalBool scrutinee, literalInt scrutinee with
  | some value, _ => knownToMatch arm (boolPatternMatches arm.pattern value)
  | none, some value => knownToMatch arm (intPatternMatches arm.pattern value)
  | none, none => unconditional arm && patternIsIrrefutable arm.pattern || coversAll table arm

/-- The variants that a match on a value of an enum is held against. -/
def checkAsks (table : EnumTable) (enumName : Bytes) (row : EnumRow) : Bool :=
  if table.edges.any (·.parent = enumName) then table.enumInHierarchy row.owner enumName
  else row.owner = enumName && table.bareEnumModule enumName = some row.module

/-- The enums that the arms name. -/
def namedEnums (table : EnumTable) (arms : List MatchArm) : List Bytes :=
  ((countedPaths arms).map (enumOwnerOfPath table) ++ countedCategories arms).filter (· ≠ [])

section Conditions

variable {Value : Type} (reading : Reading Value) (table : EnumTable) (arms : List MatchArm)
  (values : Value → Prop) (rowOf : Value → EnumRow)

/-- An arm that is right to decide a match alone: it or an option of it does, and is not the name of
a constant; if it is the name of a struct, the values are of this struct. -/
def Trusted (decides : MatchArm → Bool) (arm : MatchArm) : Prop :=
  ∃ choice, Choice arm.pattern choice ∧ decides (withPattern arm choice) = true ∧
    (∀ name, choice = .binding name → ¬ reading.constants name) ∧
    ∀ path fields, choice = .variant path fields → ∀ value, values value → reading.named path value

/-- Where arms decide a match alone, one of them is right to. -/
def RestsOnArm (decides : MatchArm → Bool) : Prop :=
  (∃ arm ∈ arms, decides arm = true) → ∃ arm ∈ arms, Trusted reading values decides arm

/-- An arm takes all values of a variant: it is about an enum with the variant, or names the
variant, with patterns for its payload that take everything. -/
inductive TakesRow (row : EnumRow) (arm : MatchArm) : Prop
  | category (category binder : Bytes) (is : arm.pattern = .typeBind category binder)
      (covers : categoryCoversOwner table [category] row.owner = true)
      (taken : ∀ value, values value → rowOf value = row → reading.ofCategory category value)
  | path (path : Bytes) (fields : List Pattern) (inside : Alternative arm.pattern path fields)
      (tail : pathTailEquals path row.variant = true)
      (taken : ∀ value, values value → rowOf value = row →
        reading.named path value ∧ reading.partsFit fields (some value) 0)

/-- Where the arms cover a variant by what they name, one of them takes all its values. -/
def CountsRight : Prop :=
  ∀ value, values value →
    categoryCoversOwner table (countedCategories arms) (rowOf value).owner = true ∨
      pathsCoverVariant (countedPaths arms) (rowOf value).variant = true →
    ∃ arm ∈ arms, guarded arm = false ∧ TakesRow reading table values rowOf (rowOf value) arm

/-- The values are of the least enum that has all enums below it that the arms name, and of the
module that the name of their enum, or a path of the arms, is about. -/
structure AskedFor : Prop where
  oneParent : table.OneParent
  rows : ∀ value, values value → rowOf value ∈ table.rows
  bounded : ∃ top, ∀ enum ∈ namedEnums table arms, table.Below enum top
  below : ∀ value, values value → ∀ top, (∀ enum ∈ namedEnums table arms, table.Below enum top) →
    table.Below (rowOf value).owner top
  ownModule : ∀ value, values value →
    table.HasEdge (rowOf value).owner ∨
      narrowed table (rowOf value).owner (countedPaths arms) = false →
    (table.bareEnumModule (rowOf value).owner).all ((rowOf value).module = ·) = true
  pathModule : ∀ value, values value → ¬ table.HasEdge (rowOf value).owner →
    narrowed table (rowOf value).owner (countedPaths arms) = true →
    ∃ path ∈ countedPaths arms,
      enumModuleMatchesPathQualifier (rowOf value).module path (rowOf value).owner = true

def LiteralValues (scrutinee : Expr) : Prop :=
  ∀ value, values value →
    (∀ truth, literalBool scrutinee = some truth →
      reading.literal (if truth then ascii "true" else ascii "false") value) ∧
    ∀ number text, literalInt scrutinee = some number → decimalPatternValue text = some number →
      reading.literal text value

end Conditions

section Verdicts

variable {Value : Type} {reading : Reading Value} {table : EnumTable} {arms : List MatchArm}
  {values : Value → Prop} {rowOf : Value → EnumRow}

/-! ## Arms that decide alone -/

theorem total_of_trusted {decides : MatchArm → Bool}
    (fits : ∀ arm value, values value → decides arm = true →
      (∀ path fields, arm.pattern = .variant path fields → reading.named path value) →
      Reading.Open arm ∧ reading.fits arm.pattern (some value))
    (trusted : ∃ arm ∈ arms, Trusted reading values decides arm) : reading.Total arms values := by
  obtain ⟨arm, inArms, choice, inside, decided, plain, named⟩ := trusted
  intro value isValue
  obtain ⟨isOpen, fit⟩ := fits _ value isValue decided
    fun path fields is => named path fields is value isValue
  exact ⟨arm, inArms, isOpen, choice, inside, Reading.takesChoice_of_fits plain fit⟩

theorem allIrrefutable_of_wildcards {elements : List Pattern}
    (wild : (elements.all fun
      | .wildcard => true
      | _ => false) = true) : allIrrefutable elements = true := by
  induction elements with
  | nil => rw [allIrrefutable]
  | cons element rest ih =>
    rw [all_cons, Bool.and_eq_true] at wild
    rw [allIrrefutable, ih wild.2, Bool.and_true]
    cases element with
    | wildcard => rw [patternIsIrrefutable]
    | _ => exact absurd wild.1 Bool.false_ne_true

theorem fits_of_coversAll {arm : MatchArm} {value : Value} (covers : coversAll table arm = true)
    (named : ∀ path fields, arm.pattern = .variant path fields → reading.named path value) :
    Reading.Open arm ∧ reading.fits arm.pattern (some value) := by
  rw [coversAll, matchHasCatchAll, any_cons, any_nil, Bool.or_false, Bool.or_eq_true] at covers
  rcases covers with catchAll | structArm
  · obtain ⟨open_, catches⟩ := (Bool.and_eq_true _ _).mp catchAll
    refine ⟨.inl (Bool.not_eq_true' _ ▸ open_), Reading.fits_of_irrefutable _ _ ?_⟩
    split at catches
    next is => rw [is, patternIsIrrefutable]
    next is => rw [is, patternIsIrrefutable]
    next elements is =>
      rw [Bool.and_eq_true] at catches
      rw [is, patternIsIrrefutable, catches.1, allIrrefutable_of_wildcards catches.2]
      rfl
    next => cases catches
  · obtain ⟨open_, takes⟩ := (Bool.and_eq_true _ _).mp structArm
    refine ⟨.inl (Bool.not_eq_true' _ ▸ open_), ?_⟩
    split at takes
    next path fields is =>
      rw [is, Reading.fits]
      exact Reading.partsFit_of_structFields fields _ 0 takes
    next path fields is =>
      rw [is, Reading.fits]
      exact ⟨⟨value, rfl, named path fields is⟩,
        Reading.partsFit_of_structFields fields _ 0 ((Bool.and_eq_true _ _).mp takes).2⟩
    next => cases takes

theorem exists_coversAll (found : matchHasCatchAll arms = true ∨
    arms.any (matchArmIsUnguardedStruct table) = true) :
    ∃ arm ∈ arms, coversAll table arm = true := by
  rcases found with found | found
  · obtain ⟨arm, inArms, catches⟩ := any_eq_true.mp found
    exact ⟨arm, inArms, by
      rw [coversAll, matchHasCatchAll, any_cons, any_nil, Bool.or_false, catches, Bool.true_or]⟩
  · obtain ⟨arm, inArms, takes⟩ := any_eq_true.mp found
    exact ⟨arm, inArms, by rw [coversAll, takes, Bool.or_true]⟩

/-! ## Arms that name variants -/

theorem taken_of_counted {value : Value} (counts : CountsRight reading table arms values rowOf)
    (isValue : values value)
    (covers : categoryCoversOwner table (countedCategories arms) (rowOf value).owner = true ∨
      pathsCoverVariant (countedPaths arms) (rowOf value).variant = true) :
    ∃ arm ∈ arms, Reading.Open arm ∧ reading.takes arm.pattern value := by
  obtain ⟨arm, inArms, open_, taken⟩ := counts value isValue covers
  refine ⟨arm, inArms, .inl open_, ?_⟩
  cases taken with
  | category category binder is _ taken =>
    refine ⟨arm.pattern, .one (by rw [is]; nofun), ?_⟩
    rw [is]
    change reading.fits _ _
    rw [Reading.fits]
    exact ⟨value, rfl, taken value isValue rfl⟩
  | path path fields inside _ taken =>
    obtain ⟨named, parts⟩ := taken value isValue rfl
    refine inside.takes ?_
    rw [Reading.fits]
    exact ⟨⟨value, rfl, named⟩, parts⟩

theorem AskedFor.bounds (asked : AskedFor table arms values rowOf) {node : Bytes}
    (found : anchorNode table ⟨countedPaths arms, countedCategories arms⟩ = some node) :
    node ≠ [] ∧ ∀ enum ∈ namedEnums table arms, table.Below enum node := by
  obtain ⟨top, bound⟩ := asked.bounded
  have named : ∀ enum ∈ (countedPaths arms).map (enumOwnerOfPath table) ++ countedCategories arms,
      enum ≠ [] → table.Below enum top :=
    fun enum mem clear => bound enum (mem_filter.mpr ⟨mem, decide_eq_true clear⟩)
  have bounds : ∀ start ∈ (countedPaths arms).map (enumOwnerOfPath table) ++ countedCategories arms,
      start ≠ [] → some (coveringHierarchyNode table start
        ⟨countedPaths arms, countedCategories arms⟩) = some node →
      node ≠ [] ∧ ∀ enum ∈ namedEnums table arms, table.Below enum node := by
    intro start mem clear same
    obtain ⟨fromStart, covered⟩ := @EnumTable.coveringHierarchyNode_bounds table top
      asked.oneParent start ⟨countedPaths arms, countedCategories arms⟩ (named start mem clear)
      named
    rw [Option.some.inj same] at fromStart covered
    refine ⟨?_, fun enum mem => covered enum (mem_filter.mp mem).1
      (of_decide_eq_true (mem_filter.mp mem).2)⟩
    rcases fromStart with rfl | below
    · exact clear
    · exact (EnumTable.hasEdge_of_enumInHierarchy below).1
  unfold anchorNode at found
  simp only at found
  cases paths : countedPaths arms with
  | cons path rest =>
    simp only [paths] at found
    split at found
    next => cases found
    next clear =>
      rw [← paths] at found
      exact bounds _ (by rw [paths]; exact mem_cons_self) clear found
  | nil =>
    simp only [paths] at found
    cases categories : countedCategories arms with
    | nil =>
      rw [categories] at found
      cases found
    | cons category rest =>
      simp only [categories] at found
      split at found
      next => cases found
      next clear =>
        rw [← paths, ← categories] at found
        exact bounds _ (by rw [paths, categories]; exact mem_cons_self) clear found

theorem total_of_coverage {coverage : Coverage}
    (counts : CountsRight reading table arms values rowOf)
    (asked : AskedFor table arms values rowOf) (found : coverageOf table arms {} = some coverage)
    {node : Bytes} (anchor : anchorNode table coverage = some node)
    (verdict : (if table.enumIsHierarchyMember node then
      hierarchySubtreeAllCovered table node coverage
      else flatEnumVariantsAllCovered table node coverage.covered) = true) :
    reading.Total arms values := by
  obtain rfl : coverage = ⟨countedPaths arms, countedCategories arms⟩ := coverageOf_eq found
  obtain ⟨clear, bounds⟩ := asked.bounds anchor
  intro value isValue
  have inRows := asked.rows value isValue
  have below := asked.below value isValue node bounds
  refine taken_of_counted counts isValue ?_
  split at verdict
  next member =>
    have edge : table.HasEdge (rowOf value).owner := by
      rcases below with same | below
      · obtain ⟨edge, inEdges, is⟩ := any_eq_true.mp ((Bool.and_eq_true _ _).mp member).2
        rw [Bool.or_eq_true, decide_eq_true_eq, decide_eq_true_eq] at is
        exact ⟨edge, inEdges, same ▸ is⟩
      · exact (EnumTable.hasEdge_of_enumInHierarchy below).2.1
    have asks : hierarchyAsks table node (rowOf value) = true := by
      rw [hierarchyAsks, asked.ownModule value isValue (.inl edge), Bool.and_true, Bool.or_eq_true,
        decide_eq_true_eq]
      exact below
    have covers := all_eq_true.mp verdict _ inRows
    rwa [asks, Bool.not_true, Bool.false_or, Bool.or_eq_true] at covers
  next flat =>
    have alone : ¬ table.HasEdge node := by
      rintro ⟨edge, inEdges, is⟩
      refine flat ((Bool.and_eq_true _ _).mpr ⟨decide_eq_true clear,
        any_eq_true.mpr ⟨edge, inEdges, ?_⟩⟩)
      rwa [Bool.or_eq_true, decide_eq_true_eq, decide_eq_true_eq]
    have same : (rowOf value).owner = node :=
      below.resolve_right fun below => alone (EnumTable.hasEdge_of_enumInHierarchy below).2.2
    have asks : flatAsks table node (countedPaths arms) (rowOf value) = true := by
      rw [flatAsks, decide_eq_true same, Bool.true_and, ← same]
      split
      next narrow =>
        obtain ⟨path, mem, is⟩ := asked.pathModule value isValue (same ▸ alone) narrow
        exact any_eq_true.mpr ⟨path, mem, is⟩
      next wide => exact asked.ownModule value isValue (.inr (Bool.not_eq_true _ ▸ wide))
    have covers := all_eq_true.mp ((Bool.and_eq_true _ _).mp verdict).2 _ inRows
    rw [asks, Bool.not_true, Bool.false_or] at covers
    exact .inr covers

/-! ## The verdicts -/

theorem total_of_exhaustive (alone : RestsOnArm reading arms values (coversAll table))
    (variants : (∀ arm ∈ arms, coversAll table arm = false) →
      CountsRight reading table arms values rowOf ∧ AskedFor table arms values rowOf)
    (verdict : matchArmsExhaustive arms table = true) : reading.Total arms values := by
  by_cases one : ∃ arm ∈ arms, coversAll table arm = true
  · exact total_of_trusted (fun arm value _ covers named => fits_of_coversAll covers named)
      (alone one)
  have none_ : ∀ arm ∈ arms, coversAll table arm = false :=
    fun arm inArms => Bool.not_eq_true _ ▸ fun covers => one ⟨arm, inArms, covers⟩
  obtain ⟨counts, asked⟩ := variants none_
  rw [matchArmsExhaustive, Bool.or_eq_true, Bool.or_eq_true] at verdict
  have covered := verdict.resolve_left fun found => one (exists_coversAll found)
  split at covered
  next => cases covered
  next coverage found =>
    split at covered
    next => cases covered
    next node anchor => exact total_of_coverage counts asked found anchor covered

theorem exists_knownToMatch {scrutinee : Expr} {found : Pattern → PatternMatch}
    (verdict : literalIsTotal scrutinee arms found = true) :
    ∃ arm ∈ arms, knownToMatch arm (found arm.pattern) = true := by
  obtain ⟨i, -, here⟩ := any_eq_true.mp verdict
  split at here
  next arm at_ =>
    simp only [Bool.and_eq_true] at here
    refine ⟨arm, mem_of_getElem? at_, ?_⟩
    rw [knownToMatch, here.2, here.1.1.2, here.1.2]
    rfl
  next => cases here

theorem fits_of_knownToMatch {arm : MatchArm} {literal : Bytes → PatternMatch} {value : Value}
    (reads : ∀ text, Reading.Matched (literal text) → reading.literal text value)
    (found : knownToMatch arm (patternMatches literal arm.pattern) = true) :
    Reading.Open arm ∧ reading.fits arm.pattern (some value) := by
  rw [knownToMatch, Bool.and_eq_true, Bool.and_eq_true] at found
  exact ⟨.inr found.1.1, Reading.fits_of_patternMatches reads _ ⟨found.1.2, found.2⟩⟩

theorem total_of_progress {scrutinee : Expr}
    (literals : LiteralValues reading values scrutinee)
    (alone : RestsOnArm reading arms values (progressDecides scrutinee table))
    (variants : literalBool scrutinee = none → literalInt scrutinee = none →
      (∀ arm ∈ arms, progressDecides scrutinee table arm = false) →
      CountsRight reading table arms values rowOf ∧ AskedFor table arms values rowOf)
    (verdict : progressMatchIsTotal scrutinee arms table = true) : reading.Total arms values := by
  rw [progressMatchIsTotal] at verdict
  unfold progressDecides at alone variants
  split at verdict
  next truth isBool =>
    simp only [isBool] at alone
    refine total_of_trusted (fun arm value isValue found _ => ?_)
      (alone (exists_knownToMatch verdict))
    refine fits_of_knownToMatch (fun text reads => ?_) found
    have read := (literals value isValue).1 truth isBool
    split at reads
    next isTrue =>
      obtain rfl : truth = true := reads.2
      exact isTrue ▸ read
    split at reads
    next isFalse =>
      obtain rfl : truth = false := Bool.not_eq_true' _ ▸ reads.2
      exact isFalse ▸ read
    next => cases reads.1
  next number notBool isInt =>
    simp only [notBool, isInt] at alone
    refine total_of_trusted (fun arm value isValue found _ => ?_)
      (alone (exists_knownToMatch verdict))
    refine fits_of_knownToMatch (fun text reads => ?_) found
    split at reads
    next literal known =>
      obtain rfl : literal = number := of_decide_eq_true reads.2
      exact (literals value isValue).2 literal text isInt known
    next => cases reads.1
  next notBool notInt =>
    simp only [notBool, notInt, forall_const] at alone variants
    by_cases one : ∃ arm ∈ arms,
        (unconditional arm && patternIsIrrefutable arm.pattern || coversAll table arm) = true
    · refine total_of_trusted (fun arm value _ covers named => ?_) (alone one)
      rcases (Bool.or_eq_true _ _).mp covers with irrefutable | covers
      · obtain ⟨isOpen, taken⟩ := (Bool.and_eq_true _ _).mp irrefutable
        exact ⟨.inr isOpen, Reading.fits_of_irrefutable _ _ taken⟩
      · exact fits_of_coversAll covers named
    have none_ : ∀ arm ∈ arms,
        (unconditional arm && patternIsIrrefutable arm.pattern || coversAll table arm) = false :=
      fun arm inArms => Bool.not_eq_true _ ▸ fun decides => one ⟨arm, inArms, decides⟩
    rcases (Bool.or_eq_true _ _).mp verdict with irrefutable | exhaustive
    · obtain ⟨i, -, here⟩ := any_eq_true.mp irrefutable
      split at here
      next arm at_ =>
        simp only [Bool.and_eq_true] at here
        refine absurd ⟨arm, mem_of_getElem? at_, ?_⟩ one
        rw [here.1.1, here.2]
        rfl
      next => cases here
    · refine total_of_exhaustive (fun ⟨arm, inArms, covers⟩ => absurd ⟨arm, inArms, ?_⟩ one)
        (fun _ => variants none_) exhaustive
      rw [covers, Bool.or_true]

theorem total_of_no_report {enumName : Bytes} {reportPos : Pos} {covered : List Bytes}
    {asks : EnumRow → Bool} (counts : CountsRight reading table arms values rowOf)
    (found : coveredPaths arms [] = some covered)
    (asked : ∀ value, values value → rowOf value ∈ table.rows ∧ asks (rowOf value) = true)
    (silent : missingReport table enumName reportPos covered asks = []) :
    reading.Total arms values := by
  intro value isValue
  obtain ⟨inRows, isAsked⟩ := asked value isValue
  obtain rfl : covered = countedPaths arms := coveredPaths_eq found
  refine taken_of_counted counts isValue (.inr ?_)
  rw [missingReport] at silent
  split at silent
  next none_ =>
    have covers := find?_eq_none.mp none_ _ inRows
    rw [isAsked, Bool.true_and, Bool.not_eq_true', Bool.not_eq_false] at covers
    exact covers
  next => cases silent

theorem exists_coveredPaths (before : List Bytes)
    (variants : ∀ arm ∈ arms, (collectArmVariantPaths arm.pattern).ok = true) :
    ∃ covered, coveredPaths arms before = some covered := by
  induction arms generalizing before with
  | nil => exact ⟨before, rfl⟩
  | cons arm rest ih =>
    have later := fun arm mem => variants arm (mem_cons_of_mem _ mem)
    rw [coveredPaths]
    split
    · exact ih _ later
    · simp only [variants arm mem_cons_self, if_true]
      exact ih _ later

theorem total_of_check {enumName : Bytes} {reportPos : Pos}
    (counts : CountsRight reading table arms values rowOf)
    (variants : ∀ arm ∈ arms, (collectArmVariantPaths arm.pattern).ok = true)
    (known : table.edges.any (·.parent = enumName) = true ∨ table.enumIsKnown enumName = true)
    (asked : ∀ value, values value →
      rowOf value ∈ table.rows ∧ checkAsks table enumName (rowOf value) = true)
    (silent : checkEnumExhaustive enumName arms reportPos table = []) :
    reading.Total arms values := by
  intro value isValue
  obtain ⟨covered, found⟩ := exists_coveredPaths [] variants
  have rest := (append_eq_nil_iff.mp silent).2
  split at rest
  next =>
    split at rest
    next wild =>
      obtain ⟨arm, inArms, isWild⟩ := any_eq_true.mp wild
      have variant := variants arm inArms
      cases pattern : arm.pattern with
      | wildcard =>
        rw [pattern] at variant
        simp [collectArmVariantPaths] at variant
      | _ =>
        rw [pattern] at isWild
        cases isWild
    next => cases rest
  cases root : table.edges.any (·.parent = enumName) with
  | true =>
    rw [if_pos root, checkHierarchyExhaustive, found] at rest
    refine total_of_no_report counts found (fun value isValue => ?_) rest value isValue
    obtain ⟨inRows, asks⟩ := asked value isValue
    rw [checkAsks, if_pos root] at asks
    exact ⟨inRows, asks⟩
  | false =>
    have flat : ¬ table.edges.any (·.parent = enumName) = true := by
      rw [root]
      exact Bool.false_ne_true
    have isKnown := known.resolve_left flat
    rw [if_neg flat, if_neg (by rw [isKnown]; decide)] at rest
    cases module : table.bareEnumModule enumName with
    | none =>
      have asks := (asked value isValue).2
      rw [checkAsks, if_neg flat, module] at asks
      simp at asks
    | some own =>
      rw [found, module] at rest
      refine total_of_no_report counts found (fun value isValue => ?_) rest value isValue
      obtain ⟨inRows, asks⟩ := asked value isValue
      rw [checkAsks, if_neg flat, module] at asks
      refine ⟨inRows, ?_⟩
      simp only [Bool.and_eq_true, decide_eq_true_eq, Option.some.injEq] at asks ⊢
      exact ⟨asks.1, asks.2.symm⟩

end Verdicts

/-! ## An enum of two variants -/

def rowA : EnumRow := ⟨ascii "E", ascii "A", []⟩

def rowB : EnumRow := ⟨ascii "E", ascii "B", []⟩

/-- `E` with the variants `A` and `B`, the first with a number. -/
def pairTable : EnumTable where
  rows := [rowA, rowB]

/-- A number, or `A` with a number, or `B`. -/
inductive PairValue where
  | number (value : Int)
  | a (value : Int)
  | b

namespace PairValue

def IsE : PairValue → Prop
  | number _ => False
  | _ => True

def row : PairValue → EnumRow
  | b => rowB
  | _ => rowA

end PairValue

/-- Nothing but the variants and numbers has a meaning. -/
def pairReading : Reading PairValue where
  constants _ := False
  constant _ _ := False
  literal text value := ∃ number, decimalPatternValue text = some number ∧ value = .number number
  named path value :=
    (path = ascii "E.A" ∧ ∃ number, value = .a number) ∨ path = ascii "E.B" ∧ value = .b
  ofCategory _ _ := False
  payload value _ :=
    match value with
    | .a number => some (.number number)
    | _ => none
  labelled _ _ := none
  other _ _ := False

def pairArms (payload : Pattern) : List MatchArm :=
  [.mk (.variant (ascii "E.A") [payload]) [] .absent (.atLine 2),
    .mk (.variant (ascii "E.B") []) [] .absent (.atLine 3)]

theorem rowA_ne_rowB : rowA ≠ rowB := by decide

theorem countsRight_pairArms :
    CountsRight pairReading pairTable (pairArms .wildcard) PairValue.IsE PairValue.row := by
  intro value isValue _
  cases value with
  | number => exact isValue.elim
  | a number =>
    refine ⟨_, mem_cons_self, rfl, .path _ _ .variant
      (show pathTailEquals (ascii "E.A") rowA.variant = true by decide +kernel) ?_⟩
    intro other isValue same
    cases other with
    | number => exact isValue.elim
    | a number =>
      exact ⟨.inl ⟨rfl, number, rfl⟩, by simp [Reading.partsFit, Reading.fits]⟩
    | b => exact absurd same rowA_ne_rowB.symm
  | b =>
    refine ⟨_, mem_cons_of_mem _ mem_cons_self, rfl, .path _ _ .variant
      (show pathTailEquals (ascii "E.B") rowB.variant = true by decide +kernel) ?_⟩
    intro other isValue same
    cases other with
    | number => exact isValue.elim
    | a number => exact absurd same rowA_ne_rowB
    | b => exact ⟨.inr ⟨rfl, rfl⟩, by rw [Reading.partsFit]; trivial⟩

theorem namedEnums_pairArms (payload : Pattern) :
    namedEnums pairTable (pairArms payload) = [ascii "E", ascii "E"] := rfl

theorem PairValue.row_owner (value : PairValue) : value.row.owner = ascii "E" := by
  cases value <;> rfl

theorem PairValue.row_module (value : PairValue) : value.row.module = [] := by
  cases value <;> rfl

theorem askedFor_pairArms :
    AskedFor pairTable (pairArms .wildcard) PairValue.IsE PairValue.row where
  oneParent := .nil
  rows value _ := by
    cases value with
    | b => exact mem_cons_of_mem _ mem_cons_self
    | _ => exact mem_cons_self
  bounded := ⟨ascii "E", by simp [namedEnums_pairArms, EnumTable.Below]⟩
  below value _ top bound := by
    rw [value.row_owner]
    exact bound _ mem_cons_self
  ownModule value _ _ := by
    rw [value.row_owner, value.row_module]
    decide +kernel
  pathModule value _ _ narrow := by
    rw [value.row_owner] at narrow
    exact absurd narrow (by decide +kernel)

end Elisa.Semantic.Matches
