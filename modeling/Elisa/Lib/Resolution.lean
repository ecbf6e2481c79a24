import Mathlib.Data.List.Basic
import Mathlib.Data.List.Count
import Mathlib.Logic.Relation

/-!
# Resolving items by repeated passes

Every item of a list has a rule, which computes its value from those known so far; a rule that knows
more computes the same (`Rules.mono`).  A pass visits the items in some order and records what their
rules compute; passes are made until one records nothing.  Enough passes find exactly what can be
derived without any order (`Derives`, `passes_eq_some_iff`).
-/

namespace Elisa.Lib.Resolution

/-- The values known so far. -/
abbrev Known (ι V : Type*) := ι → Option V

/-- What is known stays known, with the same value. -/
def Keeps {ι V : Type*} (known known' : Known ι V) : Prop :=
  ∀ i v, known i = some v → known' i = some v

/-- How the value of an item follows from the known ones. -/
structure Rules (ι V : Type*) where
  apply : ι → Known ι V → Option V
  mono : ∀ {i : ι} {known known' : Known ι V} {v : V}, Keeps known known' →
    apply i known = some v → apply i known' = some v

/-- The values known, and whether the pass has recorded one. -/
structure State (ι V : Type*) where
  known : Known ι V
  progressed : Bool

variable {ι V : Type*} {known known' known'' given : Known ι V} {i j : ι} {v w : V}

theorem Keeps.refl (known : Known ι V) : Keeps known known := fun _ _ h => h

theorem Keeps.trans (h : Keeps known known') (h' : Keeps known' known'') : Keeps known known'' :=
  fun i v found => h' i v (h i v found)

section
variable [DecidableEq ι]

theorem keeps_update (unknown : known i = none) (v : V) :
    Keeps known (Function.update known i (some v)) := by
  intro j w found
  have different : j ≠ i := by
    rintro rfl
    rw [unknown] at found
    cases found
  rw [Function.update_of_ne different]
  exact found

/-! ## Passes -/

/-- An item that is not known is recorded if its rule computes a value. -/
def visit (rules : Rules ι V) (i : ι) (state : State ι V) : State ι V :=
  match state.known i with
  | some _ => state
  | none =>
    match rules.apply i state.known with
    | none => state
    | some v => ⟨Function.update state.known i (some v), true⟩

def pass (rules : Rules ι V) (items : List ι) (known : Known ι V) : State ι V :=
  items.foldr (visit rules) ⟨known, false⟩

/-- Passes until one records nothing, at most a number of them. -/
def passes (rules : Rules ι V) (items : List ι) : Nat → Known ι V → Known ι V
  | 0, known => known
  | count + 1, known =>
    let state := pass rules items known
    if state.progressed then passes rules items count state.known else state.known

end

/-! ## What can be derived -/

/-- A value that is given, or computed from values derived before. -/
inductive Derives (rules : Rules ι V) (items : List ι) (given : Known ι V) : ι → V → Prop
  | given {i : ι} {v : V} (found : given i = some v) : Derives rules items given i v
  | rule {i : ι} {v : V} (mem : i ∈ items) (unknown : given i = none) (known : Known ι V)
      (derived : ∀ j w, known j = some w → Derives rules items given j w)
      (computed : rules.apply i known = some v) : Derives rules items given i v

/-- An item without which the rule of another computes nothing. -/
def Needs (rules : Rules ι V) (i j : ι) : Prop :=
  ∀ known v, rules.apply i known = some v → (known j).isSome

section
variable {rules : Rules ι V} {items : List ι}

theorem Derives.unique (h : Derives rules items given i v) (h' : Derives rules items given i w) :
    v = w := by
  induction h generalizing w with
  | given found =>
    cases h' with
    | given found' => exact Option.some.inj (found.symm.trans found')
    | rule _ unknown => cases found.symm.trans unknown
  | @rule i v _ unknown known _ computed ih =>
    cases h' with
    | given found' => cases found'.symm.trans unknown
    | rule _ _ known' derived' computed' =>
      -- The two computations agree with the one that knows what either does.
      let both : Known ι V := fun j => known j <|> known' j
      have keeps : Keeps known both := by
        intro j x found
        simp [both, found]
      have keeps' : Keeps known' both := by
        intro j x found
        cases other : known j with
        | none => simp [both, other, found]
        | some y =>
          obtain rfl := ih j y other (derived' j x found)
          simp [both, other]
      exact Option.some.inj ((rules.mono keeps computed).symm.trans (rules.mono keeps' computed'))

theorem Derives.needs (h : Derives rules items given i v) (unknown : given i = none)
    (needs : Needs rules i j) : ∃ w, Derives rules items given j w := by
  cases h with
  | given found => cases found.symm.trans unknown
  | rule _ _ known derived computed =>
    obtain ⟨w, found⟩ := Option.isSome_iff_exists.1 (needs known v computed)
    exact ⟨w, derived j w found⟩

/-- A derived value has no endless chain of needs, and so none that comes back to it. -/
theorem Derives.acc (h : Derives rules items given i v) :
    Acc (fun j i => given i = none ∧ Needs rules i j) i := by
  induction h with
  | given found => exact .intro _ fun j step => by cases found.symm.trans step.1
  | rule _ _ known _ computed ih =>
    refine .intro _ fun j step => ?_
    obtain ⟨w, found⟩ := Option.isSome_iff_exists.1 (step.2 known _ computed)
    exact ih j w found

/-- Rules that agree on a set of items, and look at no others there, derive the same in it. -/
theorem Derives.transfer {rules' : Rules ι V} {items' : List ι} (inside : ι → Prop)
    [DecidablePred inside] (sub : ∀ i, inside i → i ∈ items → i ∈ items')
    (agree : ∀ i known v, inside i → rules.apply i known = some v →
      rules'.apply i (fun j => if inside j then known j else none) = some v)
    (h : Derives rules items given i v) {given' : Known ι V}
    (same : ∀ i, inside i → given i = given' i) (start : inside i) :
    Derives rules' items' given' i v := by
  induction h with
  | given found => exact .given ((same _ start).symm.trans found)
  | rule mem unknown known _ computed ih =>
    refine .rule (sub _ start mem) ((same _ start).symm.trans unknown) _ (fun j w found => ?_)
      (agree _ known _ start computed)
    split at found
    next within => exact ih j w found within
    next => cases found

/-- What is known is what was given and what can be derived. -/
structure Sound (rules : Rules ι V) (items : List ι) (given known : Known ι V) : Prop where
  keeps : Keeps given known
  derived : ∀ i v, known i = some v → Derives rules items given i v

theorem Sound.start (rules : Rules ι V) (items : List ι) (given : Known ι V) :
    Sound rules items given given :=
  ⟨Keeps.refl given, fun _ _ found => .given found⟩

/-- No rule computes a value that is not recorded. -/
def Settled (rules : Rules ι V) (items : List ι) (known : Known ι V) : Prop :=
  ∀ i ∈ items, known i = none → rules.apply i known = none

theorem Settled.complete (settled : Settled rules items known)
    (sound : Sound rules items given known)
    (h : Derives rules items given i v) : known i = some v := by
  induction h with
  | given found => exact sound.keeps _ _ found
  | @rule i v mem _ before _ computed ih =>
    have now := rules.mono ih computed
    cases found : known i with
    | none => cases (settled i mem found).symm.trans now
    | some w =>
      have first := sound.derived i w found
      have second : Derives rules items given i v :=
        .rule mem (by assumption) known sound.derived now
      rw [first.unique second]

end

/-! ## Enough passes find what can be derived -/

def unknownCount (scope : List ι) (known : Known ι V) : Nat :=
  scope.countP fun i => (known i).isNone

theorem unknownCount_mono {scope : List ι} (h : Keeps known known') :
    unknownCount scope known' ≤ unknownCount scope known := by
  apply List.countP_mono_left
  intro i _ unknown
  cases found : known i with
  | none => rfl
  | some v => simp [h i v found] at unknown

section
variable [DecidableEq ι] {rules : Rules ι V} {items scope : List ι} {state : State ι V}
  {count : Nat}

/-- A visit changes nothing, because there is nothing to record, or records a value. -/
theorem visit_cases (rules : Rules ι V) (i : ι) (state : State ι V) :
    (visit rules i state = state ∧ (state.known i = none → rules.apply i state.known = none)) ∨
      ∃ v, state.known i = none ∧ rules.apply i state.known = some v ∧
        visit rules i state = ⟨Function.update state.known i (some v), true⟩ := by
  unfold visit
  cases found : state.known i with
  | some v => exact Or.inl ⟨rfl, fun h => by cases h⟩
  | none =>
    cases computed : rules.apply i state.known with
    | none => exact Or.inl ⟨rfl, fun _ => rfl⟩
    | some v => exact Or.inr ⟨v, rfl, rfl, rfl⟩

theorem unknownCount_update (mem : i ∈ scope) (unknown : known i = none) (v : V) :
    unknownCount scope (Function.update known i (some v)) < unknownCount scope known := by
  induction scope with
  | nil => cases mem
  | cons first rest ih =>
    have keeps : unknownCount rest (Function.update known i (some v)) ≤ unknownCount rest known :=
      unknownCount_mono (keeps_update unknown v)
    simp only [unknownCount, List.countP_cons] at ih keeps ⊢
    by_cases same : first = i
    · subst same
      simp only [Function.update_self, unknown, Option.isNone_some, Option.isNone_none,
        Bool.false_eq_true, if_false, if_true]
      exact Nat.lt_succ_of_le keeps
    have inRest : i ∈ rest := by
      rcases List.mem_cons.1 mem with h | h
      · exact absurd h.symm same
      · exact h
    have less := ih inRest
    rw [Function.update_of_ne same]
    omega

theorem Sound.visit (h : Sound rules items given state.known) (mem : i ∈ items) :
    Sound rules items given (visit rules i state).known := by
  rcases visit_cases rules i state with ⟨same, -⟩ | ⟨v, unknown, computed, eq⟩
  · rw [same]
    exact h
  rw [eq]
  refine ⟨h.keeps.trans (keeps_update unknown v), fun j w found => ?_⟩
  dsimp only at found
  by_cases same : j = i
  · subst same
    rw [Function.update_self, Option.some.injEq] at found
    subst found
    have fresh : given j = none := by
      cases old : given j with
      | none => rfl
      | some x => cases (h.keeps j x old).symm.trans unknown
    exact .rule mem fresh state.known h.derived computed
  · rw [Function.update_of_ne same] at found
    exact h.derived j w found

section Passes

variable (inScope : ∀ i known v, rules.apply i known = some v → i ∈ scope)
include inScope

/-- A pass keeps what is known.  Without progress it has changed nothing, and there is nothing to
record; with progress fewer items are unknown. -/
theorem pass_spec (h : Sound rules items given known) (pending : List ι)
    (sub : ∀ i ∈ pending, i ∈ items) :
    Sound rules items given (pass rules pending known).known ∧
      unknownCount scope (pass rules pending known).known ≤ unknownCount scope known ∧
      (pass rules pending known = ⟨known, false⟩ ∧ Settled rules pending known ∨
        (pass rules pending known).progressed = true ∧
          unknownCount scope (pass rules pending known).known <
            unknownCount scope known) := by
  induction pending with
  | nil => exact ⟨h, Nat.le_refl _, Or.inl ⟨rfl, fun _ mem => absurd mem List.not_mem_nil⟩⟩
  | cons i pending ih =>
    obtain ⟨sound, count, tail⟩ := ih fun j mem => sub j (.tail _ mem)
    have step : pass rules (i :: pending) known = Resolution.visit rules i
      (pass rules pending known) :=
      rfl
    have now := sound.visit (sub i (.head _))
    rw [← step] at now
    refine ⟨now, ?_⟩
    rcases visit_cases rules i (pass rules pending known) with
      ⟨same, nothing⟩ | ⟨v, unknown, computed, eq⟩
    · rw [step, same]
      refine ⟨count, ?_⟩
      rcases tail with ⟨unchanged, settled⟩ | progress
      · refine Or.inl ⟨unchanged, fun j mem => ?_⟩
        rw [unchanged] at nothing
        cases mem with
        | head => exact nothing
        | tail _ mem => exact settled j mem
      · exact Or.inr progress
    · rw [step, eq]
      have less := unknownCount_update (inScope i _ v computed) unknown v
      exact ⟨by dsimp only; omega, Or.inr ⟨rfl, by dsimp only; omega⟩⟩

theorem passes_spec (h : Sound rules items given known)
    (enough : unknownCount scope known ≤ count) :
    Sound rules items given (passes rules items count known) ∧
      Settled rules items (passes rules items count known) := by
  induction count generalizing known with
  | zero =>
    refine ⟨h, fun i _ (unknown : known i = none) => ?_⟩
    cases computed : rules.apply i known with
    | none => exact computed
    | some v =>
      -- Everything is known, so the item is.
      have less := unknownCount_update (inScope i known v computed) unknown v
      omega
  | succ count ih =>
    obtain ⟨sound, -, outcome⟩ := pass_spec inScope h items fun _ mem => mem
    simp only [passes]
    rcases outcome with ⟨unchanged, settled⟩ | ⟨progressed, less⟩
    · rw [unchanged]
      exact ⟨h, settled⟩
    · rw [if_pos progressed]
      exact ih sound (by omega)

/-- Enough passes find exactly what can be derived, whatever their order. -/
theorem passes_eq_some_iff (enough : unknownCount scope given ≤ count) :
    passes rules items count given i = some v ↔ Derives rules items given i v := by
  obtain ⟨sound, settled⟩ := passes_spec inScope (Sound.start rules items given) enough
  exact ⟨sound.derived i v, settled.complete sound⟩

end Passes

end

end Elisa.Lib.Resolution
