import Mathlib.Data.Nat.Notation

/-!
# Machines that take steps until they break

A step answers with the next state, or it breaks.  `runSteps` takes as many steps as its fuel
allows.  What every step keeps, the run keeps (`runSteps_keeps`); a relation that every step stays
in relates the ends (`runSteps_related`); a machine whose steps lower a measure breaks
(`runSteps_halts`); and one that follows another one runs along with it (`runSteps_map`).
-/

namespace Elisa.Lib

section Steps

variable {State : Type*} {step : State → Option State} {fuel : Nat} {state : State}

/-- The state in which a machine breaks, or runs out of fuel. -/
def runSteps (step : State → Option State) : Nat → State → State
  | 0, state => state
  | fuel + 1, state =>
    match step state with
    | none => state
    | some next => runSteps step fuel next

@[simp] theorem runSteps_zero : runSteps step 0 state = state := rfl

theorem runSteps_of_none (broken : step state = none) : runSteps step fuel state = state := by
  cases fuel with
  | zero => rfl
  | succ fuel => simp [runSteps, broken]

theorem runSteps_of_some {next : State} (taken : step state = some next) :
    runSteps step (fuel + 1) state = runSteps step fuel next := by
  simp [runSteps, taken]

theorem runSteps_keeps (keeps : State → Prop)
    (kept : ∀ state next, keeps state → step state = some next → keeps next)
    (start : keeps state) : keeps (runSteps step fuel state) := by
  induction fuel generalizing state with
  | zero => exact start
  | succ fuel ih =>
    cases h : step state with
    | none => rwa [runSteps_of_none h]
    | some next =>
      rw [runSteps_of_some h]
      exact ih (kept state next start h)

/-- A reflexive and transitive relation that every step stays in relates the ends of the run. -/
theorem runSteps_related (related : State → State → Prop) (refl : ∀ state, related state state)
    (trans : ∀ {a b c}, related a b → related b c → related a c)
    (stays : ∀ state next, step state = some next → related state next) :
    related state (runSteps step fuel state) := by
  induction fuel generalizing state with
  | zero => exact refl state
  | succ fuel ih =>
    cases h : step state with
    | none =>
      rw [runSteps_of_none h]
      exact refl state
    | some next =>
      rw [runSteps_of_some h]
      exact trans (stays state next h) ih

/-- A machine whose steps lower a measure, while they keep what they start with, breaks within as
many steps. -/
theorem runSteps_halts_keeps (keeps : State → Prop)
    (kept : ∀ state next, keeps state → step state = some next → keeps next)
    (measure : State → Nat)
    (lowers : ∀ state next, keeps state → step state = some next → measure next < measure state)
    (start : keeps state) (enough : measure state ≤ fuel) :
      step (runSteps step fuel state) = none := by
  induction fuel generalizing state with
  | zero =>
    cases h : step state with
    | none => exact h
    | some next =>
      have := lowers state next start h
      omega
  | succ fuel ih =>
    cases h : step state with
    | none => rwa [runSteps_of_none h]
    | some next =>
      rw [runSteps_of_some h]
      have := lowers state next start h
      exact ih (kept state next start h) (by omega)

theorem runSteps_halts (measure : State → Nat)
    (lowers : ∀ state next, step state = some next → measure next < measure state)
    (enough : measure state ≤ fuel) : step (runSteps step fuel state) = none :=
  runSteps_halts_keeps (fun _ => True) (fun _ _ _ _ => trivial) measure
    (fun state next _ => lowers state next) trivial enough

/-- A machine that has broken stays where it is, whatever fuel is left. -/
theorem runSteps_of_le {more : Nat} (broken : step (runSteps step fuel state) = none)
    (le : fuel ≤ more) : runSteps step more state = runSteps step fuel state := by
  induction fuel generalizing more state with
  | zero => exact runSteps_of_none broken
  | succ fuel ih =>
    obtain ⟨more, rfl⟩ : ∃ n, more = n + 1 := ⟨more - 1, by omega⟩
    cases h : step state with
    | none => rw [runSteps_of_none h, runSteps_of_none h]
    | some next =>
      rw [runSteps_of_some h] at broken
      rw [runSteps_of_some h, runSteps_of_some h]
      exact ih broken (by omega)

/-- A machine that another one follows on the states that the steps keep. -/
theorem runSteps_map {Other : Type*} {follower : Other → Option Other} (f : State → Other)
    (keeps : State → Prop)
    (kept : ∀ state next, keeps state → step state = some next → keeps next)
    (follows : ∀ state, keeps state → follower (f state) = (step state).map f)
    (start : keeps state) : runSteps follower fuel (f state) = f (runSteps step fuel state) := by
  induction fuel generalizing state with
  | zero => rfl
  | succ fuel ih =>
    have same := follows state start
    cases h : step state with
    | none => rw [runSteps_of_none h, runSteps_of_none (by rw [same, h]; rfl)]
    | some next =>
      rw [runSteps_of_some h, runSteps_of_some (by rw [same, h]; rfl)]
      exact ih (kept state next start h)

end Steps

end Elisa.Lib
