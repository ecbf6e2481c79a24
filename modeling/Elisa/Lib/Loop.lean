import Mathlib.Logic.Function.Iterate

/-!
# Loops

A loop goes round until its state is done.  It comes to an end if some number of rounds leads to
a state that is done, and it does not if its rounds stay among states of which none is done.
-/

namespace Elisa.Lib

section Loop

variable {State : Type*} {round : State → State} {done : State → Prop} {state : State}

/-- Some number of rounds leads to a state that is done. -/
def Ends (round : State → State) (done : State → Prop) (start : State) : Prop :=
  ∃ rounds, done (round^[rounds] start)

/-- Before it is done, a loop comes to its end if it does behind its next round. -/
theorem ends_iff_round (going : ¬ done state) :
    Ends round done state ↔ Ends round done (round state) := by
  constructor
  · rintro ⟨rounds, last⟩
    cases rounds with
    | zero => exact absurd last going
    | succ rounds => exact ⟨rounds, last⟩
  · rintro ⟨rounds, last⟩
    exact ⟨rounds + 1, last⟩

/-- A loop whose rounds stay among states that are not done goes on forever. -/
theorem not_ends_of_stuck {stuck : State → Prop}
    (going : ∀ state, stuck state → ¬ done state)
    (stay : ∀ state, stuck state → stuck (round state))
    (start : stuck state) : ¬ Ends round done state := by
  rintro ⟨rounds, last⟩
  induction rounds generalizing state with
  | zero => exact going state start last
  | succ rounds ih => exact ih (stay state start) last

end Loop

end Elisa.Lib
