import Mathlib.Data.Set.Finite.Basic
import Mathlib.Order.WellFounded

/-!
# Procedures that call themselves

`calls x` are the finitely many states of the calls at `x`.  A procedure returns at a state if it
returns at every call (`Returns`).  Where only finitely many states can be reached, it does if and
only if none of them calls itself again, directly or through others (`returns_iff`).
-/

namespace Elisa.Lib.Unfolding

variable {State : Type*} {calls : State → List State} {x y : State} {fuel more : Nat}

/-- The procedure returns within a number of rounds of calls. -/
inductive ReturnsWithin (calls : State → List State) : Nat → State → Prop
  | intro {fuel : Nat} {x : State} (all : ∀ y ∈ calls x, ReturnsWithin calls fuel y) :
      ReturnsWithin calls (fuel + 1) x

def Returns (calls : State → List State) (x : State) : Prop :=
  ∃ fuel, ReturnsWithin calls fuel x

/-- A state that is called from another one, directly or through others. -/
def Leads (calls : State → List State) : State → State → Prop :=
  Relation.TransGen fun x y => y ∈ calls x

/-- A state from which no state that calls itself again is reached. -/
def Acyclic (calls : State → List State) (x : State) : Prop :=
  ∀ y, Relation.ReflTransGen (fun x y => y ∈ calls x) x y → ¬ Leads calls y y

theorem ReturnsWithin.mono (h : ReturnsWithin calls fuel x) (le : fuel ≤ more) :
    ReturnsWithin calls more x := by
  induction h generalizing more with
  | intro all ih =>
    cases more with
    | zero => cases le
    | succ more => exact .intro fun y mem => ih y mem (Nat.le_of_succ_le_succ le)

/-- Finitely many calls that return do so within a common number of rounds. -/
theorem exists_common {states : List State} (all : ∀ y ∈ states, Returns calls y) :
    ∃ fuel, ∀ y ∈ states, ReturnsWithin calls fuel y := by
  induction states with
  | nil => exact ⟨0, by simp⟩
  | cons state states ih =>
    obtain ⟨first, hfirst⟩ := all state (.head _)
    obtain ⟨rest, hrest⟩ := ih fun y mem => all y (.tail _ mem)
    refine ⟨max first rest, fun y mem => ?_⟩
    cases mem with
    | head => exact hfirst.mono (Nat.le_max_left _ _)
    | tail _ mem => exact (hrest y mem).mono (Nat.le_max_right _ _)

theorem returns_of_calls (all : ∀ y ∈ calls x, Returns calls y) : Returns calls x := by
  obtain ⟨fuel, common⟩ := exists_common all
  exact ⟨fuel + 1, .intro common⟩

theorem Returns.acc (h : Returns calls x) : Acc (fun y x => y ∈ calls x) x := by
  obtain ⟨fuel, within⟩ := h
  induction within with
  | intro _ ih => exact .intro _ ih

theorem acc_of_reached (acc : Acc (fun y x => y ∈ calls x) x)
    (reached : Relation.ReflTransGen (fun x y => y ∈ calls x) x y) :
    Acc (fun y x => y ∈ calls x) y := by
  induction reached with
  | refl => exact acc
  | tail _ step ih => exact ih.inv step

/-- There is no way back to a state without endless chains of calls. -/
theorem not_leads_self (acc : Acc (fun y x => y ∈ calls x) x) : ¬ Leads calls x x := by
  induction acc with
  | intro x _ ih =>
    intro cycle
    obtain ⟨next, step, back⟩ := Relation.TransGen.head'_iff.1 cycle
    exact ih next step (Relation.TransGen.tail' back step)

theorem Returns.acyclic (h : Returns calls x) : Acyclic calls x :=
  fun _ reached => not_leads_self (acc_of_reached h.acc reached)

theorem Acyclic.returns (h : Acyclic calls x) {states : Set State} (finite : states.Finite)
    (start : x ∈ states) (closed : ∀ s ∈ states, ∀ y ∈ calls s, y ∈ states) :
    Returns calls x := by
  let Reached := { s : State // s ∈ states ∧ Relation.ReflTransGen (fun x y => y ∈ calls x) x s }
  have : Finite Reached := (finite.subset fun s (hs : s ∈ states ∧ _) => hs.1).to_subtype
  let below : Reached → Reached → Prop := fun b a => Leads calls a.1 b.1
  have : IsTrans Reached below := ⟨fun _ _ _ hab hbc => hbc.trans hab⟩
  have : Std.Irrefl below := ⟨fun a => h a.1 a.2.2⟩
  have wellFounded : WellFounded below := Finite.wellFounded_of_trans_of_irrefl below
  have all : ∀ s : Reached, Returns calls s.1 := by
    intro s
    induction s using wellFounded.induction with
    | h s ih =>
      refine returns_of_calls fun y mem => ?_
      exact ih ⟨y, closed s.1 s.2.1 y mem, s.2.2.tail mem⟩ (.single mem)
  exact all ⟨x, start, .refl⟩

/-- Among finitely many states the procedure returns if and only if it runs into no cycle. -/
theorem returns_iff {states : Set State} (finite : states.Finite) (start : x ∈ states)
    (closed : ∀ s ∈ states, ∀ y ∈ calls s, y ∈ states) : Returns calls x ↔ Acyclic calls x :=
  ⟨Returns.acyclic, fun h => h.returns finite start closed⟩

end Elisa.Lib.Unfolding
