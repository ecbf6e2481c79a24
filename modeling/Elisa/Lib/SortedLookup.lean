import Mathlib.Data.List.Basic

/-!
# Looking up a range in a sorted list

`lowerBound` is the binary search for the first index that a predicate does not hold of; the look at
an index may fail.  In a sorted list the values equivalent to a key stand together
(`filter_eq_takeWhile`).
-/

namespace Elisa.Lib

section LowerBound

/-- The first index from `low` on, and before `high`, that does not stand before the place
sought. -/
def lowerBound (before : Nat → Option Bool) (low high : Nat) : Option Nat :=
  if low < high then do
    let middle := low + (high - low) / 2
    if ← before middle then lowerBound before (middle + 1) high
    else lowerBound before low middle
  else some low
termination_by high - low
decreasing_by all_goals omega

/-- The search ends between the indices before the place and the others. -/
theorem lowerBound_spec {before : Nat → Option Bool} {stands : Nat → Prop} [DecidablePred stands]
    {low high : Nat} (range : low ≤ high)
    (reads : ∀ index, low ≤ index → index < high → before index = some (decide (stands index)))
    (falls : ∀ i j, low ≤ i → i ≤ j → j < high → stands j → stands i) :
    ∃ place, lowerBound before low high = some place ∧ low ≤ place ∧ place ≤ high ∧
      (∀ index, low ≤ index → index < place → stands index) ∧
      ∀ index, place ≤ index → index < high → ¬ stands index := by
  induction h : high - low using Nat.strongRecOn generalizing low high with
  | ind rest ih =>
    rw [lowerBound]
    rcases Nat.lt_or_ge low high with going | ended
    · rw [if_pos going]
      dsimp only
      rw [reads _ (by omega) (by omega)]
      simp only [Option.bind_eq_bind, Option.bind_some, decide_eq_true_eq]
      have hmiddle : low + (high - low) / 2 < high := by omega
      rcases Decidable.em (stands (low + (high - low) / 2)) with behind | here
      · rw [if_pos behind]
        obtain ⟨place, hplace, hle, hge, below, above⟩ := ih _ (by omega)
          (show low + (high - low) / 2 + 1 ≤ high by omega)
          (fun index hi => reads index (by omega))
          (fun i j hi => falls i j (by omega)) rfl
        refine ⟨place, hplace, by omega, hge, fun index hi hlt => ?_, above⟩
        rcases Nat.lt_or_ge (low + (high - low) / 2) index with h' | h'
        · exact below index h' hlt
        · exact falls index _ hi h' hmiddle behind
      · rw [if_neg here]
        obtain ⟨place, hplace, hle, hge, below, above⟩ := ih _ (by omega)
          (show low ≤ low + (high - low) / 2 by omega)
          (fun index hi hlt => reads index hi (by omega))
          (fun i j hi hij hj => falls i j hi hij (by omega)) rfl
        refine ⟨place, hplace, hle, by omega, below, fun index hi hlt hstands => ?_⟩
        rcases Nat.lt_or_ge index (low + (high - low) / 2) with h' | h'
        · exact above index hi h' hstands
        · exact here (falls _ index (by omega) h' hlt hstands)
    · rw [if_neg (Nat.not_lt.mpr ended)]
      exact ⟨low, rfl, Nat.le_refl _, range, fun index hi hlt => by omega,
        fun index hi hlt => by omega⟩

end LowerBound

section Ranges

variable {α : Type*} {wanted : α → Bool} {le : α → α → Prop}

/-- Where all values that are not wanted come behind the wanted ones, these are a first part. -/
theorem filter_eq_takeWhile {list : List α} (sorted : list.Pairwise le)
    (ends : ∀ a ∈ list, ∀ b ∈ list, le a b → wanted a = false → wanted b = false) :
    list.filter wanted = list.takeWhile wanted := by
  induction list with
  | nil => rfl
  | cons a rest ih =>
    rw [List.pairwise_cons] at sorted
    cases h : wanted a with
    | true =>
      rw [List.filter_cons_of_pos h, List.takeWhile_cons_of_pos h, ih sorted.2]
      intro b hb c hc
      exact ends b (.tail _ hb) c (.tail _ hc)
    | false =>
      rw [List.takeWhile_cons_of_neg (by simp [h]), List.filter_eq_nil_iff]
      intro b hb
      rw [List.mem_cons] at hb
      rcases hb with rfl | hb
      · simp [h]
      · simp [ends a (.head _) b (.tail _ hb) (sorted.1 b hb) h]

end Ranges

end Elisa.Lib
