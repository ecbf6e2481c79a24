import Mathlib.Data.List.Basic
import Mathlib.Data.List.Induction

/-!
# Sparse maps

A sparse map is a list of rows in the order of a key; a row holds from its key up to the next one.
`at?` is the row that holds at a position, `upperBound` the binary search for it.
-/

namespace Elisa.SparseMap

open List

variable {β : Type*} (key : β → Nat)

/-- The row that holds at a position. -/
def at? (rows : List β) (k : Nat) : Option β := (rows.filter fun row => key row ≤ k).getLast?

variable {key}

@[simp] theorem at?_nil (k : Nat) : at? key [] k = none := rfl

theorem at?_append (rows rows' : List β) (k : Nat) :
    at? key (rows ++ rows') k = (at? key rows' k).or (at? key rows k) := by
  rw [at?, filter_append, getLast?_append]
  rfl

theorem at?_map {γ : Type*} {key : γ → Nat} (f : β → γ) (rows : List β) (k : Nat) :
    at? key (rows.map f) k = (at? (fun row => key (f row)) rows k).map f := by
  rw [at?, filter_map, getLast?_map]
  rfl

variable {rows : List β} {k : Nat}

theorem at?_of_lt (h : ∀ row ∈ rows, k < key row) : at? key rows k = none := by
  rw [at?, filter_eq_nil_iff.mpr]
  · rfl
  · intro row hrow
    simpa using h row hrow

theorem at?_of_le (h : ∀ row ∈ rows, key row ≤ k) : at? key rows k = rows.getLast? := by
  rw [at?, filter_eq_self.mpr]
  intro row hrow
  simpa using h row hrow

theorem mem_of_at? {row : β} (h : at? key rows k = some row) : row ∈ rows ∧ key row ≤ k := by
  have hmem := mem_of_getLast? h
  rw [mem_filter, decide_eq_true_iff] at hmem
  exact hmem

theorem at?_eq_none : at? key rows k = none ↔ ∀ row ∈ rows, k < key row := by
  rw [at?, getLast?_eq_none_iff, filter_eq_nil_iff]
  simp

theorem at?_split (h : rows.Pairwise fun a b => key a ≤ key b) {j : Nat} (hjk : j ≤ k) :
    at? key rows k =
      (rows.filter fun row => decide (j < key row) && decide (key row ≤ k)).getLast?.or
        (at? key rows j) := by
  have hsplit : rows.filter (fun row => key row ≤ k) = rows.filter (fun row => key row ≤ j) ++
      rows.filter (fun row => decide (j < key row) && decide (key row ≤ k)) := by
    induction rows with
    | nil => rfl
    | cons row rows ih =>
      rw [pairwise_cons] at h
      simp only [filter_cons, ih h.2]
      rcases Nat.lt_or_ge j (key row) with hj | hj
      · have hnone : rows.filter (fun row => decide (key row ≤ j)) = [] := by
          rw [filter_eq_nil_iff]
          intro b hb
          have := h.1 b hb
          simp
          omega
        rw [hnone]
        simp [hj, Nat.not_le.mpr hj]
      · simp [hj, Nat.le_trans hj hjk, Nat.not_lt.mpr hj]
  rw [at?, hsplit, getLast?_append]
  rfl

/-! ## Rows in any order -/

variable (key) in
/-- The row with the greatest key that is not behind a position, the last one of several. -/
def greatest? (rows : List β) (k : Nat) : Option β :=
  rows.foldl
    (fun best row => if key row ≤ k ∧ (best.map key).getD 0 ≤ key row then some row else best) none

theorem greatest?_concat (rows : List β) (row : β) (k : Nat) :
    greatest? key (rows ++ [row]) k =
      if key row ≤ k ∧ ((greatest? key rows k).map key).getD 0 ≤ key row then some row
      else greatest? key rows k := by
  rw [greatest?, foldl_append]
  rfl

theorem greatest?_map {γ : Type*} {key : γ → Nat} (f : β → γ) (rows : List β) (k : Nat) :
    greatest? key (rows.map f) k = (greatest? (fun row => key (f row)) rows k).map f := by
  induction rows using List.reverseRecOn with
  | nil => rfl
  | append_singleton rows row ih =>
    rw [map_append, map_singleton, greatest?_concat, greatest?_concat, ih,
      Option.map_map, apply_ite (Option.map f)]
    rfl

/-- In the order of the keys it is the row that holds. -/
theorem greatest?_eq_at? (h : rows.Pairwise fun a b => key a ≤ key b) (k : Nat) :
    greatest? key rows k = at? key rows k := by
  induction rows using List.reverseRecOn with
  | nil => rfl
  | append_singleton rows row ih =>
    rw [pairwise_append] at h
    have hle : ((at? key rows k).map key).getD 0 ≤ key row := by
      cases hbest : at? key rows k with
      | none => simp
      | some best => exact h.2.2 best (mem_of_at? hbest).1 row (mem_singleton_self row)
    have hrow : at? key [row] k = if key row ≤ k then some row else none := by
      by_cases hk : key row ≤ k <;> simp [at?, hk]
    rw [greatest?_concat, at?_append, ih h.1, hrow]
    by_cases hk : key row ≤ k
    · simp [hk, hle]
    · simp [hk]

/-! ## Binary search -/

variable (key) in
/-- The number of rows whose key is not behind a position, by binary search. -/
def upperBound (rows : List β) (k : Nat) : Nat → Nat → Nat → Nat
  | 0, low, _ => low
  | steps + 1, low, high =>
    if low < high then
      let middle := low + (high - low) / 2
      match rows[middle]? with
      | some row =>
        if key row ≤ k then upperBound rows k steps (middle + 1) high
        else upperBound rows k steps low middle
      | none => low
    else low

section UpperBound

variable (h : rows.Pairwise fun a b => key a ≤ key b)
include h

/-- The search ends between the rows that hold at or before the position and the others. -/
theorem upperBound_spec :
    ∀ (steps low high : Nat), low ≤ high → high ≤ rows.length → high - low ≤ steps →
      (∀ row ∈ rows.take low, key row ≤ k) → (∀ row ∈ rows.drop high, k < key row) →
      upperBound key rows k steps low high ≤ rows.length ∧
        (∀ row ∈ rows.take (upperBound key rows k steps low high), key row ≤ k) ∧
        ∀ row ∈ rows.drop (upperBound key rows k steps low high), k < key row := by
  intro steps
  induction steps with
  | zero =>
    intro low high hle hlen hsteps hlow hhigh
    have heq : low = high := by omega
    subst heq
    exact ⟨hlen, hlow, hhigh⟩
  | succ steps ih =>
    intro low high hle hlen hsteps hlow hhigh
    unfold upperBound
    split
    next hlt =>
      have hmiddle : low + (high - low) / 2 < rows.length := by omega
      have hget := getElem?_eq_getElem hmiddle
      have hpairs := pairwise_iff_getElem.mp h
      simp only [hget]
      split
      next hkey =>
        refine ih _ _ (by omega) hlen (by omega) (fun row hrow => ?_) hhigh
        obtain ⟨i, hi, rfl⟩ := mem_iff_getElem.mp hrow
        rw [length_take] at hi
        rw [getElem_take]
        rcases Nat.lt_or_ge i (low + (high - low) / 2) with hlt' | hge
        · exact Nat.le_trans (hpairs i _ (by omega) hmiddle hlt') hkey
        · have heq : i = low + (high - low) / 2 := by omega
          subst heq
          exact hkey
      rename_i hkey
      refine ih _ _ (by omega) (by omega) (by omega) hlow (fun row hrow => ?_)
      obtain ⟨i, hi, rfl⟩ := mem_iff_getElem.mp hrow
      rw [getElem_drop]
      rw [length_drop] at hi
      have hkey' := Nat.lt_of_not_le hkey
      rcases Nat.eq_zero_or_pos i with rfl | hpos
      · exact hkey'
      · exact Nat.lt_of_lt_of_le hkey' (hpairs _ _ hmiddle (by omega) (by omega))
    rename_i hge
    have heq : low = high := by omega
    subst heq
    exact ⟨hlen, hlow, hhigh⟩

theorem at?_eq_of_upperBound (k : Nat) :
    at? key rows k = (rows.take (upperBound key rows k rows.length 0 rows.length)).getLast? := by
  obtain ⟨-, hlow, hhigh⟩ := upperBound_spec h rows.length 0 rows.length (Nat.zero_le _)
    (Nat.le_refl _) (Nat.le_refl _) (k := k) (by simp) (by simp)
  generalize upperBound key rows k rows.length 0 rows.length = n at hlow hhigh ⊢
  conv_lhs => rw [← take_append_drop n rows]
  rw [at?_append, at?_of_lt hhigh, at?_of_le hlow]
  rfl

/-- The row that the search ends behind, if there is one, is the one that holds. -/
theorem upperBound_eq_at? (k : Nat) :
    (if upperBound key rows k rows.length 0 rows.length = 0 then none
      else rows[upperBound key rows k rows.length 0 rows.length - 1]?) = at? key rows k := by
  obtain ⟨within, -, -⟩ := upperBound_spec h rows.length 0 rows.length (Nat.zero_le _)
    (Nat.le_refl _) (Nat.le_refl _) (k := k) (by simp) (by simp)
  rw [at?_eq_of_upperBound h]
  generalize upperBound key rows k rows.length 0 rows.length = low at within ⊢
  rw [getLast?_take]
  split
  next => rfl
  rename_i some
  have lt : low - 1 < rows.length := by omega
  rw [getElem?_eq_getElem lt]
  rfl

theorem getElem?_upperBound {row : β} (holds : at? key rows k = some row) :
    upperBound key rows k rows.length 0 rows.length ≠ 0 ∧
      rows[upperBound key rows k rows.length 0 rows.length - 1]? = some row := by
  obtain ⟨within, -, -⟩ := upperBound_spec h rows.length 0 rows.length (Nat.zero_le _)
    (Nat.le_refl _) (Nat.le_refl _) (k := k) (by simp) (by simp)
  rw [at?_eq_of_upperBound h] at holds
  generalize upperBound key rows k rows.length 0 rows.length = low at holds within ⊢
  rw [getLast?_take] at holds
  split at holds
  next => cases holds
  rename_i some
  have lt : low - 1 < rows.length := by omega
  rw [getElem?_eq_getElem lt] at holds ⊢
  exact ⟨some, holds⟩

end UpperBound

end Elisa.SparseMap
