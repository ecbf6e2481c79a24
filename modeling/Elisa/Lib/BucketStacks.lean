import Mathlib.Logic.Basic

/-!
# Chains with the newest row first

Rows are chained by their keys: for every key there is its last row, and for every row the one
before it with the same key (`Last`).  So walking a chain meets all rows of its key
(`Last.earlier`), as many as there are (`Last.tally_some`).
-/

namespace Elisa.Lib.BucketStacks

variable {κ : Type} {key : Nat → κ}

/-- The last row with a key among the first `n`, if there is one. -/
def Last (key : Nat → κ) (k : κ) (n : Nat) : Option Nat → Prop
  | none => ∀ r < n, key r ≠ k
  | some last => last < n ∧ key last = k ∧ ∀ r < n, key r = k → r ≤ last

variable {k : κ} {n : Nat}

/-- The rows with a key are the last one and those before it. -/
theorem Last.earlier {last r : Nat} (is : Last key k n (some last)) (small : r < n)
    (same : key r = k) : r = last ∨ r < last :=
  Nat.eq_or_lt_of_le (is.2.2 r small same)

theorem Last.push {last : Option Nat} (is : Last key k n last) (other : key n ≠ k) :
    Last key k (n + 1) last := by
  cases last with
  | none =>
    intro r small
    rcases Nat.eq_or_lt_of_le (Nat.le_of_lt_succ small) with rfl | below
    · exact other
    · exact is r below
  | some last =>
    refine ⟨Nat.lt_succ_of_lt is.1, is.2.1, fun r small same => ?_⟩
    rcases Nat.eq_or_lt_of_le (Nat.le_of_lt_succ small) with rfl | below
    · exact (other same).elim
    · exact is.2.2 r below same

theorem last_push (key : Nat → κ) (n : Nat) : Last key (key n) (n + 1) (some n) :=
  ⟨Nat.lt_succ_self n, rfl, fun _ small _ => Nat.le_of_lt_succ small⟩

variable {key' : Nat → κ}

theorem Last.congr {last : Option Nat} (is : Last key k n last) (same : ∀ r < n, key' r = key r) :
    Last key' k n last := by
  cases last with
  | none => exact fun r small => by rw [same r small]; exact is r small
  | some last =>
    refine ⟨is.1, (same last is.1).trans is.2.1, fun r small eq => is.2.2 r small ?_⟩
    rw [← same r small]
    exact eq

/-- The chains of the first `n` rows. -/
structure Stacked (key : Nat → κ) (n : Nat) (head : κ → Option Nat) (next : Nat → Option Nat) :
    Prop where
  head : ∀ k, Last key k n (head k)
  next : ∀ r < n, Last key (key r) r (next r)

theorem Stacked.push {head head' : κ → Option Nat} {next next' : Nat → Option Nat}
    (stacked : Stacked key n head next) (same : ∀ r < n, key' r = key r)
    (first : head' (key' n) = some n) (others : ∀ k ≠ key' n, head' k = head k)
    (kept : ∀ r < n, next' r = next r) (linked : next' n = head (key' n)) :
    Stacked key' (n + 1) head' next' where
  head k := by
    cases Classical.em (k = key' n) with
    | inl own =>
      rw [own, first]
      exact last_push key' n
    | inr other =>
      rw [others k other]
      exact ((stacked.head k).congr same).push (Ne.symm other)
  next r small := by
    rcases Nat.eq_or_lt_of_le (Nat.le_of_lt_succ small) with rfl | below
    · rw [linked]
      exact (stacked.head _).congr same
    · rw [kept r below, same r below]
      exact (stacked.next r below).congr fun s earlier => same s (Nat.lt_trans earlier below)

/-! ## How many rows a chain has -/

variable [DecidableEq κ]

def tally (key : Nat → κ) (k : κ) : Nat → Nat
  | 0 => 0
  | n + 1 => tally key k n + if key n = k then 1 else 0

theorem tally_le_succ (key : Nat → κ) (k : κ) (n : Nat) : tally key k n ≤ tally key k (n + 1) :=
  Nat.le_add_right _ _

theorem tally_mono {m : Nat} (le : m ≤ n) : tally key k m ≤ tally key k n := by
  induction le with
  | refl => exact Nat.le_refl _
  | step _ ih => exact Nat.le_trans ih (tally_le_succ key k _)

theorem tally_le : tally key k n ≤ n := by
  induction n with
  | zero => exact Nat.le_refl 0
  | succ n ih =>
    rw [tally]
    split <;> omega

theorem tally_congr (same : ∀ r < n, key' r = key r) : tally key' k n = tally key k n := by
  induction n with
  | zero => rfl
  | succ n ih =>
    rw [tally, tally, same n (Nat.lt_succ_self n),
      ih fun r small => same r (Nat.lt_succ_of_lt small)]

theorem tally_pos {r : Nat} (small : r < n) (is : key r = k) : 0 < tally key k n := by
  have counted : tally key k (r + 1) = tally key k r + 1 := by rw [tally, if_pos is]
  have le : tally key k (r + 1) ≤ tally key k n := tally_mono small
  omega

theorem tally_skip {m : Nat} (le : m ≤ n) (none_ : ∀ r, m ≤ r → r < n → key r ≠ k) :
    tally key k n = tally key k m := by
  induction le with
  | refl => rfl
  | @step n le ih =>
    rw [tally, if_neg (none_ n le (Nat.lt_succ_self n)), Nat.add_zero]
    exact ih fun r from_ below => none_ r from_ (Nat.lt_succ_of_lt below)

theorem Last.tally_none (is : Last key k n none) : tally key k n = 0 :=
  tally_skip (Nat.zero_le n) fun r _ small => is r small

theorem Last.tally_some {last : Nat} (is : Last key k n (some last)) :
    tally key k n = tally key k last + 1 := by
  rw [tally_skip is.1 fun r above small same => by have le := is.2.2 r small same; omega, tally,
    if_pos is.2.1]

/-- The first row with a key. -/
def First (key : Nat → κ) (k : κ) (n first : Nat) : Prop :=
  first < n ∧ key first = k ∧ tally key k first = 0

theorem First.unique {first other : Nat} (is : First key k n first) (is' : First key k n other) :
    first = other := by
  rcases Nat.lt_trichotomy first other with below | same | above
  · have pos := tally_pos below is.2.1
    rw [is'.2.2] at pos
    exact (Nat.lt_irrefl 0 pos).elim
  · exact same
  · have pos := tally_pos above is'.2.1
    rw [is.2.2] at pos
    exact (Nat.lt_irrefl 0 pos).elim

theorem First.grow_congr {first : Nat} (is : First key k n first) (same : ∀ r < n, key' r = key r) :
    First key' k (n + 1) first :=
  ⟨Nat.lt_succ_of_lt is.1, (same first is.1).trans is.2.1,
    (tally_congr fun r below => same r (Nat.lt_trans below is.1)).trans is.2.2⟩

end Elisa.Lib.BucketStacks
