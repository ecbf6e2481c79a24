import Mathlib.Order.Basic

/-!
# Linear probing

A table of slots is searched in a circle, from the home of a key on.  `scan` is the first slot with
a property within a number of steps.  A key is found as long as the slots between its home and its
own slot stay occupied (`Reaches`, `scan_of_reaches`).
-/

namespace Elisa.Lib.Probing

variable {capacity : Nat} {p : Nat → Bool} {fuel slot found : Nat}

/-- The first slot with a property, within a number of steps. -/
def scan (p : Nat → Bool) (capacity : Nat) : Nat → Nat → Option Nat
  | 0, _ => none
  | fuel + 1, slot => if p slot then some slot else scan p capacity fuel ((slot + 1) % capacity)

theorem step_mod (slot steps : Nat) :
    ((slot + 1) % capacity + steps) % capacity = (slot + (steps + 1)) % capacity := by
  rw [Nat.mod_add_mod, Nat.add_assoc, Nat.add_comm 1]

theorem scan_eq_some (within : slot < capacity) (h : scan p capacity fuel slot = some found) :
    ∃ d < fuel, found = (slot + d) % capacity ∧ p found = true ∧
      ∀ e < d, p ((slot + e) % capacity) = false := by
  induction fuel generalizing slot with
  | zero => cases h
  | succ fuel ih =>
    rw [scan] at h
    split at h
    next here =>
      obtain rfl := Option.some.inj h
      exact ⟨0, Nat.succ_pos _, (Nat.mod_eq_of_lt within).symm, here, fun e lt =>
        absurd lt (Nat.not_lt_zero e)⟩
    rename_i away
    obtain ⟨d, lt, rfl, there, before⟩ := ih (Nat.mod_lt _ (Nat.zero_lt_of_lt within)) h
    refine ⟨d + 1, Nat.succ_lt_succ lt, step_mod slot d, there, fun e elt => ?_⟩
    cases e with
    | zero => rw [Nat.add_zero, Nat.mod_eq_of_lt within, Bool.eq_false_iff]; exact away
    | succ e => rw [← step_mod]; exact before e (Nat.lt_of_succ_lt_succ elt)

theorem scan_eq_none (within : slot < capacity) (h : scan p capacity fuel slot = none) :
    ∀ d < fuel, p ((slot + d) % capacity) = false := by
  induction fuel generalizing slot with
  | zero => exact fun d lt => absurd lt (Nat.not_lt_zero d)
  | succ fuel ih =>
    rw [scan] at h
    split at h
    · cases h
    rename_i away
    intro d lt
    cases d with
    | zero => rw [Nat.add_zero, Nat.mod_eq_of_lt within, Bool.eq_false_iff]; exact away
    | succ d =>
      rw [← step_mod]
      exact ih (Nat.mod_lt _ (Nat.zero_lt_of_lt within)) h d (Nat.lt_of_succ_lt_succ lt)

theorem exists_steps (within : slot < capacity) {target : Nat} (inside : target < capacity) :
    ∃ d < capacity, (slot + d) % capacity = target := by
  rcases Nat.lt_or_ge target slot with before | after
  · refine ⟨capacity - slot + target, by omega, ?_⟩
    rw [show slot + (capacity - slot + target) = target + capacity by omega, Nat.add_mod_right]
    exact Nat.mod_eq_of_lt inside
  · refine ⟨target - slot, by omega, ?_⟩
    rw [Nat.add_sub_cancel' after]
    exact Nat.mod_eq_of_lt inside

theorem scan_isSome (within : slot < capacity) {target : Nat} (inside : target < capacity)
    (there : p target = true) : ∃ found, scan p capacity capacity slot = some found := by
  cases h : scan p capacity capacity slot with
  | some found => exact ⟨found, rfl⟩
  | none =>
    obtain ⟨d, lt, rfl⟩ := exists_steps within inside
    rw [scan_eq_none within h d lt] at there
    cases there

/-! ## Slots that stay occupied -/

/-- From a home, a slot is behind occupied slots only. -/
def Reaches (capacity : Nat) (taken : Nat → Bool) (home slot : Nat) : Prop :=
  ∃ d < capacity, slot = (home + d) % capacity ∧ ∀ e < d, taken ((home + e) % capacity) = true

variable {taken more : Nat → Bool} {home : Nat}

theorem Reaches.mono (h : Reaches capacity taken home slot)
    (grows : ∀ s, taken s = true → more s = true) : Reaches capacity more home slot := by
  obtain ⟨d, lt, eq, before⟩ := h
  exact ⟨d, lt, eq, fun e elt => grows _ (before e elt)⟩

theorem reaches_of_scan (within : home < capacity)
    (h : scan (fun s => !taken s) capacity capacity home = some found) :
    taken found = false ∧ Reaches capacity taken home found := by
  obtain ⟨d, lt, eq, free, before⟩ := scan_eq_some within h
  refine ⟨by simpa using free, d, lt, eq, fun e elt => ?_⟩
  simpa using before e elt

/-- A search for a slot with a property ends there, or at an occupied slot with the property. -/
theorem scan_of_reaches (within : home < capacity) (h : Reaches capacity taken home slot)
    (there : p slot = true) :
    ∃ found, scan p capacity capacity home = some found ∧ p found = true ∧
      (found = slot ∨ taken found = true) := by
  obtain ⟨d, lt, rfl, before⟩ := h
  obtain ⟨found, scanned⟩ :=
    scan_isSome within (Nat.mod_lt (home + d) (Nat.zero_lt_of_lt within)) there
  obtain ⟨e, -, rfl, here, earlier⟩ := scan_eq_some within scanned
  refine ⟨_, scanned, here, ?_⟩
  rcases Nat.lt_trichotomy e d with less | rfl | greater
  · exact .inr (before e less)
  · exact .inl rfl
  · rw [earlier d greater] at there
    cases there

end Elisa.Lib.Probing
