import Mathlib.Data.List.Basic

/-!
# Rows with keys, found by scanning

The first row of a key counts, and a key without a row gets one at the end, which starts from a
fresh value. Read as a function of the key, an update changes one value (`valueAt_modify`).
-/

namespace Elisa.Lib.KeyedRows

variable {κ β : Type*} [DecidableEq κ] {fresh : β} {f : β → β} {rows : List (κ × β)}

def modify (fresh : β) (key : κ) (f : β → β) : List (κ × β) → List (κ × β)
  | [] => [(key, f fresh)]
  | row :: rest =>
    if row.1 = key then (row.1, f row.2) :: rest else row :: modify fresh key f rest

def valueAt (fresh : β) : List (κ × β) → κ → β
  | [], _ => fresh
  | row :: rest, key => if row.1 = key then row.2 else valueAt fresh rest key

theorem valueAt_modify (key other : κ) :
    valueAt fresh (modify fresh key f rows) other =
      if other = key then f (valueAt fresh rows key) else valueAt fresh rows other := by
  induction rows with
  | nil =>
    rw [modify, valueAt, valueAt, valueAt]
    exact if_congr eq_comm rfl rfl
  | cons row rest ih =>
    rw [modify]
    cases decEq row.1 key with
    | isTrue here =>
      rw [if_pos here, valueAt, valueAt, valueAt, if_pos here, here]
      by_cases same : other = key
      · rw [if_pos same, if_pos same.symm]
      · rw [if_neg same, if_neg (Ne.symm same), if_neg (Ne.symm same)]
    | isFalse elsewhere =>
      rw [if_neg elsewhere, valueAt, valueAt, valueAt, if_neg elsewhere, ih]
      by_cases same : other = key
      · rw [if_pos same, if_pos same, same, if_neg elsewhere]
      · rw [if_neg same, if_neg same]

theorem mem_keys_modify {key other : κ} :
    other ∈ (modify fresh key f rows).map Prod.fst ↔ other = key ∨ other ∈ rows.map Prod.fst := by
  induction rows with
  | nil => simp [modify]
  | cons row rest ih =>
    rw [modify]
    split
    next here => simp [here]
    next elsewhere =>
      rw [List.map_cons, List.mem_cons, ih, List.map_cons, List.mem_cons]
      exact or_left_comm

theorem nodup_modify (key : κ) (once : (rows.map Prod.fst).Nodup) :
    ((modify fresh key f rows).map Prod.fst).Nodup := by
  induction rows with
  | nil => simp [modify]
  | cons row rest ih =>
    rw [List.map_cons, List.nodup_cons] at once
    rw [modify]
    split
    next here => exact List.nodup_cons.mpr once
    rename_i elsewhere
    refine List.nodup_cons.mpr ⟨fun again => ?_, ih once.2⟩
    rcases mem_keys_modify.mp again with same | before
    · exact elsewhere same
    · exact once.1 before

/-- Where every key has one row, the rows hold the values of the keys. -/
theorem valueAt_of_mem (once : (rows.map Prod.fst).Nodup) {row : κ × β} (mem : row ∈ rows) :
    valueAt fresh rows row.1 = row.2 := by
  induction rows with
  | nil => cases mem
  | cons first rest ih =>
    rw [List.map_cons, List.nodup_cons] at once
    rw [valueAt]
    cases mem with
    | head => rw [if_pos rfl]
    | tail _ later =>
      have apart : ¬ first.1 = row.1 := fun same => once.1 (same ▸ List.mem_map_of_mem later)
      rw [if_neg apart]
      exact ih once.2 later

theorem valueAt_eq_fresh {key : κ} (missing : key ∉ rows.map Prod.fst) :
    valueAt fresh rows key = fresh := by
  induction rows with
  | nil => rfl
  | cons row rest ih =>
    rw [List.map_cons, List.mem_cons, not_or] at missing
    rw [valueAt, if_neg (Ne.symm missing.1), ih missing.2]

theorem mem_of_key {key : κ} (mem : key ∈ rows.map Prod.fst)
    (once : (rows.map Prod.fst).Nodup) : (key, valueAt fresh rows key) ∈ rows := by
  obtain ⟨row, here, rfl⟩ := List.mem_map.mp mem
  rwa [valueAt_of_mem once here]

/-- Some row has a value that a fresh one has not exactly when a key has such a value. -/
theorem exists_row_iff (once : (rows.map Prod.fst).Nodup) {P : β → Prop} (clear : ¬ P fresh) :
    (∃ row ∈ rows, P row.2) ↔ ∃ key, P (valueAt fresh rows key) := by
  constructor
  · rintro ⟨row, mem, holds⟩
    exact ⟨row.1, by rwa [valueAt_of_mem once mem]⟩
  · rintro ⟨key, holds⟩
    have mem : key ∈ rows.map Prod.fst := by
      by_contra missing
      rw [valueAt_eq_fresh missing] at holds
      exact clear holds
    exact ⟨_, mem_of_key mem once, holds⟩

end Elisa.Lib.KeyedRows
