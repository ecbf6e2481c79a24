import Elisa.Bytes
import Elisa.Lib.Interning
import Elisa.Lib.Probing

/-!
# Name sets

A set of names in the order in which they came, with a table of slots over their hashes
(`name_set.elisa`), searched by linear probing.  A slot is empty or holds the row of a name, and the
table is at most half full.  Up to 4294967295 names, each row is in one slot that a search for its
name gets to (`Indexed`), and the set is the list of the different names, for any hash
(`nameSet_agrees_iff`).
-/

namespace Elisa.Semantic

open Lib.Interning Lib.Probing List

structure NameSet where
  names : List Bytes
  slots : List UInt32
deriving DecidableEq

namespace NameSet

def slotEmpty : UInt32 := 4294967295

def empty : NameSet := ⟨[], []⟩

variable (hash : Bytes → UInt64)

/-- The slots of a search, which comes back to its start after as many steps as there are slots.
Nothing where it does not end, or reads out of bounds. -/
def slotFrom (set : NameSet) (name : Bytes) : Nat → Nat → Option Nat
  | 0, _ => none
  | steps + 1, slot => do
    let row ← set.slots[slot]?
    if row = slotEmpty then some slot
    else
      let existing ← set.names[row.toNat]?
      if existing = name then some slot
      else slotFrom set name steps ((slot + 1) &&& (set.slots.length - 1))

def nameSetSlot (set : NameSet) (name : Bytes) : Option Nat :=
  slotFrom set name set.slots.length ((hash name).toNat &&& (set.slots.length - 1))

/-- The capacity: doubled until the names fill less than half of it. -/
def capacityFor (count : Nat) : Nat → Nat → Nat
  | 0, capacity => capacity
  | rounds + 1, capacity =>
    if capacity < (count + 1) * 2 then capacityFor count rounds (capacity * 2) else capacity

def enterRows (set : NameSet) : Nat → Nat → Option NameSet
  | 0, _ => some set
  | rest + 1, row => do
    let name ← set.names[row]?
    let slot ← nameSetSlot hash set name
    enterRows { set with slots := set.slots.set slot row.toUInt32 } rest (row + 1)

def nameSetGrow (set : NameSet) : Option NameSet :=
  enterRows hash { set with
    slots := replicate (capacityFor set.names.length set.names.length 16) slotEmpty }
    set.names.length 0

def nameSetContains (set : NameSet) (name : Bytes) : Option Bool :=
  if set.slots.length = 0 then some false
  else do
    let row ← set.slots[← nameSetSlot hash set name]?
    some (row ≠ slotEmpty)

def nameSetIndex (set : NameSet) (name : Bytes) : Option Int :=
  if set.slots.length = 0 then some (-1)
  else do
    let row ← set.slots[← nameSetSlot hash set name]?
    some (if row = slotEmpty then -1 else row.toNat)

def nameSetAdd (set : NameSet) (name : Bytes) : Option NameSet := do
  let set ← (if set.slots.length < (set.names.length + 1) * 2 then nameSetGrow hash set
    else some set)
  let slot ← nameSetSlot hash set name
  let row ← set.slots[slot]?
  if row ≠ slotEmpty then some set
  else some ⟨set.names ++ [name], set.slots.set slot set.names.length.toUInt32⟩

/-! ## What a set says -/

def rowOf (entry : UInt32) : Option Nat := if entry = slotEmpty then none else some entry.toNat

def rows (slots : List UInt32) : List Nat := slots.filterMap rowOf

/-- A set holds the different names of a list: they are in order, both lookups agree with a search
of the list, and each row is in one slot. -/
structure Holds (set : NameSet) (calls : List Bytes) : Prop where
  names : set.names = firsts calls
  contains name : nameSetContains hash set name = some (decide (name ∈ firsts calls))
  index name : nameSetIndex hash set name =
    some (if name ∈ firsts calls then ((firsts calls).idxOf name : Int) else -1)
  rows : (rows set.slots).Perm (List.range set.names.length)
  room : set.slots = [] ∨ slotEmpty ∈ set.slots

/-! ## Searching -/

def stops (set : NameSet) (name : Bytes) (slot : Nat) : Bool :=
  match set.slots[slot]? with
  | some row => row = slotEmpty || set.names[row.toNat]? = some name
  | none => false

def occupied (set : NameSet) (slot : Nat) : Bool := set.slots.getD slot slotEmpty ≠ slotEmpty

def home (capacity : Nat) (name : Bytes) : Nat := (hash name).toNat % capacity

variable {hash} {set : NameSet} {name : Bytes}

/-- A table whose first rows are entered. -/
structure Indexed (hash : Bytes → UInt64) (set : NameSet) (count : Nat) : Prop where
  power : ∃ k, set.slots.length = 2 ^ k
  room : count < set.slots.length
  small : count < 4294967296
  nodup : set.names.Nodup
  inside : count ≤ set.names.length
  rows : (rows set.slots).Perm (List.range count)
  reached {row : Nat} {name : Bytes} (early : row < count) (named : set.names[row]? = some name) :
    ∃ slot, set.slots[slot]? = some row.toUInt32 ∧
      Reaches set.slots.length set.occupied (home hash set.slots.length name) slot

variable {count slot : Nat}

theorem mem_rows {slots : List UInt32} {row : Nat} :
    row ∈ rows slots ↔ ∃ entry ∈ slots, entry ≠ slotEmpty ∧ entry.toNat = row := by
  simp only [rows, mem_filterMap, rowOf, Option.ite_none_left_eq_some, Option.some.injEq]

theorem mask_eq (power : ∃ k, set.slots.length = 2 ^ k) (n : Nat) :
    n &&& (set.slots.length - 1) = n % set.slots.length := by
  obtain ⟨k, same⟩ := power
  rw [same, Nat.and_two_pow_sub_one_eq_mod]

theorem toNat_row {row : Nat} (small : row < 4294967295) :
    row.toUInt32.toNat = row ∧ row.toUInt32 ≠ slotEmpty := by
  have same : row.toUInt32.toNat = row :=
    UInt32.toNat_ofNat_of_lt' (Nat.lt_succ_of_lt small)
  refine ⟨same, fun empty => ?_⟩
  rw [empty] at same
  exact absurd same (Nat.ne_of_gt small)

namespace Indexed

variable (indexed : Indexed hash set count)

include indexed

theorem row_lt {row : UInt32} (mem : row ∈ set.slots) (some_ : row ≠ slotEmpty) :
    row.toNat < count :=
  mem_range.mp (indexed.rows.mem_iff.mp (mem_rows.mpr ⟨row, mem, some_, rfl⟩))

theorem exists_empty : slotEmpty ∈ set.slots := by
  refine not_not.mp fun none_ => ?_
  have all : (NameSet.rows set.slots).length = set.slots.length := by
    refine filterMap_length_eq_length.mpr fun row mem => ?_
    rw [rowOf, if_neg (ne_of_mem_of_not_mem mem none_), Option.isSome_some]
  have := indexed.room
  rw [indexed.rows.length_eq, length_range] at all
  omega

theorem slotFrom_eq {steps : Nat} (within : slot < set.slots.length) :
    slotFrom set name steps slot = scan (set.stops name) set.slots.length steps slot := by
  induction steps generalizing slot with
  | zero => rfl
  | succ steps ih =>
    have here := getElem?_eq_getElem within
    have mem := getElem_mem within
    generalize set.slots[slot] = row at here mem
    rw [slotFrom, scan, stops, here, Option.bind_eq_bind, Option.bind_some]
    cases decEq row slotEmpty with
    | isTrue empty => simp [empty]
    | isFalse some_ =>
      have inside := Nat.lt_of_lt_of_le (indexed.row_lt mem some_) indexed.inside
      rw [mask_eq indexed.power, ih (Nat.mod_lt _ (Nat.zero_lt_of_lt within))]
      simp [some_, getElem?_eq_getElem inside]

/-- A search ends at the row of the name, or at an empty slot where it can be entered. -/
theorem search (name : Bytes) : ∃ slot row, nameSetSlot hash set name = some slot ∧
    set.slots[slot]? = some row ∧
    (row = slotEmpty ∧ name ∉ set.names.take count ∧
        Reaches set.slots.length set.occupied (home hash set.slots.length name) slot ∨
      row ≠ slotEmpty ∧ row.toNat < count ∧ set.names[row.toNat]? = some name) := by
  have within : home hash set.slots.length name < set.slots.length :=
    Nat.mod_lt _ (Nat.zero_lt_of_lt indexed.room)
  obtain ⟨target, inside, free⟩ := getElem_of_mem indexed.exists_empty
  obtain ⟨found, scanned⟩ := scan_isSome (p := set.stops name) within inside
    (by simp [stops, getElem?_eq_getElem inside, free])
  obtain ⟨d, lt, rfl, there, before⟩ := scan_eq_some within scanned
  have bound := Nat.mod_lt (home hash set.slots.length name + d) (Nat.zero_lt_of_lt indexed.room)
  have here := getElem?_eq_getElem bound
  have mem := getElem_mem bound
  generalize set.slots[(home hash set.slots.length name + d) % set.slots.length] = row at here mem
  refine ⟨_, row, ?_, here, ?_⟩
  · rw [nameSetSlot, mask_eq indexed.power]
    exact (indexed.slotFrom_eq within).trans scanned
  rw [stops, here] at there
  cases decEq row slotEmpty with
  | isFalse some_ =>
    refine .inr ⟨some_, indexed.row_lt mem some_, ?_⟩
    simpa [some_] using there
  | isTrue empty =>
    subst empty
    refine .inl ⟨rfl, fun known => ?_, d, lt, rfl, fun e earlier => ?_⟩
    · obtain ⟨r, early, named⟩ := mem_take_iff_getElem.mp known
      have early := Nat.lt_of_lt_of_le early (Nat.min_le_left _ _)
      have named := List.getElem?_eq_some_iff.mpr ⟨_, named⟩
      obtain ⟨slot, holds, reaches⟩ := indexed.reached early named
      obtain ⟨same, some_⟩ := toNat_row (show r < 4294967295 by have := indexed.small; omega)
      obtain ⟨other, scanned', -, either⟩ := scan_of_reaches (p := set.stops name) within reaches
        (by simp [stops, holds, same, named])
      obtain rfl := Option.some.inj (scanned.symm.trans scanned')
      rcases either with is | taken
      · rw [is, holds] at here
        exact some_ (Option.some.inj here)
      · simp [occupied, getD_eq_getElem?_getD, here] at taken
    · have passed := before e earlier
      have bound := Nat.mod_lt (home hash set.slots.length name + e)
        (Nat.zero_lt_of_lt indexed.room)
      simp only [stops, getElem?_eq_getElem bound, Bool.or_eq_false_iff] at passed
      simpa [occupied, getD_eq_getElem?_getD, getElem?_eq_getElem bound] using passed.1

/-- The next row is entered at an empty slot that a search for its name gets to. -/
theorem enter {more : List Bytes} (isPrefix : set.names <+: more) (nodup : more.Nodup)
    (named : more[count]? = some name) (free : set.slots[slot]? = some slotEmpty)
    (reaches : Reaches set.slots.length set.occupied (home hash set.slots.length name) slot)
    (room : count + 1 < set.slots.length) (small : count + 1 < 4294967296) :
    Indexed hash ⟨more, set.slots.set slot count.toUInt32⟩ (count + 1) := by
  obtain ⟨within, free⟩ := List.getElem?_eq_some_iff.mp free
  obtain ⟨same, some_⟩ := toNat_row (show count < 4294967295 by omega)
  have other {s : Nat} (taken : set.occupied s = true) : slot ≠ s := by
    rintro rfl
    simp [occupied, getD_eq_getElem?_getD, getElem?_eq_getElem within, free] at taken
  have grows (s : Nat) (taken : set.occupied s = true) :
      occupied ⟨more, set.slots.set slot count.toUInt32⟩ s = true := by
    rw [occupied, getD_eq_getElem?_getD, getElem?_set_ne (other taken), ← getD_eq_getElem?_getD]
    exact taken
  refine ⟨by simpa using indexed.power, by simpa using room, small, nodup, ?_, ?_, ?_⟩
  · exact (List.getElem?_eq_some_iff.mp named).1
  · have before : set.slots = set.slots.take slot ++ slotEmpty :: set.slots.drop (slot + 1) := by
      rw [← free, getElem_cons_drop, take_append_drop]
    have old := indexed.rows
    rw [before, NameSet.rows, filterMap_append, filterMap_cons_none rfl] at old
    have new : rowOf count.toUInt32 = some count := by rw [rowOf, if_neg some_, same]
    rw [set_eq_take_append_cons_drop, if_pos within, NameSet.rows, filterMap_append,
      filterMap_cons_some new, range_succ]
    exact perm_middle.trans ((old.cons _).trans (perm_append_singleton _ _).symm)
  · intro row key early named'
    simp only [length_set]
    rcases Nat.lt_succ_iff_lt_or_eq.mp early with before | rfl
    · obtain ⟨rest, rfl⟩ := isPrefix
      rw [getElem?_append_left (Nat.lt_of_lt_of_le before indexed.inside)] at named'
      obtain ⟨slot', holds, reached⟩ := indexed.reached before named'
      refine ⟨slot', ?_, reached.mono grows⟩
      rw [getElem?_set_ne (other ?_), holds]
      simp [occupied, getD_eq_getElem?_getD, holds, (toNat_row (show row < 4294967295 by omega)).2]
    · obtain rfl := Option.some.inj (named.symm.trans named')
      exact ⟨slot, getElem?_set_self within, reaches.mono grows⟩

end Indexed

/-! ## Growing -/

theorem capacityFor_spec {rounds capacity : Nat} (power : ∃ k, capacity = 2 ^ k)
    (enough : (count + 1) * 2 ≤ capacity * 2 ^ rounds) :
    (∃ k, capacityFor count rounds capacity = 2 ^ k) ∧
      (count + 1) * 2 ≤ capacityFor count rounds capacity := by
  induction rounds generalizing capacity with
  | zero => exact ⟨power, by simpa [capacityFor] using enough⟩
  | succ rounds ih =>
    rw [capacityFor]
    split
    next small =>
      obtain ⟨k, rfl⟩ := power
      exact ih ⟨k + 1, rfl⟩ (by rwa [Nat.mul_assoc, ← Nat.pow_succ'])
    next large => exact ⟨power, Nat.le_of_not_lt large⟩

theorem enterRows_spec {rest row : Nat} (indexed : Indexed hash set row)
    (all : row + rest = set.names.length) (room : set.names.length < set.slots.length)
    (small : set.names.length < 4294967296) :
    ∃ grown, enterRows hash set rest row = some grown ∧ grown.names = set.names ∧
      grown.slots.length = set.slots.length ∧ Indexed hash grown set.names.length := by
  induction rest generalizing set row with
  | zero => exact ⟨set, rfl, rfl, rfl, all ▸ indexed⟩
  | succ rest ih =>
    have named := List.getElem?_eq_getElem (l := set.names) (i := row) (by omega)
    obtain ⟨slot, entry, searched, here, ⟨rfl, -, reaches⟩ | ⟨-, early, known⟩⟩ :=
      indexed.search set.names[row]
    · have next := indexed.enter (prefix_refl _) indexed.nodup named here reaches (by omega)
        (by omega)
      obtain ⟨grown, entered, names, length, indexed⟩ :=
        ih next (by simp only; omega) (by simpa using room) small
      refine ⟨grown, ?_, names, by simpa using length, indexed⟩
      rw [enterRows, named, Option.bind_eq_bind, Option.bind_some, searched]
      exact entered
    · have := indexed.nodup.getElem_inj_iff.mp (List.getElem_of_getElem? known).2
      omega

theorem indexed_start {names : List Bytes} {capacity : Nat} (nodup : names.Nodup)
    (power : ∃ k, capacity = 2 ^ k) (room : 0 < capacity) :
    Indexed hash ⟨names, replicate capacity slotEmpty⟩ 0 where
  power := by simpa using power
  room := by simpa using room
  small := by decide
  nodup := nodup
  inside := Nat.zero_le _
  rows := by simp [NameSet.rows, rowOf]
  reached early := absurd early (Nat.not_lt_zero _)

theorem grow_spec (nodup : set.names.Nodup) (small : set.names.length < 4294967296) :
    ∃ grown, nameSetGrow hash set = some grown ∧ grown.names = set.names ∧
      (set.names.length + 1) * 2 ≤ grown.slots.length ∧ Indexed hash grown set.names.length := by
  have enough : (set.names.length + 1) * 2 ≤ 16 * 2 ^ set.names.length := by
    have := Nat.lt_two_pow_self (n := set.names.length)
    omega
  obtain ⟨power, large⟩ := capacityFor_spec ⟨4, rfl⟩ enough
  obtain ⟨grown, entered, names, length, indexed⟩ := enterRows_spec
    (indexed_start nodup power (by omega)) (Nat.zero_add _)
    (by simp only [length_replicate]; omega) small
  rw [length_replicate] at length
  exact ⟨grown, entered, names, length ▸ large, indexed⟩

/-! ## Adding -/

/-- A set that calls have left: nothing is in it, or all rows are entered. -/
def Kept (hash : Bytes → UInt64) (set : NameSet) : Prop :=
  set = empty ∨ Indexed hash set set.names.length

theorem add_spec (kept : Kept hash set) (name : Bytes)
    (small : (enter set.names name).length < 4294967296) :
    ∃ added, nameSetAdd hash set name = some added ∧ added.names = enter set.names name ∧
      Kept hash added := by
  have least := Nat.lt_of_le_of_lt (prefix_enter set.names name).length_le small
  obtain ⟨ready, first, names, large, indexed⟩ : ∃ ready,
      (if set.slots.length < (set.names.length + 1) * 2 then nameSetGrow hash set
        else some set) = some ready ∧ ready.names = set.names ∧
      (set.names.length + 1) * 2 ≤ ready.slots.length ∧ Indexed hash ready set.names.length := by
    split
    next =>
      refine grow_spec ?_ least
      rcases kept with rfl | indexed
      · exact nodup_nil
      · exact indexed.nodup
    next large =>
      rcases kept with rfl | indexed
      · exact absurd (by decide) large
      · exact ⟨set, rfl, rfl, Nat.le_of_not_lt large, indexed⟩
  obtain ⟨slot, row, searched, here, ⟨rfl, new, reaches⟩ | ⟨some_, -, known⟩⟩ :=
    indexed.search name
  · rw [← names, take_length, names] at new
    have same : enter set.names name = set.names ++ [name] := if_neg new
    have nodup := nodup_enter (names ▸ indexed.nodup) name
    rw [same] at nodup small
    rw [length_append, length_singleton] at small
    refine ⟨⟨ready.names ++ [name], ready.slots.set slot ready.names.length.toUInt32⟩, ?_, ?_, ?_⟩
    · rw [nameSetAdd, first]
      simp [searched, here]
    · rw [same, names]
    · refine .inr ?_
      rw [names, length_append, length_singleton]
      exact indexed.enter (names ▸ prefix_append _ _) nodup getElem?_concat_length here reaches
        (by omega) small
  · have mem : name ∈ set.names := names ▸ mem_of_getElem? known
    refine ⟨ready, ?_, by rw [enter, if_pos mem, names], .inr (by rwa [names])⟩
    rw [nameSetAdd, first]
    simp [searched, here, some_]

def addAll (hash : Bytes → UInt64) (calls : List Bytes) : Option NameSet :=
  calls.foldlM (nameSetAdd hash) empty

theorem addAll_spec (calls : List Bytes) (small : (firsts calls).length < 4294967296) :
    ∃ set, addAll hash calls = some set ∧ set.names = firsts calls ∧ Kept hash set := by
  induction calls using List.reverseRecOn with
  | nil => exact ⟨empty, rfl, rfl, .inl rfl⟩
  | append_singleton calls name ih =>
    rw [firsts_snoc] at small ⊢
    obtain ⟨set, run, names, kept⟩ :=
      ih (Nat.lt_of_le_of_lt (prefix_enter _ _).length_le small)
    rw [← names] at small ⊢
    obtain ⟨added, one, same, kept⟩ := add_spec kept name small
    refine ⟨added, ?_, same, kept⟩
    rw [addAll, foldlM_append]
    change (addAll hash calls).bind _ = _
    rw [run]
    exact (Option.bind_some _ _).trans (by simpa using one)

theorem Kept.holds {calls : List Bytes} (kept : Kept hash set) (names : set.names = firsts calls) :
    Holds hash set calls := by
  rcases kept with rfl | indexed
  · have none_ : firsts calls = [] := names.symm
    refine ⟨names, fun name => ?_, fun name => ?_, .refl _, .inl rfl⟩
    · rw [none_]
      rfl
    · rw [none_]
      rfl
  have some_ : set.slots.length ≠ 0 := Nat.ne_of_gt (Nat.zero_lt_of_lt indexed.room)
  refine ⟨names, fun name => ?_, fun name => ?_, indexed.rows, .inr indexed.exists_empty⟩
  all_goals
    rw [← names]
    obtain ⟨slot, row, searched, here, ⟨rfl, new, -⟩ | ⟨taken, -, known⟩⟩ := indexed.search name
  · rw [take_length] at new
    simp [nameSetContains, some_, searched, here, new]
  · simp [nameSetContains, some_, searched, here, taken, mem_of_getElem? known]
  · rw [take_length] at new
    simp [nameSetIndex, some_, searched, here, new]
  · obtain ⟨inside, rfl⟩ := List.getElem?_eq_some_iff.mp known
    simp [nameSetIndex, some_, searched, here, taken, indexed.nodup.idxOf_getElem]

/-- After a sequence of calls the set is the list of the different names, as long as there are at
most 4294967295 of them. -/
theorem nameSet_agrees_iff (hash : Bytes → UInt64) (calls : List Bytes) :
    (∃ set, addAll hash calls = some set ∧ Holds hash set calls) ↔
      (firsts calls).length < 4294967296 := by
  constructor
  · rintro ⟨set, -, holds⟩
    refine Nat.lt_of_not_le fun many => ?_
    have last : 4294967295 ∈ rows set.slots :=
      holds.rows.mem_iff.mpr (mem_range.mpr (holds.names ▸ many))
    obtain ⟨entry, -, some_, same⟩ := mem_rows.mp last
    exact some_ (UInt32.toNat_inj.mp same)
  · intro small
    obtain ⟨set, run, names, kept⟩ := addAll_spec calls small
    exact ⟨set, run, kept.holds names⟩

/-- One name more than there are rows. -/
theorem nameSet_disagrees : ¬ ∀ (hash : Bytes → UInt64) (calls : List Bytes),
    ∃ set, addAll hash calls = some set ∧ Holds hash set calls := by
  intro agrees
  have nodup : ((List.range 4294967296).map (replicate · (97 : UInt8))).Nodup :=
    nodup_range.map fun m n same => by simpa using congrArg List.length same
  have small := (nameSet_agrees_iff _ _).mp
    (agrees (fun _ => 0) ((List.range 4294967296).map (replicate · 97)))
  rw [((perm_ext_iff_of_nodup (nodup_firsts _) nodup).mpr fun _ => mem_firsts).length_eq,
    length_map, length_range] at small
  exact Nat.lt_irrefl _ small

end NameSet

end Elisa.Semantic
