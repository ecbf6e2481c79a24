import Mathlib.Data.List.TakeWhile
import Mathlib.Tactic.Ring
import Elisa.Backend.ConstDict

/-!
# Lookups in constant dictionaries

Placing an entry keeps the slots that are taken, and gives it a slot behind taken slots only
(`Placed`).  So a search from the home of a key ends at a bucket that matches or is free.  A key
without a zero has the same hash for the builder and for the search (`lookups_iff`).
-/

namespace Elisa.Backend

open Elisa.Lib List

variable {V : Type}

/-! ## Capacities -/

theorem capacityFrom_spec {count : Nat} (rounds capacity : Nat)
    (enough : count * 4 ≤ capacity * 3 * 2 ^ rounds) (power : ∃ k, capacity = 2 ^ k) :
    count * 4 ≤ capacityFrom count rounds capacity * 3 ∧
      ∃ k, capacityFrom count rounds capacity = 2 ^ k := by
  induction rounds generalizing capacity with
  | zero =>
    rw [Nat.pow_zero, Nat.mul_one] at enough
    exact ⟨enough, power⟩
  | succ rounds ih =>
    rw [capacityFrom]
    split
    · obtain ⟨k, rfl⟩ := power
      refine ih _ ?_ ⟨k + 1, (Nat.pow_succ ..).symm⟩
      calc count * 4 ≤ 2 ^ k * 3 * 2 ^ (rounds + 1) := enough
        _ = 2 ^ k * 2 * 3 * 2 ^ rounds := by ring
    next fits => exact ⟨Nat.not_lt.1 fits, power⟩

theorem constDictCapacity_spec {count : Nat} (some_ : count ≠ 0) :
    count * 4 ≤ constDictCapacity count * 3 ∧ ∃ k, constDictCapacity count = 2 ^ k := by
  rw [constDictCapacity, if_neg some_]
  refine capacityFrom_spec count 8 ?_ ⟨3, rfl⟩
  have := Nat.lt_two_pow_self (n := count)
  omega

theorem and_mask {capacity : Nat} (power : ∃ k, capacity = 2 ^ k) (n : Nat) :
    n &&& (capacity - 1) = n % capacity := by
  obtain ⟨k, rfl⟩ := power
  exact Nat.and_two_pow_sub_one_eq_mod n k

/-! ## Placement -/

def home (capacity : Nat) (key : Bytes) : Nat :=
  (constDictHashCstr key).toNat % capacity

def Placement.occupied (p : Placement) (slot : Nat) : Bool :=
  p.taken.getD slot false

section Placement

variable {capacity : Nat}

theorem probeFree_of_scan (power : ∃ k, capacity = 2 ^ k) {taken : List Bool}
    {fuel slot found : Nat}
    (scanned : Probing.scan (fun s => !taken.getD s false) capacity fuel slot = some found) :
    probeFree taken (capacity - 1) fuel slot = found := by
  induction fuel generalizing slot with
  | zero => cases scanned
  | succ fuel ih =>
    rw [Probing.scan] at scanned
    rw [probeFree]
    split at scanned
    next free =>
      rw [if_neg (by simpa using free)]
      exact Option.some.inj scanned
    next full =>
      rw [if_pos (by simpa using full), and_mask power]
      exact ih scanned

structure Placed (capacity : Nat) (keys : List Bytes) (p : Placement) : Prop where
  taken_length : p.taken.length = capacity
  slotEntry_length : p.slotEntry.length = capacity
  count : p.taken.count true = keys.length
  slot_entry : ∀ slot, p.occupied slot = true → p.slotEntry.getD slot 0 < keys.length
  entry_slot : ∀ i (within : i < keys.length), ∃ slot, p.occupied slot = true ∧
    p.slotEntry.getD slot 0 = i ∧ Probing.Reaches capacity p.occupied (home capacity keys[i]) slot

variable {keys : List Bytes} {p : Placement}

theorem Placed.lt_of_occupied (placed : Placed capacity keys p) {slot : Nat}
    (occupied : p.occupied slot = true) : slot < capacity := by
  by_contra outside
  rw [Placement.occupied, getD_eq_default _ _ (by rw [placed.taken_length]; omega)] at occupied
  cases occupied

theorem Placed.exists_free (placed : Placed capacity keys p) (room : keys.length < capacity) :
    ∃ slot < capacity, p.occupied slot = false := by
  by_contra full
  push Not at full
  have all : p.taken.count true = p.taken.length := by
    refine count_eq_length.2 fun b mem => ?_
    obtain ⟨slot, lt, rfl⟩ := mem_iff_getElem.1 mem
    have occupied := full slot (placed.taken_length ▸ lt)
    rw [Placement.occupied, getD_eq_getElem _ _ lt] at occupied
    cases h : p.taken[slot] with
    | true => rfl
    | false => exact absurd h occupied
  rw [placed.count, placed.taken_length] at all
  omega

theorem occupied_set {slot entryIndex : Nat} (inside : slot < p.taken.length) (s : Nat) :
    Placement.occupied ⟨p.taken.set slot true, p.slotEntry.set slot entryIndex⟩ s =
      (decide (s = slot) || p.occupied s) := by
  simp only [Placement.occupied, getD_eq_getElem?_getD, getElem?_set]
  by_cases same : slot = s
  · simp [same.symm ▸ inside, same]
  · simp [same, Ne.symm same]

theorem Placed.placeKey (power : ∃ k, capacity = 2 ^ k) (placed : Placed capacity keys p)
    (room : keys.length < capacity) (key : Bytes) :
    ∃ after, placeKey capacity key keys.length p = some after ∧
      Placed capacity (keys ++ [key]) after := by
  have within : home capacity key < capacity := Nat.mod_lt _ (by omega)
  obtain ⟨free, inside, isFree⟩ := placed.exists_free room
  obtain ⟨slot, scanned⟩ := @Probing.scan_isSome capacity (fun s => !p.occupied s) _ within free
    inside (by rw [isFree]; rfl)
  obtain ⟨notTaken, reached⟩ := Probing.reaches_of_scan within scanned
  have probed := probeFree_of_scan power scanned
  have lt : slot < p.taken.length := by
    obtain ⟨d, -, rfl, -⟩ := reached
    rw [placed.taken_length]
    exact Nat.mod_lt _ (by omega)
  have grows : ∀ s, p.occupied s = true →
      Placement.occupied ⟨p.taken.set slot true, p.slotEntry.set slot keys.length⟩ s = true := by
    intro s occupied
    rw [occupied_set lt, occupied, Bool.or_true]
  have own : (p.slotEntry.set slot keys.length).getD slot 0 = keys.length := by
    rw [getD_eq_getElem _ _ (by
      rw [length_set, placed.slotEntry_length, ← placed.taken_length]
      exact lt), getElem_set_self]
  have other : ∀ s, p.occupied s = true →
      (p.slotEntry.set slot keys.length).getD s 0 = p.slotEntry.getD s 0 := by
    intro s occupied
    have ne : slot ≠ s := by
      rintro rfl
      rw [notTaken] at occupied
      cases occupied
    rw [getD_eq_getElem?_getD, getElem?_set_ne ne, ← getD_eq_getElem?_getD]
  refine ⟨⟨p.taken.set slot true, p.slotEntry.set slot keys.length⟩, ?_, ?_⟩
  · simp only [Backend.placeKey, and_mask power]
    rw [show (constDictHashCstr key).toNat % capacity = home capacity key from rfl, probed,
      show p.taken.getD slot false = false from notTaken]
    rfl
  refine ⟨by rw [length_set, placed.taken_length],
    by rw [length_set, placed.slotEntry_length], ?_, fun s occupied => ?_, fun i bound => ?_⟩
  · have notTaken' : p.taken[slot] = false := by
      rwa [Placement.occupied, getD_eq_getElem _ _ lt] at notTaken
    rw [count_set lt, notTaken', placed.count, length_append]
    rfl
  · rw [length_append]
    rw [occupied_set lt, Bool.or_eq_true, decide_eq_true_eq] at occupied
    rcases occupied with rfl | occupied
    · rw [own]
      exact Nat.lt_succ_self _
    · rw [other s occupied]
      exact Nat.lt_succ_of_lt (placed.slot_entry s occupied)
  · rcases Nat.lt_or_ge i keys.length with old | new
    · obtain ⟨s, occupied, entry, reaches⟩ := placed.entry_slot i old
      refine ⟨s, grows s occupied, (other s occupied).trans entry, ?_⟩
      rw [getElem_append_left old]
      exact reaches.mono grows
    obtain rfl : i = keys.length := by
      rw [length_append, length_singleton] at bound
      omega
    refine ⟨slot, ?_, own, ?_⟩
    · rw [occupied_set lt, decide_eq_true rfl, Bool.true_or]
    · rw [getElem_append_right (Nat.le_refl _)]
      simpa using reached.mono grows

/-- Placing entries goes well while there is room for their keys. -/
theorem Placed.placeEntries (power : ∃ k, capacity = 2 ^ k) {texts done : List Bytes}
    (placed : Placed capacity done p) (decoded : texts.map decodedKey = keys.map some)
    (room : done.length + keys.length ≤ capacity) :
    ∃ after, placeEntries capacity texts done.length p = some after ∧
      Placed capacity (done ++ keys) after := by
  induction texts generalizing keys done p with
  | nil =>
    obtain rfl : keys = [] := by simpa using decoded.symm
    exact ⟨p, rfl, by rwa [append_nil]⟩
  | cons text texts ih =>
    cases keys with
    | nil => cases decoded
    | cons key keys =>
      obtain ⟨first, rest⟩ := List.cons.inj decoded
      rw [length_cons] at room
      obtain ⟨mid, placedKey, placedMid⟩ := placed.placeKey power (by omega) key
      have length : (done ++ [key]).length = done.length + 1 := length_append
      obtain ⟨after, placedRest, placedAfter⟩ := ih placedMid rest (by rw [length]; omega)
      refine ⟨after, ?_, by simpa using placedAfter⟩
      rw [Backend.placeEntries, first]
      simp only [Option.bind_eq_bind, Option.bind_some, placedKey]
      rw [← length]
      exact placedRest

theorem placed_nil (capacity : Nat) :
    Placed capacity [] ⟨List.replicate capacity false, List.replicate capacity 0⟩ := by
  have free : ∀ slot, Placement.occupied
      ⟨List.replicate capacity false, List.replicate capacity 0⟩ slot = false := by
    intro slot
    simp only [Placement.occupied, getD_eq_getElem?_getD, getElem?_replicate]
    split <;> rfl
  refine ⟨length_replicate, length_replicate, ?_, fun slot occupied => ?_, ?_⟩
  · rw [count_replicate]
    rfl
  · rw [free] at occupied
    cases occupied
  · intro i within
    exact absurd within (Nat.not_lt_zero i)

end Placement

/-! ## Searches -/

section Searches

def stateAt (items : List (DictBucket V)) (slot : Nat) : UInt8 :=
  (items[slot]?.map DictBucket.state).getD 0

def hits (items : List (DictBucket V)) (key : Bytes) (slot : Nat) : Bool :=
  stateAt items slot = 1 ∧ (items[slot]?.bind DictBucket.key).map cstrBytes = some (cstrBytes key)

def stops (items : List (DictBucket V)) (key : Bytes) (slot : Nat) : Bool :=
  stateAt items slot = 0 ∨ hits items key slot

variable {capacity : Nat} {items : List (DictBucket V)} {key : Bytes}

theorem findFrom_succ (rounds slot insertSlot : Nat) :
    findFrom items capacity key (rounds + 1) slot insertSlot =
      if stateAt items slot = 0 then ⟨if insertSlot = capacity then slot else insertSlot, false⟩
      else if hits items key slot then ⟨slot, true⟩
      else
        findFrom items capacity key rounds ((slot + 1) &&& (capacity - 1))
          (if stateAt items slot = 2 ∧ insertSlot = capacity then slot else insertSlot) := by
  simp only [findFrom, hits, decide_eq_true_eq]
  rfl

theorem findFrom_eq (power : ∃ k, capacity = 2 ^ k) (plain : ∀ slot, stateAt items slot ≠ 2)
    (rounds slot : Nat) :
    findFrom items capacity key rounds slot capacity =
      match Probing.scan (stops items key) capacity rounds slot with
      | none => ⟨0, false⟩
      | some found => ⟨found, hits items key found⟩ := by
  induction rounds generalizing slot with
  | zero => simp [findFrom, Probing.scan]
  | succ rounds ih =>
    rw [findFrom_succ, Probing.scan, stops]
    by_cases free : stateAt items slot = 0
    · have misses : hits items key slot = false := by simp [hits, free]
      simp [free, misses]
    cases hit : hits items key slot with
    | true => simp [free, hit]
    | false =>
      have tombstone := plain slot
      simp only [free, tombstone, false_and, or_self, decide_false, if_false, and_mask power,
        Bool.false_eq_true]
      exact ih _

theorem arenaDictGet_eq (power : ∃ k, capacity = 2 ^ k) (plain : ∀ slot, stateAt items slot ≠ 2)
    {count used : Nat} (some_ : count ≠ 0) :
    arenaDictGet ⟨some items, count, used, capacity⟩ key =
      match Probing.scan (stops items key) capacity capacity
        ((ctxHashCstr key).toNat % capacity) with
      | none => none
      | some found => if hits items key found then items[found]? else none := by
  have positive : capacity ≠ 0 := by
    obtain ⟨k, rfl⟩ := power
    exact (Nat.two_pow_pos k).ne'
  simp only [arenaDictGet, arenaDictFindIndex, if_neg some_, if_neg positive, and_mask power,
    findFrom_eq power plain]
  cases Probing.scan (stops items key) capacity capacity ((ctxHashCstr key).toNat % capacity) with
  | none => rfl
  | some found => rfl

end Searches

/-! ## Keys without a zero -/

theorem cstrBytes_of_notMem {key : Bytes} (plain : 0 ∉ key) : cstrBytes key = key := by
  refine takeWhile_eq_self_iff.2 fun byte mem => ?_
  simpa using fun zero : byte = 0 => plain (zero ▸ mem)

theorem zero_notMem_cstrBytes (key : Bytes) : 0 ∉ cstrBytes key := by
  intro mem
  simpa using mem_takeWhile_imp mem

theorem cstrBytes_idem (key : Bytes) : cstrBytes (cstrBytes key) = cstrBytes key :=
  cstrBytes_of_notMem (zero_notMem_cstrBytes key)

theorem ctxHashCstr_of_notMem {key : Bytes} (plain : 0 ∉ key) :
    ctxHashCstr key = constDictHashCstr key := by
  rw [ctxHashCstr, cstrBytes_of_notMem plain]
  rfl

theorem arenaDictGet_cstrBytes (m : DynDict V) (key : Bytes) :
    arenaDictGet m (cstrBytes key) = arenaDictGet m key := by
  have find : ∀ (items : List (DictBucket V)) (capacity rounds slot insertSlot : Nat),
      findFrom items capacity (cstrBytes key) rounds slot insertSlot =
        findFrom items capacity key rounds slot insertSlot := by
    intro items capacity rounds
    induction rounds with
    | zero => exact fun slot insertSlot => rfl
    | succ rounds ih =>
      intro slot insertSlot
      rw [findFrom_succ, findFrom_succ, ih, hits, hits, cstrBytes_idem]
  have hash : ctxHashCstr (cstrBytes key) = ctxHashCstr key := by
    rw [ctxHashCstr, cstrBytes_idem]
    rfl
  cases m with
  | mk items count used capacity =>
    cases items with
    | none => rfl
    | some items => simp only [arenaDictGet, arenaDictFindIndex, find, hash]

/-! ## The table -/

section Table

theorem mapM_range {β : Type} {f : Nat → Option β} {n : Nat} (all : ∀ i < n, ∃ b, f i = some b) :
    ∃ items, (List.range n).mapM f = some items ∧ items.length = n ∧ ∀ i < n, items[i]? = f i := by
  induction n with
  | zero => exact ⟨[], rfl, rfl, fun i lt => absurd lt (Nat.not_lt_zero i)⟩
  | succ n ih =>
    obtain ⟨items, mapped, length, at_⟩ := ih fun i lt => all i (Nat.lt_succ_of_lt lt)
    obtain ⟨b, last⟩ := all n (Nat.lt_succ_self n)
    refine ⟨items ++ [b], ?_, by simp [length], fun i lt => ?_⟩
    · simp [range_succ, mapped, last]
    rcases Nat.lt_succ_iff_lt_or_eq.1 lt with before | rfl
    · rw [getElem?_append_left (length ▸ before)]
      exact at_ i before
    · rw [getElem?_append_right (by rw [length]), length, Nat.sub_self, last]
      rfl

variable {zero : V} {entries : List (Bytes × V)} {keys : List Bytes}
  {p : Placement} {capacity : Nat}
  {items : List (DictBucket V)}

/-- The buckets are those of the entries in their slots, and free ones everywhere else. -/
structure LaidOut (entries : List (Bytes × V)) (keys : List Bytes) (p : Placement)
    (items : List (DictBucket V)) : Prop where
  occupied : ∀ slot, p.occupied slot = true → ∃ entry key,
    entries[p.slotEntry.getD slot 0]? = some entry ∧ keys[p.slotEntry.getD slot 0]? = some key ∧
      items[slot]? = some ⟨some key, entry.2, 1⟩
  free : ∀ slot, p.occupied slot = false → stateAt items slot = 0

theorem Placed.laidOut (placed : Placed capacity keys p)
    (decoded : entries.map (fun entry => decodedKey entry.1) = keys.map some) :
    ∃ items, (List.range capacity).mapM (bucketAt zero entries p) = some items ∧
      LaidOut entries keys p items := by
  have length : entries.length = keys.length := by
    simpa using congrArg List.length decoded
  have occupiedBucket : ∀ slot, p.occupied slot = true → ∃ (entry : Bytes × V) (key : Bytes),
      entries[p.slotEntry.getD slot 0]? = some entry ∧ keys[p.slotEntry.getD slot 0]? = some key ∧
        bucketAt zero entries p slot = some ⟨some key, entry.2, 1⟩ := by
    intro slot occupied
    have within := placed.slot_entry slot occupied
    generalize index : p.slotEntry.getD slot 0 = i at within ⊢
    have entry_eq : entries[i]? = some entries[i] := getElem?_eq_getElem (length ▸ within)
    have key_eq : decodedKey (entries[i].1) = some keys[i] := by
      have := congrArg (fun l => l[i]?) decoded
      simpa [entry_eq, getElem?_eq_getElem within] using this
    refine ⟨entries[i], keys[i], entry_eq, getElem?_eq_getElem within, ?_⟩
    rw [bucketAt, show p.taken.getD slot false = true from occupied, if_pos rfl, index, entry_eq]
    simp [key_eq]
  have freeBucket : ∀ slot, p.occupied slot = false →
      bucketAt zero entries p slot = some ⟨none, zero, 0⟩ := by
    intro slot free
    rw [bucketAt, show p.taken.getD slot false = false from free]
    rfl
  obtain ⟨items, mapped, itemsLength, at_⟩ := @mapM_range _ (bucketAt zero entries p) capacity
    fun slot _ => by
      cases h : p.occupied slot with
      | true =>
        obtain ⟨_, _, -, -, bucket⟩ := occupiedBucket slot h
        exact ⟨_, bucket⟩
      | false => exact ⟨_, freeBucket slot h⟩
  refine ⟨items, mapped, ⟨fun slot occupied => ?_, fun slot free => ?_⟩⟩
  · obtain ⟨entry, key, entry_eq, key_eq, bucket⟩ := occupiedBucket slot occupied
    exact ⟨entry, key, entry_eq, key_eq, (at_ slot (placed.lt_of_occupied occupied)).trans bucket⟩
  rcases Nat.lt_or_ge slot capacity with inside | outside
  · rw [stateAt, at_ slot inside, freeBucket slot free]
    rfl
  · rw [stateAt, getElem?_eq_none (itemsLength ▸ outside)]
    rfl

theorem LaidOut.stateAt_occupied (laid : LaidOut entries keys p items) {slot : Nat}
    (occupied : p.occupied slot = true) : stateAt items slot = 1 := by
  obtain ⟨_, _, -, -, bucket⟩ := laid.occupied slot occupied
  rw [stateAt, bucket]
  rfl

theorem LaidOut.stateAt_ne_two (laid : LaidOut entries keys p items) (slot : Nat) :
    stateAt items slot ≠ 2 := by
  cases h : p.occupied slot with
  | true => rw [laid.stateAt_occupied h]; decide
  | false => rw [laid.free slot h]; decide

theorem LaidOut.of_hits (laid : LaidOut entries keys p items) (plain : ∀ key ∈ keys, 0 ∉ key)
    {key : Bytes} (keyPlain : 0 ∉ key) {slot : Nat} (hit : hits items key slot = true) :
    ∃ (i : Nat) (entry : Bytes × V), entries[i]? = some entry ∧ keys[i]? = some key ∧
      items[slot]? = some ⟨some key, entry.2, 1⟩ := by
  rw [hits, decide_eq_true_eq] at hit
  obtain ⟨state, same⟩ := hit
  cases h : p.occupied slot with
  | false =>
    rw [laid.free slot h] at state
    exact absurd state (by decide)
  | true =>
    obtain ⟨entry, other, entry_eq, other_eq, bucket⟩ := laid.occupied slot h
    rw [bucket] at same
    have eq : cstrBytes other = cstrBytes key := Option.some.inj same
    rw [cstrBytes_of_notMem (plain other (mem_of_getElem? other_eq)),
      cstrBytes_of_notMem keyPlain] at eq
    obtain rfl := eq
    exact ⟨_, entry, entry_eq, other_eq, bucket⟩

theorem exists_lookups (zero : V)
    (decoded : entries.map (fun entry => decodedKey entry.1) = keys.map some)
    (distinct : keys.Nodup) (plain : ∀ key ∈ keys, 0 ∉ key) :
    ∃ table, Lookups zero entries table := by
  have length : entries.length = keys.length := by
    simpa using congrArg List.length decoded
  by_cases none_ : entries.length = 0
  · obtain rfl := eq_nil_of_length_eq_zero none_
    exact ⟨⟨none, 0, 0, 0⟩, rfl, Nat.le_refl _, by simp, fun _ _ _ => rfl⟩
  obtain ⟨load, power⟩ := constDictCapacity_spec none_
  have positive : constDictCapacity entries.length ≠ 0 := by omega
  have texts : (entries.map Prod.fst).map decodedKey = keys.map some := by
    rw [map_map]
    exact decoded
  obtain ⟨p, placement, placed⟩ :=
    (placed_nil (constDictCapacity entries.length)).placeEntries power texts (by
      show 0 + keys.length ≤ _
      omega)
  rw [nil_append] at placed
  obtain ⟨items, mapped, laid⟩ := @Placed.laidOut _ zero _ _ _ _ placed decoded
  have search := fun key => @arenaDictGet_eq V _ items key power laid.stateAt_ne_two
    entries.length entries.length none_
  refine ⟨⟨some items, entries.length, entries.length, constDictCapacity entries.length⟩, ?_, load,
    fun entry mem => ?_, fun key keyPlain other => ?_⟩
  · simp only [constDictGlobalValue, if_neg positive]
    rw [show ([] : List Bytes).length = 0 from rfl] at placement
    simp [placement, mapped]
  · obtain ⟨i, lt, rfl⟩ := mem_iff_getElem.1 mem
    have within : i < keys.length := length ▸ lt
    have keyOf : ∀ {j : Nat} {e : Bytes × V} {k : Bytes}, entries[j]? = some e → keys[j]? = some k →
        decodedKey e.1 = some k := by
      intro j e k entry_eq key_eq
      have := congrArg (fun l => l[j]?) decoded
      simpa [entry_eq, key_eq] using this
    have keyPlain := plain _ (getElem_mem within)
    refine ⟨keys[i], keyOf (getElem?_eq_getElem lt) (getElem?_eq_getElem within), ?_⟩
    obtain ⟨slot, occupied, index, reaches⟩ := placed.entry_slot i within
    have hit : hits items keys[i] slot = true := by
      obtain ⟨_, key, -, key_eq, bucket⟩ := laid.occupied slot occupied
      rw [index, getElem?_eq_getElem within] at key_eq
      obtain rfl := Option.some.inj key_eq
      simp [hits, laid.stateAt_occupied occupied, bucket]
    have start : (ctxHashCstr keys[i]).toNat % constDictCapacity entries.length =
        home (constDictCapacity entries.length) keys[i] := by
      rw [ctxHashCstr_of_notMem keyPlain]
      rfl
    have inside : home (constDictCapacity entries.length) keys[i] <
        constDictCapacity entries.length := Nat.mod_lt _ (Nat.pos_of_ne_zero positive)
    obtain ⟨found, scanned, stop, place⟩ := Probing.scan_of_reaches inside reaches
      (show stops items keys[i] slot = true by simp [stops, hit])
    have taken : p.occupied found = true := by
      rcases place with rfl | taken
      · exact occupied
      · exact taken
    have hitFound : hits items keys[i] found = true := by
      have state := laid.stateAt_occupied taken
      simpa [stops, state] using stop
    obtain ⟨j, entry, entry_eq, key_eq, bucket⟩ := laid.of_hits plain keyPlain hitFound
    have same : j = i := by
      obtain ⟨jlt, eq⟩ := List.getElem?_eq_some_iff.1 key_eq
      exact (List.Nodup.getElem_inj_iff distinct).1 eq
    subst same
    obtain rfl : entries[j] = entry :=
      Option.some.inj ((getElem?_eq_getElem lt).symm.trans entry_eq)
    rw [search, start, scanned]
    simp only [hitFound, if_true, bucket]
  · rw [search]
    cases scanned : Probing.scan (stops items key) (constDictCapacity entries.length)
        (constDictCapacity entries.length)
        ((ctxHashCstr key).toNat % constDictCapacity entries.length) with
    | none => rfl
    | some found =>
      refine if_neg fun hit => ?_
      obtain ⟨i, entry, entry_eq, key_eq, -⟩ := laid.of_hits plain keyPlain hit
      have := congrArg (fun l => l[i]?) decoded
      exact other entry (mem_of_getElem? entry_eq) (by simpa [entry_eq, key_eq] using this)

end Table

/-! ## The keys that a dictionary can have -/

theorem exists_keys {entries : List (Bytes × V)}
    (known : ∀ entry ∈ entries, ∃ key, decodedKey entry.1 = some key) :
    entries.map (fun entry => decodedKey entry.1) =
      (entries.filterMap fun entry => decodedKey entry.1).map some := by
  induction entries with
  | nil => rfl
  | cons entry entries ih =>
    obtain ⟨key, decoded⟩ := known entry (.head _)
    simp only [map_cons, filterMap_cons, decoded,
      ih fun entry mem => known entry (.tail _ mem)]

/-- In a dictionary that answers as it should no key has a zero in it: the search for the bytes
before the zero finds the same bucket. -/
theorem Lookups.plain {zero : V} {entries : List (Bytes × V)} {table : DynDict V}
    (lookups : Lookups zero entries table) :
    ∀ entry ∈ entries, ∃ key, decodedKey entry.1 = some key ∧ 0 ∉ key := by
  intro entry mem
  obtain ⟨key, decoded, found⟩ := lookups.entry entry mem
  refine ⟨key, decoded, fun zeroMem => ?_⟩
  have short : cstrBytes key ≠ key := by
    intro eq
    exact zero_notMem_cstrBytes key (eq.symm ▸ zeroMem)
  have same := (arenaDictGet_cstrBytes table key).trans found
  by_cases other : ∃ entry ∈ entries, decodedKey entry.1 = some (cstrBytes key)
  · obtain ⟨otherEntry, otherMem, otherDecoded⟩ := other
    obtain ⟨otherKey, decoded', found'⟩ := lookups.entry otherEntry otherMem
    obtain rfl := Option.some.inj (otherDecoded.symm.trans decoded')
    have bucket := Option.some.inj (found'.symm.trans same)
    exact short (Option.some.inj (congrArg DictBucket.key bucket))
  · push Not at other
    rw [lookups.absent (cstrBytes key) (zero_notMem_cstrBytes key) other] at same
    cases same

/-- A dictionary with distinct keys answers as it should if and only if no key has a zero in it. -/
theorem lookups_iff (zero : V) (entries : List (Bytes × V))
    (distinct : (entries.filterMap fun entry => decodedKey entry.1).Nodup) :
    (∃ table, Lookups zero entries table) ↔
      ∀ entry ∈ entries, ∃ key, decodedKey entry.1 = some key ∧ 0 ∉ key := by
  constructor
  · rintro ⟨table, lookups⟩
    exact lookups.plain
  · intro plain
    refine exists_lookups zero (exists_keys fun entry mem => ?_) distinct fun key mem => ?_
    · obtain ⟨key, decoded, -⟩ := plain entry mem
      exact ⟨key, decoded⟩
    · obtain ⟨entry, entryMem, decoded⟩ := mem_filterMap.1 mem
      obtain ⟨key', decoded', free⟩ := plain entry entryMem
      obtain rfl := Option.some.inj (decoded.symm.trans decoded')
      exact free

theorem lookups_two :
    (∃ table, Lookups 0 [([97], 1), ([98], 2)] table) ↔
      ∀ entry ∈ [([97], 1), ([98], 2)], ∃ key, decodedKey entry.1 = some key ∧ 0 ∉ key :=
  lookups_iff 0 _ (by decide +kernel)

/-- The literal `a\0b` is laid out in slot 2, and searched for from slot 4 on. -/
theorem lookups_zero :
    decodedKey [97, 92, 48, 98] = some [97, 0, 98] ∧
      ¬ ∃ table, Lookups 0 [([97, 92, 48, 98], 1)] table := by
  have decoded : decodedKey [97, 92, 48, 98] = some [97, 0, 98] := by decide +kernel
  refine ⟨decoded, ?_⟩
  rintro ⟨table, lookups⟩
  obtain ⟨key, decoded', plain⟩ := lookups.plain _ (.head _)
  obtain rfl := Option.some.inj (decoded.symm.trans decoded')
  exact plain (by decide)

end Elisa.Backend
