import Elisa.Lib.BucketStacks
import Elisa.Lib.Interning
import Elisa.Semantic.RowEntries
import Elisa.Semantic.TypeTable

/-!
# Interned types are canonical

A table `Represents` a list of different types when its arrays spell them and its chains are those
of their hashes.  A walk then finds a type by its hash and the test alone (`selectRow_eq`), and each
way to intern enters its type into the list (`run_represents`).  Ids and places in the pool of
elements are 32 bits wide; everything is about tables within these bounds (`Fits`).
-/

namespace Elisa.Semantic

open Lib.BucketStacks Lib.Interning List TypeTable

def TypeRow.hash (row : TypeRow) : UInt64 := typeRowHash row.name row.elems

/-! ## Tables and the types in them -/

/-- Rows and elements can be told by 32 bits. -/
structure Fits (rows : List TypeRow) : Prop where
  count : rows.length < 2 ^ 32
  pool : (rows.flatMap (·.elems)).length < 2 ^ 32

variable {table : TypeTable} {rows : List TypeRow} {row : TypeRow} {r : Nat}

theorem Fits.of_prefix {more : List TypeRow} (fits : Fits more) (isPrefix : rows <+: more) :
    Fits rows := by
  obtain ⟨rest, rfl⟩ := isPrefix
  have pool := fits.pool
  rw [flatMap_append, length_append] at pool
  have count := fits.count
  rw [length_append] at count
  exact ⟨by omega, by omega⟩

def elemsBefore (rows : List TypeRow) (r : Nat) : List UInt32 :=
  (rows.take r).flatMap (·.elems)

theorem pool_split (small : r < rows.length) :
    rows.flatMap (·.elems) =
      elemsBefore rows r ++ (rows[r].elems ++ (rows.drop (r + 1)).flatMap (·.elems)) := by
  conv_lhs => rw [← take_append_drop r rows, drop_eq_getElem_cons small]
  rw [flatMap_append, flatMap_cons]
  rfl

theorem Fits.before (fits : Fits rows) (small : r < rows.length) :
    (elemsBefore rows r).length + rows[r].elems.length < 2 ^ 32 := by
  have pool := fits.pool
  rw [pool_split small, length_append, length_append] at pool
  omega

def rowAt (rows : List TypeRow) (r : Nat) : TypeRow := rows.getD r ⟨.unknown, [], [], 0⟩

theorem rowAt_eq (small : r < rows.length) : rowAt rows r = rows[r] := by
  rw [rowAt, getD_eq_getElem?_getD, getElem?_eq_getElem small]
  rfl

def hashAt (rows : List TypeRow) (r : Nat) : UInt64 := (rowAt rows r).hash

theorem hashAt_eq (small : r < rows.length) : hashAt rows r = rows[r].hash := by
  rw [hashAt, rowAt_eq small]

def headOf (table : TypeTable) (hash : UInt64) : Option Nat := toRow (table.typeRowChainHead hash)

def nextOf (table : TypeTable) (r : Nat) : Option Nat :=
  toRow (table.typeRowNext.getD r symbolIndexRowNone)

/-- The table holds these types, in this order. -/
structure Represents (table : TypeTable) (rows : List TypeRow) : Prop where
  kinds : table.typeRowKind = rows.map (·.kind)
  names : table.typeRowName = rows.map (·.name)
  starts : table.typeRowElemStart =
    (List.range rows.length).map fun r => (elemsBefore rows r).length.toUInt32
  counts : table.typeRowElemCount = rows.map (·.elems.length.toUInt32)
  pool : table.typeElemPool = rows.flatMap (·.elems)
  regionIds : table.typeRowRegionIds = rows.map (·.regionId)
  chained : table.typeRowNext.length = rows.length
  stacked : Stacked (hashAt rows) rows.length (headOf table) (nextOf table)
  nodup : rows.Nodup
  plain : ∀ row ∈ rows, row.kind ≠ .region → row.regionId = 0

theorem represents_empty : Represents .empty [] where
  kinds := rfl
  names := rfl
  starts := rfl
  counts := rfl
  pool := rfl
  regionIds := rfl
  chained := rfl
  stacked := ⟨fun _ => nofun, nofun⟩
  nodup := nodup_nil
  plain := nofun

namespace Represents

variable (represents : Represents table rows)

include represents

theorem lockstep : table.Lockstep where
  name := by rw [represents.names, represents.kinds, length_map, length_map]
  elemStart := by
    rw [represents.starts, represents.kinds, length_map, length_map, length_range]
  elemCount := by rw [represents.counts, represents.kinds, length_map, length_map]
  regionIds := by rw [represents.regionIds, represents.kinds, length_map, length_map]
  next := by rw [represents.chained, represents.kinds, length_map]

variable (small : r < rows.length)

include small

theorem kind_at : table.typeRowKind[r]? = some rows[r].kind := by
  rw [represents.kinds, getElem?_map, getElem?_eq_getElem small]
  rfl

theorem name_at : table.typeRowName[r]? = some rows[r].name := by
  rw [represents.names, getElem?_map, getElem?_eq_getElem small]
  rfl

theorem start_at : table.typeRowElemStart[r]? = some (elemsBefore rows r).length.toUInt32 := by
  rw [represents.starts, getElem?_map, getElem?_range small]
  rfl

theorem count_at : table.typeRowElemCount[r]? = some rows[r].elems.length.toUInt32 := by
  rw [represents.counts, getElem?_map, getElem?_eq_getElem small]
  rfl

theorem region_at : table.typeRowRegionIds[r]? = some rows[r].regionId := by
  rw [represents.regionIds, getElem?_map, getElem?_eq_getElem small]
  rfl

theorem pool_at : table.typeElemPool.drop (elemsBefore rows r).length =
    rows[r].elems ++ (rows.drop (r + 1)).flatMap (·.elems) := by
  rw [represents.pool, pool_split small, drop_left]

end Represents

/-! ## The tests -/

theorem poolMatches_eq {position : Nat} {stored after elems : List UInt32}
    (here : table.typeElemPool.drop position = stored ++ after)
    (same : stored.length = elems.length) :
    table.poolMatches position elems = some (decide (stored = elems)) := by
  induction elems generalizing position stored with
  | nil =>
    obtain rfl := length_eq_zero_iff.mp same
    rfl
  | cons element rest ih =>
    cases stored with
    | nil => cases same
    | cons first more =>
      have at_ : table.typeElemPool[position]? = some first := by
        rw [← head?_drop, here]
        rfl
      have later : table.typeElemPool.drop (position + 1) = more ++ after := by
        rw [← tail_drop, here]
        rfl
      rw [poolMatches, at_]
      change (if first ≠ element then some false else table.poolMatches (position + 1) rest) = _
      split
      next other => simp [other]
      next equal => simp [ih later (Nat.succ.inj same), not_not.mp equal]

section Tests

variable {kind : SemTypeKind} {name : Bytes} {elems : List UInt32}

theorem count_eq_iff (fits : Fits rows) (small : r < rows.length) :
    rows[r].elems.length.toUInt32.toNat = elems.length ↔
      rows[r].elems.length = elems.length := by
  have bound := fits.before small
  rw [toNat_toUInt32 (by omega)]

theorem regionIsPlain_eq (represents : Represents table rows) (small : r < rows.length)
    (isKind : rows[r].kind = kind) :
    table.regionIsPlain r kind = decide (rows[r].regionId = 0) := by
  rw [regionIsPlain, represents.region_at small]
  cases decEq kind .region with
  | isTrue region => simp [region]
  | isFalse other =>
    have plain := represents.plain _ (getElem_mem small) (by rwa [isKind])
    simp [other, plain]

theorem row_eq_iff {regionId : UInt32} :
    row = ⟨kind, name, elems, regionId⟩ ↔
      row.kind = kind ∧ row.name = name ∧ row.regionId = regionId ∧ row.elems = elems := by
  cases row
  simp only [TypeRow.mk.injEq]
  tauto

theorem typeRowMatchesOne_eq (represents : Represents table rows)
    (small : r < rows.length) {elementId : UInt32} :
    table.typeRowMatchesOne r kind name elementId =
      table.typeRowMatches r kind name [elementId] := by
  have count : rows[r].elems.length.toUInt32 = 1 ↔ rows[r].elems.length.toUInt32.toNat = 1 :=
    UInt32.toNat_inj.symm
  have last (stored : UInt32) : (if ¬stored = elementId then some false else some true) =
      some (decide (stored = elementId)) := by
    cases decEq stored elementId with
    | isTrue same => simp [same]
    | isFalse other => simp [other]
  rw [typeRowMatchesOne, typeRowMatches, represents.kind_at small,
    represents.name_at small, represents.count_at small, represents.start_at small]
  simp only [Option.bind_eq_bind, Option.bind_some, length_singleton, ne_eq, count,
    poolMatches]
  simp only [last]
  rfl

variable (represents : Represents table rows) (fits : Fits rows) (small : r < rows.length)

include represents fits small

theorem elems_match (same : rows[r].elems.length = elems.length) :
    table.poolMatches (elemsBefore rows r).length.toUInt32.toNat elems =
      some (decide (rows[r].elems = elems)) := by
  have bound := fits.before small
  rw [toNat_toUInt32 (by omega)]
  exact poolMatches_eq (represents.pool_at small) same

theorem elems_test :
    (if rows[r].elems.length.toUInt32.toNat ≠ elems.length then some false
      else table.poolMatches (elemsBefore rows r).length.toUInt32.toNat elems) =
      some (decide (rows[r].elems = elems)) := by
  split
  next other =>
    rw [ne_eq, count_eq_iff fits small] at other
    have differ : rows[r].elems ≠ elems := fun same => other (congrArg List.length same)
    rw [decide_eq_false differ]
  next same =>
    rw [not_not, count_eq_iff fits small] at same
    exact elems_match represents fits small same

/-- The test that the readers of a row share, with what each asks of the region. -/
theorem row_test {regionFits : Bool} {regionId : UInt32}
    (region : rows[r].kind = kind → regionFits = decide (rows[r].regionId = regionId)) :
    (do
      let rowKind ← table.typeRowKind[r]?
      if rowKind ≠ kind then return false
      let rowName ← table.typeRowName[r]?
      if rowName ≠ name then return false
      if !regionFits then return false
      let rowElemCount ← table.typeRowElemCount[r]?
      if rowElemCount.toNat ≠ elems.length then return false
      let rowStart ← table.typeRowElemStart[r]?
      table.poolMatches rowStart.toNat elems) =
        some (decide (rows[r] = ⟨kind, name, elems, regionId⟩)) := by
  have test : (if rows[r].elems.length.toUInt32.toNat ≠ elems.length then some false
      else table.poolMatches (elemsBefore rows r).length.toUInt32.toNat elems) = _ :=
    elems_test represents fits small
  simp only [row_eq_iff]
  rw [represents.kind_at small]
  cases decEq rows[r].kind kind with
  | isFalse other => simp [other]
  | isTrue sameKind =>
    rw [represents.name_at small, represents.count_at small, represents.start_at small,
      region sameKind]
    cases decEq rows[r].name name with
    | isFalse other => simp [other]
    | isTrue sameName =>
      cases decEq rows[r].regionId regionId with
      | isFalse other => simp [other]
      | isTrue sameRegion => simpa [sameKind, sameName, sameRegion] using test

theorem typeRowMatches_eq :
    table.typeRowMatches r kind name elems = some (decide (rows[r] = ⟨kind, name, elems, 0⟩)) :=
  row_test represents fits small (regionIsPlain_eq represents small)

theorem typeRowMatchesScoped_eq {regionId : RegionId} :
    table.typeRowMatchesScoped r kind name elems regionId =
      some (decide (rows[r] = ⟨kind, name, elems, regionId.value⟩)) :=
  row_test represents fits small fun _ => by
    rw [represents.region_at small]
    rfl

end Tests

/-! ## Walks -/

theorem selectRow_eq {key : TypeRow} {isMatch : Nat → Option Bool} {fuel n : Nat}
    {chainRow selected : UInt32} (represents : Represents table rows)
    (decides : ∀ r (small : r < rows.length), isMatch r = some (decide (rows[r] = key)))
    (inside : n ≤ rows.length) (last : Last (hashAt rows) key.hash n (toRow chainRow))
    (fuels : n < fuel) :
    table.selectRow isMatch fuel chainRow selected =
      some (if key ∈ rows.take n then (rows.idxOf key).toUInt32 else selected) := by
  induction fuel generalizing n chainRow selected with
  | zero => cases fuels
  | succ fuel ih =>
    rw [selectRow]
    cases reached : toRow chainRow with
    | none =>
      rw [reached] at last
      have away : key ∉ rows.take n := by
        intro mem
        obtain ⟨r, small, same⟩ := mem_take_iff_getElem.mp mem
        have hash : hashAt rows r = key.hash := by rw [hashAt_eq (by omega), same]
        exact last r (by omega) hash
      rw [if_pos (toRow_none reached), if_neg away]
    | some r =>
      rw [reached] at last
      obtain ⟨is, rfl⟩ := toRow_some reached
      have ⟨below, hash, _⟩ := last
      have small : chainRow.toNat < rows.length := by omega
      have linked : chainRow.toNat < table.typeRowNext.length := by
        rw [represents.chained]
        exact small
      have next := getElem?_eq_getElem linked
      have earlier := represents.stacked.next _ small
      rw [hash, nextOf, getD_eq_getElem?_getD, next] at earlier
      have among : key ∈ rows.take n ↔
          rows[chainRow.toNat] = key ∨ key ∈ rows.take chainRow.toNat := by
        simp only [mem_take_iff_getElem]
        constructor
        · rintro ⟨s, inTake, same⟩
          have sameHash : hashAt rows s = key.hash := by rw [hashAt_eq (by omega), same]
          rcases last.earlier (by omega) sameHash with rfl | before
          · exact .inl same
          · exact .inr ⟨s, by omega, same⟩
        · rintro (same | ⟨s, inTake, same⟩)
          · exact ⟨chainRow.toNat, by omega, same⟩
          · exact ⟨s, by omega, same⟩
      rw [if_neg is, decides _ small, next]
      have rest := Nat.lt_of_lt_of_le below (Nat.le_of_lt_succ fuels)
      refine (ih (Nat.le_of_lt small) earlier rest).trans (congrArg some ?_)
      cases decEq rows[chainRow.toNat] key with
      | isFalse other =>
        simp only [among, other, false_or, decide_false, Bool.false_eq_true, if_false]
      | isTrue same =>
        have found : (rows.idxOf key).toUInt32 = chainRow := by
          rw [← same, represents.nodup.idxOf_getElem]
          exact UInt32.ofNat_toNat
        simp only [among, same, true_or, decide_true, if_true, found, ite_self]

/-! ## Entering a type -/

section Push

theorem elemsBefore_snoc (small : r ≤ rows.length) :
    elemsBefore (rows ++ [row]) r = elemsBefore rows r := by
  rw [elemsBefore, take_append_of_le_length small]
  rfl

theorem starts_snoc :
    ((List.range (rows ++ [row]).length).map fun r =>
      (elemsBefore (rows ++ [row]) r).length.toUInt32) =
    ((List.range rows.length).map fun r => (elemsBefore rows r).length.toUInt32) ++
      [(rows.flatMap (·.elems)).length.toUInt32] := by
  have old : (List.range rows.length).map (fun r =>
      (elemsBefore (rows ++ [row]) r).length.toUInt32) =
      (List.range rows.length).map fun r => (elemsBefore rows r).length.toUInt32 := by
    refine map_congr_left fun r mem => ?_
    rw [elemsBefore_snoc (Nat.le_of_lt (mem_range.mp mem))]
  rw [length_append, length_singleton, range_succ, map_append, old,
    map_singleton, elemsBefore_snoc (Nat.le_refl _), elemsBefore, take_length]

theorem hashAt_snoc (small : r < rows.length) : hashAt (rows ++ [row]) r = hashAt rows r := by
  rw [hashAt_eq small, hashAt_eq (by rw [length_append]; omega),
    getElem_append_left small]

theorem hashAt_last : hashAt (rows ++ [row]) rows.length = row.hash := by
  rw [hashAt_eq (by rw [length_append, length_singleton]; omega),
    getElem_concat_length rfl]

theorem stacked_push (represents : Represents table rows) (fits : Fits (rows ++ [row])) :
    Stacked (hashAt (rows ++ [row])) (rows.length + 1)
      (headOf (table.pushRow row.hash row.kind row.name row.elems row.regionId).2)
      (nextOf (table.pushRow row.hash row.kind row.name row.elems row.regionId).2) := by
  have count := fits.count
  rw [length_append, length_singleton] at count
  have length : table.typeRowKind.length = rows.length := by rw [represents.kinds, length_map]
  have chained := represents.chained
  refine represents.stacked.push (fun r => hashAt_snoc) ?_ (fun hash other => ?_)
    (fun r small => ?_) ?_
  · rw [hashAt_last, ← toRow_toUInt32 count, ← length]
    simp [headOf, typeRowChainHead, TypeTable.pushRow, indexTypeRow, Dict.put]
  · rw [hashAt_last] at other
    simp [headOf, typeRowChainHead, TypeTable.pushRow, indexTypeRow, Dict.put,
      other]
  · rw [nextOf, nextOf, getD_eq_getElem?_getD, getD_eq_getElem?_getD]
    simp only [TypeTable.pushRow, indexTypeRow]
    rw [getElem?_append_left (by omega)]
  · rw [nextOf, hashAt_last, getD_eq_getElem?_getD]
    simp only [TypeTable.pushRow, indexTypeRow]
    rw [getElem?_append_right (by omega), chained, Nat.sub_self]
    rfl

theorem pushRow_represents (represents : Represents table rows) (fits : Fits (rows ++ [row]))
    (new : row ∉ rows) (plain : row.kind ≠ .region → row.regionId = 0) :
    Represents (table.pushRow row.hash row.kind row.name row.elems row.regionId).2
      (rows ++ [row]) where
  kinds := by simp [TypeTable.pushRow, indexTypeRow, represents.kinds]
  names := by simp [TypeTable.pushRow, indexTypeRow, represents.names]
  starts := by
    rw [starts_snoc, ← represents.starts, ← represents.pool]
    rfl
  counts := by simp [TypeTable.pushRow, indexTypeRow, represents.counts]
  pool := by simp [TypeTable.pushRow, indexTypeRow, represents.pool]
  regionIds := by simp [TypeTable.pushRow, indexTypeRow, represents.regionIds]
  chained := by simp [TypeTable.pushRow, indexTypeRow, represents.chained]
  stacked := by
    rw [length_append, length_singleton]
    exact stacked_push represents fits
  nodup := by
    have entered := nodup_enter represents.nodup row
    rwa [enter, if_neg new] at entered
  plain other mem := by
    rcases mem_append.mp mem with old | own
    · exact represents.plain other old
    · rw [mem_singleton.mp own]
      exact plain

theorem pushRow_id (represents : Represents table rows) :
    (table.pushRow row.hash row.kind row.name row.elems row.regionId).1 =
      (rows.length + 1).toUInt32 := by
  simp [TypeTable.pushRow, indexTypeRow, represents.kinds]

def idOf (rows : List TypeRow) (row : TypeRow) : UInt32 := (rows.idxOf row + 1).toUInt32

theorem internWith_represents {isMatch : Nat → Option Bool} (represents : Represents table rows)
    (fits : Fits (enter rows row)) (plain : row.kind ≠ .region → row.regionId = 0)
    (decides : ∀ r (small : r < rows.length), isMatch r = some (decide (rows[r] = row))) :
    ∃ table', table.internWith row.hash isMatch row.kind row.name row.elems row.regionId =
        some (idOf (enter rows row) row, table') ∧ Represents table' (enter rows row) := by
  have before := fits.of_prefix (prefix_enter rows row)
  have found : table.selectRow isMatch (rows.length + 1) (table.typeRowChainHead row.hash)
      symbolIndexRowNone = _ :=
    selectRow_eq represents decides (Nat.le_refl _) (represents.stacked.head row.hash)
      (Nat.lt_succ_self _)
  rw [take_length] at found
  rw [internWith, represents.chained, found]
  cases Decidable.em (row ∈ rows) with
  | inl known =>
    have small := idxOf_lt_length_of_mem known
    have count := before.count
    have same : enter rows row = rows := if_pos known
    refine ⟨table, ?_, by rwa [same]⟩
    have id : (rows.idxOf row).toUInt32 + 1 = idOf rows row := (UInt32.ofNat_add _ 1).symm
    simp [known, toUInt32_ne_none (show rows.idxOf row + 1 < 2 ^ 32 by omega), same, id]
  | inr new =>
    have same : enter rows row = rows ++ [row] := if_neg new
    rw [same] at fits ⊢
    refine ⟨_, ?_, pushRow_represents represents fits new plain⟩
    have id : (table.pushRow row.hash row.kind row.name row.elems row.regionId).1 =
        idOf (rows ++ [row]) row := by
      rw [pushRow_id represents, idOf, idxOf_append_of_notMem new]
      simp
    simp [new, ← id]

end Push

/-! ## Runs -/

theorem call_represents (call : InternCall) (represents : Represents table rows)
    (fits : Fits (enter rows call.row)) :
    ∃ table', call.run table = some (idOf (enter rows call.row) call.row, table') ∧
      Represents table' (enter rows call.row) := by
  have before := fits.of_prefix (prefix_enter rows call.row)
  cases call with
  | internType kind name elems =>
    exact internWith_represents represents fits (fun _ => rfl)
      fun r small => typeRowMatches_eq represents before small
  | internTypeOne kind name elementId =>
    refine internWith_represents represents fits (fun _ => rfl) fun r small => ?_
    rw [typeRowMatchesOne_eq represents small, typeRowMatches_eq represents before small]
    rfl
  | internRegionType name regionId =>
    exact internWith_represents represents fits (fun other => (other rfl).elim)
      fun r small => typeRowMatchesScoped_eq represents before small

theorem idOf_of_prefix {more : List TypeRow} (isPrefix : rows <+: more) (mem : row ∈ rows) :
    idOf rows row = idOf more row := by
  rw [idOf, idOf, idxOf_of_prefix isPrefix mem]

def rowsAfter (rows : List TypeRow) (calls : List InternCall) : List TypeRow :=
  (calls.map InternCall.row).foldl enter rows

theorem run_represents (calls : List InternCall) (represents : Represents table rows)
    (fits : Fits (rowsAfter rows calls)) :
    ∃ table', InternCall.runAll table calls =
        some (calls.map fun call => idOf (rowsAfter rows calls) call.row, table') ∧
      Represents table' (rowsAfter rows calls) := by
  induction calls generalizing table rows with
  | nil => exact ⟨table, rfl, represents⟩
  | cons call rest ih =>
    have step : rowsAfter rows (call :: rest) = rowsAfter (enter rows call.row) rest := rfl
    rw [step] at fits ⊢
    have later : enter rows call.row <+: rowsAfter (enter rows call.row) rest :=
      prefix_foldl_enter _ _
    obtain ⟨middle, first, represents₁⟩ := call_represents call represents (fits.of_prefix later)
    obtain ⟨table', others, represents₂⟩ := ih represents₁ fits
    refine ⟨table', ?_, represents₂⟩
    have id := idOf_of_prefix later (mem_enter.mpr (.inr rfl))
    simp [InternCall.runAll, first, id, others]

/-! ## Reading back -/

theorem mapM_range {elems : List UInt32} {read : Nat → Option UInt32}
    (reads : ∀ i (small : i < elems.length), read i = some elems[i]) :
    (List.range elems.length).mapM read = some elems := by
  induction elems using List.reverseRecOn with
  | nil => rfl
  | append_singleton before last ih =>
    have earlier := ih fun i small => by
      rw [reads i (by rw [length_append]; omega), getElem_append_left small]
    have final : read before.length = some last := by
      rw [reads before.length (by simp), getElem_concat_length rfl]
    rw [length_append, length_singleton, range_succ, mapM_append, earlier]
    simp [final]

section ReadBack

theorem toNat_id (fits : Fits rows) (small : r < rows.length) :
    (r + 1).toUInt32.toNat = r + 1 := by
  have count := fits.count
  exact toNat_toUInt32 (by omega)

theorem id_inside (fits : Fits rows) (small : r < rows.length) {n : Nat}
    (length : n = rows.length) :
    ¬ ((r + 1).toUInt32 = 0 ∨ n < (r + 1).toUInt32.toNat) := by
  have id := toNat_id fits small
  rintro (zero | above)
  · rw [zero] at id
    cases id
  · omega

variable (represents : Represents table rows) (fits : Fits rows) (small : r < rows.length)

include represents fits small

theorem internedElemCount_eq :
    table.internedElemCount (r + 1).toUInt32 = rows[r].elems.length.toUInt32 := by
  have inside := id_inside fits small (n := table.typeRowElemCount.length)
    (by rw [represents.counts, length_map])
  rw [internedElemCount, if_neg inside, getD_eq_getElem?_getD, toNat_id fits small,
    Nat.add_sub_cancel, represents.count_at small, Option.getD_some]

theorem internedElem_eq {i : Nat} (inside : i < rows[r].elems.length) :
    table.internedElem (r + 1).toUInt32 i.toUInt32 = some rows[r].elems[i] := by
  have bound := fits.before small
  have position : i.toUInt32.toNat = i := toNat_toUInt32 (by omega)
  have start : (elemsBefore rows r).length.toUInt32.toNat = (elemsBefore rows r).length :=
    toNat_toUInt32 (by omega)
  have below : ¬ table.internedElemCount (r + 1).toUInt32 ≤ i.toUInt32 := by
    rw [internedElemCount_eq represents fits small, UInt32.le_iff_toNat_le, position,
      toNat_toUInt32 (by omega)]
    omega
  have sum : ((elemsBefore rows r).length.toUInt32 + i.toUInt32).toNat =
      (elemsBefore rows r).length + i := by
    rw [UInt32.toNat_add, start, position, Nat.mod_eq_of_lt (by omega)]
  have stored : table.typeElemPool[(elemsBefore rows r).length + i]? = some rows[r].elems[i] := by
    rw [← getElem?_drop, represents.pool_at small, getElem?_append_left inside,
      getElem?_eq_getElem inside]
  rw [internedElem, if_neg below, toNat_id fits small, Nat.add_sub_cancel,
    represents.start_at small]
  change table.typeElemPool[((elemsBefore rows r).length.toUInt32 + i.toUInt32).toNat]? = _
  rw [sum, stored]

theorem readBack_eq : table.readBack (r + 1).toUInt32 = some rows[r] := by
  have bound := fits.before small
  have kind : table.internedKind (r + 1).toUInt32 = rows[r].kind := by
    have inside := id_inside fits small (n := table.typeRowKind.length)
      (by rw [represents.kinds, length_map])
    rw [internedKind, if_neg inside, getD_eq_getElem?_getD, toNat_id fits small,
      Nat.add_sub_cancel, represents.kind_at small, Option.getD_some]
  have name : table.internedName (r + 1).toUInt32 = rows[r].name := by
    have inside := id_inside fits small (n := table.typeRowName.length)
      (by rw [represents.names, length_map])
    rw [internedName, if_neg inside, getD_eq_getElem?_getD, toNat_id fits small,
      Nat.add_sub_cancel, represents.name_at small, Option.getD_some]
  have elems : table.internedElems (r + 1).toUInt32 = some rows[r].elems := by
    rw [internedElems, internedElemCount_eq represents fits small,
      toNat_toUInt32 (by omega)]
    exact mapM_range fun i inside => internedElem_eq represents fits small inside
  rw [readBack, elems, kind, name, toNat_id fits small, Nat.add_sub_cancel,
    represents.region_at small]
  rfl

end ReadBack

/-! ## The whole table -/

theorem toNat_idOf (fits : Fits rows) (mem : row ∈ rows) :
    (idOf rows row).toNat = rows.idxOf row + 1 := by
  have small := idxOf_lt_length_of_mem mem
  exact toNat_id fits small

theorem idOf_inj {other : TypeRow} (fits : Fits rows) (mem : row ∈ rows) (mem' : other ∈ rows) :
    idOf rows row = idOf rows other ↔ row = other := by
  refine ⟨fun same => ?_, congrArg (idOf rows)⟩
  have numbers := congrArg UInt32.toNat same
  rw [toNat_idOf fits mem, toNat_idOf fits mem'] at numbers
  exact (idxOf_inj mem).mp (Nat.add_right_cancel numbers)

theorem readBack_idOf (represents : Represents table rows) (fits : Fits rows) (mem : row ∈ rows) :
    table.readBack (idOf rows row) = some row := by
  have small := idxOf_lt_length_of_mem mem
  rw [idOf, readBack_eq represents fits small, getElem_idxOf]

/-- Interning is canonical: ids are equal where types are, they are given out one after another, and
what was interned is read back at any later time. -/
theorem interning_canonical (calls : List InternCall)
    (fits : Fits (firsts (calls.map InternCall.row))) :
    ∃ ids table, InternCall.runAll .empty calls = some (ids, table) ∧ ids.length = calls.length ∧
      (∀ i j (small : i < calls.length) (small' : j < calls.length),
        ids[i]? = ids[j]? ↔ calls[i].row = calls[j].row) ∧
      firsts (ids.map UInt32.toNat) = List.range' 1 table.typeRowKind.length ∧
      ∀ k ≤ calls.length, ∃ table', InternCall.runAll .empty (calls.take k) =
          some (ids.take k, table') ∧ table'.Lockstep ∧
        ∀ i (small : i < calls.length), i < k → ∀ id, ids[i]? = some id →
          table'.readBack id = some calls[i].row := by
  have known {call : InternCall} (mem : call ∈ calls) :
      call.row ∈ firsts (calls.map InternCall.row) := mem_firsts.mpr (mem_map_of_mem mem)
  have id_at {i : Nat} (small : i < calls.length) :
      (calls.map fun call => idOf (rowsAfter [] calls) call.row)[i]? =
        some (idOf (rowsAfter [] calls) calls[i].row) := by
    rw [getElem?_map, getElem?_eq_getElem small]
    rfl
  obtain ⟨table, runs, represents⟩ := run_represents calls represents_empty fits
  refine ⟨_, table, runs, length_map _, fun i j small small' => ?_, ?_, fun k _ => ?_⟩
  · rw [id_at small, id_at small', Option.some_inj]
    exact idOf_inj fits (known (getElem_mem small)) (known (getElem_mem small'))
  · have numbers : (calls.map fun call => idOf (rowsAfter [] calls) call.row).map UInt32.toNat =
        (calls.map InternCall.row).map fun row =>
          (firsts (calls.map InternCall.row)).idxOf row + 1 := by
      rw [map_map, map_map]
      exact map_congr_left fun call mem => toNat_idOf fits (known mem)
    rw [numbers, firsts_numbers, represents.kinds, length_map]
    rfl
  · have early : rowsAfter [] (calls.take k) <+: rowsAfter [] calls := by
      have taken := prefix_firsts_take (calls.map InternCall.row) k
      rwa [← map_take] at taken
    have fits_ := fits.of_prefix early
    obtain ⟨table', runs', represents'⟩ := run_represents (calls.take k) represents_empty fits_
    have known' {call : InternCall} (mem : call ∈ calls.take k) :
        call.row ∈ rowsAfter [] (calls.take k) := mem_firsts.mpr (mem_map_of_mem mem)
    refine ⟨table', ?_, represents'.lockstep, fun i small before id is => ?_⟩
    · rw [runs', ← map_take]
      have same : (calls.take k).map (fun call => idOf (rowsAfter [] (calls.take k)) call.row) =
          (calls.take k).map fun call => idOf (rowsAfter [] calls) call.row :=
        map_congr_left fun call mem => idOf_of_prefix early (known' mem)
      rw [same]
    · have mem : calls[i] ∈ calls.take k := mem_take_iff_getElem.mpr ⟨i, by omega, rfl⟩
      obtain rfl := Option.some.inj ((id_at small).symm.trans is)
      rw [← idOf_of_prefix early (known' mem)]
      exact readBack_idOf represents' fits_ (known' mem)

/-! ## Calls within the bounds, and beyond -/

section Examples

/-- Two names for one type, one name for two regions, and a list that is not told by its count. -/
def sampleCalls : List InternCall :=
  [.internType .int [] [], .internTypeOne .ref [] 1, .internType .ref [] [1],
    .internRegionType (ascii "arena") ⟨3⟩, .internType .region (ascii "arena") [],
    .internRegionType (ascii "arena") ⟨0⟩, .internType .tuple [] [1, 2]]

theorem sampleCalls_canonical :
    ∃ ids table, InternCall.runAll .empty sampleCalls = some (ids, table) ∧
      ids.length = sampleCalls.length ∧
      (∀ i j (small : i < sampleCalls.length) (small' : j < sampleCalls.length),
        ids[i]? = ids[j]? ↔ sampleCalls[i].row = sampleCalls[j].row) ∧
      firsts (ids.map UInt32.toNat) = List.range' 1 table.typeRowKind.length ∧
      ∀ k ≤ sampleCalls.length, ∃ table', InternCall.runAll .empty (sampleCalls.take k) =
          some (ids.take k, table') ∧ table'.Lockstep ∧
        ∀ i (small : i < sampleCalls.length), i < k → ∀ id, ids[i]? = some id →
          table'.readBack id = some sampleCalls[i].row :=
  interning_canonical sampleCalls ⟨by decide +kernel, by decide +kernel⟩

def oneRow : TypeTable := (TypeTable.empty.pushRow (typeRowHash [] []) .int [] [] 0).2

def longRow (elems : List UInt32) : TypeTable :=
  (oneRow.pushRow (typeRowHash [] elems) .tuple [] elems 0).2

theorem chainHead_oneRow (hash : UInt64) : oneRow.typeRowChainHead hash = symbolIndexRowNone ∨
    oneRow.typeRowChainHead hash = 0 := by
  simp only [oneRow, TypeTable.pushRow, indexTypeRow, typeRowChainHead,
    Dict.put, TypeTable.empty]
  split
  · exact .inr rfl
  · exact .inl rfl

theorem select_oneRow {table : TypeTable} {head : UInt32} {isMatch : Nat → Option Bool} (fuel : Nat)
    (is : head = symbolIndexRowNone ∨ head = 0) (other : isMatch 0 = some false)
    (next : table.typeRowNext[0]? = some symbolIndexRowNone) :
    table.selectRow isMatch (fuel + 2) head symbolIndexRowNone = some symbolIndexRowNone := by
  have zero : (0 : UInt32) ≠ symbolIndexRowNone := by decide
  rcases is with rfl | rfl
  · simp [selectRow]
  · simp [selectRow, zero, other, next]

theorem run_longRow {elems : List UInt32} (long : elems.length = 4294967296) :
    ∃ table, InternCall.runAll .empty
      [.internType .int [] [], .internType .tuple [] elems, .internType .tuple [] elems] =
        some ([1, 2, 3], table) := by
  have first : InternCall.run .empty (.internType .int [] []) = some (1, oneRow) := rfl
  have second : InternCall.run oneRow (.internType .tuple [] elems) = some (2, longRow elems) := by
    have away : oneRow.typeRowMatches 0 .tuple [] elems = some false := rfl
    have walked : oneRow.selectRow (oneRow.typeRowMatches · .tuple [] elems)
        (oneRow.typeRowNext.length + 1) (oneRow.typeRowChainHead (typeRowHash [] elems))
        symbolIndexRowNone = some symbolIndexRowNone :=
      select_oneRow 0 (chainHead_oneRow _) away rfl
    rw [InternCall.run, TypeTable.internType, internWith, walked]
    rfl
  have third : ∃ table, InternCall.run (longRow elems) (.internType .tuple [] elems) =
      some (3, table) := by
    have head : (longRow elems).typeRowChainHead (typeRowHash [] elems) = 1 := by
      simp [longRow, TypeTable.pushRow, indexTypeRow, typeRowChainHead,
        Dict.put, oneRow, TypeTable.empty]
    have newest : (longRow elems).typeRowMatches 1 .tuple [] elems = some false := by
      simp [typeRowMatches, longRow, TypeTable.pushRow, indexTypeRow, oneRow,
        TypeTable.empty, regionIsPlain, long]
    have oldest : (longRow elems).typeRowMatches 0 .tuple [] elems = some false := rfl
    have next : (longRow elems).typeRowNext[1]? =
        some (oneRow.typeRowChainHead (typeRowHash [] elems)) := rfl
    have rest : (longRow elems).selectRow ((longRow elems).typeRowMatches · .tuple [] elems) 2
        (oneRow.typeRowChainHead (typeRowHash [] elems)) symbolIndexRowNone =
          some symbolIndexRowNone :=
      select_oneRow 0 (chainHead_oneRow _) oldest rfl
    have walked : (longRow elems).selectRow ((longRow elems).typeRowMatches · .tuple [] elems)
        ((longRow elems).typeRowNext.length + 1)
        ((longRow elems).typeRowChainHead (typeRowHash [] elems)) symbolIndexRowNone =
          some symbolIndexRowNone := by
      have one : (1 : UInt32) ≠ symbolIndexRowNone := by decide
      have fuel : (longRow elems).typeRowNext.length + 1 = 3 := rfl
      have number : (1 : UInt32).toNat = 1 := rfl
      rw [head, fuel, selectRow, if_neg one, number, newest, next]
      exact rest
    rw [InternCall.run, TypeTable.internType, internWith, walked]
    exact ⟨_, rfl⟩
  obtain ⟨table, third⟩ := third
  exact ⟨table, by simp [InternCall.runAll, first, second, third]⟩

theorem interning_of_long_lists : ∃ ids table, InternCall.runAll .empty
      [.internType .int [] [], .internType .tuple [] (List.replicate 4294967296 1),
        .internType .tuple [] (List.replicate 4294967296 1)] = some (ids, table) ∧
    ids[1]? ≠ ids[2]? := by
  obtain ⟨table, run⟩ := run_longRow length_replicate
  exact ⟨_, table, run, by decide⟩

end Examples

end Elisa.Semantic
