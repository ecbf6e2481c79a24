import Elisa.Bytes
import Elisa.Lib.BottomUpMerge
import Elisa.Lib.SortedLookup
import Mathlib.Data.List.Lex
import Mathlib.Data.Prod.Lex

/-!
# Sorted rows of view origins

The rows of view origins are a flat list of texts, five to a row, found by their first two texts
(`view_return_origins_sorted.elisa`).  `vroSortRows` makes a copy of the complete rows that is
headed by a marker row and sorted by the two texts.  On such a copy a scan starts where a binary
search ends (`vroScanStart`) and stops behind the last row of the key (`vroScanLive`); on other rows
it goes over all of them.  All reads are checked.  A scan of the copy visits the complete rows of
the key that the original has, in their order there (`vroSortRows_scan`).
-/

namespace Elisa.Semantic.ViewOrigins

open Elisa.Lib List

/-! ## The rows -/

structure Row where
  first : Bytes
  second : Bytes
  position : Bytes
  mode : Bytes
  field : Bytes
  deriving DecidableEq

def sortedMarker : Bytes := ascii "[vro-sorted]"

def vroRowsSorted (rows : List Bytes) : Bool :=
  decide (5 ≤ rows.length) && rows[0]? == some sortedMarker

def vroTextCompare : Bytes → Bytes → Int
  | [], [] => 0
  | [], _ :: _ => -1
  | _ :: _, [] => 1
  | a :: left, b :: right =>
    if a < b then -1
    else if b < a then 1
    else vroTextCompare left right

def vroKeyCompare (rows : List Bytes) (row : Nat) (first second : Bytes) : Option Int := do
  let own ← rows[row]?
  if vroTextCompare own first ≠ 0 then return vroTextCompare own first
  let other ← rows[row + 1]?
  return vroTextCompare other second

def vroRowsLess (rows : List Bytes) (left right : Nat) : Option Bool := do
  let first ← rows[right]?
  let second ← rows[right + 1]?
  let order ← vroKeyCompare rows left first second
  return decide (order < 0)

def vroScanStart (rows : List Bytes) (first second : Bytes) : Option Nat :=
  if !vroRowsSorted rows then some 0
  else do
    let low ← lowerBound (fun middle => do
      let order ← vroKeyCompare rows (middle * 5) first second
      return decide (order < 0)) 1 (rows.length / 5)
    return low * 5

def vroScanLive (rows : List Bytes) (row : Nat) (first second : Bytes) : Option Bool :=
  if rows.length ≤ row + 4 then some false
  else if !vroRowsSorted rows then some true
  else do
    let own ← rows[row]?
    if own ≠ first then return false
    let other ← rows[row + 1]?
    return other == second

def rowOffsets (rows : List Bytes) (row : Nat) : List Nat :=
  if row + 4 < rows.length then row :: rowOffsets rows (row + 5) else []
termination_by rows.length - row

def rowAt? (rows : List Bytes) (row : Nat) : Option Row := do
  let first ← rows[row]?
  let second ← rows[row + 1]?
  let position ← rows[row + 2]?
  let mode ← rows[row + 3]?
  let field ← rows[row + 4]?
  return { first, second, position, mode, field }

def Row.entries (row : Row) : List Bytes :=
  [row.first, row.second, row.position, row.mode, row.field]

def pushRows (rows : List Bytes) : List Nat → List Bytes → Option (List Bytes)
  | [], sorted => some sorted
  | offset :: order, sorted => do
    let row ← rowAt? rows offset
    pushRows rows order (sorted ++ row.entries)

/-- The marker row and the complete rows, stably sorted by their first two entries. -/
def vroSortRows (rows : List Bytes) : Option (List Bytes) := do
  let order := rowOffsets rows 0
  let scratch := rowOffsets rows 0
  let order ← BottomUpMerge.mergeRounds (vroRowsLess rows) order.length 1 Nat.one_pos order scratch
  pushRows rows order [sortedMarker, [], [], [], []]

variable {rows : List Bytes} {first second : Bytes}

theorem lt_of_live {row : Nat} (live : vroScanLive rows row first second = some true) :
    row + 4 < rows.length := by
  rw [vroScanLive] at live
  rcases Nat.lt_or_ge (row + 4) rows.length with h | h
  · exact h
  · rw [if_pos h] at live
    cases live

def vroScan (rows : List Bytes) (first second : Bytes) (row : Nat) : Option (List Row) :=
  match live : vroScanLive rows row first second with
  | none => none
  | some false => some []
  | some true => do
    let own ← rowAt? rows row
    let rest ← vroScan rows first second (row + 5)
    return own :: rest
termination_by rows.length - row
decreasing_by
  have := lt_of_live live
  omega

/-! ## The order of the keys -/

def keyOf (first second : Bytes) : List Nat ×ₗ List Nat :=
  toLex (first.map UInt8.toNat, second.map UInt8.toNat)

theorem keyOf_inj {first' second' : Bytes} :
    keyOf first second = keyOf first' second' ↔ first = first' ∧ second = second' := by
  have injective : Function.Injective (List.map UInt8.toNat) :=
    map_injective_iff.mpr fun _ _ => UInt8.toNat.inj
  rw [keyOf, keyOf, EmbeddingLike.apply_eq_iff_eq, Prod.mk.injEq, injective.eq_iff,
    injective.eq_iff]

theorem vroTextCompare_spec (left right : Bytes) :
    (vroTextCompare left right < 0 ↔ left.map UInt8.toNat < right.map UInt8.toNat) ∧
      (vroTextCompare left right = 0 ↔ left = right) := by
  fun_induction vroTextCompare left right with
  | case1 => simp
  | case2 => simp
  | case3 => simp
  | case4 a left b right h =>
    have hne : a ≠ b := fun e => by simp [e] at h
    simp [UInt8.lt_iff_toNat_lt.mp h, hne, cons_lt_cons_iff]
  | case5 a left b right h h' =>
    have hne : a ≠ b := fun e => by simp [e] at h'
    have hlt := UInt8.lt_iff_toNat_lt.mp h'
    simp [hne, cons_lt_cons_iff, Nat.lt_asymm hlt, Nat.ne_of_gt hlt]
  | case6 a left b right h h' ih =>
    have heq : a = b := by
      apply UInt8.toNat.inj
      rw [UInt8.lt_iff_toNat_lt] at h h'
      omega
    simp [heq, ih]

def Row.key (row : Row) : List Nat ×ₗ List Nat := keyOf row.first row.second

variable {row : Row} {offset : Nat}

theorem rowAt?_eq_some (h : rowAt? rows offset = some row) :
    rows[offset]? = some row.first ∧ rows[offset + 1]? = some row.second ∧
      offset + 4 < rows.length := by
  simp only [rowAt?, Option.bind_eq_bind, Option.bind_eq_some_iff, Option.pure_def,
    Option.some.injEq] at h
  obtain ⟨first, hfirst, second, hsecond, position, -, mode, -, field, hfield, rfl⟩ := h
  exact ⟨hfirst, hsecond, (List.getElem?_eq_some_iff.mp hfield).1⟩

theorem vroKeyCompare_spec (h : rowAt? rows offset = some row) (first second : Bytes) :
    ∃ order, vroKeyCompare rows offset first second = some order ∧
      (order < 0 ↔ row.key < keyOf first second) := by
  obtain ⟨hfirst, hsecond, -⟩ := rowAt?_eq_some h
  have hlex : row.key < keyOf first second ↔
      row.first.map UInt8.toNat < first.map UInt8.toNat ∨
        row.first = first ∧ row.second.map UInt8.toNat < second.map UInt8.toNat := by
    rw [Row.key, keyOf, keyOf, Prod.Lex.toLex_lt_toLex,
      (map_injective_iff.mpr fun _ _ => UInt8.toNat.inj).eq_iff]
  obtain ⟨hlt, heq⟩ := vroTextCompare_spec row.first first
  rw [hlex, ← hlt, ← heq, ← (vroTextCompare_spec row.second second).1]
  simp only [vroKeyCompare, hfirst, hsecond, Option.bind_eq_bind, Option.bind_some,
    Option.pure_def]
  cases h0 : decide (vroTextCompare row.first first = 0) with
  | true =>
    rw [decide_eq_true_eq] at h0
    exact ⟨_, by rw [if_neg (not_not.mpr h0)], by simp [h0]⟩
  | false =>
    rw [decide_eq_false_iff_not] at h0
    exact ⟨_, by rw [if_pos h0], by simp [h0]⟩

theorem vroRowsLess_eq {left right : Nat} {a b : Row} (ha : rowAt? rows left = some a)
    (hb : rowAt? rows right = some b) :
    vroRowsLess rows left right = some (decide (a.key < b.key)) := by
  obtain ⟨hfirst, hsecond, -⟩ := rowAt?_eq_some hb
  obtain ⟨order, horder, hlt⟩ := vroKeyCompare_spec ha b.first b.second
  simp only [vroRowsLess, hfirst, hsecond, horder, Option.bind_eq_bind, Option.bind_some,
    Option.pure_def, hlt]
  rfl

/-! ## Sorting -/

def completeRows : List Bytes → List Row
  | first :: second :: position :: mode :: field :: rest =>
    { first, second, position, mode, field } :: completeRows rest
  | _ => []

def flat (all : List Row) : List Bytes := all.flatMap Row.entries

def rowLe (a b : Row) : Bool := decide (a.key ≤ b.key)

theorem completeRows_short (h : rows.length < 5) : completeRows rows = [] :=
  match rows, h with
  | [], _ | [_], _ | [_, _], _ | [_, _, _], _ | [_, _, _, _], _ => rfl

theorem completeRows_drop {row : Nat} (h : row + 4 < rows.length) :
    ∃ own, rowAt? rows row = some own ∧
      completeRows (rows.drop row) = own :: completeRows (rows.drop (row + 5)) := by
  refine ⟨⟨rows[row], rows[row + 1], rows[row + 2], rows[row + 3], rows[row + 4]⟩, ?_, ?_⟩
  · simp [rowAt?, getElem?_eq_getElem (show row < rows.length by omega),
      getElem?_eq_getElem (show row + 1 < rows.length by omega),
      getElem?_eq_getElem (show row + 2 < rows.length by omega),
      getElem?_eq_getElem (show row + 3 < rows.length by omega),
      getElem?_eq_getElem h]
  · rw [drop_eq_getElem_cons (i := row) (by omega),
      drop_eq_getElem_cons (i := row + 1) (by omega),
      drop_eq_getElem_cons (i := row + 1 + 1) (by omega),
      drop_eq_getElem_cons (i := row + 1 + 1 + 1) (by omega),
      drop_eq_getElem_cons (i := row + 1 + 1 + 1 + 1) (by omega), completeRows]

theorem map_rowOffsets (rows : List Bytes) (start : Nat) :
    (rowOffsets rows start).map (rowAt? rows) = (completeRows (rows.drop start)).map some := by
  fun_induction rowOffsets rows start with
  | case1 start h ih =>
    obtain ⟨own, hown, hrows⟩ := completeRows_drop h
    rw [map_cons, ih, hown, hrows, map_cons]
  | case2 start h =>
    rw [completeRows_short (by rw [length_drop]; omega)]
    rfl

theorem rowAt?_of_mem (h : offset ∈ rowOffsets rows 0) : ∃ row, rowAt? rows offset = some row := by
  have hmem : rowAt? rows offset ∈ (rowOffsets rows 0).map (rowAt? rows) := mem_map_of_mem h
  rw [map_rowOffsets, mem_map] at hmem
  obtain ⟨row, -, hrow⟩ := hmem
  exact ⟨row, hrow.symm⟩

theorem filterMap_rowOffsets (rows : List Bytes) :
    (rowOffsets rows 0).filterMap (rowAt? rows) = completeRows rows := by
  have := congrArg (List.filterMap id) (map_rowOffsets rows 0)
  simpa [filterMap_map, Function.comp_def] using this

def offsetKey (rows : List Bytes) (offset : Nat) : List Nat ×ₗ List Nat :=
  (rowAt? rows offset).elim (keyOf [] []) Row.key

theorem offsetKey_eq (h : rowAt? rows offset = some row) : offsetKey rows offset = row.key := by
  rw [offsetKey, h]
  rfl

theorem pushRows_eq {order : List Nat}
    (h : ∀ offset ∈ order, ∃ row, rowAt? rows offset = some row) (sorted : List Bytes) :
    pushRows rows order sorted = some (sorted ++ flat (order.filterMap (rowAt? rows))) := by
  induction order generalizing sorted with
  | nil => simp [pushRows, flat]
  | cons offset order ih =>
    obtain ⟨row, hrow⟩ := h offset (.head _)
    rw [pushRows, hrow, filterMap_cons_some hrow]
    simp only [Option.bind_eq_bind, Option.bind_some]
    rw [ih fun offset hmem => h offset (.tail _ hmem), append_assoc]
    rfl

def markerRow : Row := ⟨sortedMarker, [], [], [], []⟩

theorem vroSortRows_sorts (rows : List Bytes) :
    ∃ data, vroSortRows rows = some (flat (markerRow :: data)) ∧
      BottomUpMerge.Sorts rowLe (completeRows rows) data := by
  let le (a b : Nat) : Bool := decide (offsetKey rows a ≤ offsetKey rows b)
  have trans : ∀ a b c, le a b → le b c → le a c := by
    intro a b c hab hbc
    exact decide_eq_true (le_trans (of_decide_eq_true hab) (of_decide_eq_true hbc))
  have total : ∀ a b, le a b || le b a := by
    intro a b
    rw [Bool.or_eq_true]
    exact (le_total _ _).imp decide_eq_true decide_eq_true
  have compares : ∀ a ∈ rowOffsets rows 0, ∀ b ∈ rowOffsets rows 0,
      vroRowsLess rows a b = some (!le b a) := by
    intro a ha b hb
    obtain ⟨x, hx⟩ := rowAt?_of_mem ha
    obtain ⟨y, hy⟩ := rowAt?_of_mem hb
    rw [vroRowsLess_eq hx hy]
    simp only [le, offsetKey_eq hx, offsetKey_eq hy]
    rw [← decide_not, decide_eq_decide.mpr not_le]
  obtain ⟨order, horder, sorts⟩ := BottomUpMerge.mergeRounds_sorts trans total compares
    (Eq.refl (rowOffsets rows 0).length)
  have hread : ∀ offset ∈ order, ∃ row, rowAt? rows offset = some row :=
    fun offset hmem => rowAt?_of_mem (sorts.perm.mem_iff.mp hmem)
  refine ⟨order.filterMap (rowAt? rows), ?_, ?_⟩
  · rw [vroSortRows, horder]
    exact pushRows_eq hread _
  · rw [← filterMap_rowOffsets]
    refine sorts.filterMap (rowAt? rows) fun a b x y hx hy => ?_
    simp only [le, rowLe, offsetKey_eq hx, offsetKey_eq hy]

/-! ## Scanning -/

theorem flat_cons (row : Row) (all : List Row) : flat (row :: all) =
    row.first :: row.second :: row.position :: row.mode :: row.field :: flat all := rfl

@[simp] theorem length_flat (all : List Row) : (flat all).length = 5 * all.length := by
  induction all with
  | nil => rfl
  | cons row all ih =>
    rw [flat_cons]
    simp only [length_cons, ih]
    omega

@[simp] theorem completeRows_flat (all : List Row) : completeRows (flat all) = all := by
  induction all with
  | nil => rfl
  | cons row all ih => rw [flat_cons, completeRows, ih]

theorem rowAt?_flat {all : List Row} {index : Nat} (h : index < all.length) :
    rowAt? (flat all) (index * 5) = some all[index] := by
  induction all generalizing index with
  | nil => simp at h
  | cons row all ih =>
    cases index with
    | zero => simp [flat_cons, rowAt?]
    | succ index =>
      have := ih (Nat.lt_of_succ_lt_succ h)
      rw [Nat.succ_mul, flat_cons]
      simpa [rowAt?] using this

def Row.has (first second : Bytes) (row : Row) : Bool :=
  row.first == first && row.second == second

theorem Row.has_iff : row.has first second ↔ row.key = keyOf first second := by
  rw [Row.has, Row.key, keyOf_inj, Bool.and_eq_true, beq_iff_eq, beq_iff_eq]

theorem sorted_flat (data : List Row) : vroRowsSorted (flat (markerRow :: data)) = true := by
  simp [vroRowsSorted, flat_cons, markerRow]

theorem vroScanLive_flat {data : List Row} {index : Nat} (h : index < (markerRow :: data).length)
    (first second : Bytes) :
    vroScanLive (flat (markerRow :: data)) (index * 5) first second =
      some ((markerRow :: data)[index].has first second) := by
  obtain ⟨hfirst, hsecond, hlength⟩ := rowAt?_eq_some (rowAt?_flat h)
  rw [vroScanLive, if_neg (by omega), sorted_flat, if_neg (by simp), hfirst, hsecond]
  generalize (markerRow :: data)[index] = row
  cases hown : decide (row.first = first) with
  | true => simp_all [Row.has]
  | false => simp_all [Row.has]

theorem vroScanLive_end {row : Nat} (h : rows.length ≤ row + 4) (first second : Bytes) :
    vroScanLive rows row first second = some false := if_pos h

theorem vroScan_flat (data : List Row) (first second : Bytes) (index : Nat) :
    vroScan (flat (markerRow :: data)) first second (index * 5) =
      some (((markerRow :: data).drop index).takeWhile (Row.has first second)) := by
  induction h : (markerRow :: data).length - index generalizing index with
  | zero =>
    have hend : (flat (markerRow :: data)).length ≤ index * 5 + 4 := by
      rw [length_flat]
      omega
    have hlive := vroScanLive_end hend first second
    rw [vroScan, drop_eq_nil_of_le (by omega)]
    split
    next h' => rw [h'] at hlive; cases hlive
    next h' => rfl
    next h' => rw [h'] at hlive; cases hlive
  | succ rest ih =>
    have hindex : index < (markerRow :: data).length := by omega
    have hlive := vroScanLive_flat hindex first second
    rw [drop_eq_getElem_cons hindex, vroScan]
    cases hhas : (markerRow :: data)[index].has first second with
    | false =>
      rw [takeWhile_cons_of_neg (by simp [hhas])]
      split
      next h' => rw [h'] at hlive; cases hlive
      next h' => rfl
      next h' => rw [h', hhas] at hlive; cases hlive
    | true =>
      rw [takeWhile_cons_of_pos hhas]
      split
      next h' => rw [h'] at hlive; cases hlive
      next h' => rw [h', hhas] at hlive; cases hlive
      rename_i h'
      have := ih (index + 1) (by omega)
      rw [Nat.succ_mul] at this
      rw [rowAt?_flat hindex, this]
      rfl

theorem vroScanStart_flat {data : List Row} (sorted : data.Pairwise fun a b => rowLe a b)
    (first second : Bytes) :
    ∃ place, vroScanStart (flat (markerRow :: data)) first second = some ((place + 1) * 5) ∧
      (∀ row ∈ data.take place, row.key < keyOf first second) ∧
      ∀ row ∈ data.drop place, keyOf first second ≤ row.key := by
  have hcount : (flat (markerRow :: data)).length / 5 = (markerRow :: data).length := by
    rw [length_flat]
    omega
  -- Whether a row stands before the key.
  let stands (index : Nat) : Prop := ∃ h : index < (markerRow :: data).length,
    (markerRow :: data)[index].key < keyOf first second
  have := Classical.decPred stands
  have reads : ∀ index, 1 ≤ index → index < (markerRow :: data).length →
      (do
        let order ← vroKeyCompare (flat (markerRow :: data)) (index * 5) first second
        return decide (order < 0)) = some (decide (stands index)) := by
    intro index _ hindex
    obtain ⟨order, horder, hlt⟩ := vroKeyCompare_spec (rowAt?_flat hindex) first second
    simp only [horder, Option.bind_eq_bind, Option.bind_some, Option.pure_def, hlt]
    congr 1
    exact decide_eq_decide.mpr ⟨fun h => ⟨hindex, h⟩, fun ⟨_, h⟩ => h⟩
  have falls : ∀ i j, 1 ≤ i → i ≤ j → j < (markerRow :: data).length → stands j → stands i := by
    rintro (_ | i) (_ | j) hi hij hj ⟨_, hlt⟩
    · omega
    · omega
    · omega
    refine ⟨by omega, lt_of_le_of_lt ?_ hlt⟩
    rcases Nat.eq_or_lt_of_le hij with heq | hlt'
    · obtain rfl : i = j := by omega
      exact le_refl _
    · exact of_decide_eq_true (pairwise_iff_getElem.mp sorted i j _ _ (by omega))
  obtain ⟨low, hlow, hle, hge, below, above⟩ :=
    lowerBound_spec (show 1 ≤ (markerRow :: data).length by simp) reads falls
  obtain ⟨place, rfl⟩ : ∃ place, low = place + 1 := ⟨low - 1, by omega⟩
  refine ⟨place, ?_, ?_, ?_⟩
  · rw [vroScanStart, sorted_flat, if_neg (by simp), hcount, hlow]
    rfl
  · intro row hrow
    obtain ⟨index, hindex, rfl⟩ := mem_iff_getElem.mp hrow
    rw [length_take] at hindex
    obtain ⟨_, hlt⟩ := below (index + 1) (by omega) (by omega)
    rw [getElem_take]
    exact hlt
  · intro row hrow
    obtain ⟨index, hindex, rfl⟩ := mem_iff_getElem.mp hrow
    rw [length_drop] at hindex
    have hlength : place + index + 1 < (markerRow :: data).length := by
      rw [length_cons]
      omega
    rw [getElem_drop]
    refine not_lt.mp fun hlt => above (place + index + 1) (by omega) hlength ⟨hlength, hlt⟩

theorem vroScan_unsorted (unsorted : vroRowsSorted rows = false) (first second : Bytes)
    (row : Nat) : vroScan rows first second row = some (completeRows (rows.drop row)) := by
  have hlive (row : Nat) :
      vroScanLive rows row first second = some (decide (row + 4 < rows.length)) := by
    rw [vroScanLive, unsorted]
    rcases Nat.lt_or_ge (row + 4) rows.length with h | h
    · simp [h]
    · simp [h]
  fun_induction vroScan rows first second row with
  | case1 row h =>
    rw [hlive] at h
    cases h
  | case2 row h =>
    rw [hlive, Option.some.injEq, decide_eq_false_iff_not] at h
    rw [completeRows_short (by rw [length_drop]; omega)]
  | case3 row h ih =>
    obtain ⟨own, hown, hrows⟩ := completeRows_drop (lt_of_live h)
    rw [hown, hrows]
    simp only [Option.bind_eq_bind, Option.bind_some, ih]
    rfl

/-- The sorted copy is the marker row and a stable sort of the complete rows.  A scan for a key
visits the complete rows of the original that have the key, in their order; these are the ones that
a consumer acts on among those that a scan of the original visits. -/
theorem vroSortRows_scan (rows : List Bytes) :
    ∃ sorted data, vroSortRows rows = some sorted ∧ completeRows sorted = markerRow :: data ∧
      sorted.length = 5 * (data.length + 1) ∧
      BottomUpMerge.Sorts rowLe (completeRows rows) data ∧
      ∀ first second,
        (vroScanStart sorted first second).bind (vroScan sorted first second) =
          some ((completeRows rows).filter (Row.has first second)) ∧
        (vroRowsSorted rows = false →
          (vroScanStart rows first second).bind (vroScan rows first second) =
            some (completeRows rows)) := by
  obtain ⟨data, hsort, sorts⟩ := vroSortRows_sorts rows
  refine ⟨_, data, hsort, completeRows_flat _, length_flat _, sorts, fun first second => ⟨?_, ?_⟩⟩
  · obtain ⟨place, hstart, before, behind⟩ := vroScanStart_flat sorts.pairwise first second
    have hfilter : (completeRows rows).filter (Row.has first second) =
        data.filter (Row.has first second) := by
      refine (sorts.stable _ fun a b ha hb => ?_).symm
      rw [Row.has_iff] at ha hb
      exact decide_eq_true (by rw [ha, hb])
    have hnone : (data.take place).filter (Row.has first second) = [] := by
      rw [filter_eq_nil_iff]
      intro row hrow hhas
      exact (before row hrow).ne (Row.has_iff.mp hhas)
    have hrest : (data.drop place).filter (Row.has first second) =
        (data.drop place).takeWhile (Row.has first second) := by
      refine filter_eq_takeWhile (sorts.pairwise.sublist (drop_sublist _ _))
        fun a ha b _ hab hno => ?_
      rw [Bool.eq_false_iff] at hno ⊢
      intro hhas
      have hkey := Row.has_iff.mp hhas
      exact hno (Row.has_iff.mpr (le_antisymm (hkey ▸ of_decide_eq_true hab) (behind a ha)))
    rw [hstart, Option.bind_some, vroScan_flat, drop_succ_cons, ← hrest, hfilter]
    conv => rhs; rw [← take_append_drop place data, filter_append, hnone]
    rfl
  · intro unsorted
    rw [vroScanStart, unsorted]
    exact vroScan_unsorted unsorted first second 0

end Elisa.Semantic.ViewOrigins
