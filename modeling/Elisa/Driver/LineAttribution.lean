import Elisa.Driver.Includes
import Elisa.Driver.LineMapRows

/-!
# Asking a line map

Besides `driverParseLineMap` two readers use the map of an expansion.  The lexer scans the text for
every question (`sourceOriginalLineFromMap`).  `retainLineMap` reads it once, checks every path
against the captured include graph, and answers by binary search (`pathForLine`).

Both agree with `SparseMap.at?` where flat lines do not fall (`sourceOriginalLineFromMap_render`,
`pathForLine_render`); the driver's reader wants them to rise (`rowsOf_render`).
-/

namespace Elisa.Driver

open Elisa.Backend List

/-! ## The lexer -/

/-- The digits up to a colon or the end of the row, in 32 bits. -/
def lexScan : (value : Nat) → Bytes → Option (Nat × Bytes)
  | value, [] => some (value, [])
  | value, byte :: rest =>
    if byte = 58 then some (value, byte :: rest)
    else if byte < 48 ∨ byte > 57 then none
    else lexScan ((value * 10 + (byte - 48).toNat) % 2 ^ 32) rest

/-- The loop over the rows: the best row so far, or nothing if the map is malformed. -/
def lexRows (flatLine : Nat) : (fuel : Nat) → Bytes → (bestFlat bestOrig : Nat) → Option (Nat × Nat)
  | 0, _, bestFlat, bestOrig => some (bestFlat, bestOrig)
  | _ + 1, [], bestFlat, bestOrig => some (bestFlat, bestOrig)
  | fuel + 1, byte :: rest, bestFlat, bestOrig =>
    let text := byte :: rest
    let line := text.takeWhile (· != 10)
    match lexScan 0 line with
    | none => none
    | some (_, []) => none
    | some (entryFlat, _ :: second) =>
      match lexScan 0 second with
      | none => none
      | some (entryOrig, _) =>
        if entryFlat ≤ flatLine ∧ entryFlat ≥ bestFlat then
          lexRows flatLine fuel (text.drop (line.length + 1)) entryFlat entryOrig
        else lexRows flatLine fuel (text.drop (line.length + 1)) bestFlat bestOrig

def sourceOriginalLineFromMap (map : Bytes) (flatLine : Nat) : Nat :=
  match lexRows flatLine map.length map 0 0 with
  | none => flatLine
  | some (bestFlat, bestOrig) =>
    if bestFlat = 0 then flatLine else (bestOrig + (flatLine - bestFlat)) % 2 ^ 32

/-! ## The retained map -/

structure AttributionEntry where
  flatLine : Nat
  originalLine : Nat
  pathStart : Nat
  pathLength : Nat
deriving DecidableEq

structure Attribution where
  enabled : Bool
  valid : Bool
  bytes : Bytes
  entries : List AttributionEntry
deriving DecidableEq

structure PathResult where
  valid : Bool
  pathStart : Nat
  pathLength : Nat
  originalLine : Nat
deriving DecidableEq

def pathHash (bytes : Bytes) (start length : Nat) : UInt64 :=
  ((bytes.drop start).take length).foldl
    (fun value byte => (value ^^^ byte.toUInt64) * 1099511628211) 1469598103934665603

def pathEqual (left : Bytes) (leftStart : Nat) (right : Bytes) (rightStart length : Nat) : Bool :=
  (left.drop leftStart).take length == (right.drop rightStart).take length

/-- Look for a path from a slot on: the slot where the search ends, whether the path is
there, and the work so far; nothing if that is too much. -/
def probe (identity : Capture) (slots : List Nat) (bytes : Bytes) (start length : Nat) :
    (fuel slot work : Nat) → Option (Nat × Bool × Nat)
  | 0, _, _ => none
  | fuel + 1, slot, work =>
    let occupant := slots.getD slot noVisit
    if occupant = noVisit then some (slot, false, work)
    else
      let work := work + 1 + length
      if work > maxBytes * 4 then none
      else
        let prior := identity.paths.getD occupant ⟨0, 0, false⟩
        if prior.length == length && pathEqual identity.bytes prior.start bytes start length then
          some (slot, true, work)
        else probe identity slots bytes start length fuel ((slot + 1) % slots.length) work

def slotOf (bytes : Bytes) (start length slotCount : Nat) : Nat :=
  (pathHash bytes start length).toNat % slotCount

/-- The least power of two from `slotCount` on that is at least twice the number of paths. -/
def slotCountLoop (paths : Nat) : (fuel slotCount : Nat) → Nat
  | 0, slotCount => slotCount
  | fuel + 1, slotCount =>
    if slotCount < paths * 2 then slotCountLoop paths fuel (slotCount * 2) else slotCount

def fillSlots (identity : Capture) :
    (index : Nat) → List PathRecord → (slots : List Nat) → (work : Nat) → Option (List Nat × Nat)
  | _, [], slots, work => some (slots, work)
  | index, path :: paths, slots, work =>
    match probe identity slots identity.bytes path.start path.length (slots.length + 1)
        (slotOf identity.bytes path.start path.length slots.length) work with
    | none => none
    | some (slot, _, work) => fillSlots identity (index + 1) paths (slots.set slot index) work

/-- A number of at most ten digits up to a colon, with the number of its digits. -/
def retainScan : (value digits : Nat) → Bytes → Option (Nat × Nat × Bytes)
  | value, digits, [] => some (value, digits, [])
  | value, digits, byte :: rest =>
    if byte = 58 then some (value, digits, byte :: rest)
    else if byte < 48 ∨ byte > 57 ∨ digits ≥ 10 then none
    else
      let digit := (byte - 48).toNat
      if value > (4294967295 - digit) / 10 then none
      else retainScan (value * 10 + digit) (digits + 1) rest

/-- A number of a row: not zero, and with a colon behind it. -/
def retainField (text : Bytes) : Option (Nat × Bytes) :=
  match retainScan 0 0 text with
  | some (value, digits, _ :: rest) => if digits = 0 ∨ value = 0 then none else some (value, rest)
  | _ => none

def retainRows (identity : Capture) (slots : List Nat) (bytes : Bytes) :
    (fuel : Nat) → (text : Bytes) → (previousFlat work : Nat) → List AttributionEntry →
      Option (List AttributionEntry)
  | _, [], _, _, entries => some entries
  | 0, _ :: _, _, _, _ => none
  | fuel + 1, byte :: text, previousFlat, work, entries =>
    if entries.length ≥ maxVisits then none
    else
      match retainField (byte :: text) with
      | none => none
      | some (flat, rest) =>
        if flat < previousFlat then none
        else
          match retainField rest with
          | none => none
          | some (original, rest) =>
            let path := rest.takeWhile (· != 10)
            let start := bytes.length - rest.length
            if 0 ∈ path ∨ path = [] ∨ path.length = rest.length ∨ path.head? ≠ some 47 then none
            else
              match probe identity slots bytes start path.length (slots.length + 1)
                  (slotOf bytes start path.length slots.length) work with
              | some (_, true, work) =>
                retainRows identity slots bytes fuel (rest.drop (path.length + 1)) flat work
                  (entries ++ [⟨flat, original, start, path.length⟩])
              | _ => none

def retainedEntries (lineMap : Bytes) (identity : Capture) : Option (List AttributionEntry) :=
  if !identity.usable || lineMap.length == 0 || decide (lineMap.length > maxBytes) then none
  else
    let slots := List.replicate (slotCountLoop identity.paths.length 64 2) noVisit
    match fillSlots identity 0 identity.paths slots 0 with
    | none => none
    | some (slots, work) => retainRows identity slots lineMap lineMap.length lineMap 0 work []

def retainLineMap (lineMap : Bytes) (identity : Capture) (enabled : Bool) : Attribution :=
  if !enabled then ⟨enabled, false, [], []⟩
  else
    match retainedEntries lineMap identity with
    | none => ⟨enabled, false, lineMap, []⟩
    | some entries => ⟨enabled, decide (entries.length > 0), lineMap, entries⟩

def PathResult.miss : PathResult := ⟨false, 0, 0, 0⟩

def pathForLine (flatLine : Nat) (attribution : Attribution) : PathResult :=
  if !attribution.valid || flatLine == 0 then .miss
  else
    let low := SparseMap.upperBound AttributionEntry.flatLine attribution.entries flatLine
      attribution.entries.length 0 attribution.entries.length
    if low = 0 then .miss
    else
      match attribution.entries[low - 1]? with
      | none => .miss
      | some entry =>
        let delta := flatLine - entry.flatLine
        if entry.originalLine > 4294967295 - delta then .miss
        else ⟨true, entry.pathStart, entry.pathLength, entry.originalLine + delta⟩

/-! ## The numbers -/

variable {text rest : Bytes} {value : Nat}

theorem lexScan_of_scanDecimal {result : Nat} (h : scanDecimal value text = some (result, rest)) :
    lexScan value text = some (result, rest) := by
  induction text generalizing value with
  | nil => exact h
  | cons byte text ih =>
    unfold scanDecimal at h
    unfold lexScan
    split at h
    next colon => rwa [if_pos colon]
    rename_i colon
    rw [if_neg colon]
    split at h
    next => cases h
    rename_i digit
    dsimp only at h
    split at h
    next => cases h
    rename_i fits
    have small : (byte - 48).toNat ≤ 9 := by
      rw [not_or, UInt8.not_lt, UInt8.not_lt] at digit
      have h57 := UInt8.le_iff_toNat_le.mp digit.2
      rw [UInt8.toNat_sub_of_le _ _ digit.1]
      simp at h57 ⊢
      omega
    rw [if_neg digit, Nat.mod_eq_of_lt (by omega)]
    exact ih h

theorem lexScan_appendDecimal {n : Nat} (hpos : 0 < n) (hn : n ≤ 4294967295) (rest : Bytes) :
    lexScan 0 (appendDecimal n ++ 58 :: rest) = some (n, 58 :: rest) := by
  apply lexScan_of_scanDecimal
  obtain ⟨digits, heq, hdigits, hvalue, -⟩ := appendDecimal_spec hpos hn
  rw [heq, scanDecimal_digits _ hdigits (by omega), hvalue]
  simp [scanDecimal]

theorem scanDecimal_of_retainScan {digits result count : Nat}
    (h : retainScan value digits text = some (result, count, rest)) :
    scanDecimal value text = some (result, rest) ∧ count + rest.length = digits + text.length := by
  induction text generalizing value digits with
  | nil =>
    cases h
    exact ⟨rfl, rfl⟩
  | cons byte text ih =>
    unfold retainScan at h
    unfold scanDecimal
    split at h
    next colon =>
      cases h
      exact ⟨if_pos colon, rfl⟩
    rename_i colon
    rw [if_neg colon]
    split at h
    next => cases h
    rename_i digit
    dsimp only at h
    split at h
    next => cases h
    rename_i fits
    obtain ⟨scan, length⟩ := ih h
    rw [not_or, not_or] at digit
    rw [if_neg (not_or.mpr ⟨digit.1, digit.2.1⟩)]
    dsimp only
    rw [if_neg (by omega), scan]
    refine ⟨rfl, ?_⟩
    rw [length_cons]
    omega

theorem scanField_of_retainField (h : retainField text = some (value, rest)) :
    scanField text = some (value, rest) := by
  unfold retainField at h
  split at h
  next result digits byte tail scan =>
    split at h
    next => cases h
    rename_i field
    cases h
    rw [not_or] at field
    obtain ⟨scan, length⟩ := scanDecimal_of_retainScan scan
    rw [scanField, scan]
    dsimp only
    rw [if_neg]
    · rfl
    · rw [not_or, not_or]
      refine ⟨fun same => field.1 ?_, cons_ne_nil _ _, field.2⟩
      rw [same] at length
      omega
  next => cases h

theorem retainField_appendDecimal {n : Nat} {tail : Bytes} (hpos : 0 < n) (hn : n ≤ 4294967295)
    (h : retainField (appendDecimal n ++ 58 :: rest) = some (value, tail)) :
    value = n ∧ tail = rest := by
  have scan := scanField_of_retainField h
  rw [scanField_appendDecimal hpos hn] at scan
  cases scan
  exact ⟨rfl, rfl⟩

/-! ## The lexer on rows -/

theorem lexRows_row {row : LineRow} (h : row.WellFormed) (k fuel : Nat) (tail : Bytes)
    (bestFlat bestOrig : Nat) :
    lexRows k (fuel + 1) (row.bytes ++ tail) bestFlat bestOrig =
      if row.flat ≤ k ∧ row.flat ≥ bestFlat then lexRows k fuel tail row.flat row.source
      else lexRows k fuel tail bestFlat bestOrig := by
  have hbytes : row.bytes.length = row.body.length + 1 := by
    rw [row.bytes_eq, length_append]
    rfl
  have hline := takeWhile_body h tail
  have hdrop : (row.bytes ++ tail).drop (row.body.length + 1) = tail := by
    rw [← hbytes, drop_left]
  cases htext : row.bytes ++ tail with
  | nil =>
    rw [row.bytes_eq] at htext
    simp at htext
  | cons byte remaining =>
    rw [htext] at hline hdrop
    rw [lexRows, hline, hdrop, LineRow.body, lexScan_appendDecimal h.flat_pos h.flat_le]
    dsimp only
    rw [lexScan_appendDecimal h.source_pos h.source_le]

variable {k : Nat}

theorem lexRows_render : ∀ {rows : List LineRow} {fuel bestFlat bestOrig : Nat},
    (∀ row ∈ rows, row.WellFormed) → (rows.Pairwise fun a b => a.flat ≤ b.flat) →
      (∀ row ∈ rows, bestFlat ≤ row.flat) → (render rows).length ≤ fuel →
      lexRows k fuel (render rows) bestFlat bestOrig =
        some (((SparseMap.at? LineRow.flat rows k).map fun row => (row.flat, row.source)).getD
          (bestFlat, bestOrig)) := by
  intro rows
  induction rows with
  | nil =>
    intro fuel bestFlat bestOrig _ _ _ _
    cases fuel <;> rfl
  | cons row rows ih =>
    intro fuel bestFlat bestOrig formed order best enough
    have hpos := row.length_bytes_pos
    rw [render_cons, length_append] at enough
    obtain ⟨fuel, rfl⟩ : ∃ n, fuel = n + 1 := ⟨fuel - 1, by omega⟩
    rw [pairwise_cons] at order
    have formed' : ∀ r ∈ rows, r.WellFormed := fun r hr => formed r (mem_cons_of_mem row hr)
    have split : SparseMap.at? LineRow.flat (row :: rows) k =
        (SparseMap.at? LineRow.flat rows k).or (SparseMap.at? LineRow.flat [row] k) :=
      SparseMap.at?_append [row] rows k
    rw [render_cons, lexRows_row (formed row mem_cons_self), split]
    by_cases before : row.flat ≤ k
    · rw [if_pos ⟨before, best row mem_cons_self⟩, ih formed' order.2 order.1 (by omega)]
      have here : SparseMap.at? LineRow.flat [row] k = some row :=
        SparseMap.at?_of_le (by simpa using before)
      rw [here]
      cases SparseMap.at? LineRow.flat rows k <;> rfl
    · rw [if_neg (fun both => before both.1),
        ih formed' order.2 (fun r hr => best r (mem_cons_of_mem row hr)) (by omega)]
      have here : SparseMap.at? LineRow.flat [row] k = none :=
        SparseMap.at?_of_lt (by simpa using before)
      rw [here, Option.or_none]

variable {rows : List LineRow}

theorem sourceOriginalLineFromMap_render {row : LineRow} (formed : ∀ row ∈ rows, row.WellFormed)
    (order : rows.Pairwise fun a b => a.flat ≤ b.flat)
    (holds : SparseMap.at? LineRow.flat rows k = some row) :
    sourceOriginalLineFromMap (render rows) k = (row.source + (k - row.flat)) % 2 ^ 32 := by
  have pos := (formed row (SparseMap.mem_of_at? holds).1).flat_pos
  rw [sourceOriginalLineFromMap, lexRows_render formed order (fun _ _ => Nat.zero_le _)
    (Nat.le_refl _), holds]
  exact if_neg (Nat.ne_of_gt pos)

/-! ## The retained map on rows -/

def AttributionEntry.toRow (map : Bytes) (entry : AttributionEntry) : LineRow :=
  ⟨entry.flatLine, entry.originalLine, (map.drop entry.pathStart).take entry.pathLength⟩

variable {identity : Capture}

theorem retainRows_row {identity : Capture} {slots : List Nat} {bytes tail : Bytes} {row : LineRow}
    (wf : row.WellFormed) {fuel previousFlat work : Nat} {entries result : List AttributionEntry}
    (h : retainRows identity slots bytes fuel (row.bytes ++ tail) previousFlat work entries =
      some result) :
    ∃ fuel' work', retainRows identity slots bytes fuel' tail row.flat work' (entries ++
      [⟨row.flat, row.source, bytes.length - (row.path ++ 10 :: tail).length, row.path.length⟩]) =
        some result := by
  have text : row.bytes ++ tail = appendDecimal row.flat ++ 58 ::
      (appendDecimal row.source ++ 58 :: (row.path ++ 10 :: tail)) := by
    simp [LineRow.bytes, lineMapEntry]
  have path : (row.path ++ 10 :: tail).takeWhile (· != 10) = row.path := by
    rw [takeWhile_append_of_pos, takeWhile_cons_of_neg (by decide), append_nil]
    intro c hc
    rw [bne_iff_ne]
    rintro rfl
    exact wf.path_line hc
  have behind : (row.path ++ 10 :: tail).drop (row.path.length + 1) = tail := by
    rw [← drop_drop, drop_left]
    rfl
  unfold retainRows at h
  split at h
  next empty =>
    rw [text] at empty
    simp at empty
  next => cases h
  rename_i fuel byte rest nonempty
  rw [← nonempty, text] at h
  split at h
  next => cases h
  split at h
  next => cases h
  rename_i flat rest₁ first
  obtain ⟨rfl, rfl⟩ := retainField_appendDecimal wf.flat_pos wf.flat_le first
  split at h
  next => cases h
  split at h
  next => cases h
  rename_i original rest₂ second
  obtain ⟨rfl, rfl⟩ := retainField_appendDecimal wf.source_pos wf.source_le second
  rw [path] at h
  dsimp only at h
  rw [behind] at h
  split at h
  next => cases h
  split at h
  next work' _ => exact ⟨fuel, work', h⟩
  next => cases h

theorem retainRows_render {slots : List Nat} : ∀ {rows : List LineRow}
    {done : Bytes} {fuel previousFlat work : Nat} {entries result : List AttributionEntry},
    (∀ row ∈ rows, row.WellFormed) →
      retainRows identity slots (done ++ render rows) fuel (render rows) previousFlat work entries =
        some result →
      result.map (AttributionEntry.toRow (done ++ render rows)) =
        entries.map (AttributionEntry.toRow (done ++ render rows)) ++ rows := by
  intro rows
  induction rows with
  | nil =>
    intro done fuel previousFlat work entries result _ h
    cases fuel <;> cases h <;> exact (append_nil _).symm
  | cons row rows ih =>
    intro done fuel previousFlat work entries result formed h
    have bytes : done ++ render (row :: rows) = (done ++ row.bytes) ++ render rows := by
      rw [render_cons, append_assoc]
    obtain ⟨front, hfront⟩ : ∃ front, row.bytes = front ++ (row.path ++ [10]) :=
      ⟨appendDecimal row.flat ++ 58 :: (appendDecimal row.source ++ [58]), by
        simp [LineRow.bytes, lineMapEntry]⟩
    have start : (done ++ row.bytes ++ render rows).length -
      (row.path ++ 10 :: render rows).length =
        (done ++ front).length := by
      rw [hfront]
      simp only [length_append, length_cons, length_nil]
      omega
    obtain ⟨fuel', work', h⟩ := retainRows_row
      (formed row mem_cons_self) h
    rw [bytes] at h
    have h : retainRows identity slots (done ++ row.bytes ++ render rows) fuel'
      (render rows) row.flat
        work' (entries ++ [⟨row.flat, row.source, (done ++ front).length, row.path.length⟩]) =
          some result := by
      rw [← start]
      exact h
    have rest := ih (fun r hr => formed r (mem_cons_of_mem row hr)) h
    rw [bytes, rest, map_append, append_assoc]
    have here : AttributionEntry.toRow (done ++ row.bytes ++ render rows)
        ⟨row.flat, row.source, (done ++ front).length, row.path.length⟩ = row := by
      have split : done ++ row.bytes ++ render rows =
          (done ++ front) ++ (row.path ++ 10 :: render rows) := by
        rw [hfront]
        simp
      rw [AttributionEntry.toRow, split, drop_left, take_left]
    rw [map_singleton, here]
    rfl

theorem retainLineMap_render {enabled : Bool} (formed : ∀ row ∈ rows, row.WellFormed)
    (valid : (retainLineMap (render rows) identity enabled).valid = true) :
    (retainLineMap (render rows) identity enabled).bytes = render rows ∧
      (retainLineMap (render rows) identity enabled).entries.map
        (AttributionEntry.toRow (render rows)) = rows := by
  unfold retainLineMap at valid ⊢
  split at valid
  next => cases valid
  rename_i on
  rw [if_neg on]
  split at valid
  next => cases valid
  rename_i entries retained
  refine ⟨rfl, ?_⟩
  unfold retainedEntries at retained
  split at retained
  next => cases retained
  dsimp only at retained
  split at retained
  next => cases retained
  next slots work _ =>
    have := @retainRows_render _ _ rows [] _ _ _ _ _ formed retained
    simpa using this

theorem pathForLine_render {row : LineRow} {enabled : Bool}
    (formed : ∀ row ∈ rows, row.WellFormed) (order : rows.Pairwise fun a b => a.flat ≤ b.flat)
    (valid : (retainLineMap (render rows) identity enabled).valid = true)
    (holds : SparseMap.at? LineRow.flat rows k = some row)
    (fits : row.source + (k - row.flat) ≤ 4294967295) :
    ∃ start length, pathForLine k (retainLineMap (render rows) identity enabled) =
        ⟨true, start, length, row.source + (k - row.flat)⟩ ∧
      ((render rows).drop start).take length = row.path := by
  obtain ⟨-, entries⟩ := retainLineMap_render formed valid
  generalize retainLineMap (render rows) identity enabled = attribution at valid entries ⊢
  have sorted : attribution.entries.Pairwise fun a b => a.flatLine ≤ b.flatLine := by
    rw [← entries, pairwise_map] at order
    exact order
  obtain ⟨mem, before⟩ := SparseMap.mem_of_at? holds
  have pos := (formed row mem).flat_pos
  rw [← entries, SparseMap.at?_map, Option.map_eq_some_iff] at holds
  obtain ⟨entry, found, rfl⟩ := holds
  obtain ⟨nonzero, at_low⟩ := SparseMap.getElem?_upperBound sorted found
  refine ⟨entry.pathStart, entry.pathLength, ?_, rfl⟩
  have later : k ≠ 0 := by omega
  have room : ¬ entry.originalLine > 4294967295 - (k - entry.flatLine) := by
    have : entry.originalLine + (k - entry.flatLine) ≤ 4294967295 := fits
    omega
  rw [pathForLine, valid, if_neg (by simpa using later)]
  dsimp only
  rw [if_neg nonzero, at_low]
  exact if_neg room

end Elisa.Driver
