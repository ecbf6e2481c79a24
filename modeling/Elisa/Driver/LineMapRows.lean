import Elisa.Backend.NameManglingInjective
import Elisa.Driver.LineMap
import Mathlib.Data.List.TakeWhile

/-!
# The rows of a line map

`rowsOf` reads the rows of a text, with none for a text that is not accepted, and `render` writes
them. Rows that are read are well formed (`rowsOf_wellFormed`), and well-formed rows are read back
(`rowsOf_render`).
-/

namespace Elisa.Driver

open Elisa.Backend List

/-! ## Rows -/

structure LineRow where
  flat : Nat
  source : Nat
  path : Bytes
deriving DecidableEq

namespace LineRow

def bytes (row : LineRow) : Bytes := lineMapEntry row.flat row.source row.path

/-- The numbers fit their type and are counted from one, and the path stands on one line. -/
structure WellFormed (row : LineRow) : Prop where
  flat_pos : 0 < row.flat
  flat_le : row.flat ≤ 4294967295
  source_pos : 0 < row.source
  source_le : row.source ≤ 4294967295
  path_line : 10 ∉ row.path

end LineRow

structure WellFormedRows (rows : List LineRow) : Prop where
  row : ∀ row ∈ rows, row.WellFormed
  rising : rows.Pairwise fun a b => a.flat < b.flat

def render (rows : List LineRow) : Bytes := rows.flatMap LineRow.bytes

def DriverLineMapEntry.toRow (map : Bytes) (entry : DriverLineMapEntry) : LineRow :=
  ⟨entry.flatLine, entry.sourceLine, pathSlice map entry⟩

def rowsOf (map : Bytes) : List LineRow :=
  (driverParseLineMap map).map (DriverLineMapEntry.toRow map)

/-! ## What is read -/

theorem scanDecimal_spec : ∀ {text : Bytes} {value result : Nat} {rest : Bytes},
    scanDecimal value text = some (result, rest) → value ≤ 4294967295 →
      result ≤ 4294967295 ∧ ∃ front, text = front ++ rest ∧ ∀ byte ∈ rest.head?, byte = 58 := by
  intro text
  induction text with
  | nil =>
    intro value result rest h hvalue
    cases h
    exact ⟨hvalue, [], rfl, nofun⟩
  | cons byte text ih =>
    intro value result rest h hvalue
    unfold scanDecimal at h
    split at h
    next hcolon =>
      cases h
      exact ⟨hvalue, [], rfl, fun b hb => by cases hb; exact hcolon⟩
    split at h
    next => cases h
    rename_i hdigit
    dsimp only at h
    split at h
    next => cases h
    rename_i hfits
    have hbyte : (byte - 48).toNat ≤ 9 := by
      rw [not_or, UInt8.not_lt, UInt8.not_lt] at hdigit
      have h57 := UInt8.le_iff_toNat_le.mp hdigit.2
      rw [UInt8.toNat_sub_of_le _ _ hdigit.1]
      simp at h57 ⊢
      omega
    obtain ⟨hresult, front, hfront, hhead⟩ := ih h (by omega)
    exact ⟨hresult, byte :: front, by rw [hfront]; rfl, hhead⟩

theorem scanField_spec {text path : Bytes} {value : Nat} (h : scanField text = some (value, path)) :
    (0 < value ∧ value ≤ 4294967295) ∧ ∃ front, text = front ++ path := by
  unfold scanField at h
  split at h
  next => cases h
  rename_i result rest hscan
  split at h
  next => cases h
  rename_i hfield
  cases h
  rw [not_or, not_or] at hfield
  obtain ⟨hle, front, hfront, -⟩ := scanDecimal_spec hscan (Nat.zero_le _)
  refine ⟨⟨Nat.pos_of_ne_zero hfield.2.2, hle⟩, ?_⟩
  cases rest with
  | nil => exact absurd rfl hfield.2.1
  | cons byte rest => exact ⟨front ++ [byte], by rw [hfront]; simp⟩

theorem driverParseEntry_spec {map tail line : Bytes} {cursor : Nat} {entry : DriverLineMapEntry}
    (hmap : map.drop cursor = line ++ tail) (hline : 10 ∉ line)
    (h : driverParseEntry cursor line = some entry) : (entry.toRow map).WellFormed := by
  unfold driverParseEntry at h
  split at h
  next => cases h
  rename_i flatLine rest hflat
  split at h
  next => cases h
  rename_i sourceLine path hsource
  cases h
  obtain ⟨hflat', front, hfront⟩ := scanField_spec hflat
  obtain ⟨hsource', front', hfront'⟩ := scanField_spec hsource
  refine ⟨hflat'.1, hflat'.2, hsource'.1, hsource'.2, ?_⟩
  have hsplit : line = (front ++ front') ++ path := by rw [hfront, hfront', append_assoc]
  have hlength : cursor + line.length - path.length = cursor + (front ++ front').length := by
    rw [hsplit]
    simp only [length_append]
    omega
  have hslice : pathSlice map ⟨flatLine, sourceLine, cursor + line.length - path.length,
      cursor + line.length⟩ = path := by
    show (map.drop (cursor + line.length - path.length)).take _ = path
    rw [hlength, ← drop_drop, hmap, hsplit, append_assoc (front ++ front'),
      drop_left]
    have htake : cursor + ((front ++ front') ++ path).length - (cursor + (front ++ front').length)
        = path.length := by
      simp only [length_append]
      omega
    rw [htake, take_left]
  show 10 ∉ pathSlice map _
  rw [hslice]
  intro hmem
  exact hline (hsplit ▸ mem_append_right _ hmem)

theorem takeWhile_line (text : Bytes) :
    ∃ tail, text = text.takeWhile (· != 10) ++ tail ∧ 10 ∉ text.takeWhile (· != 10) := by
  refine ⟨text.dropWhile (· != 10), takeWhile_append_dropWhile.symm, fun h => ?_⟩
  have := mem_takeWhile_imp h
  simp at this

theorem WellFormedRows.push {rows : List LineRow} {row : LineRow} (h : WellFormedRows rows)
    (hrow : row.WellFormed) (hrising : ∀ last ∈ rows.getLast?, last.flat < row.flat) :
    WellFormedRows (rows ++ [row]) := by
  constructor
  · intro other hother
    rcases mem_append.mp hother with hother | hother
    · exact h.row other hother
    · rw [mem_singleton.mp hother]
      exact hrow
  · rw [pairwise_append]
    refine ⟨h.rising, pairwise_singleton _ _, fun other hother b hb => ?_⟩
    rw [mem_singleton.mp hb]
    obtain ⟨front, last, rfl⟩ : ∃ front last, rows = front ++ [last] :=
      ⟨rows.dropLast, _, (dropLast_append_getLast (List.ne_nil_of_mem hother)).symm⟩
    have hlast := hrising last (by simp)
    rcases mem_append.mp hother with hother | hother
    · have hlt := (pairwise_append.mp h.rising).2.2 other hother last (by simp)
      exact Nat.lt_trans hlt hlast
    · rw [mem_singleton.mp hother]
      exact hlast

theorem driverParseEntries_wellFormed {map : Bytes} : ∀ (fuel cursor : Nat) (remaining : Bytes)
    (entries : List DriverLineMapEntry), remaining = map.drop cursor →
      WellFormedRows (entries.map (DriverLineMapEntry.toRow map)) →
      WellFormedRows ((driverParseEntries fuel cursor remaining entries).map
        (DriverLineMapEntry.toRow map)) := by
  intro fuel
  induction fuel with
  | zero => exact fun _ _ _ _ h => h
  | succ fuel ih =>
    intro cursor remaining entries hremaining hentries
    cases remaining with
    | nil => exact hentries
    | cons byte remaining =>
      obtain ⟨tail, htail, hline⟩ := takeWhile_line (byte :: remaining)
      have hnil : WellFormedRows (([] : List DriverLineMapEntry).map
          (DriverLineMapEntry.toRow map)) := ⟨nofun, List.Pairwise.nil⟩
      unfold driverParseEntries
      generalize (byte :: remaining).takeWhile (· != 10) = line at htail hline ⊢
      dsimp only
      split
      next => exact hnil
      split
      next => exact hnil
      rename_i entry hentry
      split
      next => exact hnil
      rename_i hlast
      refine ih _ _ _ ?_ ?_
      · rw [hremaining, drop_drop]
        congr 1
      rw [map_append]
      refine hentries.push
        (driverParseEntry_spec (hremaining.symm.trans htail) hline hentry) fun last hmem => ?_
      rw [getLast?_map, Option.mem_def, Option.map_eq_some_iff] at hmem
      obtain ⟨previous, hprevious, rfl⟩ := hmem
      rw [hprevious, Option.any_some, decide_eq_true_iff] at hlast
      exact Nat.lt_of_not_le hlast

theorem rowsOf_wellFormed (map : Bytes) : WellFormedRows (rowsOf map) :=
  driverParseEntries_wellFormed map.length 0 map [] rfl ⟨nofun, List.Pairwise.nil⟩

/-! ## What is written -/

theorem scanDecimal_digits : ∀ {digits : Bytes} (tail : Bytes), (∀ c ∈ digits, IsDigit c) →
    digitsValue digits ≤ 4294967295 →
      scanDecimal 0 (digits.reverse ++ tail) = scanDecimal (digitsValue digits) tail := by
  intro digits
  induction digits with
  | nil => exact fun _ _ _ => rfl
  | cons c digits ih =>
    intro tail hdigits hfits
    have hc := hdigits c mem_cons_self
    rw [digitsValue] at hfits
    rw [reverse_cons, append_assoc, singleton_append,
      ih (c :: tail) (fun d hd => hdigits d (mem_cons_of_mem c hd)) (by omega)]
    have hsub : (c - 48).toNat = c.toNat - 48 :=
      UInt8.toNat_sub_of_le _ _ (UInt8.le_iff_toNat_le.mpr hc.1)
    rw [scanDecimal, if_neg, if_neg, hsub, digitsValue]
    · dsimp only
      rw [if_neg (by omega), Nat.mul_comm, Nat.add_comm]
    · rw [not_or, UInt8.not_lt, UInt8.not_lt]
      exact ⟨UInt8.le_iff_toNat_le.mpr hc.1, UInt8.le_iff_toNat_le.mpr hc.2⟩
    · rintro rfl
      exact absurd hc.2 (by decide)

theorem appendDecimal_spec {n : Nat} (hpos : 0 < n) (hn : n ≤ 4294967295) :
    ∃ digits, appendDecimal n = digits.reverse ∧ (∀ c ∈ digits, IsDigit c) ∧
      digitsValue digits = n ∧ digits ≠ [] := by
  refine ⟨decimalDigits 12 n, ?_, fun c hc => isDigit_of_mem_decimalDigits hc,
    digitsValue_decimalDigits (by omega), ?_⟩
  · rw [appendDecimal, if_neg (by omega)]
  · rw [decimalDigits, if_neg (by omega)]
    nofun

theorem scanField_appendDecimal {n : Nat} (hpos : 0 < n) (hn : n ≤ 4294967295) (rest : Bytes) :
    scanField (appendDecimal n ++ 58 :: rest) = some (n, rest) := by
  obtain ⟨digits, heq, hdigits, hvalue, hne⟩ := appendDecimal_spec hpos hn
  rw [scanField, heq, scanDecimal_digits _ hdigits (by omega), hvalue]
  simp [scanDecimal, hne, Nat.pos_iff_ne_zero.mp hpos]

theorem not_mem_appendDecimal {n : Nat} (hpos : 0 < n) (hn : n ≤ 4294967295) :
    10 ∉ appendDecimal n := by
  obtain ⟨digits, heq, hdigits, -, -⟩ := appendDecimal_spec hpos hn
  rw [heq, mem_reverse]
  intro h
  exact absurd (hdigits 10 h).1 (by decide)

def LineRow.body (row : LineRow) : Bytes :=
  appendDecimal row.flat ++ 58 :: (appendDecimal row.source ++ 58 :: row.path)

theorem LineRow.bytes_eq (row : LineRow) : row.bytes = row.body ++ [10] := by
  simp [bytes, body, lineMapEntry]

theorem LineRow.WellFormed.not_mem_body {row : LineRow} (h : row.WellFormed) : 10 ∉ row.body := by
  simp only [body, mem_append, mem_cons, not_or]
  exact ⟨not_mem_appendDecimal h.flat_pos h.flat_le, by decide,
    not_mem_appendDecimal h.source_pos h.source_le, by decide, h.path_line⟩

theorem LineRow.WellFormed.parse {row : LineRow} (h : row.WellFormed) (cursor : Nat) :
    driverParseEntry cursor row.body = some ⟨row.flat, row.source,
      cursor + row.body.length - row.path.length, cursor + row.body.length⟩ := by
  rw [driverParseEntry, body, scanField_appendDecimal h.flat_pos h.flat_le]
  dsimp only
  rw [scanField_appendDecimal h.source_pos h.source_le]

theorem LineRow.toRow_parse (row : LineRow) (done tail : Bytes) :
    DriverLineMapEntry.toRow (done ++ (row.body ++ tail)) ⟨row.flat, row.source,
      done.length + row.body.length - row.path.length, done.length + row.body.length⟩ = row := by
  obtain ⟨front, hfront⟩ : ∃ front, row.body = front ++ row.path :=
    ⟨appendDecimal row.flat ++ 58 :: (appendDecimal row.source ++ [58]), by simp [body]⟩
  have hstart : done.length + row.body.length - row.path.length = (done ++ front).length := by
    rw [hfront]
    simp only [length_append]
    omega
  have hstop : done.length + row.body.length - (done ++ front).length = row.path.length := by
    rw [hfront]
    simp only [length_append]
    omega
  rw [DriverLineMapEntry.toRow, pathSlice]
  dsimp only
  rw [hstart, hstop, hfront, append_assoc, ← append_assoc, drop_left, take_left]

theorem takeWhile_body {row : LineRow} (h : row.WellFormed) (tail : Bytes) :
    (row.bytes ++ tail).takeWhile (· != 10) = row.body := by
  rw [row.bytes_eq, append_assoc, takeWhile_append_of_pos, singleton_append,
    takeWhile_cons_of_neg (by decide), append_nil]
  intro c hc
  rw [bne_iff_ne]
  rintro rfl
  exact h.not_mem_body hc

theorem render_cons (row : LineRow) (rows : List LineRow) :
    render (row :: rows) = row.bytes ++ render rows := rfl

def LineRow.entry (row : LineRow) (done : Bytes) : DriverLineMapEntry :=
  ⟨row.flat, row.source, done.length + row.body.length - row.path.length,
    done.length + row.body.length⟩

theorem LineRow.toRow_entry (row : LineRow) (done tail : Bytes) :
    (row.entry done).toRow (done ++ (row.bytes ++ tail)) = row := by
  rw [row.bytes_eq, append_assoc row.body]
  exact row.toRow_parse done ([10] ++ tail)

theorem driverParseEntries_row {row : LineRow} (h : row.WellFormed) (done tail : Bytes) (fuel : Nat)
    (entries : List DriverLineMapEntry) :
    driverParseEntries (fuel + 1) done.length (row.bytes ++ tail) entries =
      if entries.getLast?.any fun previous => decide (row.flat ≤ previous.flatLine) then []
      else driverParseEntries fuel (done ++ row.bytes).length tail
        (entries ++ [row.entry done]) := by
  have hbytes : row.bytes.length = row.body.length + 1 := by
    rw [row.bytes_eq, length_append]
    rfl
  have hline := takeWhile_body h tail
  have hdrop : (row.bytes ++ tail).drop (row.body.length + 1) = tail := by
    rw [← hbytes, drop_left]
  have hne : row.body ≠ [] := by simp [LineRow.body]
  have hcursor : done.length + row.body.length + 1 = (done ++ row.bytes).length := by
    rw [length_append, hbytes, Nat.add_assoc]
  cases htext : row.bytes ++ tail with
  | nil =>
    rw [row.bytes_eq] at htext
    simp at htext
  | cons byte remaining =>
    rw [htext] at hline hdrop
    rw [driverParseEntries]
    rw [hline, if_neg hne, h.parse]
    dsimp only
    rw [hdrop, hcursor]
    rfl

theorem LineRow.length_bytes_pos (row : LineRow) : 0 < row.bytes.length := by
  rw [row.bytes_eq]
  simp

/-- The reader of a map takes every row, or refuses the map for a row that does not rise. -/
theorem driverParseEntries_render : ∀ (rows : List LineRow) (done : Bytes) (fuel : Nat)
    (entries : List DriverLineMapEntry), (∀ row ∈ rows, row.WellFormed) →
      (render rows).length ≤ fuel →
      (driverParseEntries fuel done.length (render rows) entries = [] ∧
        ¬((∀ last ∈ entries.getLast?, ∀ row ∈ rows.head?, last.flatLine < row.flat) ∧
          rows.Pairwise fun a b => a.flat < b.flat)) ∨
      (driverParseEntries fuel done.length (render rows) entries).map
          (DriverLineMapEntry.toRow (done ++ render rows)) =
        entries.map (DriverLineMapEntry.toRow (done ++ render rows)) ++ rows := by
  intro rows
  induction rows with
  | nil =>
    intro done fuel entries _ _
    rw [append_nil]
    cases fuel <;> exact .inr rfl
  | cons row rows ih =>
    intro done fuel entries hrows hfuel
    have hpos := row.length_bytes_pos
    rw [render_cons, length_append] at hfuel
    obtain ⟨fuel, rfl⟩ : ∃ n, fuel = n + 1 := ⟨fuel - 1, by omega⟩
    rw [render_cons, driverParseEntries_row (hrows row mem_cons_self)]
    split
    next falls =>
      refine .inl ⟨rfl, fun rising => ?_⟩
      obtain ⟨previous, hend, hle⟩ := (Option.any_eq_true _ _).mp falls
      exact Nat.not_le.mpr (rising.1 previous hend row rfl) (of_decide_eq_true hle)
    cases ih (done ++ row.bytes) fuel (entries ++ [row.entry done])
      (fun r hr => hrows r (mem_cons_of_mem row hr)) (by omega) with
    | inl refused =>
      refine .inl ⟨refused.1, fun rising => refused.2 ⟨?_, (pairwise_cons.mp rising.2).2⟩⟩
      intro last hmem next hnext
      rw [getLast?_append, getLast?_singleton] at hmem
      cases hmem
      exact (pairwise_cons.mp rising.2).1 next (mem_of_mem_head? hnext)
    | inr hmap =>
      rw [append_assoc] at hmap
      rw [hmap, map_append, map_singleton, row.toRow_entry, append_assoc]
      exact .inr rfl

theorem rowsOf_render {rows : List LineRow} (h : WellFormedRows rows) :
    rowsOf (render rows) = rows :=
  (driverParseEntries_render rows [] (render rows).length [] h.row (Nat.le_refl _)).resolve_left
    fun refused => refused.2 ⟨nofun, h.rising⟩

theorem rowsOf_render_of_accepted {rows : List LineRow} (h : ∀ row ∈ rows, row.WellFormed)
    (accepted : driverParseLineMap (render rows) ≠ []) : rowsOf (render rows) = rows :=
  (driverParseEntries_render rows [] (render rows).length [] h (Nat.le_refl _)).resolve_left
    fun refused => accepted refused.1

end Elisa.Driver
