import Elisa.Backend.NameMangling
import Elisa.Lib.SparseMap

/-!
# Line maps

The driver says where the lines of a flattened or generated buffer come from with a sparse map in
text form.  A row `FLAT:ORIG:PATH` stands for line `ORIG` of `PATH` at line `FLAT` of the buffer and
for the lines behind it up to the next row.

`driverParseLineMap` reads such a text, `driverComposeGeneratedLineMap` puts the runs of a generated
buffer in front of it.  The guards of the code keep every number below `2 ^ 32`, so the arithmetic
is that of `Nat`.
-/

namespace Elisa.Driver

open Elisa.Backend (decimalDigits)

/-! ## Writing a row -/

def appendDecimal (value : Nat) : Bytes :=
  if value = 0 then [48] else (decimalDigits 12 value).reverse

def lineMapEntry (flatLine sourceLine : Nat) (path : Bytes) : Bytes :=
  appendDecimal flatLine ++ 58 :: (appendDecimal sourceLine ++ 58 :: (path ++ [10]))

/-! ## Reading a map -/

/-- A row that was read: its numbers and where its path stands in the text. -/
structure DriverLineMapEntry where
  flatLine : Nat
  sourceLine : Nat
  pathStart : Nat
  pathStop : Nat
deriving DecidableEq

/-- The digits up to a colon or the end of the row, with what stands behind them. -/
def scanDecimal : Nat → Bytes → Option (Nat × Bytes)
  | value, [] => some (value, [])
  | value, byte :: rest =>
    if byte = 58 then some (value, byte :: rest)
    else if byte < 48 ∨ byte > 57 then none
    else
      let decimalDigit := (byte - 48).toNat
      if value > 429496729 ∨ (value = 429496729 ∧ decimalDigit > 5) then none
      else scanDecimal (value * 10 + decimalDigit) rest

/-- A number of a row: digits, then a colon, and not zero. -/
def scanField (text : Bytes) : Option (Nat × Bytes) :=
  match scanDecimal 0 text with
  | none => none
  | some (value, rest) =>
    if rest.length = text.length ∨ rest = [] ∨ value = 0 then none else some (value, rest.tail)

/-- One row of the text, from the cursor on. -/
def driverParseEntry (cursor : Nat) (line : Bytes) : Option DriverLineMapEntry :=
  match scanField line with
  | none => none
  | some (flatLine, rest) =>
    match scanField rest with
    | none => none
    | some (sourceLine, path) =>
      some ⟨flatLine, sourceLine, cursor + line.length - path.length, cursor + line.length⟩

/-- The rows from the cursor on.  A row takes at least one byte, so the bytes bound the
rows; a malformed row drops the whole map. -/
def driverParseEntries : Nat → Nat → Bytes → List DriverLineMapEntry → List DriverLineMapEntry
  | 0, _, _, entries => entries
  | _ + 1, _, [], entries => entries
  | fuel + 1, cursor, byte :: remaining, entries =>
    let line := (byte :: remaining).takeWhile (· != 10)
    let entryStop := cursor + line.length
    if line = [] then []
    else
      match driverParseEntry cursor line with
      | none => []
      | some entry =>
        if entries.getLast?.any fun previous => decide (entry.flatLine ≤ previous.flatLine) then []
        else driverParseEntries fuel (entryStop + 1) ((byte :: remaining).drop (line.length + 1))
          (entries ++ [entry])

def driverParseLineMap (mapBytes : Bytes) : List DriverLineMapEntry :=
  driverParseEntries mapBytes.length 0 mapBytes []

/-! ## Composition -/

/-- The path of a row that was read. -/
def pathSlice (map : Bytes) (entry : DriverLineMapEntry) : Bytes :=
  (map.drop entry.pathStart).take (entry.pathStop - entry.pathStart)

def driverAppendComposedLineMapEntry (out sourceMap : Bytes) (outputLine sourceLine : Nat)
    (entry : DriverLineMapEntry) : Bytes :=
  out ++ lineMapEntry outputLine sourceLine (pathSlice sourceMap entry)

/-- The rows of the source map that begin inside a run, behind its first line. -/
def composeBoundaries (sourceMap : Bytes) (outputStart sourceStart sourceStop : Nat) :
    List DriverLineMapEntry → Bytes → Bytes
  | [], out => out
  | entry :: entries, out =>
    if entry.flatLine > sourceStart then
      if entry.flatLine > sourceStop then out
      else
        composeBoundaries sourceMap outputStart sourceStart sourceStop entries
          (driverAppendComposedLineMapEntry out sourceMap
            (outputStart + (entry.flatLine - sourceStart)) entry.sourceLine entry)
    else composeBoundaries sourceMap outputStart sourceStart sourceStop entries out

/-- One run of the generated buffer; no result drops the whole map. -/
def composeRun (sourceMap : Bytes) (sourceEntries : List DriverLineMapEntry)
    (outputStart sourceStart outputStop : Nat) (out : Bytes) : Option Bytes :=
  let sourceStop := sourceStart + (outputStop - outputStart)
  if sourceStop > 4294967295 then none
  else
    let low := SparseMap.upperBound DriverLineMapEntry.flatLine sourceEntries sourceStart
      sourceEntries.length 0 sourceEntries.length
    if low > 0 then
      match sourceEntries[low - 1]? with
      | none => none
      | some entry =>
        let mapped := entry.sourceLine + (sourceStart - entry.flatLine)
        if mapped > 4294967295 then none
        else
          some (composeBoundaries sourceMap outputStart sourceStart sourceStop
            (sourceEntries.drop low)
            (driverAppendComposedLineMapEntry out sourceMap outputStart mapped entry))
    else
      some (composeBoundaries sourceMap outputStart sourceStart sourceStop sourceEntries out)

def composeRuns (sourceMap : Bytes) (sourceEntries : List DriverLineMapEntry)
    (generatedLineCount : Nat) : List UInt32 → Bytes → Option Bytes
  | outputStart :: sourceStart :: runs, out =>
    if outputStart.toNat = 0 ∨ sourceStart.toNat = 0 ∨ outputStart.toNat > generatedLineCount then
      none
    else
      match runs.head? with
      | none =>
        (composeRun sourceMap sourceEntries outputStart.toNat sourceStart.toNat
          generatedLineCount out).bind
          (composeRuns sourceMap sourceEntries generatedLineCount runs)
      | some nextOutputStart =>
        if nextOutputStart.toNat ≤ outputStart.toNat ∨
            nextOutputStart.toNat > generatedLineCount then none
        else
          (composeRun sourceMap sourceEntries outputStart.toNat sourceStart.toNat
            (nextOutputStart.toNat - 1) out).bind
            (composeRuns sourceMap sourceEntries generatedLineCount runs)
  | _, out => some out

def driverComposeGeneratedLineMap (sourceMap : Bytes) (generatedRuns : List UInt32)
    (generatedLineCount : UInt32) : Bytes :=
  if sourceMap.length = 0 ∨ generatedRuns.length < 2 ∨ generatedLineCount.toNat = 0 then []
  else if generatedRuns.length % 2 ≠ 0 then []
  else
    let sourceEntries := driverParseLineMap sourceMap
    if sourceEntries.length = 0 then []
    else
      (composeRuns sourceMap sourceEntries generatedLineCount.toNat generatedRuns []).getD []

end Elisa.Driver
