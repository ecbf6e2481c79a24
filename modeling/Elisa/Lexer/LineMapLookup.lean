import Elisa.Bytes

/-!
# Looking a line up in the line map

The driver publishes where the lines of a unit come from as rows `FLAT:ORIG:PATH`.
`sourceOriginalLineFromMap` and `sourceLineIsRuntimeStdFromMap` (`lexer.elisa`) read the whole text
for every question: the last row with the greatest `FLAT` up to the line owns it.  A field that is
no number ends the reading.

A row is part of the runtime library if its path resolves to something beneath it.  The path of the
executable and `realpath` come from the operating system (`Host`), in buffers of 8192 bytes.
-/

namespace Elisa.Lexer

/-! ## The operating system -/

/-- What the operating system answers: where the executable is, and what a path resolves to. -/
structure Host where
  executablePath : Option Bytes
  realpath : Bytes → Option Bytes

/-- The bytes in front of the terminating zero. -/
def cString (bytes : Bytes) : Bytes := bytes.takeWhile (· != 0)

def bufferSize : Nat := 8192

def bufferString (resolved : Bytes) : Bytes := (cString resolved).take bufferSize

def lastBin (path : Bytes) : Option Nat :=
  (List.range path.length).reverse.find? fun index =>
    (ascii "/bin/").isPrefixOf (path.drop index)

/-- The prefix of the paths of the runtime library, and whether it was resolved.  The bytes that
were pushed before a failure stay. -/
def sourceRuntimeStdRootPrefix (host : Host) : Bool × Bytes :=
  match host.executablePath.bind fun path => host.realpath (cString path) with
  | none => (false, [])
  | some resolved =>
    let self := bufferString resolved
    if self.length = bufferSize then (false, [])
    else
      match lastBin self with
      | none => (false, [])
      | some binStart =>
        let root := self.take binStart ++ ascii "/elisacore_std"
        match host.realpath root with
        | none => (false, root ++ ascii "/")
        | some resolved =>
          let root := bufferString resolved
          if root.length = bufferSize ∨ root.length = 0 then (false, root)
          else (true, root ++ ascii "/")

/-- Whether a directory of a path has the name of the runtime library. -/
def pathHasRuntimeStdComponent (path : Bytes) : Bool :=
  (List.range path.length).any fun index =>
    (ascii "elisacore_std/").isPrefixOf (path.drop index) && decide (index > 0) &&
      path[index - 1]? == some 47

def pathIsRuntimeStd (host : Host) (path trustedPrefix : Bytes) : Bool :=
  if path = [] ∨ path.length > 8191 ∨ !pathHasRuntimeStdComponent path then false
  else
    match host.realpath (cString path) with
    | none => false
    | some resolved =>
      let resolved := bufferString resolved
      if resolved.length = bufferSize ∨ resolved.length ≤ trustedPrefix.length then false
      else trustedPrefix.isPrefixOf resolved

/-! ## The rows of a map -/

/-- The rows of a map: what stands before each newline, and what stands behind the last one. -/
def lineMapEntries : Bytes → List Bytes
  | [] => []
  | byte :: rest =>
    if byte = 10 then [] :: lineMapEntries rest
    else
      match lineMapEntries rest with
      | [] => [[byte]]
      | entry :: entries => (byte :: entry) :: entries

/-- A number in front of a colon or the end of a row, modulo `2 ^ 32`, and what follows it. -/
def scanNumber : UInt32 → Bytes → Option (UInt32 × Bytes)
  | value, [] => some (value, [])
  | value, byte :: rest =>
    if byte = 58 then some (value, byte :: rest)
    else if byte < 48 ∨ byte > 57 then none
    else scanNumber (value * 10 + (byte - 48).toUInt32) rest

/-! ## A fresh reading -/

def originalFrom (flatLine : UInt32) : UInt32 → UInt32 → List Bytes → UInt32
  | bestFlat, bestOrig, [] =>
    if bestFlat = 0 then flatLine else bestOrig + (flatLine - bestFlat)
  | bestFlat, bestOrig, entry :: entries =>
    match scanNumber 0 entry with
    | none => flatLine
    | some (_, []) => flatLine
    | some (entryFlat, _ :: rest) =>
      match scanNumber 0 rest with
      | none => flatLine
      | some (entryOrig, _) =>
        if entryFlat ≤ flatLine ∧ bestFlat ≤ entryFlat then
          originalFrom flatLine entryFlat entryOrig entries
        else originalFrom flatLine bestFlat bestOrig entries

def afterColon (text : Bytes) : Bytes := (text.dropWhile (· != 58)).drop 1

/-- The rows of a map, read for the path of the row that owns a line. -/
def runtimeStdFrom (host : Host) (trustedPrefix : Bytes) (flatLine : UInt32) :
    UInt32 → Bytes → List Bytes → Bool
  | bestFlat, bestPath, [] =>
    if bestFlat = 0 then false else pathIsRuntimeStd host bestPath trustedPrefix
  | bestFlat, bestPath, entry :: entries =>
    match scanNumber 0 entry with
    | none => false
    | some (_, []) => false
    | some (entryFlat, _ :: rest) =>
      if entryFlat ≤ flatLine ∧ bestFlat ≤ entryFlat then
        runtimeStdFrom host trustedPrefix flatLine entryFlat (afterColon rest) entries
      else runtimeStdFrom host trustedPrefix flatLine bestFlat bestPath entries

def sourceOriginalLineFromMap (map : Option Bytes) (flatLine : UInt32) : UInt32 :=
  match map with
  | none => flatLine
  | some map => originalFrom flatLine 0 0 (lineMapEntries map)

def sourceLineIsRuntimeStdFromMap (host : Host) (map : Option Bytes) (flatLine : UInt32) : Bool :=
  match map with
  | none => false
  | some map =>
    match sourceRuntimeStdRootPrefix host with
    | (false, _) => false
    | (true, trustedPrefix) => runtimeStdFrom host trustedPrefix flatLine 0 [] (lineMapEntries map)

end Elisa.Lexer
