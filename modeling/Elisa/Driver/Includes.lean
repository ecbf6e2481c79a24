import Elisa.Driver.LineMap

/-!
# Include expansion

The driver compiles one flat buffer.  `expandIncludesCapture` (`elisac_includes_capture.elisa`)
walks the include graph, splices each file once, and writes where the lines come from: `#line`
directives, if they are enabled, and rows `FLAT:ORIG:PATH` of a line map.  The capture of the graph
(`Capture`, `elisac_source_identity.elisa`) decides whether the map is kept for later questions.

The file system is a record of functions, the buffers of paths are lists.  Line counters are
unbounded; the source has them in 32 bits.
-/

namespace Elisa.Driver

/-! ## Include directives -/

def isBlank (byte : UInt8) : Bool := byte == 32 || byte == 9

def trimEnd (drop : UInt8 → Bool) (text : Bytes) : Bytes := (text.reverse.dropWhile drop).reverse

def lowerByte (byte : UInt8) : UInt8 := if byte ≥ 65 && byte ≤ 90 then byte + 32 else byte

def includeBraceDirectivePath (line : Bytes) : Bytes :=
  let text := trimEnd (fun byte => isBlank byte || byte == 13) (line.dropWhile isBlank)
  if text.length < 4 then []
  else if text[0]? != some 123 || text[1]? != some 36 || text.getLast? != some 125 then []
  else
    let body := (text.drop 2).dropLast.dropWhile isBlank
    let keyword := (body.takeWhile fun byte => !isBlank byte).map lowerByte
    if keyword != ascii "i" && keyword != ascii "include" then []
    else
      let argument := trimEnd isBlank ((body.drop keyword.length).dropWhile isBlank)
      if argument = [] then []
      else
        let quoted := decide (argument.length ≥ 2) &&
          (argument.head? == some 39 && argument.getLast? == some 39 ||
            argument.head? == some 34 && argument.getLast? == some 34)
        let inner := if quoted then (argument.drop 1).dropLast else argument
        if !quoted && inner.any isBlank then [] else inner

def includeDirectivePathSpan (line : Bytes) : Bytes :=
  let braced := includeBraceDirectivePath line
  if braced.length > 0 then braced
  else
    let text := line.dropWhile isBlank
    let text := if text.head? == some 35 then text.tail else text
    let text := text.dropWhile isBlank
    if text.take 7 != ascii "include" then []
    else
      let text := text.drop 7
      if !(text.head?.any isBlank) then []
      else
        let text := text.dropWhile isBlank
        if text.head? != some 34 then []
        else
          let captured := text.tail.takeWhile (· != 34)
          if captured.length < text.tail.length then captured else []

/-! ## Paths -/

def pathDirectory (path : Bytes) : Bytes := (path.reverse.dropWhile (· != 47)).reverse

/-- The loop of `normalize_path`: drop `./` at the start of a segment. -/
def normalizeLoop (normalized : Bytes) : Bytes → Bytes
  | [] => normalized
  | [byte] => normalized ++ [byte]
  | byte :: next :: rest =>
    if (normalized = [] ∨ normalized.getLast? = some 47) ∧ byte = 46 ∧ next = 47 then
      normalizeLoop normalized rest
    else normalizeLoop (normalized ++ [byte]) (next :: rest)

def normalizePath (path : Bytes) : Bytes := normalizeLoop [] path

def resolveIncludePath (baseDirectory relative : Bytes) : Bytes :=
  if relative.head? = some 47 then relative else normalizePath (baseDirectory ++ relative)

def pathContainsNul (path : Bytes) : Bool := path.any (· == 0)

/-! ## The include graph -/

/-- `SourceIdentity::NONE`. -/
def noVisit : Nat := 4294967295

def maxBytes : Nat := 67108864

def maxVisits : Nat := 1000000

structure PathRecord where
  start : Nat
  length : Nat
  expanded : Bool
deriving DecidableEq

structure Edge where
  parent : Nat
  child : Nat
deriving DecidableEq

structure Capture where
  enabled : Bool
  valid : Bool
  complete : Bool
  root : Nat
  bytes : Bytes
  paths : List PathRecord
  edges : List Edge
deriving DecidableEq

namespace Capture

def begin (enabled : Bool) : Capture := ⟨enabled, enabled, false, noVisit, [], [], []⟩

def record (path : Bytes) (parent : Nat) (capture : Capture) : Nat × Capture :=
  if !capture.enabled || !capture.valid then (noVisit, capture)
  else if capture.bytes.length > maxBytes ∨ path.length = 0 ∨
      path.length > maxBytes - capture.bytes.length ∨ capture.paths.length ≥ maxVisits ∨
      path.head? ≠ some 47 ∨ (parent ≠ noVisit ∧ parent ≥ capture.paths.length) ∨ 0 ∈ path ∨
      (parent = noVisit ∧ capture.paths.length ≠ 0) then
    (noVisit, { capture with valid := false })
  else
    let index := capture.paths.length
    let capture : Capture := { capture with
      bytes := capture.bytes ++ path
      paths := capture.paths ++ [⟨capture.bytes.length, path.length, false⟩] }
    if parent = noVisit then (index, { capture with root := index })
    else (index, { capture with edges := capture.edges ++ [⟨parent, index⟩] })

def markExpanded (index : Nat) (capture : Capture) : Capture :=
  if !capture.enabled || !capture.valid || decide (index ≥ capture.paths.length) then capture
  else { capture with paths := capture.paths.modify index fun path =>
    { path with expanded := true } }

def pathsUsable (bytes : Bytes) : Nat → List PathRecord → Bool
  | cursor, [] => cursor == bytes.length
  | cursor, path :: paths =>
    path.start == cursor && path.length != 0 && decide (cursor ≤ bytes.length) &&
      decide (path.length ≤ bytes.length - cursor) && bytes[cursor]? == some 47 &&
      !((bytes.drop cursor).take path.length).any (· == 0) &&
      pathsUsable bytes (cursor + path.length) paths

def usable (capture : Capture) : Bool :=
  capture.valid && capture.complete && capture.root == 0 && capture.paths.length != 0 &&
    decide (capture.paths.length ≤ maxVisits) && decide (capture.bytes.length ≤ maxBytes) &&
    capture.edges.length == capture.paths.length - 1 &&
    (capture.paths[0]?).any PathRecord.expanded && pathsUsable capture.bytes 0 capture.paths &&
    (capture.edges.zipIdx).all fun edge => edge.1.child == edge.2 + 1 &&
      decide (edge.1.parent < edge.1.child) &&
      (capture.paths[edge.1.parent]?).any PathRecord.expanded

def finish (success : Bool) (capture : Capture) : Capture :=
  let complete := capture.enabled && capture.valid && success
  let capture := { capture with complete := complete, valid := capture.valid && success }
  if complete && !capture.usable then
    { capture with valid := false, complete := false } else capture

end Capture

/-! ## Expansion -/

/-- What the expansion is given: the file system, whether directives are written, and a
source to use in place of the root file if it is not empty. -/
structure IncludeEnv where
  absolutePath : Bytes → Bytes
  sourceReadable : Bytes → Bool
  readFile : Bytes → Bytes
  lineDirectives : Bool
  rootSource : Bytes

structure CopiedLine where
  flat : Nat
  path : Bytes
  source : Nat
  text : Bytes
deriving DecidableEq

/-- What the expansion changes.  `copied` is not in the source: it says, for every line
that is copied, at which line of the buffer it was written. -/
structure Expansion where
  out : Bytes
  seen : List Bytes
  active : List Bytes
  lineMap : Bytes
  emittedLines : Nat
  cycleDetected : Bool
  readFailed : Bool
  identity : Capture
  copied : List CopiedLine
deriving DecidableEq

def Expansion.begin (capture : Bool) : Expansion :=
  ⟨[], [], [], [], 0, false, false, .begin capture, []⟩

/-- The lines of a file; a last line need not be terminated. -/
def sourceLines (line : Bytes) : Bytes → List Bytes
  | [] => if line = [] then [] else [line]
  | byte :: rest => if byte = 10 then line :: sourceLines [] rest
      else sourceLines (line ++ [byte]) rest

namespace Expansion

def pushLineDirective (st : Expansion) (line : Nat) (path : Bytes) : Expansion :=
  { st with
    out := st.out ++ (ascii "#line " ++ appendDecimal line ++ 32 :: path) ++ [10]
    emittedLines := st.emittedLines + 1 }

def pushLineMapEntry (st : Expansion) (sourceLine : Nat) (path : Bytes) : Expansion :=
  { st with lineMap := st.lineMap ++ lineMapEntry (st.emittedLines + 1) sourceLine path }

/-- The newline for an include that contributed nothing. -/
def pushGuard (st : Expansion) : Expansion :=
  { st with out := st.out ++ [10], emittedLines := st.emittedLines + 1 }

def copyLine (st : Expansion) (path : Bytes) (sourceLine : Nat) (line : Bytes) : Expansion :=
  { st with
    out := st.out ++ line ++ [10]
    emittedLines := st.emittedLines + 1
    copied := st.copied ++ [⟨st.out.count 10 + 1, path, sourceLine + 1, line⟩] }

/-- The file goes on behind an include that stood on line `sourceLine`, counted from zero. -/
def resume (st : Expansion) (directives : Bool) (resumeFlat sourceLine : Nat) (path : Bytes) :
    Expansion :=
  let st := if directives then
      (if st.out.length = resumeFlat then st.pushGuard else st).pushLineDirective
        (sourceLine + 2) path
    else st
  st.pushLineMapEntry (sourceLine + 2) path

def popActive (st : Expansion) : Expansion := { st with active := st.active.dropLast }

end Expansion

def expandLines (directives : Bool) (expand : Bytes → Expansion → Bool × Expansion)
    (absolute : Bytes) : (sourceLine : Nat) → (lines : List Bytes) → (expanded : Bool) →
      Expansion → Bool × Expansion
  | _, [], expanded, st => (expanded, st)
  | sourceLine, line :: lines, expanded, st =>
    let included := includeDirectivePathSpan line
    if included.length > 0 then
      let resolved := resolveIncludePath (pathDirectory absolute) included
      let result := if expanded then expand resolved st else (true, st)
      let st' := if result.1 then result.2.resume directives st.out.length sourceLine absolute
        else result.2
      expandLines directives expand absolute (sourceLine + 1) lines (expanded && result.1) st'
    else
      expandLines directives expand absolute (sourceLine + 1) lines expanded
        (st.copyLine absolute sourceLine line)

/-- The contents of a file, read at a depth; nothing if it cannot be opened. -/
def fileContents (env : IncludeEnv) (atRoot : Bool) (absolute : Bytes) : Option Bytes :=
  if atRoot && decide (env.rootSource.length > 0) then some env.rootSource
  else if env.sourceReadable absolute then some (env.readFile absolute)
  else none

/-- `remaining` is 65 less the depth. -/
def expandIncludesCapture (env : IncludeEnv) : (remaining : Nat) → (path : Bytes) →
    (parentVisit : Nat) → Expansion → Bool × Expansion
  | 0, _, _, st => (false, { st with readFailed := true })
  | remaining + 1, path, parentVisit, st =>
    if pathContainsNul path then (false, { st with readFailed := true })
    else
      let absolute := env.absolutePath path
      let visit := st.identity.record absolute parentVisit
      let st := { st with identity := visit.2 }
      if absolute ∈ st.active then (false, { st with cycleDetected := true })
      else if absolute ∈ st.seen then (true, st)
      else
        let st := { st with active := st.active ++ [absolute], seen := st.seen ++ [absolute] }
        match fileContents env (remaining == 64) absolute with
        | none => (false, ({ st with readFailed := true } : Expansion).popActive)
        | some contents =>
          if contents.length = 0 then (false, st.popActive)
          else
            let st := { st with identity := st.identity.markExpanded visit.1 }
            let st := if env.lineDirectives then st.pushLineDirective 1 absolute else st
            let st := st.pushLineMapEntry 1 absolute
            let result := expandLines env.lineDirectives
              (fun path st => expandIncludesCapture env remaining path visit.1 st) absolute 0
              (sourceLines [] contents) true st
            (result.1, result.2.popActive)

/-- `expand_includes_with_source_identity_and_root_source`, from the root on. -/
def expandIncludes (env : IncludeEnv) (capture : Bool) (path : Bytes) : Bool × Expansion :=
  let result := expandIncludesCapture env 65 path noVisit (.begin capture)
  (result.1, { result.2 with identity := result.2.identity.finish result.1 })

end Elisa.Driver
