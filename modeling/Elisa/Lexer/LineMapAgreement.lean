import Elisa.Lexer.LineMapCache

/-!
# The cache answers as a fresh reading does

Both ask the row that owns a line (`SparseMap.greatest?`) of the same rows (`MapRow`).  Tables that
are valid hold the rows of the whole map, the table of paths only answers for paths that were
resolved, and tables that are kept are those of the visible map (`Fresh`).

The fresh reading asks whether the root of the runtime library was resolved, the cache uses what was
pushed for it.  They agree because a path resolves only if its directories do (`Canonical`).
-/

namespace Elisa.Lexer

open List

/-! ## The rows of a map -/

structure MapRow where
  flat : UInt32
  orig : UInt32
  origOk : Bool
  path : Bytes
  deriving DecidableEq

namespace MapRow

def key (row : MapRow) : Nat := row.flat.toNat

/-- A row of the text, if it has a `FLAT` field. -/
def parse (entry : Bytes) : Option MapRow :=
  match scanNumber 0 entry with
  | some (flat, _ :: rest) =>
    let (orig, ok, tail) := scanOrig 0 true rest
    some { flat := flat, orig := orig, origOk := ok, path := tail.drop 1 }
  | _ => none

end MapRow

theorem scanOrig_tail (value : UInt32) (ok : Bool) (text : Bytes) :
    (scanOrig value ok text).2.2 = text.dropWhile (· != 58) := by
  induction text generalizing value ok with
  | nil => rfl
  | cons byte rest ih =>
    by_cases colon : byte = 58
    · simp [scanOrig, colon]
    · simp [scanOrig, colon, ih]

theorem scanOrig_bad (value : UInt32) (text : Bytes) : (scanOrig value false text).2.1 = false := by
  induction text generalizing value with
  | nil => rfl
  | cons byte rest ih =>
    by_cases colon : byte = 58
    · simp [scanOrig, colon]
    · simp [scanOrig, colon, ih]

theorem scanNumber_eq_scanOrig (value : UInt32) (text : Bytes) :
    scanNumber value text =
      if (scanOrig value true text).2.1 then
        some ((scanOrig value true text).1, (scanOrig value true text).2.2)
      else none := by
  induction text generalizing value with
  | nil => rfl
  | cons byte rest ih =>
    by_cases colon : byte = 58
    · simp [scanNumber, scanOrig, colon]
    by_cases digit : byte < 48 ∨ byte > 57
    · have outside : ¬ (48 ≤ byte ∧ byte ≤ 57) := by
        rcases digit with low | high
        · exact fun inside => absurd low (UInt8.not_lt.2 inside.1)
        · exact fun inside => absurd high (UInt8.not_lt.2 inside.2)
      simp [scanNumber, scanOrig, colon, digit, outside, scanOrig_bad]
    · have inside : 48 ≤ byte ∧ byte ≤ 57 := by
        simpa only [not_or, UInt8.not_lt, gt_iff_lt] using digit
      simp [scanNumber, scanOrig, colon, digit, inside, ih]

theorem MapRow.parse_eq_some {entry : Bytes} {row : MapRow} (h : MapRow.parse entry = some row) :
    ∃ byte rest, scanNumber 0 entry = some (row.flat, byte :: rest) ∧
      scanNumber 0 rest =
        (if row.origOk then some (row.orig, (scanOrig 0 true rest).2.2) else none) ∧
      scanOrig 0 true rest = (row.orig, row.origOk, (scanOrig 0 true rest).2.2) ∧
      row.path = afterColon rest := by
  unfold MapRow.parse at h
  split at h
  next flat byte rest field =>
    obtain rfl := Option.some.inj h
    exact ⟨byte, rest, field, scanNumber_eq_scanOrig 0 rest, rfl,
      by rw [afterColon, ← scanOrig_tail 0 true rest]⟩
  next => simp at h

/-! ## A fresh reading -/

section Readings

variable {host : Host} {trustedPrefix : Bytes} {flatLine : UInt32}

def ownerFrom (flatLine : UInt32) (best : Option MapRow) (rows : List MapRow) : Option MapRow :=
  rows.foldl
    (fun best row =>
      if row.key ≤ flatLine.toNat ∧ (best.map MapRow.key).getD 0 ≤ row.key then some row else best)
    best

def bestFlat (best : Option MapRow) : UInt32 := (best.map MapRow.flat).getD 0

theorem toNat_bestFlat (best : Option MapRow) :
    (bestFlat best).toNat = (best.map MapRow.key).getD 0 := by
  cases best <;> rfl

theorem ownerFrom_cons (best : Option MapRow) (row : MapRow) (rows : List MapRow) :
    ownerFrom flatLine best (row :: rows) =
      if row.flat ≤ flatLine ∧ bestFlat best ≤ row.flat then ownerFrom flatLine (some row) rows
      else ownerFrom flatLine best rows := by
  have same : (row.key ≤ flatLine.toNat ∧ (best.map MapRow.key).getD 0 ≤ row.key) ↔
      (row.flat ≤ flatLine ∧ bestFlat best ≤ row.flat) := by
    rw [UInt32.le_iff_toNat_le, UInt32.le_iff_toNat_le, toNat_bestFlat, MapRow.key]
  rw [ownerFrom, foldl_cons]
  by_cases better : row.flat ≤ flatLine ∧ bestFlat best ≤ row.flat
  · rw [if_pos better, if_pos (same.2 better)]
    rfl
  · rw [if_neg better, if_neg (mt same.1 better)]
    rfl

def originalOf (flatLine : UInt32) : Option MapRow → UInt32
  | none => flatLine
  | some row => if row.flat = 0 then flatLine else row.orig + (flatLine - row.flat)

/-- The answer for the runtime library, by the row that owns a line. -/
def runtimeStdOf (host : Host) (trustedPrefix : Bytes) : Option MapRow → Bool
  | none => false
  | some row => if row.flat = 0 then false else pathIsRuntimeStd host row.path trustedPrefix

theorem originalFrom_eq {entries : List Bytes} {rows : List MapRow}
    (parsed : List.Forall₂ (fun entry row => MapRow.parse entry = some row) entries rows)
    (best : Option MapRow) :
    originalFrom flatLine (bestFlat best) ((best.map MapRow.orig).getD 0) entries =
      if rows.all MapRow.origOk then originalOf flatLine (ownerFrom flatLine best rows)
      else flatLine := by
  induction parsed generalizing best with
  | nil =>
    cases best <;> rfl
  | @cons entry row entries rows head tail ih =>
    obtain ⟨byte, rest, field, number, -, -⟩ := MapRow.parse_eq_some head
    rw [originalFrom, field, all_cons]
    dsimp only
    rw [number]
    cases ok : row.origOk with
    | false => simp
    | true =>
      rw [if_pos rfl, ownerFrom_cons, Bool.true_and]
      dsimp only
      split
      next => exact ih (some row)
      next => exact ih best

theorem runtimeStdFrom_eq {entries : List Bytes} {rows : List MapRow}
    (parsed : List.Forall₂ (fun entry row => MapRow.parse entry = some row) entries rows)
    (best : Option MapRow) :
    runtimeStdFrom host trustedPrefix flatLine (bestFlat best) ((best.map MapRow.path).getD [])
      entries = runtimeStdOf host trustedPrefix (ownerFrom flatLine best rows) := by
  induction parsed generalizing best with
  | nil =>
    cases best <;> rfl
  | @cons entry row entries rows head tail ih =>
    obtain ⟨byte, rest, field, -, -, path⟩ := MapRow.parse_eq_some head
    rw [runtimeStdFrom, field, ownerFrom_cons]
    dsimp only
    rw [← path]
    split
    next => exact ih (some row)
    next => exact ih best

end Readings

/-! ## The table of paths -/

section Tables

variable {host : Host} {trustedPrefix path : Bytes} {cache : PathCache} {flatLine : UInt32}

/-- The table holds what resolving the paths says. -/
def PathCache.Sound (host : Host) (trustedPrefix : Bytes) (cache : PathCache) : Prop :=
  ∀ slot old, cache slot = some old → old.std = pathIsRuntimeStd host old.path trustedPrefix

theorem probePath_sound (sound : cache.Sound host trustedPrefix) (hash : UInt64)
    (probes slot : Nat) :
    let answer := probePath cache hash path (pathIsRuntimeStd host path trustedPrefix) probes slot
    answer.1 = pathIsRuntimeStd host path trustedPrefix ∧
      PathCache.Sound host trustedPrefix answer.2 := by
  induction probes generalizing slot with
  | zero => exact ⟨rfl, sound⟩
  | succ probes ih =>
    rw [probePath]
    cases held : cache slot with
    | none =>
      refine ⟨rfl, fun other old found => ?_⟩
      dsimp only at found
      by_cases here : other = slot
      · subst here
        rw [Function.update_self, Option.some.injEq] at found
        rw [← found]
      · rw [Function.update_of_ne here] at found
        exact sound other old found
    | some old =>
      dsimp only
      split
      next same => exact ⟨by rw [sound slot old held, same.2], sound⟩
      next => exact ih _

theorem cachedPathIsStd_sound (sound : cache.Sound host trustedPrefix) :
    let answer := cachedPathIsStd host trustedPrefix path cache
    answer.1 = (decide (trustedPrefix.length > 0) && pathIsRuntimeStd host path trustedPrefix) ∧
      PathCache.Sound host trustedPrefix answer.2 := by
  unfold cachedPathIsStd
  split
  next asked =>
    have answer := @probePath_sound host trustedPrefix path cache sound (pathHash path)
      pathCacheCapacity ((pathHash path).toNat % pathCacheCapacity)
    rw [decide_eq_true asked.1, Bool.true_and]
    exact answer
  rename_i silent
  refine ⟨?_, sound⟩
  by_cases trusted : trustedPrefix.length > 0
  · have outside : path = [] ∨ path.length > 8191 ∨ (!pathHasRuntimeStdComponent path) = true := by
      by_contra inside
      simp only [not_or, Nat.not_lt, Bool.not_eq_true, Bool.not_eq_false'] at inside
      exact silent ⟨trusted, inside.1, inside.2.1, inside.2.2⟩
    rw [pathIsRuntimeStd, if_pos outside, Bool.and_false]
  · rw [decide_eq_false trusted, Bool.false_and]

/-! ## Tables that are valid -/

def MapRow.cached (host : Host) (trustedPrefix : Bytes) (row : MapRow) : CacheRow :=
  { flat := row.flat
    orig := row.orig
    std := decide (trustedPrefix.length > 0) && pathIsRuntimeStd host row.path trustedPrefix }

def LineMapTables.Ordered (tables : LineMapTables) : Prop :=
  tables.sorted = true → tables.rows.Pairwise fun a b => a.flat.toNat ≤ b.flat.toNat

structure Holds (host : Host) (trustedPrefix : Bytes) (before after : LineMapTables)
    (read : List MapRow) : Prop where
  rows : after.rows = before.rows ++ read.map (MapRow.cached host trustedPrefix)
  flatBad : after.flatBad = before.flatBad
  origBad : after.origBad = (before.origBad || !read.all MapRow.origOk)
  ordered : after.Ordered

theorem ordered_concat {tables : LineMapTables} (ordered : tables.Ordered) (row : CacheRow) :
    LineMapTables.Ordered
      { tables with
        rows := tables.rows ++ [row]
        sorted := tables.sorted &&
          !tables.rows.getLast?.any fun last => decide (row.flat < last.flat) } := by
  intro sorted
  dsimp only at sorted ⊢
  rw [Bool.and_eq_true, Bool.not_eq_true'] at sorted
  have before := ordered sorted.1
  rw [pairwise_append]
  refine ⟨before, pairwise_singleton _ _, fun a mem b last => ?_⟩
  obtain rfl := mem_singleton.1 last
  rcases eq_nil_or_concat tables.rows with none | ⟨init, end_, whole⟩
  · simp [none] at mem
  rw [concat_eq_append] at whole
  rw [whole] at mem before sorted
  have upTo : end_.flat.toNat ≤ b.flat.toNat := by
    have last := sorted.2
    simp only [getLast?_concat, Option.any_some, decide_eq_false_iff_not,
      UInt32.not_lt] at last
    exact UInt32.le_iff_toNat_le.1 last
  rw [pairwise_append] at before
  rcases mem_append.1 mem with earlier | last
  · exact Nat.le_trans (before.2.2 a earlier end_ (mem_singleton_self end_)) upTo
  · rwa [mem_singleton.1 last]

theorem buildEntries_holds {entries : List Bytes} {tables : LineMapTables}
    (sound : cache.Sound host trustedPrefix) (ordered : tables.Ordered)
    (unfinished : tables.state ≠ .valid)
    (valid : (buildEntries host trustedPrefix entries tables cache).state = .valid) :
    ∃ rows, List.Forall₂ (fun entry row => MapRow.parse entry = some row) entries rows ∧
      Holds host trustedPrefix tables (buildEntries host trustedPrefix entries tables cache)
        rows := by
  induction entries generalizing tables cache with
  | nil => exact ⟨[], .nil, ⟨by simp [buildEntries], rfl, by simp [buildEntries], ordered⟩⟩
  | cons entry entries ih =>
    cases field : scanNumber 0 entry with
    | none =>
      rw [buildEntries, field] at valid
      exact absurd valid unfinished
    | some scanned =>
      obtain ⟨flat, left⟩ := scanned
      cases left with
      | nil =>
        rw [buildEntries, field] at valid
        exact absurd valid unfinished
      | cons byte rest =>
        rw [buildEntries, field] at valid ⊢
        dsimp only at valid ⊢
        have path := @cachedPathIsStd_sound host trustedPrefix ((scanOrig 0 true rest).2.2.drop 1)
          cache sound
        have parsed : MapRow.parse entry = some { flat := flat, orig := (scanOrig 0 true rest).1
                                                  origOk := (scanOrig 0 true rest).2.1
                                                  path := (scanOrig 0 true rest).2.2.drop 1 } := by
          rw [MapRow.parse, field]
        generalize scanOrig 0 true rest = fields at valid path parsed ⊢
        obtain ⟨orig, ok, tail⟩ := fields
        dsimp only at valid path parsed ⊢
        generalize cachedPathIsStd host trustedPrefix (tail.drop 1) cache = answer at valid path ⊢
        obtain ⟨std, after⟩ := answer
        dsimp only at valid path ⊢
        -- a bad `ORIG` field is noted, and changes nothing else
        generalize noted_eq : (if ok = true then tables else { tables with origBad := true }) =
          noted at valid ⊢
        have noted_rows : noted.rows = tables.rows := by
          rw [← noted_eq]
          cases ok <;> rfl
        have noted_flatBad : noted.flatBad = tables.flatBad := by
          rw [← noted_eq]
          cases ok <;> rfl
        have noted_origBad : noted.origBad = (tables.origBad || !ok) := by
          rw [← noted_eq]
          cases ok <;> simp
        have noted_ordered : noted.Ordered := by
          rw [← noted_eq]
          cases ok <;> exact ordered
        have noted_state : noted.state ≠ .valid := by
          rw [← noted_eq]
          cases ok <;> exact unfinished
        split at valid
        next => exact absurd valid noted_state
        rename_i room
        rw [if_neg room]
        obtain ⟨rows, others, holds⟩ := ih path.2 (ordered_concat noted_ordered _) noted_state valid
        refine ⟨_ :: rows, .cons parsed others, ⟨?_, ?_, ?_, holds.ordered⟩⟩
        · rw [holds.rows, noted_rows, append_assoc, map_cons, path.1]
          rfl
        · rw [holds.flatBad, noted_flatBad]
        · rw [holds.origBad, noted_origBad, all_cons, Bool.not_and, Bool.or_assoc]

/-! ## The row that owns a line -/

def CacheRow.key (row : CacheRow) : Nat := row.flat.toNat

theorem scanBest_spec (flatLine : UInt32) (rows : List CacheRow) :
    (scanBest flatLine rows).1.toNat =
        ((SparseMap.greatest? CacheRow.key rows flatLine.toNat).map CacheRow.key).getD 0 ∧
      (scanBest flatLine rows).2.bind (rows[·]?) =
        SparseMap.greatest? CacheRow.key rows flatLine.toNat ∧
      ∀ index, (scanBest flatLine rows).2 = some index → index < rows.length := by
  induction rows using List.reverseRecOn with
  | nil => exact ⟨rfl, rfl, by simp [scanBest]⟩
  | append_singleton rows row ih =>
    obtain ⟨flat, found, within⟩ := ih
    have step : scanBest flatLine (rows ++ [row]) =
        if row.flat ≤ flatLine ∧ (scanBest flatLine rows).1 ≤ row.flat then
          (row.flat, some rows.length)
        else scanBest flatLine rows := by
      rw [scanBest, zipIdx_append, foldl_append, Nat.zero_add]
      rfl
    have same : (row.flat ≤ flatLine ∧ (scanBest flatLine rows).1 ≤ row.flat) ↔
        row.key ≤ flatLine.toNat ∧
          ((SparseMap.greatest? CacheRow.key rows flatLine.toNat).map CacheRow.key).getD 0 ≤
            row.key := by
      rw [UInt32.le_iff_toNat_le, UInt32.le_iff_toNat_le, flat, CacheRow.key]
    rw [step, SparseMap.greatest?_concat]
    by_cases better : row.flat ≤ flatLine ∧ (scanBest flatLine rows).1 ≤ row.flat
    · rw [if_pos better, if_pos (same.1 better)]
      exact ⟨rfl, by simp, by simp⟩
    rw [if_neg better, if_neg (mt same.2 better)]
    refine ⟨flat, ?_, fun index some => ?_⟩
    · rw [← found]
      cases some : (scanBest flatLine rows).2 with
      | none => rfl
      | some index => simp [getElem?_append_left (within index some)]
    · rw [length_append]
      exact Nat.lt_add_right 1 (within index some)

theorem lineMapCacheBest_eq {tables : LineMapTables} (ordered : tables.Ordered) :
    lineMapCacheBest tables flatLine =
      (SparseMap.greatest? CacheRow.key tables.rows flatLine.toNat).filter (·.flat != 0) := by
  have found : (if tables.sorted = true then
        let low := SparseMap.upperBound (fun row : CacheRow => row.flat.toNat) tables.rows
          flatLine.toNat tables.rows.length 0 tables.rows.length
        if low = 0 then none else some (low - 1)
      else (scanBest flatLine tables.rows).2).bind (tables.rows[·]?) =
      SparseMap.greatest? CacheRow.key tables.rows flatLine.toNat := by
    split
    next sorted =>
      have inOrder : tables.rows.Pairwise fun a b => a.key ≤ b.key := ordered sorted
      rw [SparseMap.greatest?_eq_at? inOrder, ← SparseMap.upperBound_eq_at? inOrder]
      change (if SparseMap.upperBound CacheRow.key _ _ _ _ _ = 0 then none else some _).bind _ = _
      split <;> rfl
    next => exact (scanBest_spec flatLine tables.rows).2.1
  unfold lineMapCacheBest
  dsimp only at found ⊢
  rw [found]
  cases SparseMap.greatest? CacheRow.key tables.rows flatLine.toNat with
  | none => rfl
  | some row => by_cases zero : row.flat = 0 <;> simp [Option.filter, zero]

end Tables

/-! ## The root of the runtime library -/

/-- What resolves to a place beneath a directory shows that the directory resolves to itself. -/
def Canonical (realpath : Bytes → Option Bytes) : Prop :=
  ∀ path resolved directory, realpath path = some resolved → directory ≠ [] →
    directory ++ [47] <+: resolved → realpath directory = some directory

section Roots

variable {host : Host}

theorem length_pos_of_resolved {trustedPrefix : Bytes}
    (h : sourceRuntimeStdRootPrefix host = (true, trustedPrefix)) : trustedPrefix.length > 0 := by
  unfold sourceRuntimeStdRootPrefix at h
  dsimp only at h
  split at h
  next => simp at h
  split at h
  next => simp at h
  split at h
  next => simp at h
  split at h
  next => simp at h
  split at h
  next => simp at h
  next =>
    obtain ⟨-, rfl⟩ := Prod.mk.inj h
    simp [ascii]

theorem pathIsRuntimeStd_of_unresolved {trustedPrefix : Bytes} (canonical : Canonical host.realpath)
    (h : sourceRuntimeStdRootPrefix host = (false, trustedPrefix)) (path : Bytes) :
    (decide (trustedPrefix.length > 0) && pathIsRuntimeStd host path trustedPrefix) = false := by
  by_contra beneath
  rw [Bool.not_eq_false, Bool.and_eq_true, decide_eq_true_iff] at beneath
  obtain ⟨some, beneath⟩ := beneath
  unfold pathIsRuntimeStd at beneath
  split at beneath
  next => simp at beneath
  split at beneath
  next => simp at beneath
  rename_i resolved path_eq
  dsimp only at beneath
  split at beneath
  next => simp at beneath
  rename_i fits
  rw [not_or, Nat.not_le] at fits
  have inside : trustedPrefix <+: resolved :=
    ( isPrefixOf_iff_prefix.1 beneath).trans
      (( take_prefix _ _).trans ( takeWhile_prefix _))
  have short : (bufferString resolved).length ≤ bufferSize := length_take_le _ _
  unfold sourceRuntimeStdRootPrefix at h
  dsimp only at h
  split at h
  next =>
    obtain ⟨-, rfl⟩ := Prod.mk.inj h
    simp at some
  split at h
  next =>
    obtain ⟨-, rfl⟩ := Prod.mk.inj h
    simp at some
  split at h
  next =>
    obtain ⟨-, rfl⟩ := Prod.mk.inj h
    simp at some
  split at h
  next missing =>
    -- the root is a directory above a resolved path, and does not resolve
    obtain ⟨-, rfl⟩ := Prod.mk.inj h
    have exists_ := canonical _ _ _ path_eq (by simp [ascii]) inside
    rw [missing] at exists_
    simp at exists_
  split at h
  next unusable =>
    obtain ⟨-, rfl⟩ := Prod.mk.inj h
    omega
  next => simp at h

end Roots

/-! ## One map -/

section Maps

variable {host : Host} {flatLine : UInt32}

theorem lineMapCacheBuild_agrees (canonical : Canonical host.realpath) {map : Bytes}
    (valid : (lineMapCacheBuild host map).state = .valid) :
    lineMapCachedOriginalLine (lineMapCacheBuild host map) flatLine =
        sourceOriginalLineFromMap (some map) flatLine ∧
      lineMapCachedIsRuntimeStd (lineMapCacheBuild host map) flatLine =
        sourceLineIsRuntimeStdFromMap host (some map) flatLine := by
  have empty : PathCache.Sound host (sourceRuntimeStdRootPrefix host).2 fun _ => none := by
    rintro slot old found
    simp at found
  obtain ⟨rows, parsed, holds⟩ := buildEntries_holds empty
    (fun _ => List.Pairwise.nil) (by simp) valid
  change Holds host _ _ (lineMapCacheBuild host map) rows at holds
  have best : lineMapCacheBest (lineMapCacheBuild host map) flatLine =
      ((ownerFrom flatLine none rows).map
        (MapRow.cached host (sourceRuntimeStdRootPrefix host).2)).filter (·.flat != 0) := by
    rw [lineMapCacheBest_eq holds.ordered, holds.rows, nil_append, SparseMap.greatest?_map]
    rfl
  have original := @originalFrom_eq flatLine _ _ parsed none
  have std (trustedPrefix : Bytes) := @runtimeStdFrom_eq host trustedPrefix flatLine _ _ parsed none
  constructor
  · rw [lineMapCachedOriginalLine, holds.flatBad, holds.origBad, best, sourceOriginalLineFromMap]
    dsimp only
    rw [Bool.false_or, Bool.false_or]
    refine Eq.trans ?_ original.symm
    cases rows.all MapRow.origOk with
    | false => rfl
    | true =>
      cases ownerFrom flatLine none rows with
      | none => rfl
      | some row =>
        by_cases zero : row.flat = 0 <;> simp [originalOf, MapRow.cached, Option.filter, zero]
  · rw [lineMapCachedIsRuntimeStd, holds.flatBad, best, sourceLineIsRuntimeStdFromMap]
    dsimp only
    cases root : sourceRuntimeStdRootPrefix host with
    | mk resolved trustedPrefix =>
      have known : ∀ path, (decide (trustedPrefix.length > 0) &&
          pathIsRuntimeStd host path trustedPrefix) =
            (resolved && pathIsRuntimeStd host path trustedPrefix) := by
        intro path
        cases resolved with
        | false => exact pathIsRuntimeStd_of_unresolved canonical root path
        | true => rw [decide_eq_true (length_pos_of_resolved root)]
      have owner := std trustedPrefix
      cases resolved with
      | false =>
        cases ownerFrom flatLine none rows with
        | none => rfl
        | some row =>
          by_cases zero : row.flat = 0 <;>
            simp [MapRow.cached, Option.filter, zero, known]
      | true =>
        refine Eq.trans ?_ owner.symm
        cases ownerFrom flatLine none rows with
        | none => rfl
        | some row =>
          by_cases zero : row.flat = 0 <;>
            simp [runtimeStdOf, MapRow.cached, Option.filter, zero, known]

end Maps

/-! ## All runs -/

section Runs

variable {host : Host} {s : LineMapState}

/-- Tables that are kept are those of the visible map. -/
def LineMapState.Fresh (host : Host) (s : LineMapState) : Prop :=
  s.tables.state ≠ .unbuilt → s.tables = lineMapCacheBuild host (s.mapValue.getD [])

theorem LineMapState.Fresh.ready (fresh : s.Fresh host) :
    (s.ready host).2.Fresh host ∧ (s.ready host).2.mapValue = s.mapValue ∧
      (s.ready host).2.generation = s.generation ∧
      ((s.ready host).1 = true →
        (s.ready host).2.tables = lineMapCacheBuild host (s.mapValue.getD []) ∧
          (lineMapCacheBuild host (s.mapValue.getD [])).state = .valid) := by
  have rebuilt (key : Nat) :
      let answer := if key = s.key ∧ s.tables.state ≠ .unbuilt then (s.tables.state == .valid, s)
        else
          let tables := lineMapCacheBuild host (s.mapValue.getD [])
          (tables.state == .valid, { s with key := key, tables := tables })
      answer.2.Fresh host ∧ answer.2.mapValue = s.mapValue ∧ answer.2.generation = s.generation ∧
        (answer.1 = true → answer.2.tables = lineMapCacheBuild host (s.mapValue.getD []) ∧
          (lineMapCacheBuild host (s.mapValue.getD [])).state = .valid) := by
    split
    next kept =>
      refine ⟨fresh, rfl, rfl, fun valid => ?_⟩
      have same := fresh kept.2
      exact ⟨same, same ▸ beq_iff_eq.1 valid⟩
    next => exact ⟨fun _ => rfl, rfl, rfl, fun valid => ⟨rfl, beq_iff_eq.1 valid⟩⟩
  unfold LineMapState.ready
  dsimp only
  split
  next => exact rebuilt 1
  split
  next pointer _ _ => exact rebuilt pointer
  next => exact ⟨fresh, rfl, rfl, by simp⟩

theorem LineMapState.Fresh.step (fresh : s.Fresh host) (op : LineMapOp) :
    (s.step host op).Fresh host := by
  have dropped {other : LineMapState} (unbuilt : other.tables.state = .unbuilt) :
      other.Fresh host := fun built => absurd unbuilt built
  cases op with
  | publish map =>
    unfold LineMapState.step LineMapState.publish
    dsimp only
    split
    · exact fresh
    · exact dropped rfl
  | clear => exact dropped rfl
  | suspend =>
    unfold LineMapState.step LineMapState.suspend
    dsimp only
    split
    · exact fresh
    · exact dropped rfl
  | resume storage suspended pointer =>
    unfold LineMapState.step LineMapState.resume
    dsimp only
    split
    · exact fresh
    · exact dropped rfl
  | lookup => exact fresh.ready.1

theorem LineMapState.Fresh.run (fresh : s.Fresh host) (ops : List LineMapOp) :
    (s.run host ops).Fresh host := by
  induction ops generalizing s with
  | nil => exact fresh
  | cons op ops ih => exact ih (fresh.step op)

theorem LineMapState.fresh_initial (environment : Option (Nat × Bytes)) :
    (LineMapState.initial environment).Fresh host := fun built => absurd rfl built

theorem fromMap_getD (map : Option Bytes) (flatLine : UInt32) :
    sourceOriginalLineFromMap (some (map.getD [])) flatLine =
      sourceOriginalLineFromMap map flatLine ∧
      sourceLineIsRuntimeStdFromMap host (some (map.getD [])) flatLine =
        sourceLineIsRuntimeStdFromMap host map flatLine := by
  cases map with
  | some map => exact ⟨rfl, rfl⟩
  | none =>
    refine ⟨by simp [sourceOriginalLineFromMap, lineMapEntries, originalFrom], ?_⟩
    cases root : sourceRuntimeStdRootPrefix host with
    | mk resolved trustedPrefix =>
      cases resolved <;>
        simp [sourceLineIsRuntimeStdFromMap, root, lineMapEntries, runtimeStdFrom]

/-- Whatever a process has done with its line maps, where the cache is ready it answers every
line as a fresh reading of the visible map does. -/
theorem line_map_cache_agrees (canonical : Canonical host.realpath)
    (environment : Option (Nat × Bytes)) (ops : List LineMapOp) (flatLine : UInt32)
    (ready : (((LineMapState.initial environment).run host ops).ready host).1 = true) :
    let s := (LineMapState.initial environment).run host ops
    lineMapCachedOriginalLine (s.ready host).2.tables flatLine =
        sourceOriginalLineFromMap s.mapValue flatLine ∧
      lineMapCachedIsRuntimeStd (s.ready host).2.tables flatLine =
        sourceLineIsRuntimeStdFromMap host s.mapValue flatLine := by
  intro s
  have fresh : s.Fresh host := (LineMapState.fresh_initial environment).run ops
  obtain ⟨tables, valid⟩ := fresh.ready.2.2.2 ready
  rw [tables]
  have agrees := @lineMapCacheBuild_agrees host flatLine canonical _ valid
  have missing := @fromMap_getD host s.mapValue flatLine
  exact ⟨agrees.1.trans missing.1, agrees.2.trans missing.2⟩

/-! ### An installed compiler -/

def installedFiles : List Bytes :=
  ["/opt", "/opt/elisa", "/opt/elisa/bin", "/opt/elisa/bin/elisac", "/opt/elisa/elisacore_std",
    "/opt/elisa/elisacore_std/core.elisa"].map ascii

def installedHost : Host :=
  { executablePath := some (ascii "/opt/elisa/bin/elisac")
    realpath := fun path => if path ∈ installedFiles then some path else none }

theorem installedHost_canonical : Canonical installedHost.realpath := by
  intro path resolved directory found some beneath
  have closed : ∀ file ∈ installedFiles, ∀ size ∈ List.range file.length, file.take size ≠ [] →
      (file.take size ++ [47]).isPrefixOf file = true → file.take size ∈ installedFiles := by
    decide +kernel
  simp only [installedHost, Option.ite_none_right_eq_some] at found ⊢
  obtain ⟨mem, same⟩ := found
  obtain rfl := Option.some.inj same
  obtain ⟨rest, whole⟩ := beneath
  have directory_eq : path.take directory.length = directory := by
    rw [← whole, append_assoc, take_left]
  have shorter : directory.length < path.length := by
    rw [← whole]
    simp
  have inside := closed path mem directory.length (mem_range.2 shorter)
  rw [directory_eq] at inside
  exact ⟨inside some ( isPrefixOf_iff_prefix.2 ⟨rest, whole⟩), trivial⟩

def installedMap : Bytes :=
  ascii "1:1:src/main.elisa" ++ [10] ++ ascii "10:3:/opt/elisa/elisacore_std/core.elisa" ++ [10]

theorem installed_line_map_cache_agrees :
    let s := (LineMapState.initial none).run installedHost [.publish installedMap]
    lineMapCachedOriginalLine (s.ready installedHost).2.tables 12 =
        sourceOriginalLineFromMap s.mapValue 12 ∧
      lineMapCachedIsRuntimeStd (s.ready installedHost).2.tables 12 =
        sourceLineIsRuntimeStdFromMap installedHost s.mapValue 12 :=
  line_map_cache_agrees installedHost_canonical none [.publish installedMap] 12 (by decide +kernel)

example : let s := (LineMapState.initial none).run installedHost [.publish installedMap]
    s.sourceOriginalLine installedHost 12 = 5 ∧
      s.sourceLineIsRuntimeStd installedHost 12 = true ∧
        s.sourceLineIsRuntimeStd installedHost 9 = false := by decide +kernel

end Runs

end Elisa.Lexer
