import Elisa.Bytes
import Elisa.Lib.HeightStack
import Elisa.Lib.LexicalPaths

/-!
# Paths of the project system

`pathClean` (`project_paths.elisa`) goes over a path once and keeps the spans of its segments on a
stack.  It writes the lexical resolution of the path (`pathClean_eq`), so that a clean path denotes
itself (`denote_pathClean`).  A leaf can be cleaned before it is joined to a base, but for a rooted
one that leads above its root (`pathJoin_pathClean_iff`).
-/

namespace Elisa.ProjectSystem

open Lib Lib.LexicalPaths List

abbrev forwardSlash : UInt8 := 47

/-- The segment `.` -/
def here : Bytes := [46]

/-- The segment `..` -/
def parent : Bytes := [46, 46]

/-! ## Cleaning -/

def pathIsAbsolute (path : Bytes) : Bool := path[0]? == some forwardSlash

/-- The start and the length of a segment. -/
abbrev Span := Nat × Nat

def spanText (path : Bytes) (span : Span) : Bytes := (path.drop span.1).take span.2

def isParentSpan (path : Bytes) (span : Span) : Bool :=
  span.2 == 2 && path[span.1]? == some 46 && path[span.1 + 1]? == some 46

def isDotSpan (path : Bytes) (span : Span) : Bool := span.2 == 1 && path[span.1]? == some 46

structure CleanState where
  segmentStart : Nat
  segments : HeightStack Span

def cleanSegment (path : Bytes) (rooted : Bool) (segments : HeightStack Span) (span : Span) :
    HeightStack Span :=
  if span.2 == 0 || isDotSpan path span then segments
  else if isParentSpan path span then
    match segments.top? with
    | some top => if !isParentSpan path top then segments.pop else segments.push span
    | none => if rooted then segments else segments.push span
  else segments.push span

def cleanStep (path : Bytes) (rooted : Bool) (state : CleanState) (index : Nat) : CleanState :=
  let byte := if index = path.length then forwardSlash else path.getD index 0
  if byte = forwardSlash then
    { segmentStart := index + 1
      segments := cleanSegment path rooted state.segments
        (state.segmentStart, index - state.segmentStart) }
  else state

def pathClean (path : Bytes) : Bytes :=
  let rooted := pathIsAbsolute path
  let state := (List.range (path.length + 1)).foldl (cleanStep path rooted) ⟨0, .empty⟩
  let out := (if rooted then [forwardSlash] else []) ++
    [forwardSlash].intercalate (state.segments.live.reverse.map (spanText path))
  if out = [] then [46] else out

def pathJoin (base leaf : Bytes) : Bytes :=
  pathClean (base ++ (if base ≠ [] ∧ leaf ≠ [] then [forwardSlash] else []) ++ leaf)

def absolutePath (workingDirectory path : Bytes) : Bytes :=
  if pathIsAbsolute path then pathClean path else pathJoin workingDirectory path

/-! ## What a path denotes -/

/-- A place, relative to the root or to where a relative path starts: the segments that lead there,
the last one first. -/
structure Location where
  rooted : Bool
  kept : List Bytes
  deriving DecidableEq

def isSkipped (segment : Bytes) : Bool := segment == [] || segment == here

def pathSegments (path : Bytes) : List Bytes := path.splitOn forwardSlash

def denote (path : Bytes) : Location where
  rooted := pathIsAbsolute path
  kept := resolve isSkipped parent (pathIsAbsolute path) [] (pathSegments path)

def Location.render (location : Location) : Bytes :=
  if location.rooted = false ∧ location.kept = [] then here
  else (if location.rooted then [forwardSlash] else []) ++
    [forwardSlash].intercalate location.kept.reverse

theorem parent_kept : isSkipped parent = false := by decide

/-! ## The loop resolves the path -/

section
variable {path : Bytes} {span : Span} {rooted : Bool} {stack : HeightStack Span}

def SpansWithin (path : Bytes) (stack : HeightStack Span) : Prop :=
  ∀ span ∈ stack.live, span.1 + span.2 ≤ path.length

theorem length_spanText (within : span.1 + span.2 ≤ path.length) :
    (spanText path span).length = span.2 := by
  simp [spanText]
  omega

theorem getElem?_spanText (path : Bytes) (span : Span) (offset : Nat) (inside : offset < span.2) :
    (spanText path span)[offset]? = path[span.1 + offset]? := by
  rw [spanText, getElem?_take_of_lt inside, getElem?_drop]

theorem isDotSpan_eq (within : span.1 + span.2 ≤ path.length) :
    isDotSpan path span = (spanText path span == here) := by
  rw [Bool.eq_iff_iff, isDotSpan, Bool.and_eq_true, beq_iff_eq, beq_iff_eq, beq_iff_eq]
  have length := length_spanText within
  constructor
  · rintro ⟨one, dot⟩
    rw [one] at length
    obtain ⟨byte, eq⟩ := length_eq_one_iff.1 length
    have first := getElem?_spanText path span 0 (by omega)
    rw [eq, Nat.add_zero, dot] at first
    rw [eq, here, Option.some.inj first]
  · intro eq
    rw [eq] at length
    have first := getElem?_spanText path span 0 (length ▸ by decide)
    rw [eq] at first
    exact ⟨length.symm, first.symm⟩

theorem isParentSpan_eq (within : span.1 + span.2 ≤ path.length) :
    isParentSpan path span = (spanText path span == parent) := by
  rw [Bool.eq_iff_iff, isParentSpan, Bool.and_eq_true, Bool.and_eq_true, beq_iff_eq, beq_iff_eq,
    beq_iff_eq, beq_iff_eq]
  have length := length_spanText within
  constructor
  · rintro ⟨⟨two, dot⟩, dot'⟩
    rw [two] at length
    obtain ⟨byte, byte', eq⟩ := length_eq_two.1 length
    have first := getElem?_spanText path span 0 (by omega)
    have second := getElem?_spanText path span 1 (by omega)
    rw [eq, Nat.add_zero, dot] at first
    rw [eq, dot'] at second
    rw [eq, parent, Option.some.inj first, Option.some.inj second]
  · intro eq
    rw [eq] at length
    have first := getElem?_spanText path span 0 (length ▸ by decide)
    have second := getElem?_spanText path span 1 (length ▸ by decide)
    rw [eq] at first second
    exact ⟨⟨length.symm, first.symm⟩, second.symm⟩

theorem cleanSegment_push (rooted : Bool) (span : Span) (spans : SpansWithin path stack)
    (within : span.1 + span.2 ≤ path.length) :
    SpansWithin path (cleanSegment path rooted stack span) ∧
      (cleanSegment path rooted stack span).live.map (spanText path) =
        push isSkipped parent rooted (stack.live.map (spanText path)) (spanText path span) := by
  have pushed : SpansWithin path (stack.push span) := by
    intro other mem
    rw [HeightStack.live_push] at mem
    rcases mem_cons.1 mem with rfl | mem
    · exact within
    · exact spans other mem
  have empty : (span.2 == 0) = (spanText path span == []) := by
    rw [Bool.eq_iff_iff, beq_iff_eq, beq_iff_eq, ← length_eq_zero_iff, length_spanText within]
  have skipped : (span.2 == 0 || isDotSpan path span) = isSkipped (spanText path span) := by
    rw [empty, isDotSpan_eq within]
    rfl
  unfold cleanSegment
  rw [skipped, isParentSpan_eq within]
  cases skip : isSkipped (spanText path span) with
  | true =>
    rw [push_skip skip, if_pos rfl]
    exact ⟨spans, rfl⟩
  | false =>
    rw [if_neg Bool.false_ne_true]
    cases up : (spanText path span == parent) with
    | false =>
      rw [push_name skip (beq_eq_false_iff_ne.1 up), if_neg Bool.false_ne_true,
        HeightStack.live_push]
      exact ⟨pushed, rfl⟩
    | true =>
      rw [beq_iff_eq] at up
      rw [if_pos rfl, up]
      cases top : stack.top? with
      | none =>
        have none : stack.live = [] := HeightStack.top?_eq_none_iff.1 top
        rw [none, map_nil, push_parent_nil parent_kept]
        cases rooted with
        | true =>
          dsimp only
          rw [if_pos rfl, if_pos rfl, none]
          exact ⟨spans, rfl⟩
        | false =>
          dsimp only
          rw [if_neg Bool.false_ne_true, if_neg Bool.false_ne_true, HeightStack.live_push, none,
            map_cons, up]
          exact ⟨pushed, rfl⟩
      | some last =>
        have live := HeightStack.live_of_top top
        have lastWithin : last.1 + last.2 ≤ path.length := spans last (live ▸ .head _)
        dsimp only
        rw [isParentSpan_eq lastWithin, live, map_cons, push_parent_cons parent_kept]
        cases above : (spanText path last == parent) with
        | true =>
          rw [beq_iff_eq] at above
          rw [Bool.not_true, if_neg Bool.false_ne_true, if_pos above, HeightStack.live_push, live,
            map_cons, map_cons, up]
          exact ⟨pushed, rfl⟩
        | false =>
          rw [beq_eq_false_iff_ne] at above
          rw [Bool.not_false, if_pos rfl, if_neg above]
          exact ⟨fun other mem => spans other (live ▸ .tail _ mem), rfl⟩

theorem foldl_cleanStep (count : Nat) {state : CleanState} {index : Nat}
    (rest : index + count = path.length) (started : state.segmentStart ≤ index)
    (inside : forwardSlash ∉ spanText path (state.segmentStart, index - state.segmentStart))
    (spans : SpansWithin path state.segments) :
    ((List.range' index (count + 1)).foldl (cleanStep path rooted) state).segments.live.map
        (spanText path) =
      resolve isSkipped parent rooted (state.segments.live.map (spanText path))
        (pathSegments (path.drop state.segmentStart)) := by
  induction count generalizing state index with
  | zero =>
    obtain rfl : index = path.length := rest
    have last : spanText path (state.segmentStart, path.length - state.segmentStart) =
        path.drop state.segmentStart := take_of_length_le (by simp)
    have closed := cleanSegment_push rooted
      (state.segmentStart, path.length - state.segmentStart) spans
        (Nat.le_of_eq (Nat.add_sub_cancel' started))
    rw [last] at closed inside
    have one : pathSegments (path.drop state.segmentStart) = [path.drop state.segmentStart] :=
      splitOn_eq_singleton inside
    rw [one]
    refine Eq.trans ?_ closed.2
    simp [cleanStep]
  | succ count ih =>
    have index_lt : index < path.length := by omega
    rw [range'_succ, foldl_cons]
    have byte : path.getD index 0 = path[index] := by simp [index_lt]
    have grown : spanText path (state.segmentStart, index + 1 - state.segmentStart) =
        spanText path (state.segmentStart, index - state.segmentStart) ++ [path[index]] := by
      unfold spanText
      dsimp only
      rw [show index + 1 - state.segmentStart = index - state.segmentStart + 1 by omega,
        take_add_one, getElem?_drop, Nat.add_sub_cancel' started,
        getElem?_eq_getElem index_lt]
      rfl
    unfold cleanStep
    dsimp only
    rw [if_neg (Nat.ne_of_lt index_lt), byte]
    by_cases slash : path[index] = forwardSlash
    · rw [if_pos slash]
      have closed := cleanSegment_push rooted
        (state.segmentStart, index - state.segmentStart) spans (by dsimp only; omega)
      have split : path.drop state.segmentStart =
          spanText path (state.segmentStart, index - state.segmentStart) ++
            forwardSlash :: path.drop (index + 1) := by
        rw [← slash, ← drop_eq_getElem_cons index_lt]
        conv_lhs =>
          rw [← take_append_drop (index - state.segmentStart) (path.drop state.segmentStart)]
        rw [drop_drop, Nat.add_sub_cancel' started]
        rfl
      have segments : pathSegments (path.drop state.segmentStart) =
          spanText path (state.segmentStart, index - state.segmentStart) ::
            pathSegments (path.drop (index + 1)) := by
        rw [pathSegments, split]
        exact splitOn_append_cons_self_of_not_mem inside _
      refine (ih (show index + 1 + count = path.length by omega)
        (Nat.le_refl _) (by simp [spanText])
        closed.1).trans ?_
      rw [closed.2, segments]
      rfl
    · rw [if_neg slash]
      refine ih (show index + 1 + count = path.length by omega) (by omega) ?_ spans
      rw [grown, mem_append, mem_singleton, not_or]
      exact ⟨inside, Ne.symm slash⟩

end

/-! ## Clean paths -/

section
variable {path base leaf : Bytes} {location : Location}

theorem clean_denote (path : Bytes) :
    Clean isSkipped parent (denote path).rooted (denote path).kept :=
  clean_nil.resolve parent_kept _

theorem not_mem_of_mem_splitOn {segment : Bytes} (mem : segment ∈ pathSegments path) :
    forwardSlash ∉ segment := by
  unfold pathSegments at mem
  induction path generalizing segment with
  | nil =>
    obtain rfl : segment = [] := by simpa using mem
    exact not_mem_nil
  | cons byte path ih =>
    rw [splitOn_cons_eq_if_modifyHead] at mem
    cases rest : path.splitOn forwardSlash with
    | nil => exact (splitOn_ne_nil _ _ rest).elim
    | cons first segments =>
      rw [rest] at mem ih
      by_cases slash : byte = forwardSlash
      · rw [if_pos (beq_iff_eq.2 slash)] at mem
        rcases mem_cons.1 mem with rfl | mem
        · exact not_mem_nil
        · exact ih mem
      rw [if_neg (mt beq_iff_eq.1 slash), modifyHead_cons] at mem
      rcases mem_cons.1 mem with rfl | mem
      · rw [mem_cons, not_or]
        exact ⟨Ne.symm slash, ih (.head _)⟩
      · exact ih (.tail _ mem)

theorem slash_not_mem_denote {segment : Bytes} (mem : segment ∈ (denote path).kept) :
    forwardSlash ∉ segment := by
  rcases mem_resolve mem with mem | mem
  · cases mem
  · exact not_mem_of_mem_splitOn mem

theorem ne_nil_of_kept {rooted : Bool} {kept : List Bytes} {segment : Bytes}
    (clean : Clean isSkipped parent rooted kept) (mem : segment ∈ kept) :
    segment ≠ [] ∧ segment ≠ here := by
  have kept : isSkipped segment = false := by
    by_cases up : segment = parent
    · exact up ▸ parent_kept
    · exact clean.not_skip mem up
  simpa [isSkipped] using kept

theorem pathClean_eq (path : Bytes) : pathClean path = (denote path).render := by
  have loop : ((List.range (path.length + 1)).foldl (cleanStep path (pathIsAbsolute path))
      ⟨0, .empty⟩).segments.live.map (spanText path) = (denote path).kept := by
    rw [range_eq_range']
    exact foldl_cleanStep path.length (Nat.zero_add _) (Nat.le_refl 0) (by simp [spanText])
      (by simp [SpansWithin])
  have written : ∀ kept : List Bytes, (∀ segment ∈ kept, segment ≠ []) →
      ([forwardSlash].intercalate kept = [] ↔ kept = []) := by
    intro kept nonempty
    cases kept with
    | nil => simp
    | cons first rest =>
      have some := nonempty first (.head _)
      cases rest with
      | nil => simpa using some
      | cons second rest => simp
  have segments : ∀ segment ∈ (denote path).kept.reverse, segment ≠ [] := fun segment mem =>
    (ne_nil_of_kept (clean_denote path) (mem_reverse.1 mem)).1
  have empty := written _ segments
  unfold pathClean Location.render
  dsimp only
  rw [map_reverse, loop]
  change _ = if pathIsAbsolute path = false ∧ (denote path).kept = [] then here
    else (if pathIsAbsolute path then [forwardSlash] else []) ++
      [forwardSlash].intercalate (denote path).kept.reverse
  rw [reverse_eq_nil_iff] at empty
  cases pathIsAbsolute path with
  | true => simp
  | false => simp [empty, here]

theorem intercalate_reverse_segments {kept : List Bytes} (some : kept ≠ [])
    (plain : ∀ segment ∈ kept, forwardSlash ∉ segment) :
    pathSegments ([forwardSlash].intercalate kept.reverse) = kept.reverse :=
  splitOn_intercalate _ (fun segment mem => plain segment (mem_reverse.1 mem))
    (mt reverse_eq_nil_iff.1 some)

theorem denote_render (clean : Clean isSkipped parent location.rooted location.kept)
    (plain : ∀ segment ∈ location.kept, forwardSlash ∉ segment) :
    denote location.render = location := by
  obtain ⟨rooted, kept⟩ := location
  have resolved := clean.resolve_reverse parent_kept
  dsimp only at clean plain resolved
  cases rooted with
  | true =>
    have absolute : pathIsAbsolute (Location.render ⟨true, kept⟩) = true := by
      simp [Location.render, pathIsAbsolute]
    have segments : pathSegments (Location.render ⟨true, kept⟩) =
        [] :: pathSegments ([forwardSlash].intercalate kept.reverse) := by
      simp [Location.render, pathSegments, splitOn_cons_eq_if_modifyHead]
    have skip : ∀ segments : List Bytes, resolve isSkipped parent true [] ([] :: segments) =
        resolve isSkipped parent true [] segments := fun _ => rfl
    unfold denote
    rw [absolute, segments, skip]
    cases kept with
    | nil => rfl
    | cons last kept => rw [intercalate_reverse_segments (by simp) plain, resolved]
  | false =>
    cases kept with
    | nil => decide
    | cons last kept =>
      have text : Location.render ⟨false, last :: kept⟩ =
          [forwardSlash].intercalate (last :: kept).reverse := by simp [Location.render]
      have relative :
        pathIsAbsolute ([forwardSlash].intercalate (last :: kept).reverse) = false := by
        cases written : (last :: kept).reverse with
        | nil => simp at written
        | cons first rest =>
          have mem : first ∈ last :: kept := by
            rw [← mem_reverse, written]
            exact .head _
          cases first with
          | nil => exact absurd rfl (ne_nil_of_kept clean mem).1
          | cons byte first =>
            have slash : byte ≠ forwardSlash := fun same => plain _ mem (same ▸ .head _)
            cases rest <;> simpa [pathIsAbsolute] using slash
      unfold denote
      rw [text, relative, intercalate_reverse_segments (by simp) plain, resolved]

theorem denote_pathClean (path : Bytes) : denote (pathClean path) = denote path := by
  rw [pathClean_eq]
  exact denote_render (clean_denote path) fun _ => slash_not_mem_denote

theorem pathClean_eq_iff {other : Bytes} :
    pathClean path = pathClean other ↔ denote path = denote other := by
  constructor
  · intro same
    rw [← denote_pathClean path, same, denote_pathClean]
  · intro same
    rw [pathClean_eq, pathClean_eq, same]

theorem pathClean_ne_nil (path : Bytes) : pathClean path ≠ [] := by
  have shape : ∀ out : Bytes, (if out = [] then here else out) ≠ [] := by
    intro out
    split
    next => exact cons_ne_nil _ _
    next some => exact some
  exact shape _

/-! ## Joins -/

theorem denote_join (some : base ≠ []) :
    denote (base ++ (if base ≠ [] ∧ leaf ≠ [] then [forwardSlash] else []) ++ leaf) =
      ⟨(denote base).rooted,
        resolve isSkipped parent (denote base).rooted (denote base).kept (pathSegments leaf)⟩ := by
  by_cases empty : leaf = []
  · subst empty
    rw [if_neg (by simp), append_nil, append_nil]
    rfl
  have absolute : pathIsAbsolute (base ++ [forwardSlash] ++ leaf) = pathIsAbsolute base := by
    cases base with
    | nil => exact absurd rfl some
    | cons byte base => rfl
  have segments : pathSegments (base ++ [forwardSlash] ++ leaf) =
      pathSegments base ++ pathSegments leaf := by
    rw [append_assoc]
    exact splitOn_append_cons_self ..
  rw [if_pos ⟨some, empty⟩]
  unfold denote
  rw [absolute, segments, resolve_append]

theorem pathJoin_nil (leaf : Bytes) : pathJoin [] leaf = pathClean leaf := by simp [pathJoin]

theorem pathJoin_eq_iff {other : Bytes} (some : base ≠ []) :
    pathJoin base leaf = pathJoin base other ↔
      resolve isSkipped parent (denote base).rooted (denote base).kept (pathSegments leaf) =
        resolve isSkipped parent (denote base).rooted (denote base).kept (pathSegments other) := by
  rw [pathJoin, pathJoin, pathClean_eq_iff, denote_join some, denote_join some]
  simp

theorem pathIsAbsolute_pathClean (path : Bytes) :
    pathIsAbsolute (pathClean path) = pathIsAbsolute path :=
  congrArg Location.rooted (denote_pathClean path)

theorem resolve_pathClean (rooted : Bool) (kept : List Bytes) (path : Bytes) :
    resolve isSkipped parent rooted kept (pathSegments (pathClean path)) =
      resolve isSkipped parent rooted kept (denote path).kept.reverse := by
  have plain : ∀ segment ∈ (denote path).kept, forwardSlash ∉ segment :=
    fun _ => slash_not_mem_denote
  have skip : ∀ segments : List Bytes, resolve isSkipped parent rooted kept ([] :: segments) =
      resolve isSkipped parent rooted kept segments := fun _ => rfl
  rw [pathClean_eq]
  generalize denote path = location at plain
  obtain ⟨absolute, segments⟩ := location
  dsimp only at plain ⊢
  have text : resolve isSkipped parent rooted kept
    (pathSegments ([forwardSlash].intercalate segments.reverse)) =
      resolve isSkipped parent rooted kept segments.reverse := by
    cases segments with
    | nil => exact skip []
    | cons last segments => rw [intercalate_reverse_segments (by simp) plain]
  cases absolute with
  | true =>
    have start : pathSegments (Location.render ⟨true, segments⟩) =
        [] :: pathSegments ([forwardSlash].intercalate segments.reverse) := by
      simp [Location.render, pathSegments, splitOn_cons_eq_if_modifyHead]
    rw [start, skip, text]
  | false =>
    cases segments with
    | nil => rfl
    | cons last segments =>
      rw [← text]
      simp [Location.render]

/-- A `..` of a path is not cancelled by a name before it. -/
def LeadsUp (path : Bytes) : Prop := parent ∈ resolve isSkipped parent false [] (pathSegments path)

/-- A leaf can be cleaned before it is joined, unless it is a rooted one that leads above its root,
and the base is neither empty nor a root itself. -/
theorem pathJoin_pathClean_iff (base leaf : Bytes) :
    pathJoin base (pathClean leaf) = pathJoin base leaf ↔
      ¬(base ≠ [] ∧ denote base ≠ ⟨true, []⟩ ∧ pathIsAbsolute leaf = true ∧ LeadsUp leaf) := by
  by_cases empty : base = []
  · subst empty
    rw [pathJoin_nil, pathJoin_nil, pathClean_eq_iff, denote_pathClean]
    simp
  rw [pathJoin_eq_iff empty, resolve_pathClean]
  generalize denote base = location
  obtain ⟨rooted, kept⟩ := location
  dsimp only
  have clean : Clean isSkipped parent false
    (resolve isSkipped parent false [] (pathSegments leaf)) :=
    clean_nil.resolve parent_kept _
  -- What is resolved as a relative path shows what leads up.
  rw [← resolve_resolve parent_kept rooted kept (pathSegments leaf)]
  change resolve isSkipped parent rooted kept
    (resolve isSkipped parent (pathIsAbsolute leaf) [] (pathSegments leaf)).reverse = _ ↔ _
  rw [← resolve_resolve parent_kept (pathIsAbsolute leaf) [] (pathSegments leaf), LeadsUp]
  generalize resolve isSkipped parent false [] (pathSegments leaf) = relative at clean
  cases pathIsAbsolute leaf with
  | false =>
    rw [clean.resolve_reverse parent_kept]
    simp
  | true =>
    obtain ⟨names, ups, rfl, named, -⟩ := clean
    have leads : parent ∈ names ++ List.replicate ups parent ↔ ups ≠ 0 := by
      have apart : parent ∉ names := fun mem => (named parent mem).2 rfl
      simp [apart]
    have root : resolve isSkipped parent true [] (List.replicate ups parent) = [] :=
      (resolve_replicate_eq_self_iff parent_kept).2 (Or.inr ⟨rfl, rfl⟩)
    rw [resolve_reverse_names named, root, append_nil,
      resolve_names (by simpa using named), reverse_reverse, resolve_reverse_names named,
      append_cancel_left_eq, eq_comm, resolve_replicate_eq_self_iff parent_kept, leads]
    simp only [ne_eq, Location.mk.injEq, empty, not_false_eq_true, true_and]
    tauto

/-- Cleaning keeps what a path denotes, writes names behind `..`, and has no more to do a second
time.  Where absolute paths are made, a path can be cleaned first; where two paths are joined, the
leaf can unless it leads above its own root. -/
theorem pathClean_spec (path : Bytes) :
    denote (pathClean path) = denote path ∧
      pathClean path = (denote path).render ∧
      Clean isSkipped parent (denote path).rooted (denote path).kept ∧
      (∀ segment ∈ (denote path).kept, segment ≠ [] ∧ segment ≠ here ∧ forwardSlash ∉ segment) ∧
      pathClean path ≠ [] ∧
      pathClean (pathClean path) = pathClean path ∧
      (∀ workingDirectory,
        absolutePath workingDirectory (pathClean path) = absolutePath workingDirectory path) ∧
      ∀ base, pathJoin base (pathClean path) = pathJoin base path ↔
        ¬(base ≠ [] ∧ denote base ≠ ⟨true, []⟩ ∧ pathIsAbsolute path = true ∧ LeadsUp path) := by
  have again : pathClean (pathClean path) = pathClean path :=
    pathClean_eq_iff.2 (denote_pathClean path)
  refine ⟨denote_pathClean path, pathClean_eq path, clean_denote path, fun segment mem => ?_,
    pathClean_ne_nil path, again, fun workingDirectory => ?_,
    fun base => pathJoin_pathClean_iff base path⟩
  · obtain ⟨nonempty, dot⟩ := ne_nil_of_kept (clean_denote path) mem
    exact ⟨nonempty, dot, slash_not_mem_denote mem⟩
  unfold absolutePath
  rw [pathIsAbsolute_pathClean]
  cases absolute : pathIsAbsolute path with
  | true => exact again
  | false =>
    refine (pathJoin_pathClean_iff workingDirectory path).2 ?_
    rw [absolute]
    simp

/-- A path can be clean and be the segment `.`; and a rooted leaf that leads above its root is
joined to another place than its clean spelling. -/
theorem pathClean_not_neutral : pathClean (ascii "a/..") = here ∧
    pathJoin (ascii "x") (pathClean (ascii "/../y")) = ascii "x/y" ∧
    pathJoin (ascii "x") (ascii "/../y") = ascii "y" := by
  decide

end

end Elisa.ProjectSystem
