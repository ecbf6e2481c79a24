import Elisa.Lib.Splice
import Elisa.Driver.LineAttribution

/-!
# The lines of an expansion and where they come from

The expansion counts the lines of the buffer by hand, over directives, guards, copied lines and
resumed files.  `Attributed` says what the counter and the rows of the map are worth: the row that
holds at a copied line gives the file and the line it was copied from.  `Resumes` says that the last
row already speaks about the next line of the present file.

An expansion that succeeds keeps `Attributed` and copies the lines of the abstract splice
(`expandIncludesCapture_spec`).
-/

namespace Elisa.Driver

open Elisa.Lib Elisa.Backend List

/-! ## The files -/

section

variable (env : IncludeEnv) (root : Bytes)

def linesOf (path : Bytes) : List Bytes :=
  sourceLines [] (if path = root ∧ env.rootSource.length > 0 then env.rootSource
    else env.readFile path)

def includeTarget (path line : Bytes) : Option Bytes :=
  if (includeDirectivePathSpan line).length > 0 then
    some (env.absolutePath
      (resolveIncludePath (pathDirectory path) (includeDirectivePathSpan line)))
  else none

def CopiedLine.origin (line : CopiedLine) : Origin Bytes Bytes :=
  ⟨line.path, line.source, line.text⟩

/-! ## The lines of a buffer -/

/-- A text of lines that are all terminated. -/
def bufferOf (flat : List Bytes) : Bytes := flat.flatMap fun line => line ++ [10]

theorem bufferOf_append (flat : List Bytes) (line : Bytes) :
    bufferOf (flat ++ [line]) = bufferOf flat ++ line ++ [10] := by
  simp [bufferOf]

theorem sourceLines_line {line : Bytes} (h : 10 ∉ line) (start rest : Bytes) :
    sourceLines start (line ++ 10 :: rest) = (start ++ line) :: sourceLines [] rest := by
  induction line generalizing start with
  | nil => simp [sourceLines]
  | cons byte line ih =>
    rw [mem_cons, not_or] at h
    rw [cons_append, sourceLines, if_neg (Ne.symm h.1), ih h.2]
    simp

theorem sourceLines_bufferOf {flat : List Bytes} (h : ∀ line ∈ flat, 10 ∉ line) :
    sourceLines [] (bufferOf flat) = flat := by
  induction flat with
  | nil => rfl
  | cons line flat ih =>
    have split : bufferOf (line :: flat) = line ++ 10 :: bufferOf flat := by simp [bufferOf]
    rw [split, sourceLines_line (h line mem_cons_self),
      ih fun l hl => h l (mem_cons_of_mem line hl), nil_append]

theorem count_bufferOf {flat : List Bytes} (h : ∀ line ∈ flat, 10 ∉ line) :
    (bufferOf flat).count 10 = flat.length := by
  induction flat with
  | nil => rfl
  | cons line flat ih =>
    have split : bufferOf (line :: flat) = line ++ ([10] ++ bufferOf flat) := by simp [bufferOf]
    rw [split, count_append, count_append, ih fun l hl => h l (mem_cons_of_mem line hl),
      count_eq_zero.mpr (h line mem_cons_self)]
    simp
    omega

theorem not_mem_sourceLines {contents : Bytes} : ∀ {start : Bytes}, 10 ∉ start →
    ∀ line ∈ sourceLines start contents, 10 ∉ line := by
  induction contents with
  | nil =>
    intro start hstart line hline
    unfold sourceLines at hline
    split at hline
    next => cases hline
    next => rwa [mem_singleton.mp hline]
  | cons byte contents ih =>
    intro start hstart line hline
    unfold sourceLines at hline
    split at hline
    next =>
      cases hline with
      | head => exact hstart
      | tail _ hline => exact ih (not_mem_nil) line hline
    next other =>
      refine ih ?_ line hline
      simp [hstart, Ne.symm other]

/-! ## The invariant -/

structure CopiedLine.Traced (copied : CopiedLine) (rows : List LineRow) (flat : List Bytes) :
    Prop where
  pos : 0 < copied.flat
  text : flat[copied.flat - 1]? = some copied.text
  row : ∃ row, SparseMap.at? LineRow.flat rows copied.flat = some row ∧ row.path = copied.path ∧
    row.source + (copied.flat - row.flat) = copied.source

structure Attributed (st : Expansion) (rows : List LineRow) (flat : List Bytes) : Prop where
  map : st.lineMap = render rows
  out : st.out = bufferOf flat
  emitted : st.emittedLines = flat.length
  line : ∀ line ∈ flat, 10 ∉ line
  within : ∀ row ∈ rows, 0 < row.flat ∧ row.flat ≤ flat.length + 1
  origin : ∀ row ∈ rows, row.path ∈ st.seen ∧ 0 < row.source ∧
    row.source ≤ (linesOf env root row.path).length + 1
  order : rows.Pairwise fun a b => a.flat ≤ b.flat
  rising : env.lineDirectives = true → rows.Pairwise fun a b => a.flat < b.flat
  traced : ∀ copied ∈ st.copied, copied.Traced rows flat
  inOrder : st.copied.Pairwise fun a b => a.flat < b.flat

/-- The last row speaks about line `sourceLine` of the file, counted from zero, at the next
line of the buffer. -/
def Resumes (rows : List LineRow) (flat : List Bytes) (path : Bytes) (sourceLine : Nat) : Prop :=
  ∃ row, rows.getLast? = some row ∧ row.path = path ∧
    row.source + (flat.length + 1 - row.flat) = sourceLine + 1

end

/-! ## What one write does -/

def Expansion.pushText (st : Expansion) (line : Bytes) : Expansion :=
  { st with out := st.out ++ line ++ [10], emittedLines := st.emittedLines + 1 }

namespace CopiedLine.Traced

variable {copied : CopiedLine} {rows : List LineRow} {flat : List Bytes}

theorem le (h : copied.Traced rows flat) : copied.flat ≤ flat.length := by
  obtain ⟨lt, -⟩ := List.getElem?_eq_some_iff.mp h.text
  have := h.pos
  omega

theorem pushText (h : copied.Traced rows flat) (line : Bytes) :
    copied.Traced rows (flat ++ [line]) := by
  have := h.le
  have := h.pos
  exact ⟨h.pos, by rw [getElem?_append_left (by omega)]; exact h.text, h.row⟩

/-- A row behind the buffer does not hold at a line of it. -/
theorem pushRow (h : copied.Traced rows flat) (sourceLine : Nat) (path : Bytes) :
    copied.Traced (rows ++ [⟨flat.length + 1, sourceLine, path⟩]) flat := by
  have := h.le
  have later : ∀ row ∈ [(⟨flat.length + 1, sourceLine, path⟩ : LineRow)],
      copied.flat < row.flat := by
    intro row hrow
    rw [mem_singleton.mp hrow]
    show copied.flat < flat.length + 1
    omega
  refine ⟨h.pos, h.text, ?_⟩
  rw [SparseMap.at?_append, SparseMap.at?_of_lt later, Option.none_or]
  exact h.row

end CopiedLine.Traced

namespace Attributed

variable {env : IncludeEnv} {root : Bytes} {st : Expansion}
  {rows : List LineRow} {flat : List Bytes}

theorem pushText (h : Attributed env root st rows flat) {line : Bytes} (hline : 10 ∉ line) :
    Attributed env root (st.pushText line) rows (flat ++ [line]) where
  map := h.map
  out := by
    rw [bufferOf_append, ← h.out]
    rfl
  emitted := by
    rw [length_append, ← h.emitted]
    rfl
  line := by
    intro l hl
    cases mem_append.mp hl with
    | inl hl => exact h.line l hl
    | inr hl => rwa [mem_singleton.mp hl]
  within := by
    intro row hrow
    obtain ⟨pos, le⟩ := h.within row hrow
    rw [length_append]
    exact ⟨pos, Nat.le_succ_of_le le⟩
  origin := h.origin
  order := h.order
  rising := h.rising
  traced := fun copied hcopied => (h.traced copied hcopied).pushText line
  inOrder := h.inOrder

variable {sourceLine : Nat} {path : Bytes}

theorem pushRow (h : Attributed env root st rows flat) (seen : path ∈ st.seen)
    (pos : 0 < sourceLine) (le : sourceLine ≤ (linesOf env root path).length + 1)
    (fresh : env.lineDirectives = true → ∀ row ∈ rows, row.flat ≤ flat.length) :
    Attributed env root (st.pushLineMapEntry sourceLine path)
      (rows ++ [⟨flat.length + 1, sourceLine, path⟩]) flat where
  map := by
    show st.lineMap ++ lineMapEntry (st.emittedLines + 1) sourceLine path = _
    rw [h.map, h.emitted]
    simp [render, LineRow.bytes]
  out := h.out
  emitted := h.emitted
  line := h.line
  within := by
    intro row hrow
    cases mem_append.mp hrow with
    | inl hrow => exact h.within row hrow
    | inr hrow =>
      rw [mem_singleton.mp hrow]
      exact ⟨Nat.succ_pos _, Nat.le_refl _⟩
  origin := by
    intro row hrow
    cases mem_append.mp hrow with
    | inl hrow => exact h.origin row hrow
    | inr hrow =>
      rw [mem_singleton.mp hrow]
      exact ⟨seen, pos, le⟩
  order := by
    rw [pairwise_append]
    refine ⟨h.order, pairwise_singleton _ _, fun row hrow last hlast => ?_⟩
    rw [mem_singleton.mp hlast]
    exact (h.within row hrow).2
  rising := by
    intro on
    rw [pairwise_append]
    refine ⟨h.rising on, pairwise_singleton _ _, fun row hrow last hlast => ?_⟩
    rw [mem_singleton.mp hlast]
    exact Nat.lt_succ_of_le (fresh on row hrow)
  traced := fun copied hcopied => (h.traced copied hcopied).pushRow sourceLine path
  inOrder := h.inOrder

theorem copyLine (h : Attributed env root st rows flat) {line : Bytes}
    (resumes : Resumes rows flat path sourceLine) (hline : 10 ∉ line) :
    Attributed env root (st.copyLine path sourceLine line) rows (flat ++ [line]) ∧
      Resumes rows (flat ++ [line]) path (sourceLine + 1) := by
  obtain ⟨row, last, hpath, hsource⟩ := resumes
  obtain ⟨-, le⟩ := h.within row (mem_of_getLast? last)
  have flatLine : st.out.count 10 + 1 = flat.length + 1 := by rw [h.out, count_bufferOf h.line]
  have written := h.pushText hline
  refine ⟨{ written with traced := ?_, inOrder := ?_ }, row, last, hpath, ?_⟩
  · intro copied hcopied
    cases mem_append.mp hcopied with
    | inl hcopied => exact written.traced copied hcopied
    | inr hcopied =>
      rw [mem_singleton.mp hcopied]
      refine ⟨Nat.succ_pos _, ?_, row, ?_, hpath, ?_⟩
      · show (flat ++ [line])[st.out.count 10 + 1 - 1]? = some line
        rw [flatLine]
        simp
      · show SparseMap.at? LineRow.flat rows (st.out.count 10 + 1) = some row
        rw [flatLine, SparseMap.at?_of_le fun r hr => (h.within r hr).2, last]
      · show row.source + (st.out.count 10 + 1 - row.flat) = sourceLine + 1
        rw [flatLine, hsource]
  · show (st.copied ++ [_]).Pairwise _
    rw [pairwise_append]
    refine ⟨h.inOrder, pairwise_singleton _ _, fun copied hcopied last hlast => ?_⟩
    rw [mem_singleton.mp hlast]
    show copied.flat < st.out.count 10 + 1
    rw [flatLine]
    exact Nat.lt_succ_of_le (h.traced copied hcopied).le
  · rw [length_append, length_singleton]
    omega

theorem not_mem_directive (clean : 10 ∉ path) (n : Nat) :
    10 ∉ ascii "#line " ++ appendDecimal n ++ 32 :: path := by
  have number : 10 ∉ appendDecimal n := by
    unfold appendDecimal
    split
    next => decide
    rw [mem_reverse]
    intro mem
    exact absurd (isDigit_of_mem_decimalDigits mem).1 (by decide)
  simp only [mem_append, mem_cons, not_or]
  exact ⟨⟨by decide, number⟩, by decide, clean⟩

/-- The map begins to speak about line `sourceLine` of a file, counted from zero, with a
directive in front of it if they are enabled. -/
theorem speakOf (h : Attributed env root st rows flat) (clean : 10 ∉ path) (seen : path ∈ st.seen)
    (le : sourceLine ≤ (linesOf env root path).length) :
    ∃ rows' flat', Attributed env root
        ((if env.lineDirectives then st.pushLineDirective (sourceLine + 1) path
          else st).pushLineMapEntry
          (sourceLine + 1) path) rows' flat' ∧
      Resumes rows' flat' path sourceLine := by
  have last : ∀ (rows : List LineRow) (flat : List Bytes),
      Resumes (rows ++ [⟨flat.length + 1, sourceLine + 1, path⟩]) flat path sourceLine :=
    fun rows flat => ⟨_, getLast?_append_cons .., rfl, by simp⟩
  cases on : env.lineDirectives with
  | true =>
    have written := h.pushText (not_mem_directive clean (sourceLine + 1))
    refine ⟨_, _, written.pushRow seen (Nat.succ_pos _) (Nat.succ_le_succ le) ?_, last _ _⟩
    intro _ row hrow
    rw [length_append]
    exact (h.within row hrow).2
  | false =>
    refine ⟨_, _, h.pushRow seen (Nat.succ_pos _) (Nat.succ_le_succ le) ?_, last _ _⟩
    rw [on]
    nofun

theorem resume (h : Attributed env root st rows flat) (resumeFlat : Nat) (clean : 10 ∉ path)
    (seen : path ∈ st.seen) (le : sourceLine + 1 ≤ (linesOf env root path).length) :
    ∃ rows' flat', Attributed env root
        (st.resume env.lineDirectives resumeFlat sourceLine path) rows' flat' ∧
      Resumes rows' flat' path (sourceLine + 1) := by
  have guarded : ∃ flat', Attributed env root
      (if env.lineDirectives ∧ st.out.length = resumeFlat then st.pushGuard
        else st) rows flat' := by
    split
    next =>
      have written := h.pushText (not_mem_nil)
      have same : st.pushText [] = st.pushGuard := by simp [Expansion.pushText, Expansion.pushGuard]
      rw [same] at written
      exact ⟨_, written⟩
    next => exact ⟨_, h⟩
  obtain ⟨flat', guarded⟩ := guarded
  have seen' : path ∈
      (if env.lineDirectives ∧ st.out.length = resumeFlat then st.pushGuard else st).seen := by
    split <;> exact seen
  have spoken := guarded.speakOf clean seen' le
  have same : st.resume env.lineDirectives resumeFlat sourceLine path =
      (if env.lineDirectives then
        (if env.lineDirectives ∧ st.out.length = resumeFlat then st.pushGuard
          else st).pushLineDirective
          (sourceLine + 1 + 1) path
      else if env.lineDirectives ∧ st.out.length = resumeFlat then st.pushGuard
        else st).pushLineMapEntry
        (sourceLine + 1 + 1) path := by
    cases env.lineDirectives <;> simp [Expansion.resume]
  rw [same]
  exact spoken

end Attributed

/-! ## Expansion -/

theorem Expansion.resume_seen (st : Expansion) (directives : Bool) (resumeFlat sourceLine : Nat)
    (path : Bytes) : (st.resume directives resumeFlat sourceLine path).seen = st.seen := by
  cases directives with
  | true =>
    unfold Expansion.resume
    dsimp only [pushLineMapEntry, pushLineDirective]
    rw [if_pos rfl]
    dsimp only
    split <;> rfl
  | false => rfl

theorem Expansion.resume_copied (st : Expansion) (directives : Bool) (resumeFlat sourceLine : Nat)
    (path : Bytes) : (st.resume directives resumeFlat sourceLine path).copied = st.copied := by
  cases directives with
  | true =>
    unfold Expansion.resume
    dsimp only [pushLineMapEntry, pushLineDirective]
    rw [if_pos rfl]
    dsimp only
    split <;> rfl
  | false => rfl

variable {expand : Bytes → Expansion → Bool × Expansion}

theorem expandLines_failed {directives : Bool} {absolute : Bytes} :
    ∀ {lines : List Bytes} {sourceLine : Nat} {st : Expansion},
      (expandLines directives expand absolute sourceLine lines false st).1 = false := by
  intro lines
  induction lines with
  | nil => exact rfl
  | cons line lines ih =>
    intro sourceLine st
    unfold expandLines
    dsimp only
    split
    next => exact ih
    next => exact ih

section

variable (env : IncludeEnv) (root : Bytes)

structure Spliced (absolute : Bytes) (st st' : Expansion) : Prop where
  splice : absolute ∈ st.seen ∧ st'.seen = st.seen ∧ st'.copied = st.copied ∨
    absolute ∉ st.seen ∧ ∃ inner,
      Splices (linesOf env root) (includeTarget env) (st.seen ++ [absolute]) absolute 1
        (linesOf env root absolute) inner st'.seen ∧
      st'.copied.map CopiedLine.origin = st.copied.map CopiedLine.origin ++ inner
  attributed : ∀ rows flat, Attributed env root st rows flat → (∀ path ∈ st'.seen, 10 ∉ path) →
    ∃ rows' flat', Attributed env root st' rows' flat'

variable {env root} {st' : Expansion}

theorem Spliced.subset {absolute : Bytes} {st : Expansion} (h : Spliced env root absolute st st') :
    ∀ path ∈ st.seen, path ∈ st'.seen := by
  intro path mem
  cases h.splice with
  | inl again =>
    rw [again.2.1]
    exact mem
  | inr once =>
    obtain ⟨-, inner, splice, -⟩ := once
    exact splice.subset path (mem_append_left _ mem)

theorem expandLines_spec {expand : Bytes → Expansion → Bool × Expansion} {absolute : Bytes}
    (hexpand : ∀ path st st', root ∈ st.seen → expand path st = (true, st') →
      Spliced env root (env.absolutePath path) st st') :
    ∀ {lines : List Bytes} {sourceLine : Nat} {st st' : Expansion},
      root ∈ st.seen → absolute ∈ st.seen →
      sourceLine + lines.length ≤ (linesOf env root absolute).length →
      (∀ line ∈ lines, 10 ∉ line) →
      expandLines env.lineDirectives expand absolute sourceLine lines true st = (true, st') →
      ∃ out, Splices (linesOf env root) (includeTarget env) st.seen absolute
        (sourceLine + 1) lines out
          st'.seen ∧
        st'.copied.map CopiedLine.origin = st.copied.map CopiedLine.origin ++ out ∧
        ∀ rows flat, Attributed env root st rows flat → Resumes rows flat absolute sourceLine →
          (∀ path ∈ st'.seen, 10 ∉ path) → ∃ rows' flat', Attributed env root st' rows' flat' := by
  intro lines
  induction lines with
  | nil =>
    intro sourceLine st st' _ _ _ _ h
    cases h
    exact ⟨[], .done, by simp, fun rows flat attributed _ _ => ⟨rows, flat, attributed⟩⟩
  | cons line lines ih =>
    intro sourceLine st st' hroot hseen hlength hline h
    have hlines : ∀ l ∈ lines, 10 ∉ l := fun l hl => hline l (mem_cons_of_mem line hl)
    rw [length_cons] at hlength
    unfold expandLines at h
    dsimp only at h
    split at h
    next included =>
      have named : includeTarget env absolute line = some (env.absolutePath
          (resolveIncludePath (pathDirectory absolute) (includeDirectivePathSpan line))) :=
        if_pos included
      rw [if_pos rfl, Bool.true_and] at h
      cases result : expand (resolveIncludePath (pathDirectory absolute)
          (includeDirectivePathSpan line)) st with
      | mk ok st₁ =>
        rw [result] at h
        cases ok with
        | false =>
          have failed := congrArg Prod.fst h
          rw [expandLines_failed] at failed
          cases failed
        | true =>
          rw [if_pos rfl] at h
          dsimp only at h
          have first := hexpand _ st st₁ hroot result
          have seen := st₁.resume_seen env.lineDirectives st.out.length sourceLine absolute
          have hroot₁ := first.subset root hroot
          have hseen₁ := first.subset absolute hseen
          rw [← seen] at hroot₁ hseen₁
          obtain ⟨out, splice, copied, attributed⟩ := ih hroot₁ hseen₁ (by omega) hlines h
          rw [Expansion.resume_copied] at copied
          have later : ∀ rows flat, Attributed env root st rows flat →
              Resumes rows flat absolute sourceLine → (∀ path ∈ st'.seen, 10 ∉ path) →
              ∃ rows' flat', Attributed env root st' rows' flat' := by
            intro rows flat now _ clean
            have clean₁ : ∀ path ∈ st₁.seen, 10 ∉ path := by
              intro path mem
              rw [← seen] at mem
              exact clean path (splice.subset path mem)
            obtain ⟨rows₁, flat₁, inner⟩ := first.attributed rows flat now clean₁
            rw [seen] at hseen₁
            have within : sourceLine + 1 ≤ (linesOf env root absolute).length := by omega
            obtain ⟨rows₂, flat₂, next, resumes⟩ := inner.resume st.out.length
              (clean₁ absolute hseen₁) hseen₁ within
            exact attributed rows₂ flat₂ next resumes clean
          rw [seen] at splice
          cases first.splice with
          | inl again =>
            rw [again.2.1] at splice
            rw [again.2.2] at copied
            exact ⟨out, .again named again.1 splice, copied, later⟩
          | inr once =>
            obtain ⟨new, inner, first, copied₁⟩ := once
            refine ⟨inner ++ out, .once named new first splice, ?_, later⟩
            rw [copied, copied₁, append_assoc]
    rename_i plain
    have own : includeTarget env absolute line = none := if_neg plain
    obtain ⟨out, splice, copied, attributed⟩ := @ih (sourceLine + 1)
      (st.copyLine absolute sourceLine line) st' hroot hseen (by omega) hlines h
    refine ⟨_, .copy own splice, ?_, fun rows flat now resumes clean => ?_⟩
    · rw [copied]
      simp [Expansion.copyLine, CopiedLine.origin]
    · obtain ⟨next, resumes⟩ := now.copyLine resumes (hline line mem_cons_self)
      exact attributed rows _ next resumes clean

theorem expandFile_spec {expand : Bytes → Expansion → Bool × Expansion} {absolute contents : Bytes}
    {active : List Bytes} {identity : Capture} {st st' : Expansion}
    (hexpand : ∀ path st st', root ∈ st.seen → expand path st = (true, st') →
      Spliced env root (env.absolutePath path) st st')
    (new : absolute ∉ st.seen) (hroot : root ∈ st.seen ++ [absolute])
    (hlines : linesOf env root absolute = sourceLines [] contents)
    (h : expandLines env.lineDirectives expand absolute 0 (sourceLines [] contents) true
      ((if env.lineDirectives then
          ({ st with active, identity, seen := st.seen ++
            [absolute] } : Expansion).pushLineDirective 1
            absolute
        else { st with active, identity, seen := st.seen ++ [absolute] }).pushLineMapEntry
          1 absolute) =
      (true, st')) : Spliced env root absolute st st' := by
  have begun : absolute ∈ st.seen ++ [absolute] := by simp
  have seen : ((if env.lineDirectives then
      ({ st with active, identity, seen := st.seen ++ [absolute] } : Expansion).pushLineDirective 1
        absolute
    else { st with active, identity, seen := st.seen ++ [absolute] }).pushLineMapEntry 1
      absolute).seen =
      st.seen ++ [absolute] := by
    cases env.lineDirectives <;> rfl
  have copied : ((if env.lineDirectives then
      ({ st with active, identity, seen := st.seen ++ [absolute] } : Expansion).pushLineDirective 1
        absolute
    else { st with active, identity, seen := st.seen ++ [absolute] }).pushLineMapEntry 1
      absolute).copied =
      st.copied := by
    cases env.lineDirectives <;> rfl
  obtain ⟨out, splice, all, attributed⟩ := expandLines_spec hexpand (by rw [seen]; exact hroot)
    (by rw [seen]; exact begun) (by rw [hlines, Nat.zero_add])
    (not_mem_sourceLines not_mem_nil) h
  rw [seen, ← hlines] at splice
  rw [copied] at all
  refine ⟨.inr ⟨new, out, splice, all⟩, fun rows flat now clean => ?_⟩
  have opened : Attributed env root { st with active, identity, seen := st.seen ++
    [absolute] } rows flat :=
    { now with
      origin := fun row hrow => by
        obtain ⟨mem, pos, le⟩ := now.origin row hrow
        exact ⟨mem_append_left _ mem, pos, le⟩ }
  obtain ⟨rows', flat', next, resumes⟩ := opened.speakOf
    (clean absolute (splice.subset absolute begun)) begun (Nat.zero_le _)
  exact attributed rows' flat' next resumes clean

theorem linesOf_fileContents {absolute contents : Bytes} {atRoot : Bool}
    (depth : atRoot = true ↔ absolute = root)
    (read : fileContents env atRoot absolute = some contents) :
    linesOf env root absolute = sourceLines [] contents := by
  unfold fileContents at read
  unfold linesOf
  by_cases given : absolute = root ∧ env.rootSource.length > 0
  · rw [depth.mpr given.1, Bool.true_and, if_pos (decide_eq_true given.2)] at read
    cases read
    rw [if_pos given]
  have file : ¬ (atRoot && decide (env.rootSource.length > 0)) = true := by
    rw [Bool.and_eq_true, depth, decide_eq_true_iff]
    exact given
  rw [if_neg file] at read
  rw [if_neg given]
  split at read
  next =>
    cases read
    rfl
  next => cases read

theorem expandIncludesCapture_step {remaining parentVisit : Nat} {path : Bytes} {st st' : Expansion}
    (hexpand : ∀ parent path st st', root ∈ st.seen →
      expandIncludesCapture env remaining path parent st = (true, st') →
      Spliced env root (env.absolutePath path) st st')
    (start : remaining = 64 ∧ env.absolutePath path = root ∨ remaining ≠ 64 ∧ root ∈ st.seen)
    (h : expandIncludesCapture env (remaining + 1) path parentVisit st = (true, st')) :
    Spliced env root (env.absolutePath path) st st' := by
  unfold expandIncludesCapture at h
  split at h
  next => cases h
  dsimp only at h
  split at h
  next => cases h
  split at h
  next again =>
    cases h
    exact ⟨.inl ⟨again, rfl, rfl⟩, fun rows flat now _ => ⟨rows, flat, { now with }⟩⟩
  rename_i new
  have depth : (remaining == 64) = true ↔ env.absolutePath path = root := by
    rw [beq_iff_eq]
    cases start with
    | inl atRoot => exact ⟨fun _ => atRoot.2, fun _ => atRoot.1⟩
    | inr below =>
      exact ⟨fun atRoot => absurd atRoot below.1, fun same => absurd (same ▸ below.2) new⟩
  have hroot : root ∈ st.seen ++ [env.absolutePath path] := by
    cases start with
    | inl atRoot =>
      rw [atRoot.2]
      simp
    | inr below => exact mem_append_left _ below.2
  split at h
  next => cases h
  rename_i contents read
  split at h
  next => cases h
  rw [Prod.mk.injEq] at h
  obtain ⟨ok, rfl⟩ := h
  have spliced := expandFile_spec (fun path st st' => hexpand _ path st st') new hroot
    (linesOf_fileContents depth read) (Prod.ext ok rfl)
  refine ⟨spliced.splice, fun rows flat now clean => ?_⟩
  obtain ⟨rows', flat', last⟩ := spliced.attributed rows flat now clean
  exact ⟨rows', flat', { last with }⟩

theorem expandIncludesCapture_spec : ∀ {remaining : Nat}, remaining ≤ 64 →
    ∀ (parentVisit : Nat) (path : Bytes) (st st' : Expansion), root ∈ st.seen →
      expandIncludesCapture env remaining path parentVisit st = (true, st') →
      Spliced env root (env.absolutePath path) st st' := by
  intro remaining
  induction remaining with
  | zero =>
    intro _ parentVisit path st st' _ h
    cases h
  | succ remaining ih =>
    intro deep parentVisit path st st' hroot h
    exact expandIncludesCapture_step (ih (by omega)) (.inr ⟨by omega, hroot⟩) h

end

end Elisa.Driver
