import Elisa.Driver.IncludeExpansion

/-!
# Every copied line is traced to its origin

A line of the buffer that was copied is found by the lexer, by the retained attribution if there is
one, and by the driver if it accepts the map, which it does when directives are enabled
(`expandIncludes_origins`).  Without directives an include on the first line of a file gives two
rows for one line of the buffer, and the driver takes no row at all (`tie_rejected`).
-/

namespace Elisa.Driver

open Elisa.Lib

section

variable {env : IncludeEnv} {path : Bytes} {capture : Bool} {st : Expansion}

theorem expandIncludes_spec (h : expandIncludes env capture path = (true, st)) :
    Splices (linesOf env (env.absolutePath path)) (includeTarget env) [env.absolutePath path]
        (env.absolutePath path) 1 (linesOf env (env.absolutePath path) (env.absolutePath path))
        (st.copied.map CopiedLine.origin) st.seen ∧
      ((∀ path ∈ st.seen, 10 ∉ path) →
        ∃ rows flat, Attributed env (env.absolutePath path) st rows flat) := by
  unfold expandIncludes at h
  rw [Prod.mk.injEq] at h
  obtain ⟨ok, rfl⟩ := h
  have spliced := expandIncludesCapture_step (expandIncludesCapture_spec (Nat.le_refl 64))
    (.inl ⟨rfl, rfl⟩) (Prod.ext ok rfl)
  constructor
  · cases spliced.splice with
    | inl again => exact absurd again.1 List.not_mem_nil
    | inr once =>
      obtain ⟨-, inner, splice, copied⟩ := once
      have all : _ = inner := copied
      rw [← all] at splice
      exact splice
  · intro clean
    have start : Attributed env (env.absolutePath path) (.begin capture) [] [] :=
      ⟨rfl, rfl, rfl, nofun, nofun, nofun, .nil, fun _ => .nil, nofun, .nil⟩
    obtain ⟨rows, flat, last⟩ := spliced.attributed [] [] start clean
    exact ⟨rows, flat, { last with }⟩

theorem copied_line_of_file {root : Bytes} {copied : CopiedLine}
    (splice : Splices (linesOf env root) (includeTarget env) [root] root 1 (linesOf env root root)
      (st.copied.map CopiedLine.origin) st.seen)
    (mem : copied ∈ st.copied) :
    copied.path ∈ st.seen ∧ 0 < copied.source ∧
      (linesOf env root copied.path)[copied.source - 1]? = some copied.text := by
  obtain ⟨others, own, fresh⟩ := splice.own_lines (by simp)
  have origin : copied.origin ∈ (st.copied.map CopiedLine.origin).filter
      (fun o => decide (o.file = copied.path)) := by
    rw [List.mem_filter]
    exact ⟨List.mem_map_of_mem mem, decide_eq_true rfl⟩
  have line : ∀ {n : Nat} {rest : List Bytes},
      copied.origin ∈ ownLines (includeTarget env) copied.path n rest → n = 1 →
      0 < copied.source ∧ rest[copied.source - 1]? = some copied.text := by
    rintro n rest mem rfl
    obtain ⟨-, pos, text⟩ := getElem?_of_mem_ownLines mem
    exact ⟨pos, text⟩
  by_cases isRoot : copied.path = root
  · subst isRoot
    rw [own] at origin
    exact ⟨splice.subset _ (by simp), line origin rfl⟩
  by_cases begun : copied.path ∈ st.seen
  · rw [fresh _ begun (by simpa using isRoot)] at origin
    exact ⟨begun, line origin rfl⟩
  · rw [others _ isRoot (.inr begun)] at origin
    cases origin

end

/-! ## The readers -/

/-- What the readers of the map say about a line that was copied. -/
structure CopiedLine.Found (env : IncludeEnv) (root : Bytes) (st : Expansion) (enabled : Bool)
    (copied : CopiedLine) : Prop where
  flat_pos : 0 < copied.flat
  buffer : (sourceLines [] st.out)[copied.flat - 1]? = some copied.text
  source_pos : 0 < copied.source
  file : (linesOf env root copied.path)[copied.source - 1]? = some copied.text
  lexer : sourceOriginalLineFromMap st.lineMap copied.flat = copied.source
  retained : (retainLineMap st.lineMap st.identity enabled).valid = true →
    ∃ start length, pathForLine copied.flat (retainLineMap st.lineMap st.identity enabled) =
        ⟨true, start, length, copied.source⟩ ∧
      ((retainLineMap st.lineMap st.identity enabled).bytes.drop start).take length = copied.path
  driver : env.lineDirectives = true ∨ driverParseLineMap st.lineMap ≠ [] →
    ∃ row, SparseMap.at? LineRow.flat (rowsOf st.lineMap) copied.flat = some row ∧
      row.path = copied.path ∧ row.source + (copied.flat - row.flat) = copied.source

theorem Attributed.wellFormed {env : IncludeEnv} {root : Bytes} {st : Expansion}
    {rows : List LineRow} {flat : List Bytes} (h : Attributed env root st rows flat)
    (clean : ∀ path ∈ st.seen, 10 ∉ path) (buffer : st.emittedLines < 4294967295)
    (files : ∀ path ∈ st.seen, (linesOf env root path).length < 4294967295) :
    ∀ row ∈ rows, row.WellFormed := by
  intro row mem
  obtain ⟨flat_pos, flat_le⟩ := h.within row mem
  obtain ⟨seen, source_pos, source_le⟩ := h.origin row mem
  rw [h.emitted] at buffer
  have := files row.path seen
  exact ⟨flat_pos, by omega, source_pos, by omega, clean row.path seen⟩

/-- An expansion that succeeds splices every file it reaches once and in order, and the readers of
its map trace every copied line to where it was copied from. -/
theorem expandIncludes_origins (env : IncludeEnv) (capture enabled : Bool) (path : Bytes)
    (st : Expansion) (success : expandIncludes env capture path = (true, st))
    (clean : ∀ path ∈ st.seen, 10 ∉ path) (buffer : st.emittedLines < 4294967295)
    (files : ∀ file ∈ st.seen, (linesOf env (env.absolutePath path) file).length < 4294967295) :
    (∀ copied ∈ st.copied, copied.Found env (env.absolutePath path) st enabled) ∧
      (st.copied.Pairwise fun a b => a.flat < b.flat) ∧
      Splices (linesOf env (env.absolutePath path)) (includeTarget env) [env.absolutePath path]
        (env.absolutePath path) 1 (linesOf env (env.absolutePath path) (env.absolutePath path))
        (st.copied.map CopiedLine.origin) st.seen ∧
      ∀ file, ReachesFile (linesOf env (env.absolutePath path)) (includeTarget env)
          (env.absolutePath path) file →
        (st.copied.map CopiedLine.origin).filter (fun line => decide (line.file = file)) =
          ownLines (includeTarget env) file 1 (linesOf env (env.absolutePath path) file) := by
  obtain ⟨splice, attributed⟩ := expandIncludes_spec success
  obtain ⟨rows, flat, last⟩ := attributed clean
  have formed := last.wellFormed clean buffer files
  refine ⟨fun copied mem => ?_, last.inOrder, splice, fun file reach =>
    splice.reachable_own_lines reach⟩
  obtain ⟨begun, source_pos, file⟩ := copied_line_of_file splice mem
  obtain ⟨flat_pos, text, row, holds, rowPath, rowSource⟩ := last.traced copied mem
  have source_lt : copied.source ≤ 4294967295 := by
    obtain ⟨lt, -⟩ := List.getElem?_eq_some_iff.mp file
    have := files copied.path begun
    omega
  refine ⟨flat_pos, ?_, source_pos, file, ?_, ?_, ?_⟩
  · rw [last.out, sourceLines_bufferOf last.line]
    exact text
  · rw [last.map, sourceOriginalLineFromMap_render formed last.order holds, rowSource]
    exact Nat.mod_eq_of_lt (by omega)
  · rw [last.map]
    intro valid
    obtain ⟨start, length, found, slice⟩ :=
      pathForLine_render formed last.order valid holds (by omega)
    refine ⟨start, length, by rw [found, rowSource], ?_⟩
    rw [(retainLineMap_render formed valid).1, slice, rowPath]
  · rw [last.map]
    intro accepted
    have read : rowsOf (render rows) = rows := by
      cases accepted with
      | inl directives => exact rowsOf_render ⟨formed, last.rising directives⟩
      | inr accepted => exact rowsOf_render_of_accepted formed accepted
    rw [read]
    exact ⟨row, holds, rowPath, rowSource⟩

/-- Two files: the first line of a file `a` includes the file `b` beside it. -/
def twoFiles (directives : Bool) : IncludeEnv where
  absolutePath := id
  sourceReadable := fun _ => true
  readFile := fun path =>
    if path.getLast? = some 98 then ascii "y" ++ 10 :: ascii "z"
      else ascii "include \"b\"" ++ 10 :: ascii "x"
  lineDirectives := directives
  rootSource := []

def twoFilesExpanded (root : Bytes) : Expansion := (expandIncludes (twoFiles false) true root).2

theorem expandIncludes_origins_two_files :
    (retainLineMap (twoFilesExpanded (ascii "/a")).lineMap (twoFilesExpanded (ascii "/a")).identity
        true).valid = true ∧
      ∀ copied ∈ (twoFilesExpanded (ascii "/a")).copied,
        copied.Found (twoFiles false) (ascii "/a") (twoFilesExpanded (ascii "/a")) true := by
  refine ⟨by decide +kernel, ?_⟩
  exact (expandIncludes_origins (twoFiles false) true true (ascii "/a")
    (twoFilesExpanded (ascii "/a"))
    (by decide +kernel) (by decide +kernel) (by decide +kernel) (by decide +kernel)).1

/-- Line 1 of the buffer is line 1 of `/b`.  Without directives it has two rows, and the driver
takes none; an attribution that is not enabled answers nothing.  Below a directory with a line
feed in its name line 3 of the buffer is line 2 of `a`, and the lexer cannot read the map. -/
theorem tie_rejected :
    (expandIncludes (twoFiles false) true (ascii "/a")).1 = true ∧
      ⟨1, ascii "/b", 1, ascii "y"⟩ ∈ (twoFilesExpanded (ascii "/a")).copied ∧
      driverParseLineMap (twoFilesExpanded (ascii "/a")).lineMap = [] ∧
      pathForLine 1 (retainLineMap (twoFilesExpanded (ascii "/a")).lineMap
        (twoFilesExpanded (ascii "/a")).identity false) = .miss ∧
      (expandIncludes (twoFiles false) true [47, 10, 47, 97]).1 = true ∧
      ⟨3, [47, 10, 47, 97], 2, ascii "x"⟩ ∈ (twoFilesExpanded [47, 10, 47, 97]).copied ∧
      sourceOriginalLineFromMap (twoFilesExpanded [47, 10, 47, 97]).lineMap 3 = 3 := by
  decide +kernel

end Elisa.Driver
