import Elisa.Driver.LineMapRows
import Mathlib.Data.List.Chain

/-!
# The composition of line maps

A generated buffer comes with runs: from an output line on, its lines are the lines of the expanded
input from a source line on.  `driverComposeGeneratedLineMap` writes the rows of `spanRows`
(`composeRuns_spec`), which say of a line of a run what the input's map says of the line that the
run assigns to it (`rowAt_spanRows`).

A row holds up to the next one.  So a run that begins before the first row of the input's map,
behind a run with rows of its own, inherits the last of these.
-/

namespace Elisa.Driver

open SparseMap List

/-! ## Runs -/

/-- A run: its lines in the buffer, and the source line of the first one. -/
structure Span where
  out : Nat
  source : Nat
  last : Nat
deriving DecidableEq

def Span.sourceLast (span : Span) : Nat := span.source + (span.last - span.out)

/-- The runs of a generated buffer: each ends before the next one. -/
def spansOf (generatedLineCount : Nat) : List UInt32 → List Span
  | outputStart :: sourceStart :: runs =>
    ⟨outputStart.toNat, sourceStart.toNat,
      match runs.head? with
      | none => generatedLineCount
      | some nextOutputStart => nextOutputStart.toNat - 1⟩ :: spansOf generatedLineCount runs
  | _ => []

def assigned (spans : List Span) (k : Nat) : Option Nat :=
  (at? Span.out spans k).map fun span => span.source + (k - span.out)

def rowAt (rows : List LineRow) (k : Nat) : Option (Bytes × Nat) :=
  (at? LineRow.flat rows k).map fun row => (row.path, row.source + (k - row.flat))

/-! ## The rows of a run -/

def Span.headRow (span : Span) (row : LineRow) : LineRow :=
  ⟨span.out, row.source + (span.source - row.flat), row.path⟩

def Span.boundaryRow (span : Span) (row : LineRow) : LineRow :=
  ⟨span.out + (row.flat - span.source), row.source, row.path⟩

def Span.boundaries (span : Span) (rows : List LineRow) (stop : Nat) : List LineRow :=
  rows.filter fun row => decide (span.source < row.flat) && decide (row.flat ≤ stop)

def spanRows (rows : List LineRow) (span : Span) : List LineRow :=
  (at? LineRow.flat rows span.source).toList.map span.headRow ++
    (span.boundaries rows span.sourceLast).map span.boundaryRow

variable {rows : List LineRow} {span : Span} {row : LineRow}

theorem mem_boundaries {stop : Nat} :
    row ∈ span.boundaries rows stop ↔ row ∈ rows ∧ span.source < row.flat ∧ row.flat ≤ stop := by
  simp [Span.boundaries]

variable {k : Nat}

theorem rowAt_spanRows (h : WellFormedRows rows) (hfirst : span.out ≤ k) (hlast : k ≤ span.last) :
    rowAt (spanRows rows span) k = rowAt rows (span.source + (k - span.out)) := by
  have hsorted : rows.Pairwise fun a b => a.flat ≤ b.flat :=
    h.rising.imp fun hlt => Nat.le_of_lt hlt
  have hreached : at? LineRow.flat ((span.boundaries rows span.sourceLast).map span.boundaryRow) k =
      (span.boundaries rows (span.source + (k - span.out))).getLast?.map span.boundaryRow := by
    rw [at?_map]
    congr 1
    rw [at?, Span.boundaries, Span.boundaries, filter_filter]
    congr 1
    apply filter_congr
    intro row _
    rw [Bool.eq_iff_iff]
    simp only [Bool.and_eq_true, decide_eq_true_iff]
    simp only [Span.boundaryRow, Span.sourceLast]
    omega
  have hhead : at? LineRow.flat ((at? LineRow.flat rows span.source).toList.map span.headRow) k =
      (at? LineRow.flat rows span.source).map span.headRow := by
    cases at? LineRow.flat rows span.source with
    | none => rfl
    | some row =>
      refine at?_of_le fun other hother => ?_
      rw [mem_singleton.mp hother]
      exact hfirst
  rw [rowAt, spanRows, at?_append, hreached, hhead, rowAt,
    at?_split hsorted (Nat.le_add_right span.source (k - span.out))]
  show _ = Option.map _ ((span.boundaries rows _).getLast?.or _)
  cases hboundary : (span.boundaries rows (span.source + (k - span.out))).getLast? with
  | some row =>
    have hmem := mem_boundaries.mp (mem_of_getLast? hboundary)
    simp only [Option.map_some, Option.some_or, Span.boundaryRow, Option.some.injEq,
      Prod.mk.injEq, true_and]
    omega
  | none =>
    cases hrow : at? LineRow.flat rows span.source with
    | none => rfl
    | some row =>
      have hmem := mem_of_at? hrow
      simp only [Option.map_some, Option.map_none, Option.none_or, Span.headRow,
        Option.some.injEq, Prod.mk.injEq, true_and]
      omega

/-! ## What is written -/

theorem composeBoundaries_eq {map : Bytes} {entries : List DriverLineMapEntry} (out : Bytes)
    (hsorted : (entries.map (DriverLineMapEntry.toRow map)).Pairwise fun a b => a.flat < b.flat) :
    composeBoundaries map span.out span.source span.sourceLast entries out =
      out ++ render ((span.boundaries (entries.map (DriverLineMapEntry.toRow map))
        span.sourceLast).map span.boundaryRow) := by
  induction entries generalizing out with
  | nil => exact (append_nil out).symm
  | cons entry entries ih =>
    rw [map_cons, pairwise_cons] at hsorted
    unfold composeBoundaries
    split
    next hbehind =>
      split
      next hpast =>
        -- the rows behind this one are past the run as well
        have hnone : span.boundaries ((entry :: entries).map (DriverLineMapEntry.toRow map))
            span.sourceLast = [] := by
          rw [Span.boundaries, filter_eq_nil_iff]
          intro row hrow
          have hflat : entry.flatLine ≤ row.flat := by
            rcases mem_cons.mp hrow with rfl | hrow
            · exact Nat.le_refl _
            · exact Nat.le_of_lt (hsorted.1 row hrow)
          simp only [Bool.and_eq_true, decide_eq_true_iff, not_and]
          omega
        rw [hnone]
        exact (append_nil out).symm
      rename_i hinside
      have hrow : span.boundaries ((entry :: entries).map (DriverLineMapEntry.toRow map))
          span.sourceLast = entry.toRow map ::
            span.boundaries (entries.map (DriverLineMapEntry.toRow map)) span.sourceLast := by
        rw [Span.boundaries, map_cons, filter_cons_of_pos]
        · rfl
        · have hle := Nat.le_of_not_lt hinside
          simp [DriverLineMapEntry.toRow, hbehind, hle]
      rw [ih _ hsorted.2, hrow, driverAppendComposedLineMapEntry, append_assoc]
      rfl
    rename_i hbefore
    have hrow : span.boundaries ((entry :: entries).map (DriverLineMapEntry.toRow map))
        span.sourceLast =
          span.boundaries (entries.map (DriverLineMapEntry.toRow map)) span.sourceLast := by
      rw [Span.boundaries, map_cons, filter_cons_of_neg]
      · rfl
      · intro hmem
        have hlt := (mem_boundaries.mp (mem_filter.mpr ⟨mem_singleton_self _, hmem⟩)).2.1
        exact hbefore hlt
    rw [ih _ hsorted.2, hrow]

theorem boundaries_append {front back : List LineRow} {stop : Nat}
    (h : ∀ row ∈ front, row.flat ≤ span.source) :
    span.boundaries (front ++ back) stop = span.boundaries back stop := by
  rw [Span.boundaries, filter_append, filter_eq_nil_iff.mpr, nil_append]
  · rfl
  · intro row hrow
    simp [h row hrow]

theorem render_append (rows rows' : List LineRow) :
    render (rows ++ rows') = render rows ++ render rows' := flatMap_append

theorem render_singleton (row : LineRow) : render [row] = row.bytes := append_nil _

theorem composeRun_spec {map out out' : Bytes}
    (h : composeRun map (driverParseLineMap map) span.out span.source span.last out = some out') :
    out' = out ++ render (spanRows (rowsOf map) span) ∧
      ∀ row ∈ at? LineRow.flat (rowsOf map) span.source,
        row.source + (span.source - row.flat) ≤ 4294967295 := by
  have hrows := rowsOf_wellFormed map
  have hsorted := hrows.rising
  rw [rowsOf] at hsorted
  have hentries : (driverParseLineMap map).Pairwise fun a b => a.flatLine ≤ b.flatLine :=
    (pairwise_map.mp hsorted).imp fun hlt => Nat.le_of_lt hlt
  have hat : at? LineRow.flat (rowsOf map) span.source =
      (at? DriverLineMapEntry.flatLine (driverParseLineMap map) span.source).map
        (DriverLineMapEntry.toRow map) := at?_map _ _ _
  rw [at?_eq_of_upperBound hentries] at hat
  obtain ⟨hlen, hlow, hhigh⟩ := upperBound_spec hentries (driverParseLineMap map).length 0
    (driverParseLineMap map).length (Nat.zero_le _) (Nat.le_refl _) (Nat.le_refl _)
    (k := span.source) (by simp) (by simp)
  unfold composeRun at h
  generalize upperBound DriverLineMapEntry.flatLine (driverParseLineMap map) span.source
    (driverParseLineMap map).length 0 (driverParseLineMap map).length = low at h hat hlen hlow hhigh
  dsimp only at h
  split at h
  next => cases h
  split at h
  next hpos =>
    have hlt : low - 1 < (driverParseLineMap map).length := by omega
    rw [getElem?_eq_getElem hlt] at h
    have hlast : ((driverParseLineMap map).take low).getLast? =
        some (driverParseLineMap map)[low - 1] := by
      rw [getLast?_eq_getElem?, length_take, Nat.min_eq_left hlen,
        getElem?_take_of_lt (by omega), getElem?_eq_getElem hlt]
    rw [hlast, Option.map_some] at hat
    generalize (driverParseLineMap map)[low - 1] = entry at hat hlast h
    dsimp only at h
    split at h
    next => cases h
    rename_i hmapped
    cases h
    rw [hat]
    refine ⟨?_, fun row hrow => by cases hrow; exact Nat.le_of_not_lt hmapped⟩
    have hbehind : span.boundaries (rowsOf map) span.sourceLast = span.boundaries
        (((driverParseLineMap map).drop low).map (DriverLineMapEntry.toRow map))
          span.sourceLast := by
      rw [rowsOf, ← take_append_drop low (driverParseLineMap map), map_append,
        take_append_drop]
      refine boundaries_append fun row hrow => ?_
      obtain ⟨entry, hentry, rfl⟩ := mem_map.mp hrow
      exact hlow entry hentry
    have hdrop : (((driverParseLineMap map).drop low).map
        (DriverLineMapEntry.toRow map)).Pairwise fun a b => a.flat < b.flat := by
      rw [map_drop]
      exact hsorted.sublist (drop_sublist _ _)
    show composeBoundaries map span.out span.source span.sourceLast _ _ = _
    rw [composeBoundaries_eq _ hdrop, spanRows, hat, hbehind, render_append,
      driverAppendComposedLineMapEntry, append_assoc, Option.toList_some,
      map_singleton, render_singleton]
    rfl
  rename_i hzero
  have hlow0 : low = 0 := by omega
  subst hlow0
  cases h
  rw [hat]
  refine ⟨?_, nofun⟩
  show composeBoundaries map span.out span.source span.sourceLast _ out = _
  rw [composeBoundaries_eq out hsorted, spanRows, hat]
  rfl

/-- The runs that are accepted: inside the buffer, one behind the other, with numbers
that fit their type. -/
structure SpansFit (rows : List LineRow) (generatedLineCount : Nat) (spans : List Span) :
    Prop where
  first : ∀ span ∈ spans, 0 < span.out ∧ span.out ≤ span.last
  inside : ∀ span ∈ spans, span.last ≤ generatedLineCount
  mapped : ∀ span ∈ spans, ∀ row ∈ at? LineRow.flat rows span.source,
    row.source + (span.source - row.flat) ≤ 4294967295
  ordered : spans.Pairwise fun a b => a.last < b.out
  touching : spans.IsChain fun a b => b.out ≤ a.last + 1
  whole : ∀ span ∈ spans.getLast?, span.last = generatedLineCount

variable {generatedLineCount : Nat} {spans : List Span}

theorem SpansFit.cons {generatedLineCount : Nat} {spans : List Span}
    (h : SpansFit rows generatedLineCount spans) (hout : 0 < span.out ∧ span.out ≤ span.last)
    (hlast : span.last ≤ generatedLineCount)
    (hmapped : ∀ row ∈ at? LineRow.flat rows span.source,
      row.source + (span.source - row.flat) ≤ 4294967295)
    (hnext : ∀ next ∈ spans.head?, next.out = span.last + 1)
    (hwhole : spans = [] → span.last = generatedLineCount) :
    SpansFit rows generatedLineCount (span :: spans) := by
  have hordered : ∀ other ∈ spans, span.last < other.out := by
    cases spans with
    | nil => nofun
    | cons next spans =>
      have hout' := hnext next rfl
      intro other hother
      rcases mem_cons.mp hother with rfl | hother
      · omega
      · have hfirst := h.first next mem_cons_self
        have hlt := (pairwise_cons.mp h.ordered).1 other hother
        omega
  refine ⟨?_, ?_, ?_, pairwise_cons.mpr ⟨hordered, h.ordered⟩, ?_, ?_⟩
  · exact forall_mem_cons.mpr ⟨hout, h.first⟩
  · exact forall_mem_cons.mpr ⟨hlast, h.inside⟩
  · exact forall_mem_cons.mpr ⟨hmapped, h.mapped⟩
  · exact isChain_cons.mpr ⟨fun next hmem => Nat.le_of_eq (hnext next hmem), h.touching⟩
  intro last hmem
  cases spans with
  | nil =>
    cases hmem
    exact hwhole rfl
  | cons next spans =>
    rw [getLast?_cons_cons] at hmem
    exact h.whole last hmem

theorem spansOf_eq_nil {runs : List UInt32} (heven : runs.length % 2 = 0)
    (h : spansOf generatedLineCount runs = []) : runs = [] := by
  match runs, heven, h with
  | [], _, _ => rfl
  | [_], heven, _ => cases heven
  | _ :: _ :: _, _, h => cases h

theorem head_spansOf {runs : List UInt32} {span : Span}
    (h : span ∈ (spansOf generatedLineCount runs).head?) :
    ∃ next ∈ runs.head?, span.out = next.toNat := by
  match runs, h with
  | o :: _ :: _, h =>
    cases h
    exact ⟨o, rfl, rfl⟩

theorem composeRuns_spec {map : Bytes} {generatedLineCount : Nat} : ∀ (runs : List UInt32)
    (out out' : Bytes), runs.length % 2 = 0 →
      composeRuns map (driverParseLineMap map) generatedLineCount runs out = some out' →
      out' = out ++ render ((spansOf generatedLineCount runs).flatMap (spanRows (rowsOf map))) ∧
        SpansFit (rowsOf map) generatedLineCount (spansOf generatedLineCount runs)
  | [], out, out', _, h => by
      cases h
      exact ⟨(append_nil out).symm, nofun, nofun, nofun, List.Pairwise.nil, .nil, nofun⟩
  | [_], _, _, heven, _ => by cases heven
  | o :: s :: runs, out, out', heven, h => by
      have heven' : runs.length % 2 = 0 := by
        simp only [length_cons] at heven
        omega
      unfold composeRuns at h
      split at h
      next => cases h
      rename_i hstart
      rw [not_or, not_or] at hstart
      have hrun : ∀ last, o.toNat ≤ last → last ≤ generatedLineCount →
          (∀ next ∈ runs.head?, next.toNat = last + 1) → (runs = [] → last = generatedLineCount) →
          (composeRun map (driverParseLineMap map) o.toNat s.toNat last out).bind
            (composeRuns map (driverParseLineMap map) generatedLineCount runs) = some out' →
          out' = out ++
            render ((⟨o.toNat, s.toNat, last⟩ :: spansOf generatedLineCount runs).flatMap
              (spanRows (rowsOf map))) ∧
            SpansFit (rowsOf map) generatedLineCount
              (⟨o.toNat, s.toNat, last⟩ :: spansOf generatedLineCount runs) := by
        intro last hle hlast hnext hwhole hbind
        obtain ⟨middle, hmiddle, hrest⟩ := Option.bind_eq_some_iff.mp hbind
        obtain ⟨rfl, hmapped⟩ := @composeRun_spec ⟨o.toNat, s.toNat, last⟩ _ _ _ hmiddle
        obtain ⟨rfl, hfit⟩ := composeRuns_spec runs _ _ heven' hrest
        refine ⟨by rw [flatMap_cons, render_append, append_assoc], ?_⟩
        refine hfit.cons ⟨Nat.pos_of_ne_zero hstart.1, hle⟩ hlast hmapped
          (fun next hmem => ?_) fun hnil =>
          hwhole (spansOf_eq_nil heven' hnil)
        obtain ⟨n, hn, hout⟩ := head_spansOf hmem
        rw [hout]
        exact hnext n hn
      rw [spansOf]
      cases hhead : runs.head? with
      | none =>
        rw [hhead] at h hrun
        exact hrun generatedLineCount (by omega) (Nat.le_refl _) nofun (fun _ => rfl) h
      | some next =>
        rw [hhead] at h hrun
        dsimp only at h
        split at h
        next => cases h
        rename_i hnext
        rw [not_or] at hnext
        refine hrun (next.toNat - 1) (by omega) (by omega) (fun n hn => ?_) (fun hnil => ?_) h
        · cases hn
          omega
        · rw [hnil] at hhead
          cases hhead

/-! ## The composed map -/

theorem mem_spanRows (h : row ∈ spanRows rows span) :
    (∃ r, at? LineRow.flat rows span.source = some r ∧ row = span.headRow r) ∨
      ∃ r ∈ rows, (span.source < r.flat ∧ r.flat ≤ span.sourceLast) ∧ row = span.boundaryRow r := by
  rw [spanRows, mem_append, mem_map, mem_map] at h
  rcases h with ⟨r, hr, rfl⟩ | ⟨r, hr, rfl⟩
  · exact .inl ⟨r, Option.mem_toList.mp hr, rfl⟩
  · rw [mem_boundaries] at hr
    exact .inr ⟨r, hr.1, hr.2, rfl⟩

theorem spanRows_inside (hspan : span.out ≤ span.last) (h : row ∈ spanRows rows span) :
    span.out ≤ row.flat ∧ row.flat ≤ span.last := by
  rcases mem_spanRows h with ⟨r, -, rfl⟩ | ⟨r, -, hr, rfl⟩
  · exact ⟨Nat.le_refl _, hspan⟩
  · simp only [Span.boundaryRow, Span.sourceLast] at hr ⊢
    omega

theorem spanRows_rising (h : WellFormedRows rows) :
    (spanRows rows span).Pairwise fun a b => a.flat < b.flat := by
  rw [spanRows, pairwise_append]
  refine ⟨?_, ?_, ?_⟩
  · cases at? LineRow.flat rows span.source with
    | none => exact List.Pairwise.nil
    | some row => exact pairwise_singleton _ _
  · rw [pairwise_map]
    refine (h.rising.filter _).imp_of_mem fun ha hb hlt => ?_
    have ha' := (mem_boundaries.mp ha).2
    have hb' := (mem_boundaries.mp hb).2
    simp only [Span.boundaryRow]
    omega
  · intro a ha b hb
    obtain ⟨r, -, rfl⟩ := mem_map.mp ha
    obtain ⟨r', hr', rfl⟩ := mem_map.mp hb
    have hb' := (mem_boundaries.mp hr').2
    simp only [Span.headRow, Span.boundaryRow]
    omega

theorem composed_wellFormed (h : WellFormedRows rows)
    (hfit : SpansFit rows generatedLineCount spans) (hcount : generatedLineCount ≤ 4294967295) :
    WellFormedRows (spans.flatMap (spanRows rows)) := by
  constructor
  · intro row hrow
    obtain ⟨span, hspan, hrow⟩ := mem_flatMap.mp hrow
    have hfirst := hfit.first span hspan
    have hinside := hfit.inside span hspan
    obtain ⟨hout, hlast⟩ := spanRows_inside hfirst.2 hrow
    rcases mem_spanRows hrow with ⟨r, hr, rfl⟩ | ⟨r, hr, -, rfl⟩
    · have hwf := h.row r (mem_of_at? hr).1
      exact ⟨by omega, by omega, Nat.add_pos_left hwf.source_pos _, hfit.mapped span hspan r hr,
        hwf.path_line⟩
    · have hwf := h.row r hr
      exact ⟨by omega, by omega, hwf.source_pos, hwf.source_le, hwf.path_line⟩
  · rw [pairwise_flatMap]
    refine ⟨fun span _ => spanRows_rising h, hfit.ordered.imp_of_mem fun {a b} ha hb hlt => ?_⟩
    intro x hx y hy
    have hx' := (spanRows_inside (hfit.first a ha).2 hx).2
    have hy' := (spanRows_inside (hfit.first b hb).2 hy).1
    omega

theorem spanRows_eq_nil_iff :
    spanRows rows span = [] ↔ ∀ row ∈ rows, span.sourceLast < row.flat := by
  constructor
  · intro hnil row hrow
    by_contra hreached
    rw [spanRows, append_eq_nil_iff, map_eq_nil_iff, map_eq_nil_iff,
      Option.toList_eq_nil_iff, at?_eq_none] at hnil
    have hbehind := hnil.1 row hrow
    have hmem := mem_boundaries.mpr ⟨hrow, hbehind, Nat.le_of_not_lt hreached⟩
    rw [hnil.2] at hmem
    cases hmem
  · intro hnone
    rw [eq_nil_iff_forall_not_mem]
    intro row hrow
    rcases mem_spanRows hrow with ⟨r, hr, rfl⟩ | ⟨r, hr, hle, rfl⟩
    · have hr' := mem_of_at? hr
      have := hnone r hr'.1
      rw [Span.sourceLast] at this
      omega
    · exact absurd (hnone r hr) (by omega)

theorem SpansFit.tail (h : SpansFit rows generatedLineCount (span :: spans)) :
    SpansFit rows generatedLineCount spans where
  first := fun other hother => h.first other (mem_cons_of_mem span hother)
  inside := fun other hother => h.inside other (mem_cons_of_mem span hother)
  mapped := fun other hother => h.mapped other (mem_cons_of_mem span hother)
  ordered := (pairwise_cons.mp h.ordered).2
  touching := (isChain_cons.mp h.touching).2
  whole := by
    intro last hmem
    refine h.whole last ?_
    cases spans with
    | nil => cases hmem
    | cons next spans => rwa [getLast?_cons_cons]

theorem exists_span : ∀ {spans : List Span},
    SpansFit rows generatedLineCount spans → (∃ span ∈ spans.head?, span.out ≤ k) →
    k ≤ generatedLineCount → ∃ front span back, spans = front ++ span :: back ∧ span.out ≤ k ∧
      k ≤ span.last ∧ (∀ other ∈ front, other.last < k) ∧ ∀ other ∈ back, k < other.out := by
  intro spans
  induction spans with
  | nil => exact fun _ ⟨_, h, _⟩ => nomatch h
  | cons span spans ih =>
    rintro hfit ⟨head, hhead, hout⟩ hk
    cases hhead
    rcases Nat.lt_or_ge span.last k with hpast | hinside
    · cases spans with
      | nil =>
        have := hfit.whole span rfl
        omega
      | cons next spans =>
        have htouch := (isChain_cons_cons.mp hfit.touching).1
        obtain ⟨front, other, back, hsplit, h1, h2, h3, h4⟩ :=
          ih hfit.tail ⟨next, rfl, by omega⟩ hk
        refine ⟨span :: front, other, back, by rw [hsplit]; rfl, h1, h2, ?_, h4⟩
        exact forall_mem_cons.mpr ⟨hpast, h3⟩
    · refine ⟨[], span, spans, rfl, hout, hinside, nofun, fun other hother => ?_⟩
      exact Nat.lt_of_le_of_lt hinside ((pairwise_cons.mp hfit.ordered).1 other hother)

variable {front : List Span} {back : List Span}

theorem rowAt_composed (h : WellFormedRows rows)
    (hfit : SpansFit rows generatedLineCount (front ++ span :: back)) (hout : span.out ≤ k)
    (hlast : k ≤ span.last) :
    rowAt ((front ++ span :: back).flatMap (spanRows rows)) k =
      (rowAt rows (span.source + (k - span.out))).or
        (rowAt (front.flatMap (spanRows rows)) k) := by
  have hback : at? LineRow.flat (back.flatMap (spanRows rows)) k = none := by
    refine at?_of_lt fun row hrow => ?_
    obtain ⟨other, hother, hrow⟩ := mem_flatMap.mp hrow
    have hmem : other ∈ front ++ span :: back :=
      mem_append_right front (mem_cons_of_mem span hother)
    have hordered := (pairwise_append.mp hfit.ordered).2.1
    have hlt := (pairwise_cons.mp hordered).1 other hother
    have hrow' := (spanRows_inside (hfit.first other hmem).2 hrow).1
    omega
  rw [← rowAt_spanRows h hout hlast, rowAt, flatMap_append, flatMap_cons, at?_append,
    at?_append, hback, Option.none_or, Option.map_or]
  rfl

theorem assigned_of_split (hout : span.out ≤ k) (hback : ∀ other ∈ back, k < other.out) :
    assigned (front ++ span :: back) k = some (span.source + (k - span.out)) := by
  have hspan : at? Span.out [span] k = some span :=
    at?_of_le fun other hother => by rw [mem_singleton.mp hother]; exact hout
  rw [assigned, at?_append, ← singleton_append, at?_append, at?_of_lt hback, hspan]
  rfl

theorem rowAt_eq_none : rowAt rows k = none ↔ ∀ row ∈ rows, k < row.flat := by
  rw [rowAt, Option.map_eq_none_iff, at?_eq_none]

/-- Behind a run that reached the first row of the source map, every run begins at or
behind that row. -/
def ReachedInOrder (rows : List LineRow) (spans : List Span) : Prop :=
  spans.Pairwise fun earlier later =>
    (∃ row ∈ rows, row.flat ≤ earlier.sourceLast) → ∃ row ∈ rows, row.flat ≤ later.source

theorem composed_inherits {generatedLineCount : Nat} {front back : List Span} {earlier : Span}
    (h : WellFormedRows rows) (hfit : SpansFit rows generatedLineCount (front ++ span :: back))
    (hall : ∀ k, (∃ first ∈ (front ++ span :: back).head?, first.out ≤ k) →
      k ≤ generatedLineCount → rowAt ((front ++ span :: back).flatMap (spanRows rows)) k =
        (assigned (front ++ span :: back) k).bind (rowAt rows))
    (hearlier : earlier ∈ front) (hreached : ∃ row ∈ rows, row.flat ≤ earlier.sourceLast)
    (hbefore : ¬ ∃ row ∈ rows, row.flat ≤ span.source) : False := by
  have hmem : span ∈ front ++ span :: back := mem_append_right front mem_cons_self
  obtain ⟨-, hordered, hfront⟩ := pairwise_append.mp hfit.ordered
  have hspan := hfit.first span hmem
  have hfirst : ∃ first ∈ (front ++ span :: back).head?, first.out ≤ span.out := by
    cases front with
    | nil => cases hearlier
    | cons first front =>
      have hlt := hfront first mem_cons_self span mem_cons_self
      have hle := (hfit.first first mem_cons_self).2
      exact ⟨first, rfl, by omega⟩
  have hback : ∀ other ∈ back, span.out < other.out := fun other hother =>
    Nat.lt_of_le_of_lt hspan.2 ((pairwise_cons.mp hordered).1 other hother)
  have hline := hall span.out hfirst (Nat.le_trans hspan.2 (hfit.inside span hmem))
  have hnone : rowAt rows (span.source + (span.out - span.out)) = none := by
    rw [rowAt_eq_none]
    intro row hrow
    by_contra hle
    exact hbefore ⟨row, hrow, by omega⟩
  rw [rowAt_composed h hfit (Nat.le_refl _) hspan.2, assigned_of_split (Nat.le_refl _) hback,
    Option.bind_some, hnone, Option.none_or, rowAt_eq_none] at hline
  have hne : spanRows rows earlier ≠ [] := by
    rw [Ne, spanRows_eq_nil_iff]
    push Not
    exact hreached
  obtain ⟨row, hrow⟩ := exists_mem_of_ne_nil _ hne
  have hlt := hline row (mem_flatMap.mpr ⟨earlier, hearlier, hrow⟩)
  have hle := (spanRows_inside (hfit.first earlier (mem_append_left _ hearlier)).2 hrow).2
  have hlast := hfront earlier hearlier span mem_cons_self
  omega

theorem composed_iff (h : WellFormedRows rows) (hfit : SpansFit rows generatedLineCount spans) :
    (∀ k, (∃ span ∈ spans.head?, span.out ≤ k) → k ≤ generatedLineCount →
      rowAt (spans.flatMap (spanRows rows)) k = (assigned spans k).bind (rowAt rows)) ↔
    ReachedInOrder rows spans := by
  constructor
  · intro hall
    rw [ReachedInOrder, pairwise_iff_getElem]
    intro i j hi hj hij hreached
    by_contra hbefore
    generalize hfront : spans.take j = front
    have hsplit : spans = front ++ spans[j] :: spans.drop (j + 1) := by
      rw [← hfront, ← drop_eq_getElem_cons hj, take_append_drop]
    have hearlier : spans[i] ∈ front := by
      rw [← hfront]
      exact mem_take_iff_getElem.mpr ⟨i, by omega, rfl⟩
    exact composed_inherits h (by rwa [hsplit] at hfit) (by rwa [hsplit] at hall) hearlier
      hreached hbefore
  · intro hordered k hfirst hk
    obtain ⟨front, span, back, rfl, hout, hlast, hfront, hback⟩ := exists_span hfit hfirst hk
    rw [rowAt_composed h hfit hout hlast, assigned_of_split hout hback, Option.bind_some]
    cases hrow : rowAt rows (span.source + (k - span.out)) with
    | some found => rfl
    | none =>
      rw [Option.none_or, rowAt_eq_none]
      intro row hmem
      obtain ⟨other, hother, hmem⟩ := mem_flatMap.mp hmem
      -- a run before this one wrote a row, so it reached the map
      exfalso
      have hne : spanRows rows other ≠ [] := List.ne_nil_of_mem hmem
      rw [Ne, spanRows_eq_nil_iff] at hne
      push Not at hne
      obtain ⟨first, hfirst', hle⟩ := (pairwise_append.mp hordered).2.2 other hother span
        mem_cons_self hne
      have := rowAt_eq_none.mp hrow first hfirst'
      omega

/-- A composed map is accepted, and attributes the lines from the first run on as the source map
behind the runs does, exactly when no run begins before the first row of the source map behind a run
that reached it. -/
theorem composed_line_map_attributes (sourceMap : Bytes) (generatedRuns : List UInt32)
    (generatedLineCount : UInt32)
    (h : driverComposeGeneratedLineMap sourceMap generatedRuns generatedLineCount ≠ []) :
    driverParseLineMap (driverComposeGeneratedLineMap sourceMap generatedRuns
        generatedLineCount) ≠ [] ∧
    ((∀ k, (∃ span ∈ (spansOf generatedLineCount.toNat generatedRuns).head?, span.out ≤ k) →
        k ≤ generatedLineCount.toNat →
        rowAt (rowsOf (driverComposeGeneratedLineMap sourceMap generatedRuns
          generatedLineCount)) k =
          (assigned (spansOf generatedLineCount.toNat generatedRuns) k).bind
            (rowAt (rowsOf sourceMap))) ↔
      ReachedInOrder (rowsOf sourceMap) (spansOf generatedLineCount.toNat generatedRuns)) := by
  obtain ⟨out, hout, hcompose, heven⟩ : ∃ out, driverComposeGeneratedLineMap sourceMap
      generatedRuns generatedLineCount = out ∧ composeRuns sourceMap (driverParseLineMap sourceMap)
        generatedLineCount.toNat generatedRuns [] = some out ∧ generatedRuns.length % 2 = 0 := by
    unfold driverComposeGeneratedLineMap at h ⊢
    split at h
    next => exact absurd rfl h
    rename_i hsome
    rw [if_neg hsome]
    split at h
    next => exact absurd rfl h
    rename_i heven
    rw [if_neg heven]
    dsimp only at h ⊢
    split at h
    next => exact absurd rfl h
    rename_i hentries
    rw [if_neg hentries]
    cases hruns : composeRuns sourceMap (driverParseLineMap sourceMap)
        generatedLineCount.toNat generatedRuns [] with
    | none =>
      rw [hruns] at h
      exact absurd rfl h
    | some out => exact ⟨out, rfl, rfl, by omega⟩
  have hrows := rowsOf_wellFormed sourceMap
  obtain ⟨hbytes, hfit⟩ := composeRuns_spec generatedRuns [] out heven hcompose
  have hcount : generatedLineCount.toNat ≤ 4294967295 :=
    Nat.le_of_lt_succ generatedLineCount.toNat_lt
  have hread := rowsOf_render (composed_wellFormed hrows hfit hcount)
  rw [nil_append] at hbytes
  rw [hout, hbytes] at h ⊢
  refine ⟨fun hrejected => ?_, ?_⟩
  · rw [rowsOf, hrejected] at hread
    rw [← hread] at h
    exact h rfl
  · rw [hread]
    exact composed_iff hrows hfit

/-- Two runs of a map that begins at line two, in order. -/
theorem composed_line_map_of_two_runs :
    driverParseLineMap (driverComposeGeneratedLineMap (ascii "2:7:/a" ++ [10]) [1, 2, 3, 2] 3) ≠
      [] ∧
    ∀ k, (∃ span ∈ (spansOf 3 [1, 2, 3, 2]).head?, span.out ≤ k) → k ≤ 3 →
      rowAt (rowsOf (driverComposeGeneratedLineMap (ascii "2:7:/a" ++ [10]) [1, 2, 3, 2] 3)) k =
        (assigned (spansOf 3 [1, 2, 3, 2]) k).bind (rowAt (rowsOf (ascii "2:7:/a" ++ [10]))) := by
  obtain ⟨haccepted, hiff⟩ := composed_line_map_attributes (ascii "2:7:/a" ++ [10]) [1, 2, 3, 2] 3
    (by decide)
  exact ⟨haccepted, hiff.mpr (by unfold ReachedInOrder; decide)⟩

/-- The second run begins before the first row: line two of the buffer is line one of
the input, which has no origin, and the composed map attributes it to `/a`. -/
theorem composed_line_map_inherits :
    driverComposeGeneratedLineMap (ascii "2:7:/a" ++ [10]) [1, 2, 2, 1] 2 = ascii "1:7:/a" ++ [10] ∧
    assigned (spansOf 2 [1, 2, 2, 1]) 2 = some 1 ∧
    rowAt (rowsOf (ascii "2:7:/a" ++ [10])) 1 = none ∧
    rowAt (rowsOf (driverComposeGeneratedLineMap (ascii "2:7:/a" ++ [10]) [1, 2, 2, 1] 2)) 2 =
      some (ascii "/a", 8) := by
  decide

end Elisa.Driver
