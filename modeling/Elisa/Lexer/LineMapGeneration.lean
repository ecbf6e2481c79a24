import Elisa.Lexer.LineMapAgreement

/-!
# The generation of the line map

Whoever keeps answers of the line map asks its generation whether they still hold.  Publishing,
clearing and suspending count it up; putting a suspended map back does not.  A process that puts
maps back only where they change nothing (`LineMapOp.Counted`) gives the same answers wherever its
generation is the same.
-/

namespace Elisa.Lexer

section Generation

variable {host : Host} {s t : LineMapState}

def LineMapState.visible (s : LineMapState) : Bytes := s.mapValue.getD []

/-- A step that the generation counts: a map is put back only where the visible one stays the
same, and the counter is not at its end. -/
def LineMapOp.Counted (s : LineMapState) : LineMapOp → Prop
  | .resume storage suspended _ =>
    suspended = false ∨ s.overrideActive = true ∨ cString storage = s.visible
  | .lookup => True
  | _ => s.generation.toNat + 1 < 2 ^ 64

def Counts (host : Host) (s : LineMapState) : List LineMapOp → Prop
  | [] => True
  | op :: ops => op.Counted s ∧ Counts host (s.step host op) ops

theorem toNat_succ {generation : UInt64} (room : generation.toNat + 1 < 2 ^ 64) :
    (generation + 1).toNat = generation.toNat + 1 := by
  rw [UInt64.toNat_add]
  exact Nat.mod_eq_of_lt room

theorem LineMapState.step_counted (fresh : s.Fresh host) {op : LineMapOp} (counted : op.Counted s) :
    s.generation.toNat < (s.step host op).generation.toNat ∨
      (s.step host op).generation = s.generation ∧ (s.step host op).visible = s.visible := by
  cases op with
  | publish map =>
    unfold LineMapState.step LineMapState.publish
    dsimp only
    split
    · exact .inr ⟨rfl, rfl⟩
    · exact .inl (by rw [toNat_succ counted]; exact Nat.lt_succ_self _)
  | clear => exact .inl (by
      rw [LineMapState.step, LineMapState.clear, toNat_succ counted]
      exact Nat.lt_succ_self _)
  | suspend =>
    unfold LineMapState.step LineMapState.suspend
    dsimp only
    split
    · exact .inr ⟨rfl, rfl⟩
    · exact .inl (by
        rw [LineMapState.clear, toNat_succ counted]
        exact Nat.lt_succ_self _)
  | resume storage suspended pointer =>
    right
    unfold LineMapState.step LineMapState.resume
    dsimp only
    split
    next => exact ⟨rfl, rfl⟩
    rename_i back
    refine ⟨rfl, ?_⟩
    rcases counted with stays | active | same
    · simp [stays] at back
    · simp [LineMapState.visible, LineMapState.mapValue, LineMapState.drop, active]
    by_cases active : s.overrideActive = true
    · simp [LineMapState.visible, LineMapState.mapValue, LineMapState.drop, active]
    rw [← same]
    by_cases none : cString storage = []
    · simp [LineMapState.visible, LineMapState.mapValue, LineMapState.drop, active, none]
    · simp [LineMapState.visible, LineMapState.mapValue, LineMapState.drop, active,
        List.length_pos_iff.2 none]
  | lookup =>
    right
    obtain ⟨-, map, generation, -⟩ := fresh.ready
    refine ⟨generation, ?_⟩
    rw [LineMapState.visible, LineMapState.step, map]
    rfl

theorem LineMapState.run_counted (fresh : s.Fresh host) {ops : List LineMapOp}
    (counts : Counts host s ops) :
    s.generation.toNat < (s.run host ops).generation.toNat ∨
      (s.run host ops).generation = s.generation ∧ (s.run host ops).visible = s.visible := by
  induction ops generalizing s with
  | nil => exact .inr ⟨rfl, rfl⟩
  | cons op ops ih =>
    have rest := ih (fresh.step op) counts.2
    rw [show s.run host (op :: ops) = (s.step host op).run host ops from rfl]
    rcases LineMapState.step_counted fresh counts.1 with later | ⟨generation, visible⟩
    · left
      rcases rest with further | ⟨same, -⟩
      · exact Nat.lt_trans later further
      · rwa [same]
    · rwa [generation, visible] at rest

theorem LineMapState.Fresh.not_ready (fresh : s.Fresh host) (unready : (s.ready host).1 = false) :
    (lineMapCacheBuild host s.visible).state ≠ .valid ∨ s.mapValue = none := by
  have rebuilt (key : Nat)
      (unready : (if key = s.key ∧ s.tables.state ≠ .unbuilt then (s.tables.state == .valid, s)
        else
          let tables := lineMapCacheBuild host (s.mapValue.getD [])
          (tables.state == .valid, { s with key := key, tables := tables })).1 = false) :
      (lineMapCacheBuild host s.visible).state ≠ .valid := by
    split at unready
    next kept =>
      rw [fresh kept.2] at unready
      exact beq_eq_false_iff_ne.1 unready
    next => exact beq_eq_false_iff_ne.1 unready
  unfold LineMapState.ready at unready
  dsimp only at unready
  split at unready
  next => exact .inl (rebuilt 1 unready)
  rename_i inactive
  split at unready
  next pointer _ _ => exact .inl (rebuilt pointer unready)
  next missing =>
    right
    rw [LineMapState.mapValue, if_neg inactive, missing]

theorem LineMapState.Fresh.answers (fresh : s.Fresh host) (flatLine : UInt32) :
    s.sourceOriginalLine host flatLine =
        (if (lineMapCacheBuild host s.visible).state = .valid then
          lineMapCachedOriginalLine (lineMapCacheBuild host s.visible) flatLine
        else sourceOriginalLineFromMap (some s.visible) flatLine) ∧
      s.sourceLineIsRuntimeStd host flatLine =
        (if (lineMapCacheBuild host s.visible).state = .valid then
          lineMapCachedIsRuntimeStd (lineMapCacheBuild host s.visible) flatLine
        else sourceLineIsRuntimeStdFromMap host (some s.visible) flatLine) := by
  obtain ⟨-, map, -, tables⟩ := fresh.ready
  have unready := fresh.not_ready
  unfold LineMapState.sourceOriginalLine LineMapState.sourceLineIsRuntimeStd
  generalize s.ready host = answer at map tables unready ⊢
  obtain ⟨ready, after⟩ := answer
  cases ready with
  | true =>
    obtain ⟨same, valid⟩ := tables rfl
    change (lineMapCacheBuild host s.visible).state = .valid at valid
    change after.tables = lineMapCacheBuild host s.visible at same
    rw [if_pos valid, if_pos valid]
    dsimp only
    rw [same]
    exact ⟨rfl, rfl⟩
  | false =>
    dsimp only at map ⊢
    rw [map]
    have missing := @fromMap_getD host s.mapValue flatLine
    change sourceOriginalLineFromMap (some s.visible) flatLine = _ ∧
      sourceLineIsRuntimeStdFromMap host (some s.visible) flatLine = _ at missing
    rcases unready rfl with invalid | none
    · rw [if_neg invalid, if_neg invalid]
      exact ⟨missing.1.symm, missing.2.symm⟩
    · have empty : s.visible = [] := by rw [LineMapState.visible, none]; rfl
      rw [empty, none]
      exact ⟨rfl, rfl⟩

/-- In a run whose steps are all counted, the generation says which answers the line map gives:
where it is the same, so are they, for every line. -/
theorem generation_identifies_map (environment : Option (Nat × Bytes))
    (before between : List LineMapOp)
    (counts : Counts host ((LineMapState.initial environment).run host before) between)
    (same : ((LineMapState.initial environment).run host (before ++ between)).generation =
      ((LineMapState.initial environment).run host before).generation) (flatLine : UInt32) :
    let s := (LineMapState.initial environment).run host before
    let t := (LineMapState.initial environment).run host (before ++ between)
    t.sourceOriginalLine host flatLine = s.sourceOriginalLine host flatLine ∧
      t.sourceLineIsRuntimeStd host flatLine = s.sourceLineIsRuntimeStd host flatLine := by
  intro s t
  have fresh : s.Fresh host := (LineMapState.fresh_initial environment).run before
  have run : t = s.run host between := List.foldl_append
  have visible : t.visible = s.visible := by
    rcases LineMapState.run_counted fresh counts with later | ⟨-, visible⟩
    · rw [← run, show t.generation = s.generation from same] at later
      exact absurd later (Nat.lt_irrefl _)
    · rw [run]
      exact visible
  have later : t.Fresh host := run ▸ fresh.run between
  have first := fresh.answers flatLine
  have last := later.answers flatLine
  rw [visible] at last
  exact ⟨last.1.trans first.1.symm, last.2.trans first.2.symm⟩

/-- A map is published and looked at; nothing changes it. -/
theorem published_generation_identifies_map :
    let s := (LineMapState.initial none).run installedHost [.publish installedMap]
    let t := (LineMapState.initial none).run installedHost
      ([.publish installedMap] ++ [.lookup, .publish installedMap])
    t.sourceOriginalLine installedHost 12 = s.sourceOriginalLine installedHost 12 ∧
      t.sourceLineIsRuntimeStd installedHost 12 = s.sourceLineIsRuntimeStd installedHost 12 :=
  generation_identifies_map none [.publish installedMap] [.lookup, .publish installedMap]
    ⟨trivial, by change (_ : Nat) < _; decide +kernel, trivial⟩ (by decide +kernel) 12

def suspendedRun : List LineMapOp :=
  [.publish installedMap, .suspend, .resume installedMap true 4096]

theorem suspendedRun_same_generation :
    let s := (LineMapState.initial none).run installedHost (suspendedRun.take 2)
    let t := (LineMapState.initial none).run installedHost suspendedRun
    s.generation = t.generation ∧
      s.sourceOriginalLine installedHost 12 ≠ t.sourceOriginalLine installedHost 12 := by
  decide +kernel

end Generation

end Elisa.Lexer
