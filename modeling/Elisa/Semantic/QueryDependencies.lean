import Elisa.Semantic.QueryReplace

/-!
# The check of the named dependencies

Before a query is read or committed, the handles its caller names are compared with the edges the
query has, which writes nothing in a linked pool.  What it accepts is described by
`CheckedDependencies`: the collected ids are the nodes of the handles without repetition, an equal
check means that the edges lead to exactly these nodes, and current results that every edge has seen
the present generation of its target.
-/

namespace Elisa.Semantic

open QuerySession LinkedList List

variable {s : QuerySession} {out inc : Nat → List Nat} {q : Nat}

theorem node_lt_of_handle {handle : QueryHandle} (h : ifqQueryHandleIsValid s handle = true) :
    handle.node < s.queryNodes.length := by
  unfold ifqQueryHandleIsValid at h
  simp only [Bool.if_false_left, Bool.and_eq_true, ifqQueryIdIsValid, decide_eq_true_eq] at h
  exact h.2.2.2.2.2.2

/-! ## Collecting -/

/-- What a check knows of the dependencies that it has collected from the handles. -/
structure CollectsFrom (s : QuerySession) (q : Nat) (handles : List QueryHandle)
    (check : DependencyCheck) : Prop where
  nodup : check.dependencyIds.Nodup
  mem : ∀ d, d ∈ check.dependencyIds ↔ ∃ handle ∈ handles, handle.node = d
  handles_valid : ∀ handle ∈ handles, ifqQueryHandleIsValid s handle = true
  committed : ∀ d ∈ check.dependencyIds, d < s.queryNodes.length ∧ d ≠ q ∧
    (s.node d).hasCommittedValue = true ∧ (s.node d).resultGeneration ≠ 0
  green : check.allDependenciesGreen = true → ∀ d ∈ check.dependencyIds, (s.node d).status = .green

/-- A check that has not yet been refused. -/
structure Collected (s : QuerySession) (q : Nat) (handles : List QueryHandle)
    (check : DependencyCheck) : Prop extends CollectsFrom s q handles check where
  valid : check.valid = true
  equal : check.equal = true
  current : check.resultsCurrent = true

theorem Collected.start (s : QuerySession) (q : Nat) : Collected s q [] .start :=
  ⟨⟨nodup_nil, by simp [DependencyCheck.start], nofun, by simp [DependencyCheck.start],
    by simp [DependencyCheck.start]⟩, rfl, rfl, rfl⟩

/-- The check of one dependency writes nothing.  It refuses, or the dependency has
a value and only the green flag may have changed. -/
theorem checkDependencyNode_spec (hL : Linked s s.heads out inc) {d : Nat}
    (hd : d < s.queryNodes.length) (check : DependencyCheck) :
    (∃ refused, ifqCheckDependencyNode s check d = (s, .error refused) ∧ refused.valid = false) ∨
    (ifqCheckDependencyNode s check d = (s, .ok { check with
        allDependenciesGreen := check.allDependenciesGreen && (s.node d).status == .green }) ∧
      (s.node d).hasCommittedValue = true ∧ (s.node d).resultGeneration ≠ 0) := by
  unfold ifqCheckDependencyNode
  dsimp only
  split
  next => exact .inl ⟨_, rfl, rfl⟩
  rename_i hcommitted
  split
  next => exact .inl ⟨_, rfl, rfl⟩
  rename_i hgen
  generalize hgreen : (if ((s.node d).status != .green) = true then
    { check with allDependenciesGreen := false } else check) = check'
  have hcheck : check' = { check with
      allDependenciesGreen := check.allDependenciesGreen && (s.node d).status == .green } := by
    rw [← hgreen]
    by_cases hg : (s.node d).status = .green
    · simp [hg]
    · simp [hg]
  split
  next => exact .inl ⟨_, rfl, rfl⟩
  next =>
    rw [hL.validateCached hd]
    refine .inr ⟨by rw [hcheck], by simpa using hcommitted, by simpa using hgen⟩

theorem collectDependencies_spec (hL : Linked s s.heads out inc) :
    ∀ (handles seen : List QueryHandle) (check : DependencyCheck), Collected s q seen check →
      (∃ refused, ifqCollectDependencies q handles s check = (s, .error refused) ∧
        refused.valid = false) ∨
      ∃ check', ifqCollectDependencies q handles s check = (s, .ok check') ∧
        Collected s q (seen ++ handles) check' := by
  intro handles
  induction handles with
  | nil =>
    intro seen check h
    exact .inr ⟨check, rfl, by rw [append_nil]; exact h⟩
  | cons handle handles ih =>
    intro seen check h
    have happend : seen ++ handle :: handles = (seen ++ [handle]) ++ handles := by simp
    rw [ifqCollectDependencies, happend]
    split
    next => exact .inl ⟨_, rfl, rfl⟩
    rename_i hvalid
    have hvalid' : ifqQueryHandleIsValid s handle = true := by simpa using hvalid
    have hhandles : ∀ h ∈ seen ++ [handle], ifqQueryHandleIsValid s h = true := by
      intro h' hh
      rcases mem_append.mp hh with hh | hh
      · exact h.handles_valid h' hh
      · rw [mem_singleton.mp hh]
        exact hvalid'
    split
    next => exact .inl ⟨_, rfl, rfl⟩
    rename_i hself
    have hne : handle.node ≠ q := by simpa using hself
    split
    next hdup =>
      have hdup' : handle.node ∈ check.dependencyIds := by simpa using hdup
      refine ih _ check { h with mem := fun d => ?_, handles_valid := hhandles }
      rw [h.mem d]
      constructor
      · rintro ⟨h', hh, hd⟩
        exact ⟨h', mem_append_left _ hh, hd⟩
      · rintro ⟨h', hh, rfl⟩
        rcases mem_append.mp hh with hh | hh
        · exact ⟨h', hh, rfl⟩
        · rw [mem_singleton.mp hh]
          exact (h.mem _).mp hdup'
    rename_i hdup
    have hdup' : handle.node ∉ check.dependencyIds := by simpa using hdup
    have hlt := node_lt_of_handle hvalid'
    rcases checkDependencyNode_spec hL hlt check with
      ⟨refused, hrun, hr⟩ | ⟨hrun, hcommitted, hgen⟩
    · exact .inl ⟨refused, by rw [hrun], hr⟩
    rw [hrun]
    refine ih _ _ ⟨⟨?_, fun d => ?_, hhandles, ?_, ?_⟩, h.valid, h.equal, h.current⟩
    · rw [nodup_append]
      refine ⟨h.nodup, nodup_singleton _, fun a ha b hb hab => hdup' ?_⟩
      rw [← mem_singleton.mp hb, ← hab]
      exact ha
    · simp only [mem_append, h.mem d, mem_singleton]
      constructor
      · rintro (⟨h', hh, hd⟩ | rfl)
        · exact ⟨h', .inl hh, hd⟩
        · exact ⟨handle, .inr rfl, rfl⟩
      · rintro ⟨h', hh | rfl, rfl⟩
        · exact .inl ⟨h', hh, rfl⟩
        · exact .inr rfl
    · intro d hd
      rcases mem_append.mp hd with hd | hd
      · exact h.committed d hd
      · rw [mem_singleton.mp hd]
        exact ⟨hlt, hne, hcommitted, hgen⟩
    · intro hgreen d hd
      rw [Bool.and_eq_true, beq_iff_eq] at hgreen
      rcases mem_append.mp hd with hd | hd
      · exact h.green hgreen.1 d hd
      · rw [mem_singleton.mp hd]
        exact hgreen.2

/-! ## Comparing with the old edges -/

theorem matchOld_spec {d : Nat} :
    ∀ (ids : List Nat) (marks : List Bool) (found : Bool) (marks' : List Bool),
      marks.length = ids.length → ifqMatchOld d ids marks = some (found, marks') →
      (found = true ↔ d ∈ ids) ∧ marks'.length = ids.length
  | [], [], found, marks', _, h => by
      rw [ifqMatchOld] at h
      · cases h
        simp
      · nofun
  | id :: ids, mark :: marks, found, marks', hlen, h => by
      rw [ifqMatchOld] at h
      split at h
      next => cases h
      obtain ⟨⟨f, ms⟩, hrest, hpair⟩ := Option.map_eq_some_iff.mp h
      cases hpair
      obtain ⟨hiff, hlen'⟩ := matchOld_spec ids marks f ms (by simpa using hlen) hrest
      refine ⟨?_, by simpa using hlen'⟩
      rw [Bool.or_eq_true, decide_eq_true_eq, hiff, mem_cons]
      exact or_congr_left eq_comm

theorem compareOldEdges_spec (hL : Linked s s.heads out inc) (hq : q < s.queryNodes.length) :
    ∀ (l : List Nat) (remaining cursor steps : Nat) (check : DependencyCheck) (marks : List Bool),
      Chain queryNone (fun e => (s.edge e).nextDependency) cursor l → (∀ e ∈ l, e ∈ out q) →
      marks.length = check.dependencyIds.length →
      (∃ refused, ifqCompareOldEdges q remaining s cursor steps check marks = (s, .error refused) ∧
        (check.valid = true → refused.valid = false)) ∨
      ∃ equal current, ifqCompareOldEdges q remaining s cursor steps check marks =
        (s, .ok { check with
          oldCount := steps + l.length
          equal := equal
          resultsCurrent := current }) ∧
        (equal = true → check.equal = true ∧ ∀ e ∈ l, (s.edge e).dependee ∈ check.dependencyIds) ∧
        (equal = true → current = true → check.resultsCurrent = true ∧
          ∀ e ∈ l, (s.edge e).observedResultGeneration =
            (s.node (s.edge e).dependee).resultGeneration) := by
  intro l
  induction l with
  | nil =>
    intro remaining cursor steps check marks hc _ _
    rw [chain_nil] at hc
    refine .inr ⟨check.equal, check.resultsCurrent, ?_, fun h => ⟨h, nofun⟩, fun _ h => ⟨h, nofun⟩⟩
    rw [ifqCompareOldEdges, if_pos hc]
    rfl
  | cons e l ih =>
    intro remaining cursor steps check marks hc hl hmarks
    obtain ⟨rfl, hne, hrest⟩ := hc
    obtain ⟨he, hdep⟩ := (hL.out_mem q hq cursor).mp (hl cursor mem_cons_self)
    have hd := (hL.live he (by rw [hdep]; exact hL.ne_none_of_node hq)).2.1
    rw [ifqCompareOldEdges, if_neg hne]
    split
    next => exact .inl ⟨_, rfl, fun _ => rfl⟩
    dsimp only
    rw [hL.validateCached hd]
    dsimp only
    cases hmatch : ifqMatchOld (s.edge cursor).dependee check.dependencyIds marks with
    | none => exact .inl ⟨_, rfl, fun _ => rfl⟩
    | some result =>
      obtain ⟨found, marks'⟩ := result
      obtain ⟨hfound, hmarks'⟩ := matchOld_spec _ _ _ _ hmarks hmatch
      dsimp only
      cases remaining with
      | zero => exact .inl ⟨_, rfl, fun _ => rfl⟩
      | succ remaining =>
        rcases ih remaining (s.edge cursor).nextDependency (steps + 1) { check with
            resultsCurrent := check.resultsCurrent && !(found &&
              (s.edge cursor).observedResultGeneration !=
                (s.node (s.edge cursor).dependee).resultGeneration)
            equal := check.equal && found } marks' hrest
            (fun e he => hl e (mem_cons_of_mem _ he)) hmarks' with
          ⟨refused, hrun, hr⟩ | ⟨equal, current, hrun, hequal, hcurrent⟩
        · exact .inl ⟨refused, hrun, hr⟩
        refine .inr ⟨equal, current, ?_, fun h => ?_, fun h hc => ?_⟩
        · refine hrun.trans ?_
          simp only [length_cons]
          rw [show steps + 1 + l.length = steps + (l.length + 1) by omega]
        · obtain ⟨hboth, hall⟩ := hequal h
          obtain ⟨hce, hf⟩ := Bool.and_eq_true_iff.mp hboth
          exact ⟨hce, forall_mem_cons.mpr ⟨hfound.mp hf, hall⟩⟩
        obtain ⟨hboth, hall⟩ := hcurrent h hc
        have hf := (Bool.and_eq_true_iff.mp (hequal h).1).2
        obtain ⟨hcr, hstale⟩ := Bool.and_eq_true_iff.mp hboth
        refine ⟨hcr, forall_mem_cons.mpr ⟨?_, hall⟩⟩
        simpa [hf] using hstale

/-! ## The whole check -/

/-- What a check that accepts has established. -/
structure CheckedDependencies (s : QuerySession) (q : Nat) (handles : List QueryHandle)
    (old : List Nat) (check : DependencyCheck) : Prop extends CollectsFrom s q handles check where
  unique : check.uniqueCount = check.dependencyIds.length
  old_count : check.oldCount = old.length
  equal : check.equal = true → ∀ d, d ∈ check.dependencyIds ↔ DependsOn s q d
  current : check.equal = true → check.resultsCurrent = true →
    ∀ d g, Depends s q d g → g = (s.node d).resultGeneration

theorem mem_ids_iff {ids targets : List Nat} (hnd : targets.Nodup)
    (hsub : ∀ d ∈ targets, d ∈ ids) (hlen : targets.length = ids.length) (d : Nat) :
    d ∈ ids ↔ d ∈ targets := by
  have hperm : targets.Perm ids :=
    (subperm_of_subset hnd hsub).perm_of_length_le (Nat.le_of_eq hlen.symm)
  exact hperm.mem_iff.symm

theorem dependenciesCheck_spec (hL : Linked s s.heads out inc) (hq : q < s.queryNodes.length)
    (handles : List QueryHandle) :
    (ifqQueryDependenciesCheck s q handles).1 = s ∧
      ((ifqQueryDependenciesCheck s q handles).2.valid = true →
        CheckedDependencies s q handles (out q) (ifqQueryDependenciesCheck s q handles).2) := by
  unfold ifqQueryDependenciesCheck
  split
  next => exact ⟨rfl, nofun⟩
  rcases collectDependencies_spec hL handles [] .start (.start s q) with
    ⟨refused, hrun, hr⟩ | ⟨check, hrun, h⟩
  · rw [hrun]
    exact ⟨rfl, fun hv => by rw [hr] at hv; cases hv⟩
  rw [hrun]
  rw [nil_append] at h
  dsimp only
  rcases compareOldEdges_spec hL hq (out q) s.queryEdges.length (s.node q).firstDependency 0
      { check with uniqueCount := check.dependencyIds.length }
      (check.dependencyIds.map fun _ => false) (hL.out_chain q hq) (fun _ he => he) (by simp) with
    ⟨refused, hcompare, hr⟩ | ⟨equal, current, hcompare, hequal, hcurrent⟩
  · rw [hcompare]
    exact ⟨rfl, fun hv => by rw [hr h.valid] at hv; cases hv⟩
  rw [hcompare]
  refine ⟨rfl, fun _ => ⟨{ h.toCollectsFrom with }, rfl, Nat.zero_add _, fun he d => ?_,
    fun he hc d g hdep => ?_⟩⟩
  · obtain ⟨he, hcount⟩ := Bool.and_eq_true_iff.mp he
    have hcount' : (out q).length = check.dependencyIds.length := by simpa using hcount
    have hsub : ∀ d ∈ (out q).map (fun e => (s.edge e).dependee), d ∈ check.dependencyIds := by
      intro d hd
      obtain ⟨e, hmem, rfl⟩ := mem_map.mp hd
      exact (hequal he).2 e hmem
    rw [mem_ids_iff (hL.out_nodup q hq) hsub (by rw [length_map]; exact hcount'),
      mem_map]
    constructor
    · rintro ⟨e, hmem, rfl⟩
      exact ⟨_, (depends_iff_reads hL hq).mpr ⟨e, hmem, rfl, rfl⟩⟩
    · rintro ⟨g, hdep⟩
      obtain ⟨e, hmem, hd, -⟩ := (depends_iff_reads hL hq).mp hdep
      exact ⟨e, hmem, hd⟩
  · obtain ⟨e, hmem, rfl, rfl⟩ := (depends_iff_reads hL hq).mp hdep
    exact (hcurrent (Bool.and_eq_true_iff.mp he).1 hc).2 e hmem

/-- A query whose dependencies a reader named exactly, all of them green and seen
at their present generation. -/
structure UpToDate (s : QuerySession) (q : Nat) (handles : List QueryHandle) : Prop where
  mem : ∀ d, (∃ handle ∈ handles, handle.node = d) ↔ DependsOn s q d
  current : ∀ d g, Depends s q d g →
    (s.node d).status = .green ∧ g = (s.node d).resultGeneration

theorem CheckedDependencies.upToDate {handles : List QueryHandle} {old : List Nat}
    {check : DependencyCheck} (h : CheckedDependencies s q handles old check)
    (hgreen : check.allDependenciesGreen = true) (hequal : check.equal = true)
    (hcurrent : check.resultsCurrent = true) : UpToDate s q handles where
  mem := fun d => (h.mem d).symm.trans (h.equal hequal d)
  current := fun d g hd =>
    ⟨h.green hgreen d ((h.equal hequal d).mpr ⟨g, hd⟩), h.current hequal hcurrent d g hd⟩

/-! ## One dependency -/

theorem validateCached_generation (s : QuerySession) (d e : Nat) :
    ((ifqQueryIncomingChainValidateCached s d).1.node e).resultGeneration =
      (s.node e).resultGeneration := by
  unfold ifqQueryIncomingChainValidateCached
  split
  · rfl
  split
  · rfl
  split
  · rfl
  split
  · rfl
  · exact node_modifyNode_field QueryNode.resultGeneration fun _ => rfl

theorem checkDependencyNode_ok {t : QuerySession} {check check' : DependencyCheck} {d : Nat}
    (hrun : ifqCheckDependencyNode s check d = (t, .ok check')) :
    (∃ green, check' = { check with allDependenciesGreen := green }) ∧
      (t.node d).resultGeneration = (s.node d).resultGeneration := by
  unfold ifqCheckDependencyNode at hrun
  dsimp only at hrun
  rcases ite_eq_iff.mp hrun with ⟨-, hrun⟩ | ⟨-, hrun⟩
  · cases hrun
  rcases ite_eq_iff.mp hrun with ⟨-, hrun⟩ | ⟨-, hrun⟩
  · cases hrun
  rcases ite_eq_iff.mp hrun with ⟨-, hrun⟩ | ⟨-, hrun⟩
  · cases hrun
  cases hvalidate : ifqQueryIncomingChainValidateCached s d with
  | mk v valid =>
    rw [hvalidate] at hrun
    cases valid with
    | false => cases hrun
    | true =>
      cases hrun
      have hgen := validateCached_generation s d d
      rw [hvalidate] at hgen
      refine ⟨?_, hgen⟩
      split <;> exact ⟨_, rfl⟩

theorem length_of_oldEdge {e : Nat} (hold : ifqOldEdgeIsValid s q e = true) :
    ∃ n, s.queryEdges.length = n + 1 := by
  have hid : ifqEdgeIdIsValid s e = true := by
    by_contra hid
    simp [ifqOldEdgeIsValid, ifqEdgeLinksAreValid, hid] at hold
  simp only [ifqEdgeIdIsValid, Bool.and_eq_true, decide_eq_true_eq] at hid
  exact Nat.exists_eq_add_one_of_ne_zero (by omega)

theorem singleRead_agrees {handle : QueryHandle} {t : QuerySession} {check : DependencyCheck}
    (h : ifqQueryDependenciesCheckSingleRead s q handle = (t, some check)) :
    ∃ ids, ifqQueryDependenciesCheck s q [handle] = (t, { check with dependencyIds := ids }) := by
  unfold ifqQueryDependenciesCheckSingleRead at h
  have hlimit : ¬ [handle].length > queryPerDependencyLimit := by simp [queryPerDependencyLimit]
  unfold ifqQueryDependenciesCheck
  rw [if_neg hlimit]
  simp only [ifqCollectDependencies]
  dsimp only at h
  rcases ite_eq_iff.mp h with ⟨hinvalid, h⟩ | ⟨hvalid, h⟩
  · cases h
    exact ⟨[], by rw [if_pos hinvalid]; rfl⟩
  rw [if_neg hvalid]
  rcases ite_eq_iff.mp h with ⟨hself, h⟩ | ⟨hother, h⟩
  · cases h
    exact ⟨[], by rw [if_pos hself]; rfl⟩
  rw [if_neg hother, if_neg (by simp [DependencyCheck.start])]
  cases hrun : ifqCheckDependencyNode s .start handle.node with
  | mk u outcome =>
  rw [hrun] at h
  cases outcome with
  | error refused =>
    cases h
    exact ⟨_, rfl⟩
  | ok accepted =>
  obtain ⟨⟨green, rfl⟩, hgen⟩ := checkDependencyNode_ok hrun
  dsimp only [DependencyCheck.start, nil_append, length_singleton, map_cons,
    map_nil] at h ⊢
  unfold ifqCompareOldEdges
  rcases ite_eq_iff.mp h with ⟨hnone, h⟩ | ⟨hsome, h⟩
  · cases h
    rw [if_pos hnone]
    exact ⟨_, rfl⟩
  rw [if_neg hsome]
  rcases ite_eq_iff.mp h with ⟨hbroken, h⟩ | ⟨hold, h⟩
  · cases h
    rw [if_pos hbroken]
    exact ⟨_, rfl⟩
  rw [if_neg hold]
  dsimp only
  have hgen' := validateCached_generation u (u.edge (u.node q).firstDependency).dependee handle.node
  cases hvalidate :
    ifqQueryIncomingChainValidateCached u (u.edge (u.node q).firstDependency).dependee with
  | mk v valid =>
  rw [hvalidate] at h hgen'
  dsimp only at h hgen'
  cases valid with
  | false =>
    cases h
    exact ⟨_, rfl⟩
  | true =>
  dsimp only at h
  rcases ite_eq_iff.mp h with ⟨-, h⟩ | ⟨hlast, h⟩
  · cases h
  -- the pool has a slot for the edge that was found
  obtain ⟨n, hlength⟩ := length_of_oldEdge (by simpa using hold)
  have hnext : (u.edge (u.node q).firstDependency).nextDependency = queryNone := by
    simpa using hlast
  rw [hlength]
  dsimp only
  rw [hnext]
  unfold ifqCompareOldEdges
  rcases ite_eq_iff.mp h with ⟨hother, h⟩ | ⟨hsame, h⟩
  · cases h
    have hne : ¬ handle.node = (u.edge (u.node q).firstDependency).dependee := fun he => by
      simp [he] at hother
    simp [ifqMatchOld, hne]
  · cases h
    have he : (u.edge (u.node q).firstDependency).dependee = handle.node := by simpa using hsame
    rw [he]
    simp [ifqMatchOld, hgen', hgen]

theorem singleRead_session (hL : Linked s s.heads out inc) (hq : q < s.queryNodes.length)
    (handle : QueryHandle) : (ifqQueryDependenciesCheckSingleRead s q handle).1 = s := by
  unfold ifqQueryDependenciesCheckSingleRead
  dsimp only
  split
  · rfl
  next hvalid =>
  split
  · rfl
  have hlt : handle.node < s.queryNodes.length := node_lt_of_handle (by simpa using hvalid)
  rcases checkDependencyNode_spec hL hlt .start with ⟨refused, hrun, -⟩ | ⟨hrun, -, -⟩
  · rw [hrun]
  rw [hrun]
  dsimp only
  split
  · rfl
  next hhead =>
  obtain ⟨rest, -, he, hdep⟩ := hL.out_head hq hhead
  have hd := (hL.live he (by rw [hdep]; exact hL.ne_none_of_node hq)).2.1
  split
  · rfl
  rw [show (s.node q).firstDependency = s.heads q from rfl, hL.validateCached hd]
  dsimp only
  split
  · rfl
  split <;> rfl

theorem checkForRead_spec (hL : Linked s s.heads out inc) (hq : q < s.queryNodes.length)
    (handles : List QueryHandle) :
    (ifqQueryDependenciesCheckForRead s q handles).1 = s ∧
      ((ifqQueryDependenciesCheckForRead s q handles).2.valid = true →
        (ifqQueryDependenciesCheckForRead s q handles).2.allDependenciesGreen = true →
        (ifqQueryDependenciesCheckForRead s q handles).2.equal = true →
        (ifqQueryDependenciesCheckForRead s q handles).2.resultsCurrent = true →
        UpToDate s q handles) := by
  obtain ⟨hsame, hchecked⟩ := dependenciesCheck_spec hL hq handles
  have hgeneral : (ifqQueryDependenciesCheck s q handles).1 = s ∧
      ((ifqQueryDependenciesCheck s q handles).2.valid = true →
        (ifqQueryDependenciesCheck s q handles).2.allDependenciesGreen = true →
        (ifqQueryDependenciesCheck s q handles).2.equal = true →
        (ifqQueryDependenciesCheck s q handles).2.resultsCurrent = true → UpToDate s q handles) :=
    ⟨hsame, fun hv hg he hc => (hchecked hv).upToDate hg he hc⟩
  unfold ifqQueryDependenciesCheckForRead
  split
  next handle =>
    have hsession := singleRead_session hL hq handle
    cases hsingle : ifqQueryDependenciesCheckSingleRead s q handle with
    | mk t answer =>
      rw [hsingle] at hsession
      obtain rfl : t = s := hsession
      cases answer with
      | none => exact hgeneral
      | some check =>
        obtain ⟨ids, hcheck⟩ := singleRead_agrees hsingle
        rw [hcheck] at hgeneral
        exact hgeneral
  next => exact hgeneral

structure SameVerdict (a b : DependencyCheck) : Prop where
  valid : a.valid = b.valid
  structural : a.structural = b.structural
  equal : a.equal = b.equal
  resultsCurrent : a.resultsCurrent = b.resultsCurrent
  allDependenciesGreen : a.allDependenciesGreen = b.allDependenciesGreen
  uniqueCount : a.uniqueCount = b.uniqueCount
  oldCount : a.oldCount = b.oldCount

/-- When the check without arrays handles a query, the general check of the same dependency has
the same verdict and leaves the same session. -/
theorem singleRead_is_check (s : QuerySession) (q : Nat) (handle : QueryHandle) {t : QuerySession}
    {check : DependencyCheck}
    (handled : ifqQueryDependenciesCheckSingleRead s q handle = (t, some check)) :
    (ifqQueryDependenciesCheck s q [handle]).1 = t ∧
      SameVerdict check (ifqQueryDependenciesCheck s q [handle]).2 := by
  obtain ⟨ids, hcheck⟩ := singleRead_agrees handled
  rw [hcheck]
  exact ⟨rfl, rfl, rfl, rfl, rfl, rfl, rfl, rfl⟩

/-- A query that read another one, whose chain has not been validated. -/
def unvalidatedRead : QuerySession :=
  { incrementalSemanticSessionNew 7 true with
    queryGraphEnabled := true
    valid := true
    queryGraphGeneration := 1
    queryRequestGeneration := 1
    queryContextGeneration := 1
    queryNodes :=
      [{ (default : QueryNode) with
          status := .green, firstDependency := queryNone, firstDepender := 0
          incomingEdgeCount := 1, incomingChainGeneration := 2, hasCommittedValue := true
          resultGeneration := 1 },
       { (default : QueryNode) with firstDepender := queryNone }]
    queryEdges := [⟨1, 0, queryNone, queryNone, queryNone, 1⟩] }

/-- The check of this query validates the chain. -/
theorem singleRead_is_check_unvalidated :
    (ifqQueryDependenciesCheck unvalidatedRead 1 [⟨0, 7, 1, 1, 1⟩]).1 =
        unvalidatedRead.modifyNode 0 (fun node =>
          { node with incomingChainValidatedGeneration := 2 }) ∧
      SameVerdict ⟨true, false, true, true, true, 1, 1, []⟩
        (ifqQueryDependenciesCheck unvalidatedRead 1 [⟨0, 7, 1, 1, 1⟩]).2 :=
  singleRead_is_check unvalidatedRead 1 ⟨0, 7, 1, 1, 1⟩ rfl

end Elisa.Semantic
