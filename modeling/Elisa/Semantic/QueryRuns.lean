import Mathlib.Data.Finset.Card
import Elisa.Semantic.QueryCommit

/-!
# Runs of a session

A run is any sequence of the operations of the query graph in which every commit passes a result
that `R` allows for the committed results of its dependencies (`Faithful`).  Every session of a run
satisfies the invariant (`Reachable.sound`), and every step advances the generations that the
handles carry (`Advances`).
-/

namespace Elisa.Semantic

open QuerySession Relation

variable {R : QueryRelation} {s t u : QuerySession}

/-! ## Steps -/

/-- The operations of a session on its graph. -/
inductive QueryOp where
  | forKey (kind : QueryKind) (key : Bytes)
  | evaluate (handle : QueryHandle) (input : Bytes) (dependencies : List QueryHandle)
  | evaluateSpanWithHash (handle : QueryHandle) (input : Bytes) (inputStart inputLength : Nat)
      (inputFingerprint : UInt64) (dependencies : List QueryHandle)
  | commit (handle : QueryHandle) (input : Bytes) (dependencies : List QueryHandle)
      (canonicalResult : Bytes)
  | markStale (queryId : Nat)
  | markPotentiallyStale (queryId : Nat)
  | beginRequest
  | store (request : StoreRequest)
  | clear
  | reset
  | setQueryGraphEnabled (enabled : Bool)
  | metricsBegin (enabled : Bool)
  | metricsEnd

def QueryOp.run (s : QuerySession) : QueryOp → QuerySession
  | .forKey kind key => (incrementalSemanticQueryForKey s kind key).1
  | .evaluate handle input dependencies => (ifqQueryEvaluate s handle input dependencies).1
  | .evaluateSpanWithHash handle input inputStart inputLength inputFingerprint dependencies =>
    (ifqQueryEvaluateSpanWithHash s handle input inputStart inputLength inputFingerprint
      dependencies).1
  | .commit handle input dependencies canonicalResult =>
    (ifqQueryCommit s handle input dependencies canonicalResult).1
  | .markStale queryId => (ifqQueryMarkStale s queryId).1
  | .markPotentiallyStale queryId => (ifqQueryMarkPotentiallyStale s queryId).1
  | .beginRequest => (incrementalSemanticQueryBeginRequest s).1
  | .store request => (ifcSessionStore s request).1
  | .clear => ifqClearSessionGraph s
  | .reset => incrementalSemanticSessionReset s
  | .setQueryGraphEnabled enabled => (incrementalSemanticSessionSetQueryGraphEnabled s enabled).1
  | .metricsBegin enabled => incrementalSemanticReverseMarkMetricsBeginRequest s enabled
  | .metricsEnd => incrementalSemanticReverseMarkMetricsEndRequest s

/-- A commit for a query that exists, with dependencies that have results, passes a
result that `R` allows for these.  Nothing is asked of the other operations. -/
def Faithful (R : QueryRelation) (s : QuerySession) : QueryOp → Prop
  | .commit handle input dependencies canonicalResult =>
    ifqQueryHandleIsValid s handle = true →
    (∀ dependency ∈ dependencies, ifqQueryHandleIsValid s dependency = true ∧
      (s.node dependency.node).hasCommittedValue = true) →
    R (s.node handle.node).kind (s.queryKey handle.node) input (s.committedResults dependencies)
      canonicalResult
  | _ => True

def Step (R : QueryRelation) (s t : QuerySession) : Prop := ∃ op, Faithful R s op ∧ op.run s = t

def Reachable (R : QueryRelation) (s : QuerySession) : Prop :=
  ∃ cookie enabled, ReflTransGen (Step R) (incrementalSemanticSessionNew cookie enabled) s

/-! ## Generations -/

/-- How the generations of the handles move.  A graph whose generation is used up
stays so; otherwise the generation of the graph grows, or it stays and the others do
not go back. -/
structure Advances (s t : QuerySession) : Prop where
  exhausted : s.queryGraphGeneration = 0 → t.queryGraphGeneration = 0
  later : t.queryGraphGeneration = 0 ∨ s.queryGraphGeneration < t.queryGraphGeneration ∨
    (t.queryGraphGeneration = s.queryGraphGeneration ∧
      t.queryGraphEnabled = s.queryGraphEnabled ∧
      s.queryRequestGeneration ≤ t.queryRequestGeneration ∧
      s.queryContextGeneration ≤ t.queryContextGeneration ∧ NamesKept s t)

/-- The step to a new graph, request or context. -/
def Renewed (s t : QuerySession) : Prop :=
  t.queryGraphGeneration = 0 ∨ s.queryGraphGeneration < t.queryGraphGeneration ∨
    (t.queryGraphGeneration = s.queryGraphGeneration ∧
      (s.queryRequestGeneration < t.queryRequestGeneration ∨
        s.queryContextGeneration < t.queryContextGeneration))

theorem Advances.refl (s : QuerySession) : Advances s s :=
  ⟨id, .inr (.inr ⟨rfl, rfl, Nat.le_refl _, Nat.le_refl _, (SameValues.refl s).namesKept⟩)⟩

theorem Advances.trans (h : Advances s t) (h' : Advances t u) : Advances s u := by
  refine ⟨fun h0 => h'.exhausted (h.exhausted h0), ?_⟩
  rcases h'.later with h0 | hlt | ⟨he, hgraph, hr, hc, hk⟩
  · exact .inl h0
  · rcases h.later with h0 | hlt' | ⟨he', -⟩
    · exact .inl (h'.exhausted h0)
    · exact .inr (.inl (Nat.lt_trans hlt' hlt))
    · exact .inr (.inl (he' ▸ hlt))
  rcases h.later with h0 | hlt' | ⟨he', hgraph', hr', hc', hk'⟩
  · exact .inl (h'.exhausted h0)
  · exact .inr (.inl (he.symm ▸ hlt'))
  · exact .inr (.inr ⟨he.trans he', hgraph.trans hgraph', Nat.le_trans hr' hr,
      Nat.le_trans hc' hc, hk'.trans hk⟩)

theorem Renewed.trans_advances (h : Renewed s t) (h' : Advances t u) : Renewed s u := by
  rcases h'.later with h0 | hlt | ⟨he, -, hr, hc, -⟩
  · exact .inl h0
  · rcases h with h0 | hlt' | ⟨he', -⟩
    · exact .inl (h'.exhausted h0)
    · exact .inr (.inl (Nat.lt_trans hlt' hlt))
    · exact .inr (.inl (he' ▸ hlt))
  · rcases h with h0 | hlt' | ⟨he', hnew⟩
    · exact .inl (h'.exhausted h0)
    · exact .inr (.inl (he.symm ▸ hlt'))
    · exact .inr (.inr ⟨he.trans he', hnew.imp (Nat.lt_of_lt_of_le · hr) (Nat.lt_of_lt_of_le · hc)⟩)

theorem Advances.trans_renewed (h : Advances s t) (h' : Renewed t u)
    (hex : t.queryGraphGeneration = 0 → u.queryGraphGeneration = 0) : Renewed s u := by
  rcases h.later with h0 | hlt | ⟨he, -, hr, hc, -⟩
  · exact .inl (hex h0)
  · rcases h' with h0 | hlt' | ⟨he', -⟩
    · exact .inl h0
    · exact .inr (.inl (Nat.lt_trans hlt hlt'))
    · exact .inr (.inl (he'.symm ▸ hlt))
  · rcases h' with h0 | hlt' | ⟨he', hnew⟩
    · exact .inl h0
    · exact .inr (.inl (he ▸ hlt'))
    · exact .inr (.inr ⟨he'.trans he, hnew.imp (Nat.lt_of_le_of_lt hr) (Nat.lt_of_le_of_lt hc)⟩)

theorem Settles.advances (h : Settles R s t) : Advances s t := by
  have hcontext := h.context
  simp only [QuerySession.context, Prod.mk.injEq] at hcontext
  obtain ⟨-, -, hgraph, -, hg, hr, hc⟩ := hcontext
  exact ⟨fun h0 => hg.trans h0,
    .inr (.inr ⟨hg, hgraph, Nat.le_of_eq hr.symm, Nat.le_of_eq hc.symm, h.kept⟩)⟩

theorem clear_generation (s : QuerySession) :
    (s.queryGraphGeneration = 0 → (ifqClearSessionGraph s).queryGraphGeneration = 0) ∧
      ((ifqClearSessionGraph s).queryGraphGeneration = 0 ∨
        s.queryGraphGeneration < (ifqClearSessionGraph s).queryGraphGeneration) := by
  unfold ifqClearSessionGraph
  dsimp only
  split
  next => exact ⟨fun _ => rfl, .inl rfl⟩
  next hlimit =>
    simp only [Bool.or_eq_true, beq_iff_eq, not_or] at hlimit
    exact ⟨fun h0 => absurd h0 hlimit.1, .inr (Nat.lt_succ_self _)⟩

theorem renewed_clear (hs : u.queryGraphGeneration = s.queryGraphGeneration)
    (ht : t.queryGraphGeneration = (ifqClearSessionGraph u).queryGraphGeneration) :
    Renewed s t := by
  obtain ⟨-, hlater⟩ := clear_generation u
  rw [← ht, hs] at hlater
  exact hlater.imp id .inl

theorem advances_clear (hs : u.queryGraphGeneration = s.queryGraphGeneration)
    (ht : t.queryGraphGeneration = (ifqClearSessionGraph u).queryGraphGeneration) :
    Advances s t := by
  obtain ⟨h0, hlater⟩ := clear_generation u
  rw [← ht, hs] at h0 hlater
  exact ⟨h0, hlater.imp id .inl⟩

theorem SettlesOrClears.advances (h : SettlesOrClears R s t) : Sound R t ∧ Advances s t := by
  rcases h with h | ⟨u, hu, rfl⟩
  · exact ⟨h.sound, h.advances⟩
  · exact ⟨sound_clear u, hu.advances.trans (advances_clear rfl rfl)⟩

/-! ## The steps keep the invariant and advance -/

theorem clear_empty (s : QuerySession) : (ifqClearSessionGraph s).queryNodes = [] ∧
    (ifqClearSessionGraph s).queryEdges = [] ∧ (ifqClearSessionGraph s).freeQueryEdges = [] := by
  unfold ifqClearSessionGraph
  dsimp only
  split <;> exact ⟨rfl, rfl, rfl⟩

theorem setQueryGraphEnabled_spec (h : Sound R s) (enabled : Bool) :
    Sound R (incrementalSemanticSessionSetQueryGraphEnabled s enabled).1 ∧
      Advances s (incrementalSemanticSessionSetQueryGraphEnabled s enabled).1 := by
  unfold incrementalSemanticSessionSetQueryGraphEnabled
  split
  next => exact ⟨h, .refl s⟩
  split
  next =>
    exact ⟨sound_clear _, advances_clear (u := { s with queryGraphEnabled := false }) rfl rfl⟩
  dsimp only
  split
  next => exact ⟨sound_clear s, advances_clear rfl rfl⟩
  next =>
    obtain ⟨hnodes, hedges, hfree⟩ := clear_empty s
    exact ⟨sound_nil hnodes hedges hfree, advances_clear (u := s) rfl rfl⟩

/-- The invariant is about the graph, not about what stands beside it. -/
theorem Sound.sameGraph (h : Sound R s) (hnodes : t.queryNodes = s.queryNodes)
    (hedges : t.queryEdges = s.queryEdges) (hfree : t.freeQueryEdges = s.freeQueryEdges)
    (hkeys : t.queryKeyBytes = s.queryKeyBytes) (hvalues : t.queryValueBytes = s.queryValueBytes)
    (hwalk : t.queryInvalidationGeneration = s.queryInvalidationGeneration) : Sound R t := by
  cases s
  cases t
  dsimp only at hnodes hedges hfree hkeys hvalues hwalk
  subst hnodes hedges hfree hkeys hvalues hwalk
  obtain ⟨⟨out, inc, hL⟩, hc⟩ := h
  refine ⟨⟨out, inc, hL.frame rfl rfl rfl fun _ => rfl⟩, hc.stamps, hc.keys, hc.values, hc.seen,
    hc.green, hc.acyclic, hc.computed⟩

theorem namesKept_sameGraph (hnodes : t.queryNodes = s.queryNodes)
    (hkeys : t.queryKeyBytes = s.queryKeyBytes) : NamesKept s t := by
  have hnode : ∀ n, t.node n = s.node n := fun n => by simp [QuerySession.node, hnodes]
  refine ⟨Nat.le_of_eq (by rw [hnodes]), fun n _ => ⟨by rw [hnode], ?_⟩⟩
  rw [queryKey, hnode, hkeys]
  rfl

theorem beginRequest_spec (h : Sound R s) :
    Sound R (incrementalSemanticQueryBeginRequest s).1 ∧
      Advances s (incrementalSemanticQueryBeginRequest s).1 ∧
      ((incrementalSemanticQueryBeginRequest s).2 = true →
        Renewed s (incrementalSemanticQueryBeginRequest s).1) := by
  unfold incrementalSemanticQueryBeginRequest
  split
  next => exact ⟨h, .refl s, nofun⟩
  split
  next => exact ⟨h.poison, (Settles.poison h).advances, nofun⟩
  refine ⟨h.sameGraph rfl rfl rfl rfl rfl rfl, ⟨id, .inr (.inr ⟨rfl, rfl, Nat.le_succ _,
    Nat.le_refl _, namesKept_sameGraph rfl rfl⟩)⟩, fun _ => .inr (.inr ⟨rfl, .inl ?_⟩)⟩
  exact Nat.lt_succ_self _

theorem store_spec (h : Sound R s) (request : StoreRequest) :
    Sound R (ifcSessionStore s request).1 ∧ Advances s (ifcSessionStore s request).1 ∧
      ((ifcSessionStore s request).2 = true → s.queryGraphEnabled = true →
        Renewed s (ifcSessionStore s request).1) := by
  unfold ifcSessionStore
  split
  next =>
    exact ⟨sound_clear _, advances_clear (u := ifcSessionClearPrior s) rfl rfl, nofun⟩
  split
  next => exact ⟨h, .refl s, nofun⟩
  dsimp only
  split
  next =>
    -- a poisoned graph is dropped first
    generalize hdrop : (if (ifcSessionClearPrior s).queryGraphPoisoned = true then
      ifqClearSessionGraph (ifcSessionClearPrior s) else ifcSessionClearPrior s) = d
    have hd : Sound R d ∧ Advances s d := by
      rw [← hdrop]
      split
      · exact ⟨sound_clear _, advances_clear (u := ifcSessionClearPrior s) rfl rfl⟩
      · exact ⟨h.sameGraph rfl rfl rfl rfl rfl rfl, id, .inr (.inr ⟨rfl, rfl, Nat.le_refl _,
          Nat.le_refl _, namesKept_sameGraph rfl rfl⟩)⟩
    obtain ⟨hsound, hadvances⟩ := hd
    split
    next =>
      obtain ⟨hnodes, hedges, hfree⟩ := clear_empty d
      refine ⟨sound_nil hnodes hedges hfree, hadvances.trans (advances_clear (u := d) rfl rfl),
        fun _ _ => hadvances.trans_renewed (renewed_clear (u := d) rfl rfl) ?_⟩
      exact (clear_generation d).1
    have hnew : Advances d { d with
        queryContextGeneration := d.queryContextGeneration + 1, valid := true } :=
      ⟨id, .inr (.inr ⟨rfl, rfl, Nat.le_refl _, Nat.le_succ _, namesKept_sameGraph rfl rfl⟩)⟩
    exact ⟨hsound.sameGraph rfl rfl rfl rfl rfl rfl, hadvances.trans hnew, fun _ _ =>
      hadvances.trans_renewed (.inr (.inr ⟨rfl, .inr (Nat.lt_succ_self _)⟩)) id⟩
  next hgraph =>
    exact ⟨h.sameGraph rfl rfl rfl rfl rfl rfl, ⟨id, .inr (.inr ⟨rfl, rfl, Nat.le_refl _,
      Nat.le_refl _, namesKept_sameGraph rfl rfl⟩)⟩, fun _ hg => absurd hg hgraph⟩

theorem step_spec (h : Sound R s) {op : QueryOp} (hf : Faithful R s op) :
    Sound R (op.run s) ∧ Advances s (op.run s) := by
  have hsettles : ∀ {t}, Settles R s t → Sound R t ∧ Advances s t := fun ht =>
    ⟨ht.sound, ht.advances⟩
  cases op with
  | forKey kind key => exact hsettles (queryForKey_spec h rfl).1
  | evaluate handle input dependencies => exact hsettles (evaluate_spec h rfl).1
  | evaluateSpanWithHash handle input inputStart inputLength inputFingerprint dependencies =>
    exact hsettles (evaluate_spec h rfl).1
  | commit handle input dependencies canonicalResult => exact (commit_spec h hf rfl).advances
  | markStale queryId => exact hsettles (.mark h queryId nofun)
  | markPotentiallyStale queryId => exact hsettles (.mark h queryId nofun)
  | beginRequest => exact ⟨(beginRequest_spec h).1, (beginRequest_spec h).2.1⟩
  | store request => exact ⟨(store_spec h request).1, (store_spec h request).2.1⟩
  | clear => exact ⟨sound_clear s, advances_clear rfl rfl⟩
  | reset => exact ⟨sound_clear _, advances_clear (u := ifcSessionClearPrior s) rfl rfl⟩
  | setQueryGraphEnabled enabled => exact setQueryGraphEnabled_spec h enabled
  | metricsBegin enabled =>
    exact ⟨h.sameGraph rfl rfl rfl rfl rfl rfl, id, .inr (.inr ⟨rfl, rfl, Nat.le_refl _,
      Nat.le_refl _, namesKept_sameGraph rfl rfl⟩)⟩
  | metricsEnd =>
    exact ⟨h.sameGraph rfl rfl rfl rfl rfl rfl, id, .inr (.inr ⟨rfl, rfl, Nat.le_refl _,
      Nat.le_refl _, namesKept_sameGraph rfl rfl⟩)⟩

theorem run_spec (h : Sound R s) (hrun : ReflTransGen (Step R) s t) : Sound R t ∧ Advances s t := by
  induction hrun with
  | refl => exact ⟨h, .refl s⟩
  | tail _ hstep ih =>
    obtain ⟨op, hf, rfl⟩ := hstep
    obtain ⟨hsound, hadvances⟩ := step_spec ih.1 hf
    exact ⟨hsound, ih.2.trans hadvances⟩

theorem Reachable.sound (h : Reachable R s) : Sound R s := by
  obtain ⟨cookie, enabled, hrun⟩ := h
  exact (run_spec (sound_nil rfl rfl rfl) hrun).1

/-! ## Handles -/

/-- The operations that end the life of the handles taken before: a clear, a new
request, a new context, or an operation that drops the graph on its way. -/
def Renews (s : QuerySession) : QueryOp → Prop
  | .clear => True
  | .reset => True
  | .beginRequest => (incrementalSemanticQueryBeginRequest s).2 = true
  | .store request => (ifcSessionStore s request).2 = true
  | op => (op.run s).queryGraphGeneration ≠ s.queryGraphGeneration

theorem renewed_of_ne (h : Advances s t) (hne : t.queryGraphGeneration ≠ s.queryGraphGeneration) :
    Renewed s t :=
  h.later.imp id (Or.imp id fun he => absurd he.1 hne)

theorem renews_spec (h : Sound R s) {op : QueryOp} (hf : Faithful R s op) (hnew : Renews s op)
    (hgraph : s.queryGraphEnabled = true) : Renewed s (op.run s) := by
  cases op with
  | clear => exact renewed_clear rfl rfl
  | reset => exact renewed_clear (u := ifcSessionClearPrior s) rfl rfl
  | beginRequest => exact (beginRequest_spec h).2.2 hnew
  | store request => exact (store_spec h request).2.2 hnew hgraph
  | forKey => exact renewed_of_ne (step_spec h hf).2 hnew
  | evaluate => exact renewed_of_ne (step_spec h hf).2 hnew
  | evaluateSpanWithHash => exact renewed_of_ne (step_spec h hf).2 hnew
  | commit => exact renewed_of_ne (step_spec h hf).2 hnew
  | markStale => exact renewed_of_ne (step_spec h hf).2 hnew
  | markPotentiallyStale => exact renewed_of_ne (step_spec h hf).2 hnew
  | setQueryGraphEnabled => exact renewed_of_ne (step_spec h hf).2 hnew
  | metricsBegin => exact renewed_of_ne (step_spec h hf).2 hnew
  | metricsEnd => exact renewed_of_ne (step_spec h hf).2 hnew

theorem generations_of_handle {handle : QueryHandle} (h : ifqQueryHandleIsValid s handle = true) :
    s.queryGraphGeneration ≠ 0 ∧ handle.graphGeneration = s.queryGraphGeneration ∧
      handle.requestGeneration = s.queryRequestGeneration ∧
      handle.contextGeneration = s.queryContextGeneration := by
  unfold ifqQueryHandleIsValid at h
  simp only [Bool.if_false_left, Bool.and_eq_true, Bool.not_eq_true', decide_eq_false_iff_not,
    Bool.or_eq_true, beq_iff_eq, bne_iff_ne, not_or, not_not] at h
  obtain ⟨-, ⟨hg, hgraph⟩, ⟨-, hrequest⟩, ⟨-, hcontext⟩, -⟩ := h
  exact ⟨hg, hgraph, hrequest, hcontext⟩

theorem Renewed.not_accepted {queryId : Nat} (h : Renewed s t) :
    ifqQueryHandleIsValid t (ifqQueryHandleForId s queryId) = false := by
  rw [← Bool.not_eq_true]
  intro hvalid
  obtain ⟨hg, hgraph, hrequest, hcontext⟩ := generations_of_handle hvalid
  dsimp only [ifqQueryHandleForId] at hgraph hrequest hcontext
  rcases h with h0 | hlt | ⟨-, hlt | hlt⟩ <;> omega

/-- A handle that is still accepted names the query it was taken for. -/
theorem Advances.named {queryId : Nat} {kind : QueryKind} {key : Bytes} (h : Advances s t)
    (hn : Named s queryId kind key)
    (hvalid : ifqQueryHandleIsValid t (ifqQueryHandleForId s queryId) = true) :
    Named t queryId kind key := by
  obtain ⟨hg, hgraph, -, -⟩ := generations_of_handle hvalid
  dsimp only [ifqQueryHandleForId] at hgraph
  rcases h.later with h0 | hlt | ⟨-, -, -, -, hk⟩
  · exact absurd h0 hg
  · omega
  · exact hn.kept hk

theorem invalid_not_accepted : ifqQueryHandleIsValid s ifqQueryHandleInvalid = false := by
  rw [← Bool.not_eq_true]
  intro hvalid
  obtain ⟨hg, hgraph, -, -⟩ := generations_of_handle hvalid
  exact hg hgraph.symm

/-- What becomes of a handle that a session gave for a kind and a key.  As long as it
is accepted it names that query, and it is not accepted after a clear, a new request
or a new context. -/
theorem handle_spec (h : Sound R s) {kind : QueryKind} {key : Bytes} {handle : QueryHandle}
    (htaken : incrementalSemanticQueryForKey s kind key = (t, handle))
    (hrun : ReflTransGen (Step R) t u) :
    (ifqQueryHandleIsValid u handle = true →
      (u.node handle.node).kind = kind ∧ u.queryKey handle.node = key) ∧
    ∀ op v, Faithful R u op → Renews u op → ReflTransGen (Step R) (op.run u) v →
      ifqQueryHandleIsValid v handle = false := by
  obtain ⟨hsettles, htaken'⟩ := queryForKey_spec h htaken
  dsimp only at hsettles htaken'
  obtain ⟨hsound, hadvances⟩ := run_spec hsettles.sound hrun
  rcases htaken' with rfl | ⟨hgraph, hnamed, hhandle⟩
  · refine ⟨fun hvalid => ?_, fun _ _ _ _ _ => invalid_not_accepted⟩
    rw [invalid_not_accepted] at hvalid
    cases hvalid
  rw [hhandle]
  refine ⟨fun hvalid => (hadvances.named hnamed hvalid).2, fun op v hf hnew hrest => ?_⟩
  have hstep := step_spec hsound hf
  have hlast := (run_spec hstep.1 hrest).2
  have hgraph' : t.queryGraphEnabled = true := by
    have hcontext := hsettles.context
    simp only [QuerySession.context, Prod.mk.injEq] at hcontext
    exact hcontext.2.2.1.trans hgraph
  have hrenewed : Renewed t (op.run u) := by
    rcases hadvances.later with h0 | hlt | ⟨-, he, -⟩
    · exact Renewed.trans_advances (.inl h0) hstep.2
    · exact Renewed.trans_advances (.inr (.inl hlt)) hstep.2
    · exact hadvances.trans_renewed (renews_spec hsound hf hnew (he.trans hgraph'))
        hstep.2.exhausted
  exact (hrenewed.trans_advances hlast).not_accepted

/-! ## Hits are current -/

/-- A computation of results from kind, key, input and the named results of the
dependencies. -/
abbrev QueryFunction := QueryKind → Bytes → Bytes → Finset (QueryKind × Bytes × Bytes) → Bytes

def QueryFunction.relation (F : QueryFunction) : QueryRelation :=
  fun kind key input dependencies result => result = F kind key input dependencies

/-- In every session of a run whose commits pass the results of `F`, a hit returns what `F` gives
for the results that are committed now; a green query has green dependencies seen at their present
generation; one with a value that is not green has no green depender; and a handle does not outlive
a clear, a request or a context.  `F` sees the results of the dependencies as a set, without their
order or repetitions, which the comparison of dependencies skips. -/
theorem query_hits_are_current (F : QueryFunction) {s : QuerySession}
    (h : Reachable F.relation s) :
    (∀ handle input dependencies t answer,
      ifqQueryEvaluate s handle input dependencies = (t, answer) → answer.hit = true →
        spanBytes t.queryValueBytes answer.resultStart answer.resultLength =
          F (s.node handle.node).kind (s.queryKey handle.node) input
            (t.committedResults dependencies)) ∧
    (∀ handle input inputStart inputLength fingerprint dependencies t answer,
      ifqQueryEvaluateSpanWithHash s handle input inputStart inputLength fingerprint dependencies =
        (t, answer) → answer.hit = true →
        spanBytes t.queryValueBytes answer.resultStart answer.resultLength =
          F (s.node handle.node).kind (s.queryKey handle.node)
            (spanBytes input inputStart inputLength) (t.committedResults dependencies)) ∧
    (∀ n d g, (s.node n).status = .green → Depends s n d g →
      (s.node d).status = .green ∧ g = (s.node d).resultGeneration) ∧
    (∀ n d, (s.node d).hasCommittedValue = true → (s.node d).status ≠ .green → DependsOn s n d →
      (s.node n).status ≠ .green) ∧
    ∀ kind key t handle, incrementalSemanticQueryForKey s kind key = (t, handle) →
      ∀ u, ReflTransGen (Step F.relation) t u →
        (ifqQueryHandleIsValid u handle = true →
          (u.node handle.node).kind = kind ∧ u.queryKey handle.node = key) ∧
        ∀ op v, Faithful F.relation u op → Renews u op →
          ReflTransGen (Step F.relation) (op.run u) v → ifqQueryHandleIsValid v handle = false := by
  have hsound := h.sound
  refine ⟨fun handle input dependencies t answer hr hhit => ?_,
    fun handle input inputStart inputLength fingerprint dependencies t answer hr hhit => ?_,
    fun n d g hn hd => hsound.current.green n d g hd hn,
    fun n d _ hd hnd hn => hd (hsound.current.greenClosed n d hnd hn),
    fun kind key t handle ht u hu => handle_spec hsound ht hu⟩
  · have hhit' := (evaluate_spec hsound hr).2 hhit
    rw [spanBytes, List.drop_zero, List.take_length] at hhit'
    exact hhit'
  · exact (evaluate_spec hsound hr).2 hhit

def twoCommits : List QueryOp :=
  [.setQueryGraphEnabled true, .store ⟨some 64, 0, 0, 0, 0, 0, true⟩, .beginRequest,
    .forKey .typeOf [1], .forKey .constantValue [2], .commit ⟨0, 7, 2, 1, 1⟩ [3] [] [0, 3],
    .commit ⟨1, 7, 2, 1, 1⟩ [5] [⟨0, 7, 2, 1, 1⟩] [1, 5]]

def afterCommits (count : Nat) : QuerySession :=
  (twoCommits.take count).foldl QueryOp.run (incrementalSemanticSessionNew 7 true)

def countedInput : QueryFunction := fun _ _ input dependencies =>
  UInt8.ofNat dependencies.card :: input

theorem query_hits_are_current_after_two_commits :
    let hit := ifqQueryEvaluate (afterCommits 7) ⟨1, 7, 2, 1, 1⟩ [5] [⟨0, 7, 2, 1, 1⟩]
    Reachable countedInput.relation (afterCommits 7) ∧ hit.2 = ⟨true, 4, 2⟩ ∧
      spanBytes hit.1.queryValueBytes 4 2 =
        countedInput .constantValue [2] [5] (hit.1.committedResults [⟨0, 7, 2, 1, 1⟩]) := by
  intro hit
  have hreachable : Reachable countedInput.relation (afterCommits 7) := by
    refine ⟨7, true, ?_⟩
    have hstep : ∀ (i : Nat) (op : QueryOp), twoCommits[i]? = some op →
        Faithful countedInput.relation (afterCommits i) op →
        Step countedInput.relation (afterCommits i) (afterCommits (i + 1)) := fun i op hop hf =>
      ⟨op, hf, by rw [afterCommits, afterCommits, List.take_add_one, hop]; simp⟩
    refine ReflTransGen.refl.tail (hstep 0 _ rfl trivial) |>.tail (hstep 1 _ rfl trivial)
      |>.tail (hstep 2 _ rfl trivial) |>.tail (hstep 3 _ rfl trivial)
      |>.tail (hstep 4 _ rfl trivial) |>.tail (hstep 5 _ rfl fun _ _ => ?_)
      |>.tail (hstep 6 _ rfl fun _ _ => ?_)
    · show ([0, 3] : Bytes) = countedInput _ _ _ _
      decide +kernel
    · show ([1, 5] : Bytes) = countedInput _ _ _ _
      decide +kernel
  have hanswer : hit.2 = ⟨true, 4, 2⟩ := by decide +kernel
  refine ⟨hreachable, hanswer, ?_⟩
  have h := (query_hits_are_current countedInput hreachable).1 ⟨1, 7, 2, 1, 1⟩ [5]
    [⟨0, 7, 2, 1, 1⟩] hit.1 hit.2 rfl (by rw [hanswer])
  rw [hanswer] at h
  have hname : ((afterCommits 7).node 1).kind = .constantValue ∧
      (afterCommits 7).queryKey 1 = [2] := by decide +kernel
  rw [hname.1, hname.2] at h
  exact h

end Elisa.Semantic
