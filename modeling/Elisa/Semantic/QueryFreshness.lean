import Mathlib.Data.Finset.Dedup
import Elisa.Semantic.QueryDependencies

/-!
# Results that are current

`R` stands for what the queries compute: it relates the kind, the key and the input of a query and
the results of its dependencies, as a set of named results, to a result.  `Current R s` is the
invariant of a session whose commits pass results that `R` allows.  Its heart is `Computed`: the
stored result is one `R` allows for the results it saw, and a dependency whose generation is still
the one that was seen still has that result.  A green node has green dependencies at the generation
it saw, so `R` allows its result now.

Every operation keeps the invariant, and advances the generations that handles carry (`Advances`).
-/

namespace Elisa.Semantic

open QuerySession Relation

/-- What a computation may give: kind, key, input, the named results of the
dependencies, and the result. -/
abbrev QueryRelation :=
  QueryKind → Bytes → Bytes → Finset (QueryKind × Bytes × Bytes) → Bytes → Prop

namespace QuerySession

variable (s : QuerySession)

def queryKey (n : Nat) : Bytes := spanBytes s.queryKeyBytes (s.node n).keyStart (s.node n).keyLength

def queryInput (n : Nat) : Bytes :=
  spanBytes s.queryValueBytes (s.node n).inputStart (s.node n).inputLength

def queryResult (n : Nat) : Bytes :=
  spanBytes s.queryValueBytes (s.node n).resultStart (s.node n).resultLength

def namedResults (results : Nat → Bytes) (ids : List Nat) : Finset (QueryKind × Bytes × Bytes) :=
  (ids.map fun d => ((s.node d).kind, s.queryKey d, results d)).toFinset

def committedResults (handles : List QueryHandle) : Finset (QueryKind × Bytes × Bytes) :=
  s.namedResults s.queryResult (handles.map QueryHandle.node)

end QuerySession

/-- Named results depend on the set of the ids only, and on the results of these. -/
theorem namedResults_congr {s t : QuerySession} {results results' : Nat → Bytes}
    {ids ids' : List Nat} (hids : ∀ d, d ∈ ids ↔ d ∈ ids')
    (hname : ∀ d ∈ ids, (t.node d).kind = (s.node d).kind ∧ t.queryKey d = s.queryKey d ∧
      results' d = results d) : t.namedResults results' ids' = s.namedResults results ids := by
  ext x
  simp only [namedResults, List.mem_toFinset, List.mem_map]
  constructor
  · rintro ⟨d, hd, rfl⟩
    obtain ⟨h1, h2, h3⟩ := hname d ((hids d).mpr hd)
    exact ⟨d, (hids d).mpr hd, by rw [h1, h2, h3]⟩
  · rintro ⟨d, hd, rfl⟩
    obtain ⟨h1, h2, h3⟩ := hname d hd
    exact ⟨d, (hids d).mp hd, by rw [h1, h2, h3]⟩

/-- The stored result of `n` is one `R` allows for the results `n` saw.  A
dependency at the generation that was seen has the result that was seen. -/
def Computed (R : QueryRelation) (s : QuerySession) (n : Nat) : Prop :=
  ∃ (seen : Nat → Bytes) (ids : List Nat), (∀ d, d ∈ ids ↔ DependsOn s n d) ∧
    R (s.node n).kind (s.queryKey n) (s.queryInput n) (s.namedResults seen ids) (s.queryResult n) ∧
    ∀ d g, Depends s n d g → g = (s.node d).resultGeneration → seen d = s.queryResult d

/-- The invariant of a session whose commits pass results that `R` allows. -/
structure Current (R : QueryRelation) (s : QuerySession) : Prop where
  stamps : Stamped s
  keys : ∀ n < s.queryNodes.length,
    (s.node n).keyStart + (s.node n).keyLength ≤ s.queryKeyBytes.length
  values : ∀ n < s.queryNodes.length, ifqQueryNodeValueStateIsValid s (s.node n) = true
  seen : ∀ n d g, Depends s n d g →
    (s.node d).hasCommittedValue = true ∧ g ≤ (s.node d).resultGeneration
  green : ∀ n d g, Depends s n d g → (s.node n).status = .green →
    (s.node d).status = .green ∧ g = (s.node d).resultGeneration
  acyclic : ∀ n, ¬ TransGen (DependsOn s) n n
  computed : ∀ n < s.queryNodes.length, (s.node n).hasCommittedValue = true → Computed R s n

/-- The invariant together with the links of the pool. -/
structure Sound (R : QueryRelation) (s : QuerySession) : Prop where
  linked : ∃ out inc, Linked s s.heads out inc
  current : Current R s

variable {R : QueryRelation} {s t : QuerySession} {n q : Nat}

theorem Current.greenClosed (h : Current R s) : GreenClosed s := by
  rintro n d ⟨g, hd⟩ hn
  exact (h.green n d g hd hn).1

variable {handles : List QueryHandle}

/-- A query that saw the present generations has a result that `R` allows now. -/
theorem Computed.fresh (h : Computed R s n) (hup : UpToDate s n handles) :
    R (s.node n).kind (s.queryKey n) (s.queryInput n) (s.committedResults handles)
      (s.queryResult n) := by
  obtain ⟨seen, ids, hids, hresult, hseen⟩ := h
  have hnames : s.committedResults handles = s.namedResults seen ids := by
    refine namedResults_congr (fun d => ?_) fun d hd => ⟨rfl, rfl, ?_⟩
    · rw [hids, ← hup.mem d, List.mem_map]
    · obtain ⟨g, hg⟩ := (hids d).mp hd
      exact (hseen d g hg (hup.current d g hg).2).symm
  rw [hnames]
  exact hresult

/-- What `n` has computed stays computed while it, its edges and the names of its
dependencies stay, and a generation that was seen does not come back with another
result. -/
theorem Computed.transfer (h : Computed R s n) (hdep : ∀ d g, Depends t n d g ↔ Depends s n d g)
    (hnode : (t.node n).kind = (s.node n).kind ∧ t.queryKey n = s.queryKey n ∧
      t.queryInput n = s.queryInput n ∧ t.queryResult n = s.queryResult n)
    (hname : ∀ d, DependsOn s n d →
      (t.node d).kind = (s.node d).kind ∧ t.queryKey d = s.queryKey d)
    (hseen : ∀ d g, Depends s n d g → g = (t.node d).resultGeneration →
      g = (s.node d).resultGeneration ∧ t.queryResult d = s.queryResult d) : Computed R t n := by
  obtain ⟨seen, ids, hids, hresult, hsame⟩ := h
  obtain ⟨hkind, hkey, hinput, hres⟩ := hnode
  refine ⟨seen, ids, fun d => ?_, ?_, fun d g hd hg => ?_⟩
  · rw [hids]
    exact exists_congr fun g => (hdep d g).symm
  · have hnames : t.namedResults seen ids = s.namedResults seen ids :=
      namedResults_congr (fun _ => Iff.rfl) fun d hd =>
        ⟨(hname d ((hids d).mp hd)).1, (hname d ((hids d).mp hd)).2, rfl⟩
    rw [hres, hkind, hkey, hinput, hnames]
    exact hresult
  · rw [hdep] at hd
    obtain ⟨hgen, hr⟩ := hseen d g hd hg
    rw [hr]
    exact hsame d g hd hgen

/-! ## Frames and marks -/

theorem SameValues.queryKey (h : SameValues s t) (n : Nat) : t.queryKey n = s.queryKey n := by
  have h1 := h.field QueryNode.keyStart (fun _ => rfl) n
  have h2 := h.field QueryNode.keyLength (fun _ => rfl) n
  rw [QuerySession.queryKey, h.keyBytes, h1, h2, QuerySession.queryKey]

theorem SameValues.queryInput (h : SameValues s t) (n : Nat) :
    t.queryInput n = s.queryInput n := by
  have h1 := h.field QueryNode.inputStart (fun _ => rfl) n
  have h2 := h.field QueryNode.inputLength (fun _ => rfl) n
  rw [QuerySession.queryInput, h.valueBytes, h1, h2, QuerySession.queryInput]

theorem SameValues.queryResult (h : SameValues s t) (n : Nat) :
    t.queryResult n = s.queryResult n := by
  have h1 := h.field QueryNode.resultStart (fun _ => rfl) n
  have h2 := h.field QueryNode.resultLength (fun _ => rfl) n
  rw [QuerySession.queryResult, h.valueBytes, h1, h2, QuerySession.queryResult]

theorem SameValues.namedResults (h : SameValues s t) (ids : List Nat) :
    t.namedResults t.queryResult ids = s.namedResults s.queryResult ids :=
  namedResults_congr (fun _ => Iff.rfl) fun d _ =>
    ⟨h.field QueryNode.kind (fun _ => rfl) d, h.queryKey d, h.queryResult d⟩

theorem SameValues.committedResults (h : SameValues s t) (handles : List QueryHandle) :
    t.committedResults handles = s.committedResults handles := h.namedResults _

/-- Whether a node with a value is in order does not depend on its status. -/
theorem valueState_iff {node : QueryNode} :
    ifqQueryNodeValueStateIsValid s node = true ↔
      (node.hasCommittedValue = false → node.resultGeneration = 0 ∧ node.status ≠ .green) ∧
      (node.hasCommittedValue = true → node.resultGeneration ≠ 0 ∧
        node.inputStart + node.inputLength ≤ s.queryValueBytes.length ∧
        node.resultStart + node.resultLength ≤ s.queryValueBytes.length) := by
  unfold ifqQueryNodeValueStateIsValid ifqQueryValueSpanIsValid
  cases node.hasCommittedValue with
  | false => simp
  | true =>
    by_cases hgen : node.resultGeneration = 0
    · simp [hgen]
    · simp [hgen]
      omega

theorem Current.restatus (h : Current R s) (hv : SameValues s t) (hl : SameLinks s t)
    (hstamps : Stamped t)
    (hempty : ∀ n < s.queryNodes.length, (s.node n).hasCommittedValue = false →
      (t.node n).status ≠ .green)
    (hgreen : ∀ n d g, Depends s n d g → (t.node n).status = .green →
      (t.node d).status = .green ∧ g = (s.node d).resultGeneration) : Current R t := by
  have hdep : Depends t = Depends s := hl.depends hv.length
  have hgen := hv.field QueryNode.resultGeneration fun _ => rfl
  have hcommitted := hv.field QueryNode.hasCommittedValue fun _ => rfl
  refine ⟨hstamps, fun n hn => ?_, fun n hn => ?_, fun n d g hd => ?_, fun n d g hd hn => ?_,
    fun n => ?_, fun n hn hcn => ?_⟩
  · rw [hv.field QueryNode.keyStart (fun _ => rfl), hv.field QueryNode.keyLength (fun _ => rfl),
      hv.keyBytes]
    exact h.keys n (hv.length ▸ hn)
  · have hn' : n < s.queryNodes.length := hv.length ▸ hn
    obtain ⟨hno, hyes⟩ := valueState_iff.mp (h.values n hn')
    rw [valueState_iff, hcommitted, hgen, hv.valueBytes,
      hv.field QueryNode.inputStart (fun _ => rfl), hv.field QueryNode.inputLength (fun _ => rfl),
      hv.field QueryNode.resultStart (fun _ => rfl), hv.field QueryNode.resultLength (fun _ => rfl)]
    exact ⟨fun hf => ⟨(hno hf).1, hempty n hn' hf⟩, hyes⟩
  · rw [hdep] at hd
    rw [hcommitted, hgen]
    exact h.seen n d g hd
  · rw [hdep] at hd
    rw [hgen]
    exact hgreen n d g hd hn
  · rw [hl.dependsOn hv.length]
    exact h.acyclic n
  rw [hcommitted] at hcn
  refine (h.computed n (hv.length ▸ hn) hcn).transfer (fun d g => by rw [hdep])
    ⟨hv.field QueryNode.kind (fun _ => rfl) n, hv.queryKey n, hv.queryInput n, hv.queryResult n⟩
    (fun d _ => ⟨hv.field QueryNode.kind (fun _ => rfl) d, hv.queryKey d⟩)
    fun d g _ hg => ⟨by rw [hg, hgen], hv.queryResult d⟩

/-- Marks keep the invariant, when green nodes are left with green dependencies. -/
theorem Current.marked (h : Current R s) (hm : Marked s t) (hc : GreenClosed t) : Current R t := by
  have hwas : ∀ i, (t.node i).status = .green → (s.node i).status = .green := fun i hi =>
    ((hm.status i).resolve_right (not_not.mpr hi)).symm.trans hi
  refine h.restatus hm.values hm.links (hm.stamps h.stamps) (fun n hn hf hg => ?_)
    fun n d g hd hn => ⟨?_, (h.green n d g hd (hwas n hn)).2⟩
  · exact ((valueState_iff.mp (h.values n hn)).1 hf).2 (hwas n hg)
  · refine hc n d ⟨g, ?_⟩ hn
    rw [hm.links.depends hm.values.length]
    exact hd

theorem Sound.marked (h : Sound R s) (hm : Marked s t) (hc : GreenClosed t) : Sound R t := by
  obtain ⟨out, inc, hL⟩ := h.linked
  exact ⟨⟨out, inc, hm.links.linked hm.values.length hL⟩, h.current.marked hm hc⟩

/-- A change of what stands beside the graph keeps the invariant. -/
theorem Sound.beside (h : Sound R s) (hm : Marked s t) (hs : SameStatus s t) : Sound R t := by
  refine h.marked hm fun n d hd hn => ?_
  rw [hm.links.dependsOn hm.values.length] at hd
  rw [hs d]
  exact h.current.greenClosed n d hd ((hs n).symm.trans hn)

theorem marked_poison (s : QuerySession) : Marked s s.poison :=
  ⟨⟨rfl, rfl, rfl, rfl, fun _ => rfl⟩, ⟨rfl, rfl, fun _ => rfl, fun _ => rfl⟩, id,
    fun _ => .inl rfl, fun _ => rfl⟩

theorem Sound.poison (h : Sound R s) : Sound R s.poison :=
  h.beside (marked_poison s) fun _ => rfl

theorem Sound.mark (h : Sound R s) (root : Nat) {rootStatus : QueryStatus}
    (hr : rootStatus ≠ .green) : Sound R (ifqMarkReverseClosure s root rootStatus).1 := by
  obtain ⟨out, inc, hL⟩ := h.linked
  obtain ⟨hm, -⟩ :=
    markReverseClosure_spec hL h.current.stamps h.current.greenClosed root hr
  exact h.marked hm.toMarked hm.closed

/-! ## The empty graph -/

theorem linked_nil (hn : s.queryNodes = []) (he : s.queryEdges = []) (hf : s.freeQueryEdges = []) :
    Linked s s.heads (fun _ => []) fun _ => [] := by
  constructor <;> simp [hn, he, hf, queryNodeLimit, queryEdgeLimit]

theorem sound_nil (hn : s.queryNodes = []) (he : s.queryEdges = []) (hf : s.freeQueryEdges = []) :
    Sound R s := by
  have hlen : s.queryNodes.length = 0 := by rw [hn, List.length_nil]
  have hnone : ∀ n d g, ¬ Depends s n d g := fun n d g hd => by
    have := hd.1
    omega
  have hno : ∀ n, ¬ n < s.queryNodes.length := fun n => by omega
  refine ⟨⟨_, _, linked_nil hn he hf⟩, fun n hn => absurd hn (hno n),
    fun n hn => absurd hn (hno n), fun n hn => absurd hn (hno n),
    fun n d g hd => absurd hd (hnone n d g), fun n d g hd =>
    absurd hd (hnone n d g), fun n hn => ?_,
    fun n hn => absurd hn (hno n)⟩
  obtain ⟨d, ⟨g, hd⟩, -⟩ := TransGen.head'_iff.mp hn
  exact hnone n d g hd

theorem sound_clear (s : QuerySession) : Sound R (ifqClearSessionGraph s) := by
  unfold ifqClearSessionGraph
  dsimp only
  split <;> exact sound_nil rfl rfl rfl

/-! ## Evaluation -/

theorem valueEqualsBytes_spec {queryStart queryLength bytesStart bytesLength : Nat} {bytes : Bytes}
    (h : ifqQueryValueEqualsBytes s queryStart queryLength bytes bytesStart bytesLength = true) :
    queryLength = bytesLength ∧
      spanBytes s.queryValueBytes queryStart queryLength =
        spanBytes bytes bytesStart bytesLength := by
  unfold ifqQueryValueEqualsBytes at h
  split at h
  next => cases h
  rename_i hlen
  have hlen' : queryLength = bytesLength := by
    simp only [Bool.or_eq_true, bne_iff_ne, not_or, not_not] at hlen
    exact hlen.1
  split at h
  next => cases h
  next =>
    subst hlen'
    exact ⟨rfl, by simpa using h⟩

theorem Sound.turnGreen (h : Sound R s) (hq : q < s.queryNodes.length)
    (hcommitted : (s.node q).hasCommittedValue = true) (hup : UpToDate s q handles) :
    Sound R (s.modifyNode q fun node => { node with status := .green }) := by
  generalize ht : s.modifyNode q (fun node => { node with status := .green }) = t
  have hvalues : SameValues s t := by
    rw [← ht]
    exact sameValues_modifyNode fun _ => rfl
  have hlinks : SameLinks s t := by
    rw [← ht]
    exact sameLinks_modifyNode (fun _ => rfl) fun _ => rfl
  have hother : ∀ i, i ≠ q → t.node i = s.node i := fun i hi => by
    rw [← ht, node_modifyNode_ne _ fun h => hi h.symm]
  have hself : (t.node q).status = .green := by
    rw [← ht, node_modifyNode_self _ hq]
  have hgreen : ∀ i, (s.node i).status = .green → (t.node i).status = .green := fun i hi => by
    by_cases hiq : i = q
    · rw [hiq]
      exact hself
    · rw [hother i hiq]
      exact hi
  obtain ⟨⟨out, inc, hL⟩, hc⟩ := h
  refine ⟨⟨out, inc, hlinks.linked hvalues.length hL⟩,
    hc.restatus hvalues hlinks (fun n hn => ?_) (fun n hn hf => ?_) fun n d g hd hn => ?_⟩
  · rw [hvalues.length] at hn
    have hstamp : (t.node n).lastInvalidationGeneration =
        (s.node n).lastInvalidationGeneration ∧
        t.queryInvalidationGeneration = s.queryInvalidationGeneration := by
      rw [← ht]
      refine ⟨node_modifyNode_field QueryNode.lastInvalidationGeneration ?_, rfl⟩
      exact fun _ => rfl
    rw [hstamp.1, hstamp.2]
    exact hc.stamps n hn
  · have hnq : n ≠ q := fun he => by
      rw [he, hcommitted] at hf
      cases hf
    rw [hother n hnq]
    exact ((valueState_iff.mp (hc.values n hn)).1 hf).2
  · by_cases hnq : n = q
    · subst hnq
      obtain ⟨h1, h2⟩ := hup.current d g hd
      exact ⟨hgreen d h1, h2⟩
    · rw [hother n hnq] at hn
      obtain ⟨h1, h2⟩ := hc.green n d g hd hn
      exact ⟨hgreen d h1, h2⟩

structure NamesKept (s t : QuerySession) : Prop where
  length : s.queryNodes.length ≤ t.queryNodes.length
  names : ∀ n < s.queryNodes.length,
    (t.node n).kind = (s.node n).kind ∧ t.queryKey n = s.queryKey n

theorem SameValues.namesKept (h : SameValues s t) : NamesKept s t :=
  ⟨Nat.le_of_eq h.length.symm,
    fun n _ => ⟨h.field QueryNode.kind (fun _ => rfl) n, h.queryKey n⟩⟩

theorem NamesKept.trans {u : QuerySession} (h : NamesKept s t) (h' : NamesKept t u) :
    NamesKept s u where
  length := Nat.le_trans h.length h'.length
  names := fun n hn => by
    obtain ⟨hkind, hkey⟩ := h.names n hn
    obtain ⟨hkind', hkey'⟩ := h'.names n (Nat.lt_of_lt_of_le hn h.length)
    exact ⟨hkind'.trans hkind, hkey'.trans hkey⟩

/-- What an operation does that leaves the context of the handles alone. -/
structure Settles (R : QueryRelation) (s t : QuerySession) : Prop where
  sound : Sound R t
  context : t.context = s.context
  poisoned : s.queryGraphPoisoned = true → t.queryGraphPoisoned = true
  kept : NamesKept s t

theorem Settles.trans {u : QuerySession} (h : Settles R s t) (h' : Settles R t u) :
    Settles R s u where
  sound := h'.sound
  context := h'.context.trans h.context
  poisoned := fun hp => h'.poisoned (h.poisoned hp)
  kept := h.kept.trans h'.kept

theorem Settles.of_marked (hm : Marked s t) (h : Sound R t) : Settles R s t :=
  ⟨h, hm.values.context, hm.poisoned, hm.values.namesKept⟩

theorem Settles.refl (h : Sound R s) : Settles R s s := .of_marked (.refl s) h

theorem Settles.poison (h : Sound R s) : Settles R s s.poison :=
  .of_marked (marked_poison s) h.poison

theorem Settles.mark (h : Sound R s) (root : Nat) {rootStatus : QueryStatus}
    (hr : rootStatus ≠ .green) : Settles R s (ifqMarkReverseClosure s root rootStatus).1 := by
  obtain ⟨out, inc, hL⟩ := h.linked
  obtain ⟨hm, -⟩ := markReverseClosure_spec hL h.current.stamps h.current.greenClosed root hr
  exact .of_marked hm.toMarked (h.mark root hr)

theorem evaluateChecked_spec (h : Sound R s) (hq : q < s.queryNodes.length)
    {check : DependencyCheck} {input : Bytes} {inputStart inputLength : Nat}
    {fingerprint : Option UInt64} {r : QuerySession × QueryEvaluation}
    (hup : check.valid = true → check.allDependenciesGreen = true → check.equal = true →
      check.resultsCurrent = true → UpToDate s q handles)
    (hr : ifqEvaluateChecked s q check input inputStart inputLength fingerprint = r) :
    Settles R s r.1 ∧ (r.2.hit = true →
      R (s.node q).kind (s.queryKey q) (spanBytes input inputStart inputLength)
        (r.1.committedResults handles)
        (spanBytes r.1.queryValueBytes r.2.resultStart r.2.resultLength)) := by
  unfold ifqEvaluateChecked at hr
  dsimp only at hr
  subst hr
  split
  next =>
    split
    next => exact ⟨.poison h, nofun⟩
    next => exact ⟨.mark h _ nofun, nofun⟩
  rename_i hvalid
  split
  next => exact ⟨.mark h _ nofun, nofun⟩
  rename_i hgreen
  split
  next => exact ⟨.refl h, nofun⟩
  rename_i hcommitted
  split
  next => exact ⟨.mark h _ nofun, nofun⟩
  rename_i hequal
  split
  next => exact ⟨.refl h, nofun⟩
  split
  next => exact ⟨.mark h _ nofun, nofun⟩
  rename_i hinput
  simp only [Bool.not_eq_true', Bool.not_eq_false, Bool.or_eq_true, not_or,
    Bool.and_eq_true] at hvalid hgreen hcommitted hequal hinput
  have hup' := hup hvalid hgreen hequal.1 hequal.2
  have hfresh := (h.current.computed q hq hcommitted).fresh hup'
  rw [← (valueEqualsBytes_spec hinput.2).2]
  split
  next =>
    have hv : SameValues s (s.modifyNode q fun node => { node with status := .green }) :=
      sameValues_modifyNode fun _ => rfl
    refine ⟨⟨h.turnGreen hq hcommitted hup', rfl, id, hv.namesKept⟩, fun _ => ?_⟩
    rw [hv.committedResults]
    exact hfresh
  next => exact ⟨.refl h, fun _ => hfresh⟩

theorem evaluate_spec (h : Sound R s) {handle : QueryHandle} {input : Bytes}
    {inputStart inputLength : Nat} {fingerprint : Option UInt64}
    {r : QuerySession × QueryEvaluation}
    (hr : ifqQueryEvaluateSpanImpl s handle input inputStart inputLength fingerprint handles = r) :
    Settles R s r.1 ∧ (r.2.hit = true →
      R (s.node handle.node).kind (s.queryKey handle.node)
        (spanBytes input inputStart inputLength) (r.1.committedResults handles)
        (spanBytes r.1.queryValueBytes r.2.resultStart r.2.resultLength)) := by
  obtain ⟨out, inc, hL⟩ := h.linked
  unfold ifqQueryEvaluateSpanImpl at hr
  rcases ite_eq_iff.mp hr with ⟨-, rfl⟩ | ⟨-, hr⟩
  · exact ⟨.refl h, nofun⟩
  rcases ite_eq_iff.mp hr with ⟨-, rfl⟩ | ⟨-, hr⟩
  · exact ⟨.refl h, nofun⟩
  rcases ite_eq_iff.mp hr with ⟨-, rfl⟩ | ⟨hvalid, hr⟩
  · exact ⟨.refl h, nofun⟩
  have hq : handle.node < s.queryNodes.length := node_lt_of_handle (by simpa using hvalid)
  rcases ite_eq_iff.mp hr with ⟨-, rfl⟩ | ⟨-, hrun⟩
  · exact ⟨.poison h, nofun⟩
  obtain ⟨hsame, hup⟩ := checkForRead_spec hL hq handles
  generalize ifqQueryDependenciesCheckForRead s handle.node handles = c at hsame hup hrun
  obtain ⟨s', check⟩ := c
  dsimp only at hsame hup hrun
  subst hsame
  exact evaluateChecked_spec h hq hup hrun

/-! ## Queries by key -/

theorem node_insert {node : QueryNode} {keyBytes : Bytes} {heads : List (UInt64 × Nat)} (i : Nat) :
    QuerySession.node { s with
      queryKeyBytes := keyBytes
      queryNodes := s.queryNodes ++ [node]
      queryKeyHeads := heads } i = if i = s.queryNodes.length then node else s.node i := by
  unfold QuerySession.node
  simp only [List.getD_eq_getElem?_getD]
  by_cases hi : i = s.queryNodes.length
  · rw [if_pos hi, hi]
    simp
  · rw [if_neg hi]
    by_cases hlt : i < s.queryNodes.length
    · rw [List.getElem?_append_left hlt]
    · rw [List.getElem?_eq_none (by simp; omega), List.getElem?_eq_none (by omega)]

theorem Linked.insert {out inc : Nat → List Nat} (h : Linked s s.heads out inc)
    (hlen : t.queryNodes.length = s.queryNodes.length + 1)
    (hlimit : s.queryNodes.length + 1 ≤ queryNodeLimit) (hedges : t.queryEdges = s.queryEdges)
    (hfree : t.freeQueryEdges = s.freeQueryEdges)
    (hold : ∀ i < s.queryNodes.length, t.node i = s.node i)
    (hnew : (t.node s.queryNodes.length).firstDependency = queryNone ∧
      (t.node s.queryNodes.length).firstDepender = queryNone ∧
      (t.node s.queryNodes.length).incomingEdgeCount = 0 ∧
      (t.node s.queryNodes.length).incomingChainGeneration = 1 ∧
      (t.node s.queryNodes.length).incomingChainValidatedGeneration = 1) :
    Linked t t.heads (Function.update out s.queryNodes.length [])
      (Function.update inc s.queryNodes.length []) := by
  obtain ⟨hdependency, hdepender, hcount, hgen, hvalidated⟩ := hnew
  have hedge : ∀ e, t.edge e = s.edge e := fun e => by simp [QuerySession.edge, hedges]
  have hcases : ∀ n < t.queryNodes.length,
      n = s.queryNodes.length ∨ (n ≠ s.queryNodes.length ∧ n < s.queryNodes.length) :=
      fun n hn => by
    omega
  -- no edge in use touches the new node
  have hunused : ∀ e < s.queryEdges.length, (s.edge e).depender ≠ s.queryNodes.length ∧
      (s.edge e).dependee ≠ s.queryNodes.length := fun e he => by
    have hnone : queryNone ≠ s.queryNodes.length := by
      unfold queryNodeLimit at hlimit
      unfold queryNone
      omega
    rcases h.slot e he with ⟨h1, h2⟩ | ⟨h1, h2, -⟩
    · rw [h1, h2]
      exact ⟨hnone, hnone⟩
    · exact ⟨by omega, by omega⟩
  refine .of_lists (by omega) (hedges ▸ h.edges_le) (fun e he => ?_) (fun n hn => ?_)
    (fun n hn => ?_) (hfree ▸ h.free_nodup) fun e => ?_
  · rw [hedges] at he
    rw [hedge]
    rcases h.slot e he with hf | ⟨h1, h2, h3⟩
    · exact .inl hf
    · exact .inr ⟨by omega, by omega, h3⟩
  · rcases hcases n hn with rfl | ⟨hne, hlt⟩
    · rw [Function.update_self]
      refine ⟨hdependency, fun e => ⟨fun he => (List.not_mem_nil he).elim, ?_⟩, List.nodup_nil⟩
      rw [hedges, hedge]
      exact fun he => absurd he.2 (hunused e he.1).1
    · rw [Function.update_of_ne hne, heads, hold n hlt]
      constructor <;> simp only [hedges, hedge]
      · exact h.out_chain n hlt
      · exact h.out_mem n hlt
      · exact h.out_nodup n hlt
  · rcases hcases n hn with rfl | ⟨hne, hlt⟩
    · rw [Function.update_self]
      refine ⟨hdepender, fun e => ⟨fun he => (List.not_mem_nil he).elim, ?_⟩, List.nodup_nil,
        hcount, by rw [hgen, hvalidated]; exact ⟨Nat.one_ne_zero, rfl⟩⟩
      rw [hedges, hedge]
      exact fun he => absurd he.2 (hunused e he.1).2
    · rw [Function.update_of_ne hne]
      refine ⟨?_, ?_, h.inc_nodup n hlt, ?_, ?_⟩ <;> simp only [hedges, hedge, hold n hlt]
      · exact h.inc_chain n hlt
      · exact h.inc_mem n hlt
      · exact h.inc_count n hlt
      · exact h.validated n hlt
  · rw [hfree, hedges, hedge]
    exact h.free_mem e

theorem spanBytes_append {bytes more : Bytes} {start length : Nat}
    (h : start + length ≤ bytes.length) :
    spanBytes (bytes ++ more) start length = spanBytes bytes start length := by
  unfold spanBytes
  rw [List.drop_append_of_le_length (by omega), List.take_append_of_le_length (by simp; omega)]

variable {keyHash : UInt64} {kind : QueryKind} {key : Bytes}

theorem Sound.insert (h : Sound R s) {previousHead : Nat} {heads : List (UInt64 × Nat)}
    (hlimit : s.queryNodes.length + 1 ≤ queryNodeLimit) :
    Sound R { s with
      queryKeyBytes := s.queryKeyBytes ++ key
      queryNodes := s.queryNodes ++
        [.fresh kind previousHead keyHash s.queryKeyBytes.length key.length]
      queryKeyHeads := heads } := by
  generalize hnew :
    QueryNode.fresh kind previousHead keyHash s.queryKeyBytes.length key.length = node
  generalize ht : ({ s with
    queryKeyBytes := s.queryKeyBytes ++ key
    queryNodes := s.queryNodes ++ [node]
    queryKeyHeads := heads } : QuerySession) = t
  have hnode : ∀ i, t.node i = if i = s.queryNodes.length then node else s.node i := fun i => by
    rw [← ht]
    exact node_insert i
  have hself : t.node s.queryNodes.length = node := by rw [hnode, if_pos rfl]
  have hold : ∀ i < s.queryNodes.length, t.node i = s.node i := fun i hi => by
    rw [hnode, if_neg (Nat.ne_of_lt hi)]
  have hlen : t.queryNodes.length = s.queryNodes.length + 1 := by rw [← ht]; simp
  have hedges : t.queryEdges = s.queryEdges := by rw [← ht]
  have hbytes : t.queryValueBytes = s.queryValueBytes := by rw [← ht]
  have hkeys : t.queryKeyBytes = s.queryKeyBytes ++ key := by rw [← ht]
  have hgen : t.queryInvalidationGeneration = s.queryInvalidationGeneration := by rw [← ht]
  obtain ⟨⟨out, inc, hL⟩, hc⟩ := h
  have hL' : Linked t t.heads _ _ := hL.insert hlen hlimit hedges (by rw [← ht]) hold (by
    rw [hself, ← hnew]
    exact ⟨rfl, rfl, rfl, rfl, rfl⟩)
  have hcases : ∀ n < t.queryNodes.length, n = s.queryNodes.length ∨ n < s.queryNodes.length :=
    fun n hn => by omega
  have hdep : ∀ n d g, Depends t n d g ↔ Depends s n d g := fun n d g => by
    simp only [Depends, QuerySession.edge, hedges]
    constructor
    · rintro ⟨hn, e, he, hdepender, hrest⟩
      refine ⟨?_, e, he, hdepender, hrest⟩
      rcases hL.slot e he with ⟨hf, -⟩ | ⟨h1, -⟩
      · exact absurd (hdepender.symm.trans hf) (hL'.ne_none_of_node hn)
      · exact hdepender ▸ h1
    · rintro ⟨hn, hrest⟩
      exact ⟨by omega, hrest⟩
  have hdepOn : DependsOn t = DependsOn s := by
    funext n d
    simp only [DependsOn, hdep]
  have hname : ∀ n < s.queryNodes.length, t.queryKey n = s.queryKey n := fun n hn => by
    rw [queryKey, hkeys, hold n hn, spanBytes_append (hc.keys n hn)]
    rfl
  have hresult : ∀ n < s.queryNodes.length, t.queryResult n = s.queryResult n := fun n hn => by
    rw [queryResult, hbytes, hold n hn]
    rfl
  refine ⟨⟨_, _, hL'⟩, fun n hn => ?_, fun n hn => ?_, fun n hn => ?_, fun n d g hd => ?_,
    fun n d g hd hn => ?_, fun n => ?_, fun n hn hcn => ?_⟩
  · rcases hcases n hn with rfl | hlt
    · rw [hself, ← hnew]
      exact Nat.zero_le _
    · rw [hold n hlt, hgen]
      exact hc.stamps n hlt
  · rw [hkeys, List.length_append]
    rcases hcases n hn with rfl | hlt
    · rw [hself, ← hnew]
      exact Nat.le_refl _
    · rw [hold n hlt]
      exact Nat.le_add_right_of_le (hc.keys n hlt)
  · rw [valueState_iff, hbytes, ← valueState_iff]
    rcases hcases n hn with rfl | hlt
    · rw [hself, ← hnew]
      rfl
    · rw [hold n hlt]
      exact hc.values n hlt
  · rw [hdep] at hd
    rw [hold d (hd.lt hL)]
    exact hc.seen n d g hd
  · rw [hdep] at hd
    rw [hold n hd.1] at hn
    rw [hold d (hd.lt hL)]
    exact hc.green n d g hd hn
  · rw [hdepOn]
    exact hc.acyclic n
  rcases hcases n hn with rfl | hlt
  · rw [hself, ← hnew] at hcn
    cases hcn
  rw [hold n hlt] at hcn
  refine (hc.computed n hlt hcn).transfer (hdep n) ⟨by rw [hold n hlt], hname n hlt, ?_,
    hresult n hlt⟩ ?_ fun d g hd hg => ⟨by rw [hg, hold d (hd.lt hL)], hresult d (hd.lt hL)⟩
  · rw [queryInput, hbytes, hold n hlt]
    rfl
  · rintro d ⟨g, hd⟩
    exact ⟨by rw [hold d (hd.lt hL)], hname d (hd.lt hL)⟩

theorem withinLimit_spec {keyBytes valueBytes nodes edges freeEdges slots : Nat}
    (h : ifqGraphWithinLimit s keyBytes valueBytes nodes edges freeEdges slots = true) :
    s.queryNodes.length + nodes ≤ queryNodeLimit ∧ s.queryEdges.length +
      edges ≤ queryEdgeLimit := by
  unfold ifqGraphWithinLimit at h
  simp only [Bool.if_false_left, Bool.and_eq_true, Bool.not_eq_true', decide_eq_false_iff_not] at h
  obtain ⟨-, -, -, -, h1, h2, h3, h4, -⟩ := h
  omega

def Named (s : QuerySession) (n : Nat) (kind : QueryKind) (key : Bytes) : Prop :=
  n < s.queryNodes.length ∧ (s.node n).kind = kind ∧ s.queryKey n = key

theorem Named.kept (h : Named s n kind key) (hk : NamesKept s t) : Named t n kind key := by
  obtain ⟨hlt, hkind, hkey⟩ := h
  obtain ⟨hkind', hkey'⟩ := hk.names n hlt
  exact ⟨Nat.lt_of_lt_of_le hlt hk.length, hkind'.trans hkind, hkey'.trans hkey⟩

theorem insert_spec (h : Sound R s) {r : QuerySession × Nat}
    (hr : ifqQueryInsert s kind key keyHash = r) :
    Settles R s r.1 ∧ (r.2 ≠ queryNone → Named r.1 r.2 kind key) := by
  unfold ifqQueryInsert at hr
  rcases ite_eq_iff.mp hr with ⟨-, rfl⟩ | ⟨-, hr⟩
  · exact ⟨.refl h, fun hn => absurd rfl hn⟩
  rcases ite_eq_iff.mp hr with ⟨-, rfl⟩ | ⟨hlimit, hr⟩
  · exact ⟨.refl h, fun hn => absurd rfl hn⟩
  dsimp only at hr
  rcases ite_eq_iff.mp hr with ⟨-, rfl⟩ | ⟨-, hr⟩
  · exact ⟨.refl h, fun hn => absurd rfl hn⟩
  have hlimit' : ifqGraphWithinLimit s key.length 0 1 0 0 0 = true := by simpa using hlimit
  subst hr
  refine ⟨⟨h.insert (withinLimit_spec hlimit').1, rfl, id, ?_, fun n hn => ?_⟩,
    fun _ => ⟨?_, ?_, ?_⟩⟩
  · simp
  · dsimp only
    rw [queryKey, node_insert, if_neg (Nat.ne_of_lt hn)]
    exact ⟨rfl, spanBytes_append (h.current.keys n hn)⟩
  · simp
  · dsimp only
    rw [node_insert, if_pos rfl]
    rfl
  · dsimp only
    rw [queryKey, node_insert, if_pos rfl]
    simp [spanBytes, QueryNode.fresh]

theorem keyChainLoop_spec {found : Nat} :
    ∀ remaining cursor,
      ifqKeyChainLoop s kind key keyHash remaining cursor = some (some found) →
        Named s found kind key := by
  intro remaining
  induction remaining with
  | zero =>
    intro cursor hr
    unfold ifqKeyChainLoop at hr
    split at hr
    next => cases hr
    next => split at hr <;> cases hr
  | succ remaining ih =>
    intro cursor hr
    unfold ifqKeyChainLoop at hr
    split at hr
    next => cases hr
    split at hr
    next => cases hr
    rename_i hlt
    dsimp only at hr
    split at hr
    next => cases hr
    split at hr
    next => cases hr
    split at hr
    next hmatch =>
      cases hr
      unfold ifqQueryKeyMatches at hmatch
      simp only [Bool.if_false_left, Bool.and_eq_true, Bool.not_eq_true',
        decide_eq_false_iff_not, Bool.or_eq_true, bne_iff_ne, not_or, not_not,
        beq_iff_eq] at hmatch
      obtain ⟨-, ⟨hkind, -⟩, hlen, hkey⟩ := hmatch
      exact ⟨Nat.lt_of_not_ge hlt, hkind, by rw [queryKey, hlen, hkey]⟩
    next => exact ih _ hr

theorem queryForKeyImpl_spec (h : Sound R s) {r : QuerySession × Nat}
    (hr : ifqQueryForKeyImpl s kind key = r) :
    Settles R s r.1 ∧ (r.2 ≠ queryNone → Named r.1 r.2 kind key) := by
  unfold ifqQueryForKeyImpl at hr
  rcases ite_eq_iff.mp hr with ⟨-, rfl⟩ | ⟨-, hr⟩
  · exact ⟨.refl h, fun hn => absurd rfl hn⟩
  rcases ite_eq_iff.mp hr with ⟨-, rfl⟩ | ⟨-, hr⟩
  · exact ⟨.refl h, fun hn => absurd rfl hn⟩
  dsimp only at hr
  split at hr
  next => exact insert_spec h hr
  split at hr
  next =>
    subst hr
    exact ⟨.poison h, fun hn => absurd rfl hn⟩
  next found hfound =>
    subst hr
    exact ⟨.refl h, fun _ => keyChainLoop_spec _ _ hfound⟩
  next => exact insert_spec h hr

/-- The handle of a query: nothing that is ever accepted, or a handle of the present
context for the query of the kind and the key. -/
theorem queryForKey_spec (h : Sound R s) {r : QuerySession × QueryHandle}
    (hr : incrementalSemanticQueryForKey s kind key = r) :
    Settles R s r.1 ∧ (r.2 = ifqQueryHandleInvalid ∨
      (s.queryGraphEnabled = true ∧ Named r.1 r.2.node kind key ∧
        r.2 = ifqQueryHandleForId r.1 r.2.node)) := by
  unfold incrementalSemanticQueryForKey at hr
  rcases ite_eq_iff.mp hr with ⟨-, rfl⟩ | ⟨hopen, hr⟩
  · exact ⟨.refl h, .inl rfl⟩
  have hgraph : s.queryGraphEnabled = true := by
    simp only [Bool.or_eq_true, Bool.not_eq_true', not_or, Bool.not_eq_false] at hopen
    exact hopen.1.1.1.2
  generalize hi : ifqQueryForKeyImpl s kind key = i at hr
  obtain ⟨hsettles, hnamed⟩ := queryForKeyImpl_spec h hi
  obtain ⟨t, queryId⟩ := i
  dsimp only at hsettles hnamed hr
  rcases ite_eq_iff.mp hr with ⟨-, rfl⟩ | ⟨hfound, hr⟩
  · exact ⟨hsettles, .inl rfl⟩
  subst hr
  simp only [Bool.or_eq_true, beq_iff_eq, not_or] at hfound
  exact ⟨hsettles, .inr ⟨hgraph, hnamed hfound.1, rfl⟩⟩

end Elisa.Semantic
