import Elisa.Semantic.QueryFreshness

/-!
# Commits

A commit marks what read the query when its result changes, replaces its edges or refreshes what
they saw, appends the new bytes, and turns the query green.  Whatever it is stopped by, the session
satisfies the invariant (`commit_spec`): the marks come before the writes, the dependencies are not
above the query, and a generation that was seen never comes back with another result.
-/

namespace Elisa.Semantic

open QuerySession Relation LinkedList QueryNode

variable {R : QueryRelation} {s t : QuerySession} {q : Nat} {out inc : Nat → List Nat}

/-! ## The state after a commit -/

/-- What the writes of a commit of `q` leave alone; the generation of `q` stays with its result, or
grows while nothing above it is green. -/
structure Rewritten (s t : QuerySession) (q : Nat) : Prop where
  length : t.queryNodes.length = s.queryNodes.length
  keyBytes : t.queryKeyBytes = s.queryKeyBytes
  valueBytes : ∃ more, t.queryValueBytes = s.queryValueBytes ++ more
  stamps : Stamped t
  other : ∀ i, i ≠ q → (t.node i).core = (s.node i).core ∧ (t.node i).status = (s.node i).status
  name : (t.node q).kind = (s.node q).kind ∧ (t.node q).keyStart = (s.node q).keyStart ∧
    (t.node q).keyLength = (s.node q).keyLength
  committed : (t.node q).hasCommittedValue = true
  value : ifqQueryNodeValueStateIsValid t (t.node q) = true
  generation : ((t.node q).resultGeneration = (s.node q).resultGeneration ∧
      t.queryResult q = s.queryResult q) ∨
    ((t.node q).resultGeneration = (s.node q).resultGeneration + 1 ∧ (s.node q).status ≠ .green)
  status : (s.node q).status = .green → (t.node q).status = .green
  others_read : ∀ n, n ≠ q → ∀ d g, Depends t n d g ↔ Depends s n d g
  reads : ∀ d g, Depends t q d g → d ≠ q ∧ (s.node d).hasCommittedValue = true ∧
    g ≤ (s.node d).resultGeneration ∧
    (DependsOn s q d ∨ ¬ ReflTransGen (DependsOn s) d q)
  green : (t.node q).status = .green → ∀ d g, Depends t q d g →
    (s.node d).status = .green ∧ g = (s.node d).resultGeneration

theorem Rewritten.field {β : Type} (h : Rewritten s t q) (π : QueryNode → β)
    (hπ : ∀ node, π node.core = π node) {i : Nat} (hi : i ≠ q) : π (t.node i) = π (s.node i) := by
  rw [← hπ (t.node i), (h.other i hi).1, hπ]

theorem Rewritten.queryKey (h : Rewritten s t q) (n : Nat) : t.queryKey n = s.queryKey n := by
  have hspan : (t.node n).keyStart = (s.node n).keyStart ∧
      (t.node n).keyLength = (s.node n).keyLength := by
    by_cases hn : n = q
    · rw [hn]
      exact h.name.2
    · exact ⟨h.field keyStart (fun _ => rfl) hn,
        h.field keyLength (fun _ => rfl) hn⟩
  rw [QuerySession.queryKey, h.keyBytes, hspan.1, hspan.2]
  rfl

theorem Rewritten.kind (h : Rewritten s t q) (n : Nat) : (t.node n).kind = (s.node n).kind := by
  by_cases hn : n = q
  · rw [hn]
    exact h.name.1
  · exact h.field QueryNode.kind (fun _ => rfl) hn

theorem Rewritten.queryResult (h : Rewritten s t q) (hc : Current R s) {n : Nat} (hn : n ≠ q)
    (hlt : n < s.queryNodes.length) (hcommitted : (s.node n).hasCommittedValue = true) :
    t.queryResult n = s.queryResult n ∧ t.queryInput n = s.queryInput n := by
  obtain ⟨more, hbytes⟩ := h.valueBytes
  obtain ⟨-, hinput, hresult⟩ := (valueState_iff.mp (hc.values n hlt)).2 hcommitted
  constructor
  · rw [QuerySession.queryResult, hbytes, h.field QueryNode.resultStart (fun _ => rfl) hn,
      h.field resultLength (fun _ => rfl) hn, spanBytes_append hresult]
    rfl
  · rw [QuerySession.queryInput, hbytes, h.field QueryNode.inputStart (fun _ => rfl) hn,
      h.field inputLength (fun _ => rfl) hn, spanBytes_append hinput]
    rfl

theorem Current.rewritten (hc : Current R s) (hL : Linked s s.heads out inc)
    (h : Rewritten s t q) (hcomputed : Computed R t q) : Current R t := by
  obtain ⟨more, hbytes⟩ := h.valueBytes
  have hgen : ∀ i, i ≠ q → (t.node i).resultGeneration = (s.node i).resultGeneration :=
    fun i hi => h.field resultGeneration (fun _ => rfl) hi
  have hcom : ∀ i, i ≠ q → (t.node i).hasCommittedValue = (s.node i).hasCommittedValue :=
    fun i hi => h.field hasCommittedValue (fun _ => rfl) hi
  have hgrow : (s.node q).resultGeneration ≤ (t.node q).resultGeneration := by
    rcases h.generation with ⟨he, -⟩ | ⟨he, -⟩ <;> omega
  refine ⟨h.stamps, fun n hn => ?_, fun n hn => ?_, fun n d g hd => ?_, fun n d g hd hn => ?_,
    fun n => ?_, fun n hn hcn => ?_⟩
  · rw [h.length] at hn
    rw [h.keyBytes]
    by_cases hnq : n = q
    · subst hnq
      rw [h.name.2.1, h.name.2.2]
      exact hc.keys n hn
    · rw [h.field keyStart (fun _ => rfl) hnq,
        h.field keyLength (fun _ => rfl) hnq]
      exact hc.keys n hn
  · rw [h.length] at hn
    by_cases hnq : n = q
    · rw [hnq]
      exact h.value
    obtain ⟨hno, hyes⟩ := valueState_iff.mp (hc.values n hn)
    rw [valueState_iff, hcom n hnq, hgen n hnq, (h.other n hnq).2,
      h.field QueryNode.inputStart (fun _ => rfl) hnq,
      h.field inputLength (fun _ => rfl) hnq,
      h.field QueryNode.resultStart (fun _ => rfl) hnq,
      h.field resultLength (fun _ => rfl) hnq, hbytes, List.length_append]
    refine ⟨hno, fun hy => ?_⟩
    obtain ⟨h1, h2, h3⟩ := hyes hy
    exact ⟨h1, Nat.le_add_right_of_le h2, Nat.le_add_right_of_le h3⟩
  · by_cases hnq : n = q
    · subst hnq
      obtain ⟨hdq, hcd, hg, -⟩ := h.reads d g hd
      rw [hcom d hdq, hgen d hdq]
      exact ⟨hcd, hg⟩
    obtain ⟨hcd, hg⟩ := hc.seen n d g ((h.others_read n hnq d g).mp hd)
    by_cases hdq : d = q
    · subst hdq
      exact ⟨h.committed, Nat.le_trans hg hgrow⟩
    · rw [hcom d hdq, hgen d hdq]
      exact ⟨hcd, hg⟩
  · by_cases hnq : n = q
    · subst hnq
      have hdq := (h.reads d g hd).1
      rw [(h.other d hdq).2, hgen d hdq]
      exact h.green hn d g hd
    rw [(h.other n hnq).2] at hn
    obtain ⟨hgd, hg⟩ := hc.green n d g ((h.others_read n hnq d g).mp hd) hn
    by_cases hdq : d = q
    · subst hdq
      rcases h.generation with ⟨he, -⟩ | ⟨-, hng⟩
      · exact ⟨h.status hgd, hg.trans he.symm⟩
      · exact absurd hgd hng
    · rw [(h.other d hdq).2, hgen d hdq]
      exact ⟨hgd, hg⟩
  · refine Worklist.acyclic_redirect (q := q) hc.acyclic (fun x y ⟨g, hxy⟩ => ?_) n
    by_cases hxq : x = q
    · subst hxq
      exact (h.reads y g hxy).2.2.2.imp id fun hy => ⟨rfl, hy⟩
    · exact .inl ⟨g, (h.others_read x hxq y g).mp hxy⟩
  · rw [h.length] at hn
    by_cases hnq : n = q
    · rw [hnq]
      exact hcomputed
    rw [hcom n hnq] at hcn
    obtain ⟨hres, hinp⟩ := h.queryResult hc hnq hn hcn
    refine (hc.computed n hn hcn).transfer (h.others_read n hnq)
      ⟨h.kind n, h.queryKey n, hinp, hres⟩ (fun d _ => ⟨h.kind d, h.queryKey d⟩)
      fun d g hd hg => ?_
    obtain ⟨hcd, hle⟩ := hc.seen n d g hd
    by_cases hdq : d = q
    · subst hdq
      rcases h.generation with ⟨he, hr⟩ | ⟨he, -⟩
      · exact ⟨hg.trans he, hr⟩
      · omega
    · exact ⟨hg.trans (hgen d hdq), (h.queryResult hc hdq (hd.lt hL) hcd).1⟩

/-! ## The bytes of a commit -/

/-- Where a plan puts the input and the result: an unchanged value stays at its
span, a new one goes to the end of the pool, and a result equal to the input
shares its span. -/
structure Planned (s : QuerySession) (q : Nat) (plan : CommitPlan) (input result : Bytes) :
    Prop where
  input_old : plan.inputChanged = false → (s.node q).hasCommittedValue = true ∧
    plan.inputStart = (s.node q).inputStart ∧ (s.node q).inputLength = input.length ∧
    s.queryInput q = input
  input_new : plan.inputChanged = true → plan.inputStart = s.queryValueBytes.length
  result_old : plan.resultChanged = false → (s.node q).hasCommittedValue = true ∧
    plan.resultStart = (s.node q).resultStart ∧ (s.node q).resultLength = result.length ∧
    s.queryResult q = result
  result_new : plan.resultChanged = true → plan.resultStart =
    if input = result then plan.inputStart
    else s.queryValueBytes.length + if plan.inputChanged then input.length else 0

variable {plan : CommitPlan} {input : Bytes} {result : Bytes}

theorem Planned.congr (h : Planned s q plan input result) (hv : SameValues s t) :
    Planned t q plan input result where
  input_old := fun hi => by
    rw [hv.field hasCommittedValue (fun _ => rfl),
      hv.field QueryNode.inputStart (fun _ => rfl), hv.field inputLength (fun _ => rfl),
      hv.queryInput]
    exact h.input_old hi
  input_new := fun hi => by
    rw [hv.valueBytes]
    exact h.input_new hi
  result_old := fun hr => by
    rw [hv.field hasCommittedValue (fun _ => rfl),
      hv.field QueryNode.resultStart (fun _ => rfl), hv.field resultLength (fun _ => rfl),
      hv.queryResult]
    exact h.result_old hr
  result_new := fun hr => by
    rw [hv.valueBytes]
    exact h.result_new hr

theorem spanBytes_end (bytes value more : Bytes) :
    spanBytes (bytes ++ (value ++ more)) bytes.length value.length = value := by
  unfold spanBytes
  rw [List.drop_left, List.take_left]

def StandsAt (bytes : Bytes) (start : Nat) (value : Bytes) : Prop :=
  start + value.length ≤ bytes.length ∧ spanBytes bytes start value.length = value

theorem StandsAt.append {bytes value : Bytes} {start : Nat} (h : StandsAt bytes start value)
    (more : Bytes) : StandsAt (bytes ++ more) start value :=
  ⟨by rw [List.length_append]; exact Nat.le_add_right_of_le h.1,
    by rw [spanBytes_append h.1]; exact h.2⟩

theorem standsAt_end (bytes value more : Bytes) :
    StandsAt (bytes ++ (value ++ more)) bytes.length value :=
  ⟨by simp only [List.length_append]; omega, spanBytes_end bytes value more⟩

/-- After the bytes of a plan are appended, both values stand at their spans. -/
theorem Planned.stands (h : Planned s q plan input result) (hc : Current R s)
    (hq : q < s.queryNodes.length) :
    StandsAt (s.queryValueBytes ++ plan.appended input result) plan.inputStart input ∧
      StandsAt (s.queryValueBytes ++ plan.appended input result) plan.resultStart result := by
  have hstate := (valueState_iff.mp (hc.values q hq)).2
  have hinput : StandsAt (s.queryValueBytes ++ plan.appended input result)
    plan.inputStart input := by
    cases hi : plan.inputChanged with
    | false =>
      obtain ⟨hcommitted, hstart, hlen, hold⟩ := h.input_old hi
      refine StandsAt.append ⟨?_, ?_⟩ _
      · rw [hstart, ← hlen]
        exact (hstate hcommitted).2.1
      · rw [hstart, ← hlen]
        exact hold
    | true =>
      rw [h.input_new hi]
      simp only [CommitPlan.appended, hi, if_true]
      exact standsAt_end _ _ _
  refine ⟨hinput, ?_⟩
  cases hr : plan.resultChanged with
  | false =>
    obtain ⟨hcommitted, hstart, hlen, hold⟩ := h.result_old hr
    refine StandsAt.append ⟨?_, ?_⟩ _
    · rw [hstart, ← hlen]
      exact (hstate hcommitted).2.2
    · rw [hstart, ← hlen]
      exact hold
  | true =>
    rw [h.result_new hr]
    by_cases hsame : input = result
    · rw [if_pos hsame, ← hsame]
      rw [← hsame] at hinput
      exact hinput
    rw [if_neg hsame]
    have hne : (input != result) = true := by simpa using hsame
    have hsplit : s.queryValueBytes ++ plan.appended input result =
        (s.queryValueBytes ++ if plan.inputChanged then input else []) ++ (result ++ []) := by
      simp [CommitPlan.appended, hr, hne]
    have hlen : (s.queryValueBytes ++ if plan.inputChanged then input else []).length =
        s.queryValueBytes.length + if plan.inputChanged then input.length else 0 := by
      rw [List.length_append]
      split <;> rfl
    rw [hsplit, ← hlen]
    exact standsAt_end _ _ _

/-! ## The writes -/

/-- What a commit has established about its query and dependencies before it writes. -/
structure Accepted (R : QueryRelation) (s : QuerySession) (q : Nat) (old : List Nat)
    (check : DependencyCheck) (plan : CommitPlan) (input result : Bytes) : Prop where
  node_lt : q < s.queryNodes.length
  nodup : check.dependencyIds.Nodup
  ids : ∀ d ∈ check.dependencyIds, d < s.queryNodes.length ∧ d ≠ q ∧
    (s.node d).hasCommittedValue = true ∧ (s.node d).resultGeneration ≠ 0
  green : ∀ d ∈ check.dependencyIds, (s.node d).status = .green
  replaced : plan.replaceDependencies = true →
    (∀ d ∈ check.dependencyIds, ¬ ReflTransGen (DependsOn s) d q) ∧
    s.queryEdges.length + (check.dependencyIds.length - (s.freeQueryEdges.length + old.length)) ≤
      queryEdgeLimit
  kept : plan.replaceDependencies = false →
    (∀ d, d ∈ check.dependencyIds ↔ DependsOn s q d) ∧ check.uniqueCount = old.length
  current : plan.replaceDependencies = false → plan.refreshGenerations = false →
    ∀ d g, Depends s q d g → g = (s.node d).resultGeneration
  refreshed : plan.refreshGenerations = true → plan.replaceDependencies = false
  planned : Planned s q plan input result
  result : R (s.node q).kind (s.queryKey q) input
    (s.namedResults s.queryResult check.dependencyIds) result

variable {old : List Nat} {check : DependencyCheck}

theorem Accepted.congr (h : Accepted R s q old check plan input result) (hv : SameValues s t)
    (hl : SameLinks s t) (hgreen : ∀ d ∈ check.dependencyIds, (t.node d).status = .green) :
    Accepted R t q old check plan input result := by
  have hdep : Depends t = Depends s := hl.depends hv.length
  have hdepOn : DependsOn t = DependsOn s := hl.dependsOn hv.length
  have hgen := hv.field resultGeneration fun _ => rfl
  have hcom := hv.field hasCommittedValue fun _ => rfl
  refine ⟨hv.length ▸ h.node_lt, h.nodup, fun d hd => ?_, hgreen, fun hr => ?_, fun hr => ?_,
    fun hr hf d g hd => ?_, h.refreshed, h.planned.congr hv, ?_⟩
  · rw [hv.length, hcom, hgen]
    exact h.ids d hd
  · rw [hdepOn, hl.edges, hl.free]
    exact h.replaced hr
  · rw [hdepOn]
    exact h.kept hr
  · rw [hdep] at hd
    rw [hgen]
    exact h.current hr hf d g hd
  rw [hv.field QueryNode.kind (fun _ => rfl), hv.queryKey, hv.namedResults]
  exact h.result

theorem applied_spec (hL : Linked s s.heads out inc)
    (ha : Accepted R s q (out q) check plan input result) :
    ∃ t out' inc', (if plan.replaceDependencies then ifqApplyDependencySet s q check.dependencyIds
        else (s, true)) = (t, true) ∧ Linked t t.heads out' inc' ∧ KeepsOthers q s t out out' ∧
      (∀ d, DependsOn t q d ↔ d ∈ check.dependencyIds) ∧
      (∀ d g, Depends t q d g → g = (s.node d).resultGeneration ∨
        (plan.replaceDependencies = false ∧ Depends s q d g)) ∧
      (plan.replaceDependencies = false → out' = out ∧ t = s) := by
  cases hr : plan.replaceDependencies with
  | true =>
    obtain ⟨hup, hroom⟩ := ha.replaced hr
    obtain ⟨t, out', inc', hrun, hL', hkeeps, hdep⟩ := applyDependencySet_spec hL ha.node_lt
      ha.nodup (fun d hd => ⟨(ha.ids d hd).1, (ha.ids d hd).2.1, (ha.ids d hd).2.2.2⟩) hroom
    refine ⟨t, out', inc', hrun, hL', hkeeps, fun d => ?_, fun d g hd => ?_, nofun⟩
    · simp only [DependsOn, hdep, exists_and_left, exists_eq, and_true]
    · exact .inl ((hdep d g).mp hd).2
  | false =>
    exact ⟨s, out, inc, rfl, hL, .refl q s out, fun d => ((ha.kept hr).1 d).symm,
      fun d g hd => .inr ⟨rfl, hd⟩, fun _ => ⟨rfl, rfl⟩⟩

/-- A session behind the writes of a commit to one query: the bytes are appended, the node is
written, and its edges go to the dependencies. -/
structure Wrote (s t : QuerySession) (q : Nat) (ids : List Nat) (plan : CommitPlan)
    (input result : Bytes) : Prop where
  length : t.queryNodes.length = s.queryNodes.length
  keys : t.queryKeyBytes = s.queryKeyBytes
  bytes : t.queryValueBytes = s.queryValueBytes ++ plan.appended input result
  context : t.context = s.context
  poisoned : t.queryGraphPoisoned = s.queryGraphPoisoned
  stamps : Stamped t
  other : ∀ i, i ≠ q → (t.node i).core = (s.node i).core ∧ (t.node i).status = (s.node i).status
  self : (t.node q).core = (plan.write input result (s.node q)).core
  others : ∀ n, n ≠ q → ∀ d g, Depends t n d g ↔ Depends s n d g
  reads : ∀ d, DependsOn t q d ↔ d ∈ ids

theorem Wrote.namesKept {ids : List Nat} (hw : Wrote s t q ids plan input result) :
    NamesKept s t := by
  refine ⟨Nat.le_of_eq hw.length.symm, fun n _ => ?_⟩
  have hname : (t.node n).core.kind = (s.node n).core.kind ∧
      (t.node n).core.keyStart = (s.node n).core.keyStart ∧
      (t.node n).core.keyLength = (s.node n).core.keyLength := by
    by_cases hn : n = q
    · rw [hn, hw.self]
      exact ⟨rfl, rfl, rfl⟩
    · rw [(hw.other n hn).1]
      exact ⟨rfl, rfl, rfl⟩
  obtain ⟨hkind, hstart, hlength⟩ : (t.node n).kind = (s.node n).kind ∧
      (t.node n).keyStart = (s.node n).keyStart ∧
      (t.node n).keyLength = (s.node n).keyLength := hname
  refine ⟨hkind, ?_⟩
  rw [queryKey, hw.keys, hstart, hlength]
  rfl

theorem Sound.rewritten {out' inc' : Nat → List Nat} {check : DependencyCheck} {plan : CommitPlan}
    {input result : Bytes} (h : Sound R s) (hL : Linked s s.heads out inc)
    (ha : Accepted R s q (out q) check plan input result)
    (hstale : plan.resultChanged = true → (s.node q).status ≠ .green)
    (hL' : Linked t t.heads out' inc') (hw : Wrote s t q check.dependencyIds plan input result)
    (hstatus : (s.node q).status = .green → (t.node q).status = .green)
    (hseen : ∀ d g, Depends t q d g → g = (s.node d).resultGeneration ∨ Depends s q d g)
    (hgreen : (t.node q).status = .green → ∀ d g, Depends t q d g →
      g = (s.node d).resultGeneration) : Sound R t := by
  have hc := h.current
  have hfield : ∀ {β : Type} (π : QueryNode → β), (∀ node, π node.core = π node) →
      π (t.node q) = π (plan.write input result (s.node q)) := fun π hπ => by
    rw [← hπ, hw.self, hπ]
  have hcommitted : (t.node q).hasCommittedValue = true :=
    hfield hasCommittedValue fun _ => rfl
  have hgen : (t.node q).resultGeneration =
      if plan.resultChanged then (s.node q).resultGeneration + 1
      else (s.node q).resultGeneration := hfield resultGeneration fun _ => rfl
  have hinputStart : (t.node q).inputStart = plan.inputStart :=
    hfield QueryNode.inputStart fun _ => rfl
  have hinputLength : (t.node q).inputLength = input.length :=
    hfield inputLength fun _ => rfl
  have hresultStart : (t.node q).resultStart = plan.resultStart :=
    hfield QueryNode.resultStart fun _ => rfl
  have hresultLength : (t.node q).resultLength = result.length :=
    hfield resultLength fun _ => rfl
  obtain ⟨hinput, hresult⟩ := ha.planned.stands hc ha.node_lt
  rw [← hw.bytes] at hinput hresult
  have hqinput : t.queryInput q = input := by
    rw [queryInput, hinputStart, hinputLength]
    exact hinput.2
  have hqresult : t.queryResult q = result := by
    rw [queryResult, hresultStart, hresultLength]
    exact hresult.2
  have hrewritten : Rewritten s t q := by
    refine ⟨hw.length, hw.keys, ⟨_, hw.bytes⟩, hw.stamps, hw.other,
      ⟨hfield QueryNode.kind fun _ => rfl, hfield keyStart fun _ => rfl,
        hfield keyLength fun _ => rfl⟩, hcommitted, ?_, ?_, hstatus, hw.others,
      fun d g hd => ?_, fun hg d g hd => ?_⟩
    · rw [valueState_iff, hcommitted, hinputStart, hinputLength, hresultStart, hresultLength, hgen]
      refine ⟨Bool.noConfusion, fun _ => ⟨?_, hinput.1, hresult.1⟩⟩
      cases hr : plan.resultChanged with
      | true => simp
      | false =>
        have hv := (valueState_iff.mp (hc.values q ha.node_lt)).2 (ha.planned.result_old hr).1
        simpa using hv.1
    · cases hr : plan.resultChanged with
      | true =>
        refine .inr ⟨?_, hstale hr⟩
        rw [hgen, hr, if_pos rfl]
      | false =>
        refine .inl ⟨?_, ?_⟩
        · rw [hgen, hr]
          rfl
        · rw [hqresult, (ha.planned.result_old hr).2.2.2]
    · have hmem := (hw.reads d).mp ⟨g, hd⟩
      obtain ⟨-, hdq, hcd, -⟩ := ha.ids d hmem
      refine ⟨hdq, hcd, ?_, ?_⟩
      · rcases hseen d g hd with hg | hd'
        · exact Nat.le_of_eq hg
        · exact (hc.seen q d g hd').2
      · cases hr : plan.replaceDependencies with
        | true => exact .inr ((ha.replaced hr).1 d hmem)
        | false => exact .inl (((ha.kept hr).1 d).mp hmem)
    · exact ⟨ha.green d ((hw.reads d).mp ⟨g, hd⟩), hgreen hg d g hd⟩
  refine ⟨⟨out', inc', hL'⟩, hc.rewritten hL hrewritten ?_⟩
  refine ⟨t.queryResult, check.dependencyIds, fun d => (hw.reads d).symm, ?_, fun d g _ _ => rfl⟩
  have hnames : t.namedResults t.queryResult check.dependencyIds =
      s.namedResults s.queryResult check.dependencyIds := by
    refine namedResults_congr (fun _ => Iff.rfl) fun d hd => ?_
    obtain ⟨hlt, hdq, hcd, -⟩ := ha.ids d hd
    exact ⟨hrewritten.kind d, hrewritten.queryKey d, (hrewritten.queryResult hc hdq hlt hcd).1⟩
  rw [hqresult, hqinput, hrewritten.kind, hrewritten.queryKey, hnames]
  exact ha.result

variable {r : QuerySession × Bool}

/-- The refresh of the generations a query has seen: nothing happens, or every edge
of the query has now seen the present generation. -/
theorem refresh_spec {count : Nat} (hL : Linked s s.heads out inc) (hq : q < s.queryNodes.length)
    (hcount : count = (out q).length)
    (hgens : ∀ d, DependsOn s q d → (s.node d).resultGeneration ≠ 0)
    (hr : ifqRefreshDependencyGenerations s q count = r) :
    (r.2 = false ∧ (r.1 = s ∨ r.1 = s.poison)) ∨
    (r.2 = true ∧ (∃ edges, r.1 = { s with queryEdges := edges }) ∧
      Linked r.1 r.1.heads out inc ∧
      (∀ n, n ≠ q → ∀ d g, Depends r.1 n d g ↔ Depends s n d g) ∧
      ∀ d g, Depends r.1 q d g ↔ DependsOn s q d ∧ g = (s.node d).resultGeneration) := by
  unfold ifqRefreshDependencyGenerations at hr
  rcases ite_eq_iff.mp hr with ⟨-, rfl⟩ | ⟨-, hr⟩
  · exact .inl ⟨rfl, .inl rfl⟩
  rcases ite_eq_iff.mp hr with ⟨-, rfl⟩ | ⟨-, hr⟩
  · exact .inl ⟨rfl, .inr rfl⟩
  have hslots : ∀ e ∈ out q, e < s.queryEdges.length := fun e he =>
    ((hL.out_mem q hq e).mp he).1
  obtain ⟨edges, hrun, hlen, hedge⟩ := refreshEdges_spec (out q) count s
    (s.node q).firstDependency (hL.out_chain q hq) hslots ((hL.out_nodup q hq).of_map _)
    (Nat.le_of_eq hcount.symm)
  subst hr
  rw [hrun]
  generalize ht : ({ s with queryEdges := edges } : QuerySession) = t at hedge ⊢
  have hnodes : t.queryNodes = s.queryNodes := by rw [← ht]
  have hnode : ∀ i, t.node i = s.node i := fun i => by simp [QuerySession.node, hnodes]
  have hlen' : t.queryEdges.length = s.queryEdges.length := by
    rw [← ht]
    exact hlen
  have hL' : Linked t t.heads out inc := by
    have hheads : t.heads = s.heads := by
      funext i
      simp only [heads, hnode]
    rw [hheads]
    refine hL.seenAt hnodes (by rw [← ht]) hlen' (fun e => ?_) fun e he hdep => ?_
    · rw [hedge]
      split
      · exact ⟨_, rfl⟩
      · exact ⟨(s.edge e).observedResultGeneration, rfl⟩
    rw [hedge]
    split
    next hmem =>
      exact hgens _ ⟨_, (depends_iff_reads hL hq).mpr ⟨e, hmem, rfl, rfl⟩⟩
    next => exact (hL.live he hdep).2.2.2
  refine .inr ⟨rfl, ⟨edges, ht.symm⟩, hL', fun n hn d g => ?_, fun d g => ?_⟩
  · by_cases hlt : n < s.queryNodes.length
    · rw [depends_iff_reads hL' (by rw [hnodes]; exact hlt), depends_iff_reads hL hlt]
      refine exists_congr fun e => and_congr_right fun he => ?_
      rw [hedge, if_neg fun hm => hn ?_]
      exact ((hL.out_mem n hlt e).mp he).2.symm.trans ((hL.out_mem q hq e).mp hm).2
    · exact ⟨fun hd => absurd (hnodes ▸ hd.1) hlt, fun hd => absurd hd.1 hlt⟩
  · rw [depends_iff_reads hL' (by rw [hnodes]; exact hq)]
    constructor
    · rintro ⟨e, he, rfl, rfl⟩
      rw [hedge, if_pos he]
      exact ⟨⟨_, (depends_iff_reads hL hq).mpr ⟨e, he, rfl, rfl⟩⟩, rfl⟩
    · rintro ⟨⟨g', hd⟩, rfl⟩
      obtain ⟨e, he, rfl, -⟩ := (depends_iff_reads hL hq).mp hd
      refine ⟨e, he, ?_, ?_⟩ <;> rw [hedge, if_pos he] <;> rfl

theorem core_write (plan : CommitPlan) (input result : Bytes) {a b : QueryNode}
    (h : a.core = b.core) :
    (plan.write input result a).core = (plan.write input result b).core := by
  have hwrite : ∀ node : QueryNode, (plan.write input result node).core =
      (plan.write input result node.core).core := fun _ => rfl
  rw [hwrite a, h, ← hwrite b]

/-- The edges were applied to `t`; the node is written behind that. -/
theorem wrote_node (hstamps : Stamped s) (hL : Linked s s.heads out inc)
    (ha : Accepted R s q (out q) check plan input result) {out' inc' : Nat → List Nat}
    (hL' : Linked t t.heads out' inc') (hkeeps : KeepsOthers q s t out out')
    (hreads : ∀ d, DependsOn t q d ↔ d ∈ check.dependencyIds) :
    let v := QuerySession.modifyNode { t with
      queryValueBytes := t.queryValueBytes ++ plan.appended input result } q
      (plan.write input result)
    Wrote s v q check.dependencyIds plan input result ∧ Linked v v.heads out' inc' ∧
      Depends v = Depends t ∧ (v.node q).status = (s.node q).status := by
  intro v
  have hqt : q < t.queryNodes.length := by
    rw [hkeeps.values.length]
    exact ha.node_lt
  have hlength : v.queryNodes.length = t.queryNodes.length := length_modifyNode ..
  have hother : ∀ i, i ≠ q → v.node i = t.node i := fun i hi =>
    node_modifyNode_ne _ fun he => hi he.symm
  have hself : v.node q = plan.write input result (t.node q) := node_modifyNode_self _ hqt
  have hlinks : SameLinks t v := by
    refine ⟨rfl, rfl, fun i => ?_, fun i => ?_⟩
    · exact node_modifyNode_field QueryNode.links fun _ => rfl
    · exact node_modifyNode_field firstDependency fun _ => rfl
  have hdep : Depends v = Depends t := hlinks.depends hlength
  refine ⟨⟨hlength.trans hkeeps.values.length, hkeeps.values.keyBytes, ?_, hkeeps.values.context,
    hkeeps.poisoned, fun i hi => ?_, fun i hi => ?_, ?_, fun n hn d g => ?_, fun d => ?_⟩,
    hlinks.linked hlength hL', hdep, ?_⟩
  · show t.queryValueBytes ++ _ = _
    rw [hkeeps.values.valueBytes]
  · refine Nat.le_trans (Nat.le_of_eq ?_) (hkeeps.stamps hstamps i (hlength ▸ hi))
    exact node_modifyNode_field lastInvalidationGeneration fun _ => rfl
  · rw [hother i hi]
    exact ⟨hkeeps.values.core i, hkeeps.status i⟩
  · rw [hself]
    exact core_write _ _ _ (hkeeps.values.core q)
  · rw [hdep]
    exact hkeeps.depends hL hL' hn
  · rw [← hreads]
    simp only [DependsOn, hdep]
  · rw [hself]
    exact hkeeps.status q

/-- New generations on the edges of the query leave the rest as it was written. -/
theorem Wrote.withEdges {ids : List Nat} (hw : Wrote s t q ids plan input result)
    {edges : List DependencyEdge}
    (hothers : ∀ n, n ≠ q → ∀ d g, Depends { t with queryEdges := edges } n d g ↔ Depends t n d g)
    (hreads : ∀ d, DependsOn { t with queryEdges := edges } q d ↔ DependsOn t q d) :
    Wrote s { t with queryEdges := edges } q ids plan input result :=
  ⟨hw.length, hw.keys, hw.bytes, hw.context, hw.poisoned, hw.stamps, hw.other, hw.self,
    fun n hn d g => (hothers n hn d g).trans (hw.others n hn d g),
    fun d => (hreads d).trans (hw.reads d)⟩

/-- The last write: the query is green, and its edges have seen the present results. -/
theorem Wrote.settles (h : Sound R s) (hL : Linked s s.heads out inc)
    (ha : Accepted R s q (out q) check plan input result)
    (hstale : plan.resultChanged = true → (s.node q).status ≠ .green)
    {out' inc' : Nat → List Nat} (hL' : Linked t t.heads out' inc')
    (hw : Wrote s t q check.dependencyIds plan input result)
    (hseen : ∀ d g, Depends t q d g → g = (s.node d).resultGeneration) :
    Settles R s (t.modifyNode q fun node => { node with status := .green }) := by
  have hlinks : SameLinks t (t.modifyNode q fun node => { node with status := .green }) :=
    sameLinks_modifyNode (fun _ => rfl) fun _ => rfl
  have hlength : (t.modifyNode q fun node => { node with status := .green }).queryNodes.length =
      t.queryNodes.length := length_modifyNode ..
  have hdep := hlinks.depends hlength
  have hqt : q < t.queryNodes.length := by
    rw [hw.length]
    exact ha.node_lt
  have hgreen : Wrote s (t.modifyNode q fun node => { node with status := .green }) q
      check.dependencyIds plan input result := by
    refine ⟨hlength.trans hw.length, hw.keys, hw.bytes, hw.context, hw.poisoned, fun i hi => ?_,
      fun i hi => ?_, ?_, fun n hn d g => ?_, fun d => ?_⟩
    · rw [hlength] at hi
      refine Nat.le_trans (Nat.le_of_eq ?_) (hw.stamps i hi)
      exact node_modifyNode_field lastInvalidationGeneration fun _ => rfl
    · rw [node_modifyNode_ne _ fun he => hi he.symm]
      exact hw.other i hi
    · rw [node_modifyNode_self _ hqt]
      exact hw.self
    · rw [hdep]
      exact hw.others n hn d g
    · simp only [DependsOn, hdep]
      exact hw.reads d
  refine ⟨h.rewritten hL ha hstale (hlinks.linked hlength hL') hgreen (fun _ => ?_)
    (fun d g hd => .inl ?_) (fun _ d g hd => ?_), hgreen.context, fun hp =>
      hgreen.poisoned.trans hp,
    hgreen.namesKept⟩
  · rw [node_modifyNode_self _ hqt]
  · rw [hdep] at hd
    exact hseen d g hd
  · rw [hdep] at hd
    exact hseen d g hd

theorem commitRewrite_spec (h : Sound R s) (hL : Linked s s.heads out inc)
    (ha : Accepted R s q (out q) check plan input result)
    (hstale : plan.resultChanged = true → (s.node q).status ≠ .green)
    (hr : ifqCommitRewrite s q check plan input result = r) : Settles R s r.1 := by
  obtain ⟨t, out', inc', happlied, hL₁, hkeeps, hreads, hseen, hkept⟩ := applied_spec hL ha
  obtain ⟨hw, hvL, hvdep, hvstatus⟩ := wrote_node h.current.stamps hL ha hL₁ hkeeps hreads
  unfold ifqCommitRewrite at hr
  rw [happlied] at hr
  dsimp only at hr hw hvL hvdep hvstatus
  generalize QuerySession.modifyNode { t with
    queryValueBytes := t.queryValueBytes ++ plan.appended input result } q
    (plan.write input result) = v at hr hw hvL hvdep hvstatus
  cases hrefresh : plan.refreshGenerations with
  | false =>
    rw [hrefresh] at hr
    subst hr
    refine hw.settles h hL ha hstale hvL fun d g hd => ?_
    rw [hvdep] at hd
    rcases hseen d g hd with hg | ⟨hrep, hd'⟩
    · exact hg
    · exact ha.current hrep hrefresh d g hd'
  | true =>
    rw [hrefresh] at hr
    simp only [if_true] at hr
    have hrep := ha.refreshed hrefresh
    have hgen : ∀ d, DependsOn v q d →
        (v.node d).resultGeneration = (s.node d).resultGeneration := fun d hd => by
      have hcore := (hw.other d (ha.ids d ((hw.reads d).mp hd)).2.1).1
      exact (congrArg resultGeneration hcore :)
    have hout := (hkept hrep).1
    generalize hrun : ifqRefreshDependencyGenerations v q check.uniqueCount = f at hr
    have hcount : check.uniqueCount = (out' q).length := by
      rw [hout]
      exact (ha.kept hrep).2
    rcases refresh_spec hvL (by rw [hw.length]; exact ha.node_lt) hcount (fun d hd => by
        rw [hgen d hd]
        exact (ha.ids d ((hw.reads d).mp hd)).2.2.2) hrun with
      ⟨hfalse, hstopped⟩ | ⟨htrue, ⟨edges, hedges⟩, hwL, hwothers, hwreads⟩
    · obtain ⟨w, ok⟩ := f
      dsimp only at hfalse hstopped
      subst hfalse
      dsimp only at hr
      subst hr
      -- a refresh that stops leaves the edges and the status as they were
      have hsound : Sound R v := by
        refine h.rewritten hL ha hstale hvL hw (fun hg => hvstatus.trans hg) (fun d g hd => ?_)
          fun hg d g hd => ?_
        · rw [hvdep] at hd
          exact (hseen d g hd).imp id And.right
        · rw [hvstatus] at hg
          rw [hvdep] at hd
          rcases hseen d g hd with he | ⟨-, hd'⟩
          · exact he
          · exact (h.current.green q d g hd' hg).2
      rcases hstopped with rfl | rfl
      · exact ⟨hsound, hw.context, fun hp => hw.poisoned.trans hp, hw.namesKept⟩
      · exact ⟨hsound.poison, hw.context, fun _ => rfl,
          hw.namesKept.trans (marked_poison _).values.namesKept⟩
    · obtain ⟨w, ok⟩ := f
      dsimp only at htrue hedges hwL hwothers hwreads
      subst htrue hedges
      dsimp only at hr
      subst hr
      have hwedges := hw.withEdges hwothers fun d =>
        ⟨fun ⟨g, hd⟩ => ((hwreads d g).mp hd).1, fun hd => ⟨_, (hwreads d _).mpr ⟨hd, rfl⟩⟩⟩
      refine hwedges.settles h hL ha hstale hwL fun d g hd => ?_
      obtain ⟨hd', hg⟩ := (hwreads d g).mp hd
      rw [hg, hgen d hd']

/-- No accepted dependency is above the query: a new one was walked, and an old one
has been below it. -/
theorem Accepted.below (ha : Accepted R s q old check plan input result) (hc : Current R s)
    {d : Nat} (hd : d ∈ check.dependencyIds) : ¬ ReflTransGen (DependsOn s) d q := by
  cases hr : plan.replaceDependencies with
  | true => exact (ha.replaced hr).1 d hd
  | false =>
    intro hup
    exact hc.acyclic q (TransGen.head' (((ha.kept hr).1 d).mp hd) hup)

theorem commitWrites_spec (h : Sound R s) (hL : Linked s s.heads out inc)
    (ha : Accepted R s q (out q) check plan input result)
    (hr : ifqCommitWrites s q check plan input result = r) : Settles R s r.1 := by
  unfold ifqCommitWrites at hr
  cases hchanged : plan.resultChanged with
  | false =>
    rw [hchanged] at hr
    exact commitRewrite_spec h hL ha (fun hc => by rw [hchanged] at hc; cases hc) hr
  | true =>
    rw [hchanged] at hr
    simp only [if_true] at hr
    have hroot : QueryStatus.potentiallyDirty ≠ .green := nofun
    obtain ⟨hm, hstale⟩ :=
      markReverseClosure_spec hL h.current.stamps h.current.greenClosed q hroot
    have hsound := h.mark q hroot
    generalize ifqMarkReverseClosure s q .potentiallyDirty = marked at hm hstale hsound hr
    obtain ⟨m, ok⟩ := marked
    dsimp only at hm hstale hsound hr
    cases ok with
    | false =>
      subst hr
      exact .of_marked hm.toMarked hsound
    | true =>
      -- the marks are above the query, the dependencies are not
      have hgreen : ∀ d ∈ check.dependencyIds, (m.node d).status = .green := fun d hd => by
        by_contra hne
        refine ha.below h.current hd (hm.above d fun he => hne ?_)
        exact he.trans (ha.green d hd)
      have hrewrite := commitRewrite_spec hsound (hm.links.linked hm.values.length hL)
        (ha.congr hm.values hm.links hgreen) (fun _ => hstale rfl) hr
      exact .trans (.of_marked hm.toMarked hsound) hrewrite

/-! ## The whole commit -/

def SettlesOrClears (R : QueryRelation) (s t : QuerySession) : Prop :=
  Settles R s t ∨ ∃ u, Settles R s u ∧ t = ifqClearSessionGraph u

theorem SettlesOrClears.trans {u : QuerySession} (h : Settles R s t) (h' : SettlesOrClears R t u) :
    SettlesOrClears R s u := by
  rcases h' with hu | ⟨v, hv, rfl⟩
  · exact .inl (h.trans hu)
  · exact .inr ⟨v, h.trans hv, rfl⟩

theorem refuseCycle_spec (h : Sound R s) :
    ∀ (ids : List Nat) (s₁ : QuerySession), Marked s s₁ → SameStatus s s₁ →
      ∀ r, ifqRefuseCycle q ids s₁ = r → SettlesOrClears R s r.1 ∧
        (r.2 = none → Marked s r.1 ∧ SameStatus s r.1 ∧
          ∀ d ∈ ids, ¬ ReflTransGen (DependsOn s) d q) := by
  intro ids
  induction ids with
  | nil =>
    rintro s₁ hm hs r rfl
    exact ⟨.inl (.of_marked hm (h.beside hm hs)), fun _ => ⟨hm, hs, nofun⟩⟩
  | cons d ids ih =>
    intro s₁ hm hs r hr
    have h₁ : Sound R s₁ := h.beside hm hs
    obtain ⟨out, inc, hL⟩ := h₁.linked
    obtain ⟨hwalk, hstatus, hfree⟩ := queryWalkPath_spec hL h₁.current.stamps d q
    unfold ifqRefuseCycle at hr
    generalize ifqQueryWalkPath s₁ d q = walked at hwalk hstatus hfree hr
    obtain ⟨w, walk⟩ := walked
    dsimp only at hwalk hstatus hfree hr
    have hm' : Marked s w := hm.trans hwalk
    have hs' : SameStatus s w := fun i => (hstatus i).trans (hs i)
    have hw : Settles R s w := .of_marked hm' (h.beside hm' hs')
    have hstep : ∀ {v}, Settles R w v → SettlesOrClears R s v := fun hv => .trans hw (.inl hv)
    rcases ite_eq_iff.mp hr with ⟨-, rfl⟩ | ⟨hvalid, hr⟩
    · exact ⟨hstep (.poison hw.sound), nofun⟩
    rcases ite_eq_iff.mp hr with ⟨-, rfl⟩ | ⟨hbudget, hr⟩
    · exact ⟨.inr ⟨w, hw, rfl⟩, nofun⟩
    rcases ite_eq_iff.mp hr with ⟨-, rfl⟩ | ⟨hreached, hr⟩
    · exact ⟨hstep (.mark hw.sound q nofun), nofun⟩
    obtain ⟨hsettles, hnone⟩ := ih w hm' hs' r hr
    refine ⟨hsettles, fun hn => ?_⟩
    obtain ⟨hm'', hs'', hids⟩ := hnone hn
    have hd := hfree (by simpa using hvalid) (by simpa using hbudget) (by simpa using hreached)
    rw [hm.links.dependsOn hm.values.length] at hd
    refine ⟨hm'', hs'', fun x hx => ?_⟩
    rcases List.mem_cons.mp hx with rfl | hx
    · exact hd
    · exact hids x hx

/-- What the checks of a commit have established before its sizes are measured. -/
structure Admissible (R : QueryRelation) (s : QuerySession) (q : Nat) (old : List Nat)
    (check : DependencyCheck) (input result : Bytes) : Prop where
  node_lt : q < s.queryNodes.length
  nodup : check.dependencyIds.Nodup
  unique : check.uniqueCount = check.dependencyIds.length
  old_count : check.oldCount = old.length
  ids : ∀ d ∈ check.dependencyIds, d < s.queryNodes.length ∧ d ≠ q ∧
    (s.node d).hasCommittedValue = true ∧ (s.node d).resultGeneration ≠ 0
  all_green : check.allDependenciesGreen = true
  green : ∀ d ∈ check.dependencyIds, (s.node d).status = .green
  new : check.equal = false → ∀ d ∈ check.dependencyIds, ¬ ReflTransGen (DependsOn s) d q
  kept : check.equal = true →
    (∀ d, d ∈ check.dependencyIds ↔ DependsOn s q d) ∧ check.uniqueCount = old.length
  current : check.equal = true → check.resultsCurrent = true →
    ∀ d g, Depends s q d g → g = (s.node d).resultGeneration
  result : R (s.node q).kind (s.queryKey q) input
    (s.namedResults s.queryResult check.dependencyIds) result

theorem CheckedDependencies.admissible {handles : List QueryHandle}
    (h : CheckedDependencies s q handles (out q) check) (hL : Linked s s.heads out inc)
    (hq : q < s.queryNodes.length) (hgreen : check.allDependenciesGreen = true)
    (hnew : check.equal = false → ∀ d ∈ check.dependencyIds, ¬ ReflTransGen (DependsOn s) d q)
    (hresult : R (s.node q).kind (s.queryKey q) input (s.committedResults handles) result) :
    Admissible R s q (out q) check input result where
  node_lt := hq
  nodup := h.nodup
  unique := h.unique
  old_count := h.old_count
  ids := h.committed
  all_green := hgreen
  green := h.green hgreen
  new := hnew
  kept := fun he => by
    refine ⟨h.equal he, ?_⟩
    have hmem : ∀ d, d ∈ check.dependencyIds ↔ d ∈ (out q).map fun e => (s.edge e).dependee :=
      fun d => by
        rw [h.equal he d, List.mem_map]
        simp only [DependsOn, depends_iff_reads hL hq, Reads]
        constructor
        · rintro ⟨g, e, hmem, hd, -⟩
          exact ⟨e, hmem, hd⟩
        · rintro ⟨e, hmem, hd⟩
          exact ⟨_, e, hmem, hd, rfl⟩
    rw [h.unique, ((List.perm_ext_iff_of_nodup h.nodup (hL.out_nodup q hq)).mpr hmem).length_eq,
      List.length_map]
  current := h.current
  result := by
    have hnames : s.committedResults handles =
        s.namedResults s.queryResult check.dependencyIds := by
      refine namedResults_congr (fun d => ?_) fun _ _ => ⟨rfl, rfl, rfl⟩
      rw [h.mem d, List.mem_map]
    rw [← hnames]
    exact hresult

theorem Admissible.congr (h : Admissible R s q old check input result) (hv : SameValues s t)
    (hl : SameLinks s t) (hs : SameStatus s t) : Admissible R t q old check input result := by
  have hdep : Depends t = Depends s := hl.depends hv.length
  have hdepOn : DependsOn t = DependsOn s := hl.dependsOn hv.length
  have hgen := hv.field resultGeneration fun _ => rfl
  have hcom := hv.field hasCommittedValue fun _ => rfl
  refine ⟨hv.length ▸ h.node_lt, h.nodup, h.unique, h.old_count, fun d hd => ?_, h.all_green,
    fun d hd => (hs d).trans (h.green d hd), fun he => ?_, fun he => ?_, fun he hc d g hd => ?_, ?_⟩
  · rw [hv.length, hcom, hgen]
    exact h.ids d hd
  · rw [hdepOn]
    exact h.new he
  · rw [hdepOn]
    exact h.kept he
  · rw [hdep] at hd
    rw [hgen]
    exact h.current he hc d g hd
  rw [hv.field QueryNode.kind (fun _ => rfl), hv.queryKey, hv.namedResults]
  exact h.result

theorem unchanged_spec {start length : Nat} {value : Bytes} {committed : Bool}
    {fingerprint : UInt64}
    (h : (!committed || fingerprint != ifqQueryValueHash value
      || !ifqQueryValueEquals s start length value) = false) :
    committed = true ∧ length = value.length ∧
      spanBytes s.queryValueBytes start length = value := by
  simp only [Bool.or_eq_false_iff, Bool.not_eq_false'] at h
  obtain ⟨⟨hcommitted, -⟩, hequal⟩ := h
  obtain ⟨hlen, hspan⟩ := valueEqualsBytes_spec hequal
  refine ⟨hcommitted, hlen, hspan.trans ?_⟩
  rw [spanBytes, List.drop_zero, List.take_length]

theorem commitAdmitted_spec (h : Sound R s) (hL : Linked s s.heads out inc)
    (ha : Admissible R s q (out q) check input result)
    (hr : ifqCommitAdmitted s q check input result = r) : SettlesOrClears R s r.1 := by
  have hclear : SettlesOrClears R s (ifqClearSessionGraph s) := .inr ⟨s, .refl h, rfl⟩
  unfold ifqCommitAdmitted at hr
  dsimp only at hr
  generalize hinput : (!(s.node q).hasCommittedValue
    || (s.node q).inputFingerprint != ifqQueryValueHash input
    || !ifqQueryValueEquals s (s.node q).inputStart (s.node q).inputLength input) =
      inputChanged at hr
  generalize hresult : (!(s.node q).hasCommittedValue
    || (s.node q).resultFingerprint != ifqQueryValueHash result
    || !ifqQueryValueEquals s (s.node q).resultStart (s.node q).resultLength result) = resultChanged
    at hr
  generalize hinputBytes : (if inputChanged = true then input.length else 0) = inputBytes at hr
  generalize (if (resultChanged && !(input == result)) = true then result.length else 0) =
    resultBytes at hr
  generalize (if (!check.equal) = true then check.oldCount else 0) = extraFree at hr
  generalize hedges : (if (!check.equal) = true then
    check.uniqueCount - (s.freeQueryEdges.length + check.oldCount) else 0) = extraEdges at hr
  generalize hinputStart : (if inputChanged = true then s.queryValueBytes.length
    else (s.node q).inputStart) = inputStart at hr
  generalize hresultStart : (if resultChanged = true then
      if (input == result) = true then inputStart else s.queryValueBytes.length + inputBytes
    else (s.node q).resultStart) = resultStart at hr
  rcases ite_eq_iff.mp hr with ⟨-, rfl⟩ | ⟨-, hr⟩
  · exact hclear
  rcases ite_eq_iff.mp hr with ⟨-, rfl⟩ | ⟨-, hr⟩
  · exact .inl (.poison h)
  rcases ite_eq_iff.mp hr with ⟨-, rfl⟩ | ⟨-, hr⟩
  · exact .inl (.refl h)
  rcases ite_eq_iff.mp hr with ⟨-, rfl⟩ | ⟨hlimit, hr⟩
  · exact hclear
  rcases ite_eq_iff.mp hr with ⟨-, rfl⟩ | ⟨-, hr⟩
  · exact .inl (.refl h)
  rcases ite_eq_iff.mp hr with ⟨-, rfl⟩ | ⟨-, hr⟩
  · exact .inl (.refl h)
  refine .inl (commitWrites_spec h hL ?_ hr)
  have hroom := (withinLimit_spec (by simpa using hlimit)).2
  refine ⟨ha.node_lt, ha.nodup, ha.ids, ha.green, fun hrep => ⟨ha.new ?_, ?_⟩,
    fun hrep => ha.kept ?_, fun hrep hrefresh => ha.current ?_ ?_, fun hrefresh => ?_,
    ⟨fun hi => ?_, fun hi => ?_, fun hi => ?_, fun hi => ?_⟩, ha.result⟩
  · simpa using hrep
  · dsimp only at hrep
    rw [hrep, if_pos rfl] at hedges
    rw [← ha.unique, ← ha.old_count, hedges]
    exact hroom
  · simpa using hrep
  · simpa using hrep
  · have hequal : check.equal = true := by simpa using hrep
    simpa [hequal, ha.all_green] using hrefresh
  · dsimp only at hrefresh ⊢
    rw [Bool.and_eq_true, Bool.and_eq_true] at hrefresh
    rw [hrefresh.1.1]
    rfl
  · dsimp only at hi ⊢
    obtain ⟨hcommitted, hlen, hspan⟩ := unchanged_spec (hinput.trans hi)
    rw [hi] at hinputStart
    exact ⟨hcommitted, hinputStart.symm, hlen, hspan⟩
  · dsimp only at hi ⊢
    rw [hi, if_pos rfl] at hinputStart
    exact hinputStart.symm
  · dsimp only at hi ⊢
    obtain ⟨hcommitted, hlen, hspan⟩ := unchanged_spec (hresult.trans hi)
    rw [hi] at hresultStart
    exact ⟨hcommitted, hresultStart.symm, hlen, hspan⟩
  · dsimp only at hi ⊢
    rw [hi, if_pos rfl, ← hinputBytes] at hresultStart
    rw [← hresultStart]
    simp only [beq_iff_eq]

/-- A commit whose result is one `R` allows for the committed results of its
dependencies keeps the invariant, wherever it stops. -/
theorem commit_spec (h : Sound R s) {handle : QueryHandle} {handles : List QueryHandle}
    {input result : Bytes}
    (hresult : ifqQueryHandleIsValid s handle = true →
      (∀ dependency ∈ handles, ifqQueryHandleIsValid s dependency = true ∧
        (s.node dependency.node).hasCommittedValue = true) →
      R (s.node handle.node).kind (s.queryKey handle.node) input (s.committedResults handles)
        result)
    {r : QuerySession × Bool} (hr : ifqQueryCommit s handle input handles result = r) :
    SettlesOrClears R s r.1 := by
  obtain ⟨out, inc, hL⟩ := h.linked
  unfold ifqQueryCommit at hr
  rcases ite_eq_iff.mp hr with ⟨-, rfl⟩ | ⟨-, hr⟩
  · exact .inl (.refl h)
  rcases ite_eq_iff.mp hr with ⟨-, rfl⟩ | ⟨-, hr⟩
  · exact .inl (.refl h)
  rcases ite_eq_iff.mp hr with ⟨-, rfl⟩ | ⟨hvalid, hr⟩
  · exact .inl (.refl h)
  rw [Bool.not_eq_true, Bool.not_eq_false'] at hvalid
  have hq : handle.node < s.queryNodes.length := node_lt_of_handle hvalid
  obtain ⟨hsame, hchecked⟩ := dependenciesCheck_spec hL hq handles
  dsimp only at hr
  generalize ifqQueryDependenciesCheck s handle.node handles = c at hsame hchecked hr
  obtain ⟨s', check⟩ := c
  dsimp only at hsame hchecked hr
  subst hsame
  split at hr
  next =>
    rcases ite_eq_iff.mp hr with ⟨-, rfl⟩ | ⟨-, hr⟩
    · exact .inl (.poison h)
    subst hr
    exact .inl (.mark h _ nofun)
  rename_i hok
  rw [Bool.not_eq_true, Bool.not_eq_false'] at hok
  have hcheck := hchecked hok
  have hres := hresult hvalid fun dependency hd => by
    refine ⟨hcheck.handles_valid dependency hd, ?_⟩
    exact (hcheck.committed _ ((hcheck.mem _).mpr ⟨dependency, hd, rfl⟩)).2.2.1
  rcases ite_eq_iff.mp hr with ⟨-, rfl⟩ | ⟨hgreen, hr⟩
  · exact .inl (.mark h _ nofun)
  rw [Bool.not_eq_true, Bool.not_eq_false'] at hgreen
  have hrefused : ∀ f, (if !check.equal then
        ifqRefuseCycle handle.node check.dependencyIds s' else (s', none)) = f →
      SettlesOrClears R s' f.1 ∧ (f.2 = none → Marked s' f.1 ∧ SameStatus s' f.1 ∧
        (check.equal = false →
          ∀ d ∈ check.dependencyIds, ¬ ReflTransGen (DependsOn s') d handle.node)) := by
    intro f hf
    cases hequal : check.equal with
    | true =>
      rw [hequal] at hf
      subst hf
      exact ⟨.inl (.refl h), fun _ => ⟨.refl s', fun _ => rfl, nofun⟩⟩
    | false =>
      rw [hequal] at hf
      obtain ⟨hsettles, hnone⟩ := refuseCycle_spec h check.dependencyIds s' (.refl s')
        (fun _ => rfl) f hf
      exact ⟨hsettles, fun hn => ⟨(hnone hn).1, (hnone hn).2.1, fun _ => (hnone hn).2.2⟩⟩
  generalize (if !check.equal then
    ifqRefuseCycle handle.node check.dependencyIds s' else (s', none)) = f at hrefused hr
  obtain ⟨hsettles, hnone⟩ := hrefused f rfl
  obtain ⟨w, answer⟩ := f
  dsimp only at hsettles hnone hr
  cases answer with
  | some answer =>
    subst hr
    exact hsettles
  | none =>
    obtain ⟨hm, hs, hcycle⟩ := hnone rfl
    have hw : Settles R s' w := .of_marked hm (h.beside hm hs)
    dsimp only at hr
    rcases ite_eq_iff.mp hr with ⟨-, rfl⟩ | ⟨-, hr⟩
    · exact .trans hw (.inl (.poison hw.sound))
    refine .trans hw (commitAdmitted_spec hw.sound
      (hm.links.linked hm.values.length hL) ?_ hr)
    exact (hcheck.admissible hL hq hgreen hcycle hres).congr hm.values hm.links hs

end Elisa.Semantic
