import Elisa.Lib.Worklist
import Elisa.Semantic.QueryLinks

/-!
# The walks of the query graph

A walk changes the worklist, the stamps and the counters, and nothing that the graph means
(`SameValues`, `SameLinks`).  The reverse walk that runs to its end has collected exactly the nodes
above its root (`markRounds_spec`), so a mark takes the green status from these nodes only
(`markReverseClosure_spec`).  The forward walk that runs to its end without meeting its target
proves that the target is not below its start (`queryWalkPath_spec`).
-/

namespace Elisa.Semantic

open QuerySession LinkedList Worklist Relation List

/-! ## Frames -/

/-- A node without its status, links and stamp. -/
def QueryNode.core (node : QueryNode) : QueryNode :=
  { node with
    status := .dirty
    firstDependency := 0
    firstDepender := 0
    incomingEdgeCount := 0
    incomingChainGeneration := 0
    incomingChainValidatedGeneration := 0
    lastInvalidationGeneration := 0 }

/-- What decides which handles a session accepts, other than its poison. -/
def QuerySession.context (s : QuerySession) : Nat × Bool × Bool × Bool × Nat × Nat × Nat :=
  (s.cookie, s.enabled, s.queryGraphEnabled, s.valid, s.queryGraphGeneration,
    s.queryRequestGeneration, s.queryContextGeneration)

structure SameValues (s t : QuerySession) : Prop where
  context : t.context = s.context
  keyBytes : t.queryKeyBytes = s.queryKeyBytes
  valueBytes : t.queryValueBytes = s.queryValueBytes
  length : t.queryNodes.length = s.queryNodes.length
  core : ∀ i, (t.node i).core = (s.node i).core

structure SameLinks (s t : QuerySession) : Prop where
  edges : t.queryEdges = s.queryEdges
  free : t.freeQueryEdges = s.freeQueryEdges
  links : ∀ i, (t.node i).links = (s.node i).links
  heads : ∀ i, t.heads i = s.heads i

def SameStatus (s t : QuerySession) : Prop := ∀ i, (t.node i).status = (s.node i).status

variable {s t u : QuerySession}

theorem SameValues.refl (s : QuerySession) : SameValues s s := ⟨rfl, rfl, rfl, rfl, fun _ => rfl⟩

theorem SameValues.trans (h : SameValues s t) (h' : SameValues t u) : SameValues s u :=
  ⟨h'.context.trans h.context, h'.keyBytes.trans h.keyBytes, h'.valueBytes.trans h.valueBytes,
    h'.length.trans h.length, fun i => (h'.core i).trans (h.core i)⟩

theorem SameValues.field {β : Type} (h : SameValues s t) (π : QueryNode → β)
    (hπ : ∀ node, π node.core = π node) (i : Nat) : π (t.node i) = π (s.node i) := by
  rw [← hπ (t.node i), h.core i, hπ]

theorem SameLinks.refl (s : QuerySession) : SameLinks s s :=
  ⟨rfl, rfl, fun _ => rfl, fun _ => rfl⟩

theorem SameLinks.trans (h : SameLinks s t) (h' : SameLinks t u) : SameLinks s u :=
  ⟨h'.edges.trans h.edges, h'.free.trans h.free, fun i => (h'.links i).trans (h.links i),
    fun i => (h'.heads i).trans (h.heads i)⟩

theorem SameLinks.edge (h : SameLinks s t) (e : Nat) : t.edge e = s.edge e := by
  simp [QuerySession.edge, h.edges]

variable {out inc : Nat → List Nat}

theorem SameLinks.linked (h : SameLinks s t) (hl : t.queryNodes.length = s.queryNodes.length)
    (hs : Linked s s.heads out inc) : Linked t t.heads out inc := by
  rw [funext h.heads]
  exact hs.frame h.edges h.free hl h.links

/-! ## Dependencies -/

def Depends (s : QuerySession) (n d g : Nat) : Prop :=
  n < s.queryNodes.length ∧ ∃ e < s.queryEdges.length, (s.edge e).depender = n ∧
    (s.edge e).dependee = d ∧ (s.edge e).observedResultGeneration = g

def DependsOn (s : QuerySession) (n d : Nat) : Prop := ∃ g, Depends s n d g

theorem SameLinks.depends (h : SameLinks s t) (hl : t.queryNodes.length = s.queryNodes.length) :
    Depends t = Depends s := by
  funext n d g
  simp only [Depends, h.edges, h.edge, hl]

theorem SameLinks.dependsOn (h : SameLinks s t)
    (hl : t.queryNodes.length = s.queryNodes.length) : DependsOn t = DependsOn s := by
  funext n d
  simp only [DependsOn, h.depends hl]

theorem Depends.lt {head : Nat → Nat} {n d g : Nat} (h : Depends s n d g)
    (hL : Linked s head out inc) : d < s.queryNodes.length := by
  obtain ⟨hn, e, he, hdep, rfl, -⟩ := h
  exact (hL.live he (by rw [hdep]; exact hL.ne_none_of_node hn)).2.1

/-! ## Writes that keep the frames -/

variable {i : Nat}

theorem sameValues_modifyNode {f : QueryNode → QueryNode} (h : ∀ node, (f node).core = node.core) :
    SameValues s (s.modifyNode i f) :=
  ⟨rfl, rfl, rfl, by simp, fun _ => node_modifyNode_field _ h⟩

theorem sameLinks_modifyNode {f : QueryNode → QueryNode} (h : ∀ node, (f node).links = node.links)
    (h' : ∀ node, (f node).firstDependency = node.firstDependency) :
    SameLinks s (s.modifyNode i f) :=
  ⟨rfl, rfl, fun _ => node_modifyNode_field _ h, fun _ => node_modifyNode_field _ h'⟩

theorem countMark_eq (get : ReverseMarkMetrics → Nat)
    (put : ReverseMarkMetrics → Nat → ReverseMarkMetrics) :
    ∃ marks, s.countMark get put = { s with reverseMarks := marks } := by
  unfold countMark
  split
  · exact ⟨_, rfl⟩
  · exact ⟨s.reverseMarks, rfl⟩

/-! ## One walk -/

/-- No stamp is newer than the last walk. -/
def Stamped (s : QuerySession) : Prop :=
  ∀ i < s.queryNodes.length, (s.node i).lastInvalidationGeneration ≤ s.queryInvalidationGeneration

/-- A walk over the graph of `s₀` that has visited the nodes of a list: these and
no others carry its stamp. -/
structure Walking (s₀ s : QuerySession) (visited : List Nat) : Prop where
  values : SameValues s₀ s
  links : SameLinks s₀ s
  status : SameStatus s₀ s
  poisoned : s.queryGraphPoisoned = s₀.queryGraphPoisoned
  worklist : s.queryInvalidationWorklist = visited
  bound : ∀ i ∈ visited, i < s₀.queryNodes.length
  length_le : visited.length ≤ s₀.queryNodes.length
  stamps : Stamped s
  stamp_iff : ∀ i < s₀.queryNodes.length,
    (s.node i).lastInvalidationGeneration = s.queryInvalidationGeneration ↔ i ∈ visited

theorem node_map_reset (f : QueryNode → QueryNode) (i : Nat) :
    QuerySession.node { s with queryNodes := s.queryNodes.map f } i =
      if i < s.queryNodes.length then f (s.node i) else s.node i := by
  unfold node
  by_cases hi : i < s.queryNodes.length
  · simp [hi]
  · simp [hi]

theorem Walking.start (hw : s.queryInvalidationWorklist = []) (hs : Stamped s) :
    Walking s (ifqNextWalk s) [] := by
  unfold ifqNextWalk
  by_cases hmax : s.queryInvalidationGeneration = generationMax
  · simp only [hmax, beq_self_eq_true, if_true]
    have hnode : ∀ i, QuerySession.node { s with
        queryNodes := s.queryNodes.map fun node => { node with lastInvalidationGeneration := 0 }
        queryInvalidationGeneration := 0 + 1 } i =
          if i < s.queryNodes.length then { s.node i with lastInvalidationGeneration := 0 }
          else s.node i := fun i => node_map_reset _ i
    refine ⟨⟨rfl, rfl, rfl, by simp, fun i => ?_⟩, ⟨rfl, rfl, fun i => ?_, fun i => ?_⟩,
      fun i => ?_, rfl, hw, by simp, by simp, fun i hi => ?_, fun i hi => ?_⟩
    · rw [hnode]
      split <;> rfl
    · rw [hnode]
      split <;> rfl
    · simp only [heads]
      rw [hnode]
      split <;> rfl
    · rw [hnode]
      split <;> rfl
    · rw [length_map] at hi
      rw [hnode, if_pos hi]
      exact Nat.zero_le _
    · rw [hnode, if_pos hi]
      simp
  · simp only [beq_iff_eq, hmax, if_false]
    refine ⟨⟨rfl, rfl, rfl, rfl, fun _ => rfl⟩, ⟨rfl, rfl, fun _ => rfl, fun _ => rfl⟩,
      fun _ => rfl, rfl, hw, by simp, by simp, fun i hi => ?_, fun i hi => ?_⟩
    · exact Nat.le_succ_of_le (hs i hi)
    · have := hs i hi
      simp only [not_mem_nil, iff_false]
      show (s.node i).lastInvalidationGeneration ≠ s.queryInvalidationGeneration + 1
      omega

variable {q : Nat}

theorem worklistPush_eq (h : ifqInvalidationWorklistPush s q = some t) :
    s.queryInvalidationWorklist.length < s.queryNodes.length ∧
      ∃ capacity, t = { s with
        worklistCapacity := capacity
        queryInvalidationWorklist := s.queryInvalidationWorklist ++ [q] } := by
  unfold ifqInvalidationWorklistPush at h
  obtain ⟨hlt, h⟩ := Option.ite_none_left_eq_some.mp h
  refine ⟨by omega, ?_⟩
  split at h
  next =>
    dsimp only at h
    obtain ⟨-, h⟩ := Option.ite_none_left_eq_some.mp h
    obtain ⟨-, h⟩ := Option.ite_none_left_eq_some.mp h
    obtain ⟨-, h⟩ := Option.ite_none_left_eq_some.mp h
    exact ⟨_, (Option.some.inj h).symm⟩
  next => exact ⟨s.worklistCapacity, (Option.some.inj h).symm⟩

variable {s₀ : QuerySession} {visited : List Nat}

theorem Walking.push (h : Walking s₀ s visited) (hq : q < s₀.queryNodes.length)
    (hp : ifqWalkPush s q = some t) : Walking s₀ t (visited ++ [q]) := by
  unfold ifqWalkPush at hp
  obtain ⟨p, hpush, rfl⟩ := Option.map_eq_some_iff.mp hp
  obtain ⟨hroom, capacity, hpe⟩ := worklistPush_eq hpush
  have hqs : q < p.queryNodes.length := by
    rw [hpe]
    exact h.values.length ▸ hq
  have hnode : ∀ i, p.node i = s.node i := fun i => by rw [hpe]; rfl
  have hgen : p.queryInvalidationGeneration = s.queryInvalidationGeneration := by rw [hpe]
  have hvalues : SameValues s₀ p := by
    rw [hpe]
    exact h.values.trans ⟨rfl, rfl, rfl, rfl, fun _ => rfl⟩
  have hlinks : SameLinks s₀ p := by
    rw [hpe]
    exact h.links.trans ⟨rfl, rfl, fun _ => rfl, fun _ => rfl⟩
  rw [h.worklist, h.values.length] at hroom
  refine ⟨hvalues.trans (sameValues_modifyNode fun _ => rfl),
    hlinks.trans (sameLinks_modifyNode (fun _ => rfl) fun _ => rfl),
    fun i => ?_, ?_, ?_, ?_, ?_, ?_, ?_⟩
  · refine (node_modifyNode_field QueryNode.status ?_).trans ?_
    · exact fun _ => rfl
    · rw [hnode]
      exact h.status i
  · rw [← h.poisoned, hpe]
    rfl
  · rw [← h.worklist, hpe]
    rfl
  · intro i hi
    rcases mem_append.mp hi with hi | hi
    · exact h.bound i hi
    · rw [mem_singleton.mp hi]
      exact hq
  · rw [length_append, length_singleton]
    exact hroom
  · intro i hi
    rw [length_modifyNode] at hi
    rw [node_modifyNode]
    split
    · exact Nat.le_refl _
    · rw [hnode]
      exact hgen ▸ h.stamps i (by rw [h.values.length, ← hvalues.length]; exact hi)
  · intro i hi
    rw [node_modifyNode]
    by_cases hiq : q = i
    · subst hiq
      rw [if_pos ⟨rfl, hqs⟩]
      simp [modifyNode]
    rw [if_neg fun hc => hiq hc.1, hnode]
    show _ = p.queryInvalidationGeneration ↔ _
    rw [hgen]
    have hiq' : i ≠ q := fun he => hiq he.symm
    simp only [mem_append, mem_singleton, hiq', or_false]
    exact h.stamp_iff i hi

/-- A visit leaves the node on the list, and adds no other. -/
theorem Walking.visit (h : Walking s₀ s visited) (hq : q < s₀.queryNodes.length)
    (hp : ifqWalkVisit s q = some t) :
    ∃ added, Walking s₀ t (visited ++ added) ∧ q ∈ visited ++ added ∧ ∀ x ∈ added, x = q := by
  unfold ifqWalkVisit at hp
  split at hp
  next => exact ⟨[q], h.push hq hp, by simp, by simp⟩
  rename_i hstamp
  cases hp
  rw [bne_iff_ne, not_not] at hstamp
  refine ⟨[], by simpa using h, ?_, nofun⟩
  rw [append_nil]
  exact (h.stamp_iff q hq).mp hstamp

theorem Walking.rebase (h : Walking t s visited) (hv : SameValues s₀ t) (hl : SameLinks s₀ t)
    (hs : SameStatus s₀ t) (hp : t.queryGraphPoisoned = s₀.queryGraphPoisoned) :
    Walking s₀ s visited where
  values := hv.trans h.values
  links := hl.trans h.links
  status := fun i => (h.status i).trans (hs i)
  poisoned := h.poisoned.trans hp
  worklist := h.worklist
  bound := hv.length ▸ h.bound
  length_le := hv.length ▸ h.length_le
  stamps := h.stamps
  stamp_iff := hv.length ▸ h.stamp_iff

theorem Walking.countMark (h : Walking s₀ s visited) (get : ReverseMarkMetrics → Nat)
    (put : ReverseMarkMetrics → Nat → ReverseMarkMetrics) :
    Walking s₀ (s.countMark get put) visited := by
  obtain ⟨marks, hm⟩ := countMark_eq (s := s) get put
  rw [hm]
  exact ⟨h.values.trans ⟨rfl, rfl, rfl, rfl, fun _ => rfl⟩,
    h.links.trans ⟨rfl, rfl, fun _ => rfl, fun _ => rfl⟩, h.status, h.poisoned, h.worklist,
    h.bound, h.length_le, h.stamps, h.stamp_iff⟩

/-! ## Walks along edges -/

/-- Along some edges a walk has visited more nodes, all of one kind, and if it went through, the
nodes that the edges lead to are among those visited. -/
def Gathers (s₀ t : QuerySession) (visited : List Nat) (P : Nat → Prop) (pick : Nat → Nat)
    (through : Prop) (edges : List Nat) : Prop :=
  ∃ added, Walking s₀ t (visited ++ added) ∧ (∀ x ∈ added, P x) ∧
    (through → ∀ e ∈ edges, pick e ∈ visited ++ added)

section Gathers

variable {P : Nat → Prop} {pick : Nat → Nat} {through : Prop} {edges : List Nat} {e : Nat}

theorem Gathers.nil (h : Walking s₀ s visited) : Gathers s₀ s visited P pick through [] :=
  ⟨[], by rwa [append_nil], nofun, nofun⟩

theorem Gathers.stop (h : Walking s₀ s visited) (hstop : ¬ through) :
    Gathers s₀ s visited P pick through edges :=
  ⟨[], by rwa [append_nil], nofun, fun hc => absurd hc hstop⟩

/-- A walk that visits what its first edge leads to goes on behind that. -/
theorem Gathers.visit (h : Walking s₀ s visited) (hq : pick e < s₀.queryNodes.length)
    (hv : ifqWalkVisit s (pick e) = some u) (hP : P (pick e))
    (hrest : ∀ seen, Walking s₀ u seen → Gathers s₀ t seen P pick through edges) :
    Gathers s₀ t visited P pick through (e :: edges) := by
  obtain ⟨added, hwalk, hmem, honly⟩ := h.visit hq hv
  obtain ⟨more, hwalk', hmore, hall⟩ := hrest _ hwalk
  rw [append_assoc] at hwalk'
  refine ⟨added ++ more, hwalk', fun x hx => ?_, fun hthrough e' he => ?_⟩
  · rcases mem_append.mp hx with hx | hx
    · rw [honly x hx]
      exact hP
    · exact hmore x hx
  · rw [← append_assoc]
    rcases mem_cons.mp he with rfl | he
    · exact mem_append_left _ hmem
    · exact hall hthrough e' he

end Gathers

/-! ## The reverse walk -/

section Reverse

variable {head : Nat → Nat}

/-- The walk along the edges into a node visits their dependers.  The induction
is on the edges that are left; a check that fails stops with a walk all the same. -/
theorem markDependers_spec (hL : Linked s₀ head out inc) {current : Nat}
    (hcurrent : current < s₀.queryNodes.length) :
    ∀ (l : List Nat) (remaining : Nat) (s : QuerySession) (cursor steps : Nat) (visited : List Nat),
      Walking s₀ s visited →
      Chain queryNone (fun e => (s₀.edge e).nextDepender) cursor l →
      (∀ e ∈ l, e < s₀.queryEdges.length ∧ (s₀.edge e).dependee = current) →
      Gathers s₀ (ifqMarkDependers current remaining s cursor steps).1 visited
        (fun x => DependsOn s₀ x current) (fun e => (s₀.edge e).depender)
        ((ifqMarkDependers current remaining s cursor steps).2.2.valid = true ∧
          (ifqMarkDependers current remaining s cursor steps).2.2.budgetOk = true) l := by
  intro l
  induction l with
  | nil =>
    intro remaining s cursor steps visited hw hc _
    rw [chain_nil] at hc
    rw [ifqMarkDependers, if_pos hc]
    exact .nil hw
  | cons e l ih =>
    intro remaining s cursor steps visited hw hc hl
    obtain ⟨rfl, hne, hrest⟩ := hc
    obtain ⟨he, hdependee⟩ := hl cursor mem_cons_self
    have hcount : Walking s₀ s.countEdgeVisited visited := hw.countMark _ _
    have hedge : s.countEdgeVisited.edge cursor = s₀.edge cursor := hcount.links.edge cursor
    have hdep := hL.depender_ne_none he (by rw [hdependee]; exact hcurrent)
    have hlt := (hL.live he hdep).1
    rw [ifqMarkDependers, if_neg hne]
    dsimp only
    rw [hedge]
    split
    next => exact .stop hcount nofun
    split
    next => exact .stop hcount nofun
    split
    next => exact .stop hcount nofun
    split
    next => exact .stop hcount nofun
    rename_i v hv
    refine Gathers.visit hcount hlt hv ⟨_, hlt, cursor, he, rfl, hdependee, rfl⟩
      fun seen hseen => ?_
    cases remaining with
    | zero => exact .stop hseen nofun
    | succ remaining =>
      exact ih remaining v _ (steps + 1) _ hseen hrest fun e he => hl e (mem_cons_of_mem _ he)

/-- The node a reverse walk goes to next. -/
def IsRead (s : QuerySession) (d n : Nat) : Prop := DependsOn s n d

theorem markRounds_spec (hL : Linked s₀ s₀.heads out inc) {root : Nat} :
    ∀ (rounds : Nat) (s : QuerySession) (k : Nat) (visited : List Nat),
      Walking s₀ s visited → Explored (IsRead s₀) root visited k →
      s₀.queryNodes.length ≤ rounds + k →
      ∃ visited', Walking s₀ (ifqMarkRounds rounds s k).1 visited' ∧
        ((ifqMarkRounds rounds s k).2.valid = true → (ifqMarkRounds rounds s k).2.budgetOk = true →
          ∀ x, x ∈ visited' ↔ ReflTransGen (IsRead s₀) root x) := by
  intro rounds
  induction rounds with
  | zero =>
    intro s k visited hw hex hk
    refine ⟨visited, hw, fun _ _ x => hex.mem_iff ?_⟩
    exact Nat.le_trans hw.length_le (by omega)
  | succ rounds ih =>
    intro s k visited hw hex hk
    rw [ifqMarkRounds, hw.worklist]
    cases hat : visited[k]? with
    | none =>
      exact ⟨visited, hw, fun _ _ x => hex.mem_iff (List.getElem?_eq_none_iff.mp hat)⟩
    | some current =>
      have hcurrent := hw.bound current (mem_of_getElem? hat)
      have hcount : Walking s₀ s.countNodeVisited visited := hw.countMark _ _
      have hfirst : (s.countNodeVisited.node current).firstDepender =
          (s₀.node current).firstDepender := congrArg Prod.fst (hcount.links.links current)
      obtain ⟨added, hwalk, hadded, hall⟩ := markDependers_spec hL hcurrent (inc current)
        s.countNodeVisited.queryEdges.length s.countNodeVisited _ 0 visited hcount
        (hfirst ▸ (hL.inc_chain current hcurrent).chain)
        fun e he => (hL.inc_mem current hcurrent e).mp he
      dsimp only
      generalize ifqMarkDependers current _ _ _ 0 = r at hwalk hall ⊢
      obtain ⟨v, steps, walk⟩ := r
      dsimp only at hwalk hall ⊢
      -- a wrong count of edges only ever breaks the walk
      generalize hcounted : (if (walk.valid && steps != _) = true then
        { walk with valid := false } else walk) = counted
      split
      next hbad =>
        refine ⟨_, hwalk, fun hvalid hbudget => ?_⟩
        dsimp only at hvalid hbudget
        simp [hvalid, hbudget] at hbad
      rename_i hgood
      have hok : counted.valid = true ∧ counted.budgetOk = true := by simpa using hgood
      have hsame : walk = counted := by
        rw [← hcounted] at hok ⊢
        split
        next hc =>
          rw [if_pos hc] at hok
          cases hok.1
        next => rfl
      rw [← hsame] at hok
      have hall' := hall hok
      refine ih v (k + 1) _ hwalk (hex.round hat hadded fun y hy => ?_) (by omega)
      obtain ⟨g, -, e, he, hdep, hdependee, -⟩ := hy
      rw [← hdep]
      exact hall' e ((hL.inc_mem current hcurrent e).mpr ⟨he, hdependee⟩)

end Reverse

/-! ## The marks -/

/-- A session after marks: values, links and stamps are the same, and a node lost
the green status or kept the status it had. -/
structure Marked (s t : QuerySession) : Prop where
  values : SameValues s t
  links : SameLinks s t
  stamps : Stamped s → Stamped t
  status : ∀ i, (t.node i).status = (s.node i).status ∨ (t.node i).status ≠ .green
  poisoned : s.queryGraphPoisoned = true → t.queryGraphPoisoned = true

theorem Marked.refl (s : QuerySession) : Marked s s :=
  ⟨.refl s, .refl s, id, fun _ => .inl rfl, id⟩

theorem Marked.trans (h : Marked s t) (h' : Marked t u) : Marked s u where
  values := h.values.trans h'.values
  links := h.links.trans h'.links
  stamps := fun hs => h'.stamps (h.stamps hs)
  status := fun i => by
    rcases h'.status i with he | hne
    · rw [he]
      exact h.status i
    · exact .inr hne
  poisoned := fun hp => h'.poisoned (h.poisoned hp)

theorem marked_modifyNode {status : QueryStatus} (hs : status ≠ .green) :
    Marked s (s.modifyNode i fun node => { node with status := status }) where
  values := sameValues_modifyNode fun _ => rfl
  links := sameLinks_modifyNode (fun _ => rfl) fun _ => rfl
  stamps := by
    intro h j hj
    rw [length_modifyNode] at hj
    rw [node_modifyNode_field QueryNode.lastInvalidationGeneration (by intro; rfl)]
    exact h j hj
  status := by
    intro j
    rw [node_modifyNode]
    split
    · exact .inr hs
    · exact .inl rfl
  poisoned := id

theorem node_countMark (get : ReverseMarkMetrics → Nat)
    (put : ReverseMarkMetrics → Nat → ReverseMarkMetrics) (i : Nat) :
    (s.countMark get put).node i = s.node i := by
  obtain ⟨marks, hm⟩ := countMark_eq (s := s) get put
  rw [hm]
  rfl

theorem marked_countMark (get : ReverseMarkMetrics → Nat)
    (put : ReverseMarkMetrics → Nat → ReverseMarkMetrics) : Marked s (s.countMark get put) := by
  obtain ⟨marks, hm⟩ := countMark_eq (s := s) get put
  rw [hm]
  exact ⟨⟨rfl, rfl, rfl, rfl, fun _ => rfl⟩, ⟨rfl, rfl, fun _ => rfl, fun _ => rfl⟩, id,
    fun _ => .inl rfl, id⟩

variable {root : Nat} {rootStatus : QueryStatus}

theorem markStatus_marked (hr : rootStatus ≠ .green) (q : Nat) :
    Marked s (ifqMarkStatus root rootStatus s q) := by
  unfold ifqMarkStatus
  split
  · split
    · exact marked_modifyNode hr
    · exact .refl s
  · split
    · exact marked_modifyNode nofun
    · exact .refl s

theorem markStatus_self (hr : rootStatus ≠ .green) (hq : q < s.queryNodes.length) :
    ((ifqMarkStatus root rootStatus s q).node q).status ≠ .green := by
  unfold ifqMarkStatus
  split
  next =>
    split
    next =>
      rw [node_modifyNode_self _ hq]
      exact hr
    rename_i hd
    have hdirty : (s.node q).status = .dirty := by
      cases hst : (s.node q).status <;> simp_all
    rw [hdirty]
    nofun
  split
  next =>
    rw [node_modifyNode_self _ hq]
    nofun
  rename_i hd
  have hdirty : (s.node q).status = .dirty := by simpa using hd
  rw [hdirty]
  nofun

theorem markStatus_other (hqi : q ≠ i) : (ifqMarkStatus root rootStatus s q).node i = s.node i := by
  unfold ifqMarkStatus
  split
  · split
    · exact node_modifyNode_ne _ hqi
    · rfl
  · split
    · exact node_modifyNode_ne _ hqi
    · rfl

theorem markStatuses_spec (root : Nat) {rootStatus : QueryStatus} (hr : rootStatus ≠ .green) :
    ∀ (l : List Nat) (s : QuerySession), (∀ i ∈ l, i < s.queryNodes.length) →
      Marked s (l.foldl (ifqMarkStatus root rootStatus) s) ∧
      (∀ i ∈ l, ((l.foldl (ifqMarkStatus root rootStatus) s).node i).status ≠ .green) ∧
      ∀ i, i ∉ l → (l.foldl (ifqMarkStatus root rootStatus) s).node i = s.node i
  | [], s, _ => ⟨.refl s, nofun, fun _ _ => rfl⟩
  | q :: l, s, hl => by
      have hstep : Marked s (ifqMarkStatus root rootStatus s q) := markStatus_marked hr q
      obtain ⟨hmarked, hin, hout⟩ := markStatuses_spec root hr l (ifqMarkStatus root rootStatus s q)
        fun i hi => by
          rw [hstep.values.length]
          exact hl i (mem_cons_of_mem _ hi)
      refine ⟨hstep.trans hmarked, fun i hi => ?_, fun i hi => ?_⟩
      · by_cases hil : i ∈ l
        · exact hin i hil
        · obtain rfl := (mem_cons.mp hi).resolve_right hil
          rw [foldl_cons, hout i hil]
          exact markStatus_self hr (hl i mem_cons_self)
      · obtain ⟨hiq, hil⟩ := not_or.mp (fun h => hi (mem_cons.mpr h))
        rw [foldl_cons, hout i hil, markStatus_other fun h => hiq h.symm]

def GreenClosed (s : QuerySession) : Prop :=
  ∀ n d, DependsOn s n d → (s.node n).status = .green → (s.node d).status = .green

/-- A session after the mark of a root: only nodes above the root lost the green
status, and green nodes still have green dependencies. -/
structure MarkedFrom (s t : QuerySession) (root : Nat) : Prop extends Marked s t where
  above : ∀ i, (t.node i).status ≠ (s.node i).status → ReflTransGen (DependsOn s) i root
  closed : GreenClosed t

/-- A walk that visited some nodes and stops, with its worklist dropped. -/
theorem Walking.dropped (h : Walking s₀ s visited) : Marked s₀ s.truncateWorklist where
  values := h.values.trans ⟨rfl, rfl, rfl, rfl, fun _ => rfl⟩
  links := h.links.trans ⟨rfl, rfl, fun _ => rfl, fun _ => rfl⟩
  stamps := fun _ => h.stamps
  status := fun i => .inl (h.status i)
  poisoned := fun hp => h.poisoned.trans hp

/-- A walk that failed leaves everything but the poison as it was. -/
theorem Walking.failed (h : Walking s₀ s visited) (hc : GreenClosed s₀) (root : Nat) :
    MarkedFrom s₀ s.truncateWorklist.poison root where
  toMarked := { h.dropped with
    values := h.dropped.values.trans ⟨rfl, rfl, rfl, rfl, fun _ => rfl⟩
    links := h.dropped.links.trans ⟨rfl, rfl, fun _ => rfl, fun _ => rfl⟩
    poisoned := fun _ => rfl }
  above := fun i hi => absurd (h.status i) hi
  closed := by
    have hdep : DependsOn s.truncateWorklist.poison = DependsOn s₀ :=
      (h.links.trans ⟨rfl, rfl, fun _ => rfl, fun _ => rfl⟩).dependsOn h.values.length
    intro n d hnd hn
    rw [hdep] at hnd
    exact (h.status d).trans (hc n d hnd ((h.status n).symm.trans hn))

theorem markFullWalk_spec (hL : Linked s s.heads out inc) (hw : s.queryInvalidationWorklist = [])
    (hs : Stamped s) (hc : GreenClosed s) (hroot : root < s.queryNodes.length)
    (hr : rootStatus ≠ .green) :
    MarkedFrom s (ifqMarkFullWalk s root rootStatus).1 root ∧
      ((ifqMarkFullWalk s root rootStatus).2 = true →
        ((ifqMarkFullWalk s root rootStatus).1.node root).status ≠ .green) := by
  have hstart : Walking s (ifqNextWalk s.countFullWalk) [] := by
    obtain ⟨marks, hm⟩ := countMark_eq (s := s) (·.fullWalks) fun m n => { m with fullWalks := n }
    have hm' : s.countFullWalk = { s with reverseMarks := marks } := hm
    have hw' : s.countFullWalk.queryInvalidationWorklist = [] := by
      rw [hm']
      exact hw
    have hs' : Stamped s.countFullWalk := by
      rw [hm']
      exact hs
    refine (Walking.start hw' hs').rebase ?_ ?_ ?_ ?_ <;> rw [hm']
    · exact ⟨rfl, rfl, rfl, rfl, fun _ => rfl⟩
    · exact ⟨rfl, rfl, fun _ => rfl, fun _ => rfl⟩
    · exact fun _ => rfl
  unfold ifqMarkFullWalk
  dsimp only
  cases hp : ifqWalkPush (ifqNextWalk s.countFullWalk) root with
  | none => exact ⟨hstart.failed hc root, nofun⟩
  | some p =>
    have hpush := hstart.push hroot hp
    obtain ⟨visited, hwalk, hfound⟩ := markRounds_spec hL p.queryNodes.length p 0 _ hpush
      (Explored.start _ root) (by rw [hpush.values.length]; omega)
    dsimp only
    generalize ifqMarkRounds p.queryNodes.length p 0 = r at hwalk hfound ⊢
    obtain ⟨v, walk⟩ := r
    dsimp only at hwalk hfound ⊢
    split
    next => exact ⟨hwalk.failed hc root, nofun⟩
    rename_i hgood
    have hok : walk.valid = true ∧ walk.budgetOk = true := by simpa using hgood
    have hiff := hfound hok.1 hok.2
    have hbound : ∀ i ∈ visited, i < v.queryNodes.length := fun i hi => by
      rw [hwalk.values.length]
      exact hwalk.bound i hi
    rw [hwalk.worklist]
    obtain ⟨hmarked, hin, hout⟩ := markStatuses_spec root hr visited v hbound
    generalize visited.foldl (ifqMarkStatus root rootStatus) v = w at hmarked hin hout ⊢
    have hvalues : SameValues s w := hwalk.values.trans hmarked.values
    have hlinks : SameLinks s w := hwalk.links.trans hmarked.links
    have hkeep : ∀ i, i ∉ visited → (w.node i).status = (s.node i).status := fun i hi => by
      rw [hout i hi]
      exact hwalk.status i
    refine ⟨⟨⟨hvalues.trans ⟨rfl, rfl, rfl, rfl, fun _ => rfl⟩,
      hlinks.trans ⟨rfl, rfl, fun _ => rfl, fun _ => rfl⟩, fun _ => hmarked.stamps hwalk.stamps,
      fun i => ?_, fun hpo => hmarked.poisoned (hwalk.poisoned.trans hpo)⟩, fun i hi => ?_,
      fun n d hnd hn => ?_⟩, fun _ => ?_⟩
    · by_cases hi : i ∈ visited
      · exact .inr (hin i hi)
      · exact .inl (hkeep i hi)
    · have hmem : i ∈ visited := not_not.mp fun hi' => hi (hkeep i hi')
      exact reflTransGen_swap.mp ((hiff i).mp hmem)
    · have hdep : DependsOn w.truncateWorklist = DependsOn s :=
        (hlinks.trans ⟨rfl, rfl, fun _ => rfl, fun _ => rfl⟩).dependsOn hvalues.length
      rw [hdep] at hnd
      have hnv : n ∉ visited := fun hm => hin n hm hn
      have hdv : d ∉ visited := fun hm => hnv ((hiff n).mpr (((hiff d).mp hm).tail hnd))
      exact (hkeep d hdv).trans (hc n d hnd ((hkeep n hnv).symm.trans hn))
    · exact hin root ((hiff root).mpr .refl)

/-- A mark keeps the values, the links and the stamps, takes the green status only from nodes above
the root, and leaves green nodes with green dependencies.  So a committed root that is not green has
no green node above it. -/
theorem markReverseClosure_spec (hL : Linked s s.heads out inc) (hs : Stamped s)
    (hc : GreenClosed s) (root : Nat) (hr : rootStatus ≠ .green) :
    MarkedFrom s (ifqMarkReverseClosure s root rootStatus).1 root ∧
      ((ifqMarkReverseClosure s root rootStatus).2 = true →
        ((ifqMarkReverseClosure s root rootStatus).1.node root).status ≠ .green) := by
  have htrunc : Marked s s.truncateWorklist :=
    ⟨⟨rfl, rfl, rfl, rfl, fun _ => rfl⟩, ⟨rfl, rfl, fun _ => rfl, fun _ => rfl⟩, id,
      fun _ => .inl rfl, id⟩
  unfold ifqMarkReverseClosure
  split
  next =>
    refine ⟨⟨⟨⟨rfl, rfl, rfl, rfl, fun _ => rfl⟩, ⟨rfl, rfl, fun _ => rfl, fun _ => rfl⟩, id,
      fun _ => .inl rfl, fun _ => rfl⟩, fun i hi => absurd rfl hi, hc⟩,
      Bool.noConfusion⟩
  rename_i hvalid
  have hroot : root < s.queryNodes.length := by
    simp only [ifqQueryIdIsValid, Bool.not_eq_true', Bool.not_eq_false, Bool.and_eq_true,
      decide_eq_true_eq] at hvalid
    exact hvalid.2
  dsimp only
  split
  next hfast =>
    simp only [Bool.and_eq_true, Bool.or_eq_true, beq_iff_eq] at hfast
    have hnon : (s.node root).status ≠ .green := by
      have hst : (s.truncateWorklist.node root).status = _ ∨ _ := hfast.1.1.1.2
      show (s.truncateWorklist.node root).status ≠ .green
      rcases hst with h | h <;> rw [h] <;> exact QueryStatus.noConfusion
    -- a green depender of the root would have a dependency that is not green
    have hfinish : ∀ v : QuerySession, Marked s v → (v.node root).status ≠ .green →
        (∀ i, i ≠ root → (v.node i).status = (s.node i).status) → MarkedFrom s v root := by
      intro v hv hvr hother
      refine ⟨hv, fun i hi => ?_, fun n d hnd hn => ?_⟩
      · rw [show i = root from not_not.mp fun hne => hi (hother i hne)]
      · rw [hv.links.dependsOn hv.values.length] at hnd
        have hnr : n ≠ root := fun he => hvr (he ▸ hn)
        have hd := hc n d hnd ((hother n hnr).symm.trans hn)
        exact (hother d fun he => hnon (he ▸ hd)).trans hd
    dsimp only
    split
    · have hmark : Marked s (s.truncateWorklist.modifyNode root fun node =>
          { node with status := .dirty }) := htrunc.trans
            (marked_modifyNode QueryStatus.noConfusion)
      have hnode : ∀ i, i ≠ root → ((s.truncateWorklist.modifyNode root fun node =>
          { node with status := .dirty }).node i).status = (s.node i).status := fun i hi => by
        rw [node_modifyNode_ne _ fun he => hi he.symm]
        rfl
      have hdirty : ((s.truncateWorklist.modifyNode root fun node =>
          { node with status := .dirty }).node root).status ≠ .green := by
        rw [node_modifyNode_self (s := s.truncateWorklist) _ hroot]
        exact QueryStatus.noConfusion
      refine ⟨hfinish _ (hmark.trans (marked_countMark _ _)) ?_ fun i hi => ?_, fun _ => ?_⟩ <;>
        unfold countFastSkip <;> rw [node_countMark]
      · exact hdirty
      · exact hnode i hi
      · exact hdirty
    · refine ⟨hfinish _ (htrunc.trans (marked_countMark _ _)) ?_ fun i hi => ?_, fun _ => ?_⟩ <;>
        unfold countFastSkip <;> rw [node_countMark]
      · exact hnon
      · rfl
      · exact hnon
  obtain ⟨hm, hst⟩ := markFullWalk_spec (s := s.truncateWorklist)
    (htrunc.links.linked rfl hL) rfl hs hc hroot hr
  exact ⟨⟨htrunc.trans hm.toMarked, hm.above, hm.closed⟩, hst⟩

/-! ## The forward walk -/

section Forward

theorem walkDependencies_spec {head : Nat → Nat} (hL : Linked s₀ head out inc)
    {current target : Nat} (hcurrent : current < s₀.queryNodes.length) :
    ∀ (l : List Nat) (remaining : Nat) (s : QuerySession) (cursor : Nat) (visited : List Nat),
      Walking s₀ s visited →
      Chain queryNone (fun e => (s₀.edge e).nextDependency) cursor l →
      (∀ e ∈ l, e < s₀.queryEdges.length ∧ (s₀.edge e).depender = current) →
      Gathers s₀ (ifqWalkDependencies current target remaining s cursor).1 visited
        (fun x => DependsOn s₀ current x ∧ x ≠ target) (fun e => (s₀.edge e).dependee)
        ((ifqWalkDependencies current target remaining s cursor).2 = .complete) l := by
  intro l
  induction l with
  | nil =>
    intro remaining s cursor visited hw hc _
    rw [chain_nil] at hc
    rw [ifqWalkDependencies, if_pos hc]
    exact .nil hw
  | cons e l ih =>
    intro remaining s cursor visited hw hc hl
    obtain ⟨rfl, hne, hrest⟩ := hc
    obtain ⟨he, hdepender⟩ := hl cursor mem_cons_self
    have hedge : s.edge cursor = s₀.edge cursor := hw.links.edge cursor
    have hlt := (hL.live he (by rw [hdepender]; exact hL.ne_none_of_node hcurrent)).2.1
    rw [ifqWalkDependencies, if_neg hne]
    dsimp only
    rw [hedge]
    split
    next => exact .stop hw nofun
    split
    next => exact .stop hw nofun
    split
    next => exact .stop hw nofun
    rename_i htarget
    split
    next => exact .stop hw nofun
    rename_i v hv
    refine Gathers.visit hw hlt hv
      ⟨⟨_, hcurrent, cursor, he, hdepender, rfl, rfl⟩, by simpa using htarget⟩ fun seen hseen => ?_
    cases remaining with
    | zero => exact .stop hseen nofun
    | succ remaining =>
      exact ih remaining v _ _ hseen hrest fun e he => hl e (mem_cons_of_mem _ he)

theorem walkRounds_spec (hL : Linked s₀ s₀.heads out inc) {start target : Nat} :
    ∀ (rounds : Nat) (s : QuerySession) (k : Nat) (visited : List Nat),
      Walking s₀ s visited → Explored (DependsOn s₀) start visited k → target ∉ visited →
      s₀.queryNodes.length ≤ rounds + k →
      ∃ visited', Walking s₀ (ifqWalkRounds target rounds s k).1 visited' ∧
        ((ifqWalkRounds target rounds s k).2 = .complete →
          ¬ ReflTransGen (DependsOn s₀) start target) := by
  intro rounds
  induction rounds with
  | zero =>
    intro s k visited hw hex ht hk
    refine ⟨visited, hw, fun _ hreach => ht ((hex.mem_iff ?_).mpr hreach)⟩
    exact Nat.le_trans hw.length_le (by omega)
  | succ rounds ih =>
    intro s k visited hw hex ht hk
    rw [ifqWalkRounds, hw.worklist]
    cases hat : visited[k]? with
    | none =>
      exact ⟨visited, hw, fun _ hreach =>
        ht ((hex.mem_iff (List.getElem?_eq_none_iff.mp hat)).mpr hreach)⟩
    | some current =>
      have hcurrent := hw.bound current (mem_of_getElem? hat)
      have hfirst : (s.node current).firstDependency = s₀.heads current :=
        hw.links.heads current
      obtain ⟨added, hwalk, hadded, hall⟩ := walkDependencies_spec hL hcurrent
        (out current) s.queryEdges.length s _ visited hw
        (hfirst ▸ hL.out_chain current hcurrent)
        fun e he => (hL.out_mem current hcurrent e).mp he
      dsimp only
      generalize ifqWalkDependencies current target _ _ _ = r at hwalk hall ⊢
      obtain ⟨v, walk⟩ := r
      dsimp only at hwalk hall ⊢
      split
      next hbad =>
        refine ⟨_, hwalk, fun hcomplete => ?_⟩
        dsimp only at hcomplete
        simp [hcomplete, WalkResult.complete] at hbad
      rename_i hgood
      have hcomplete : walk = .complete := by
        obtain ⟨valid, budgetOk, reachesTarget⟩ := walk
        simpa [WalkResult.complete, and_assoc] using hgood
      refine ih v (k + 1) _ hwalk
        (hex.round hat (fun y hy => (hadded y hy).1) fun y hy => ?_) (fun hm => ?_) (by omega)
      · obtain ⟨g, -, e, he, hdep, rfl, -⟩ := hy
        exact hall hcomplete e ((hL.out_mem current hcurrent e).mpr ⟨he, hdep⟩)
      · rcases mem_append.mp hm with hm | hm
        · exact ht hm
        · exact (hadded target hm).2 rfl

/-- The forward walk leaves the graph as it was.  A walk that is complete and has
not met the target proves that the target is not below the start. -/
theorem queryWalkPath_spec (hL : Linked s s.heads out inc) (hs : Stamped s) (start target : Nat) :
    Marked s (ifqQueryWalkPath s start target).1 ∧
      SameStatus s (ifqQueryWalkPath s start target).1 ∧
      ((ifqQueryWalkPath s start target).2.valid = true →
        (ifqQueryWalkPath s start target).2.budgetOk = true →
        (ifqQueryWalkPath s start target).2.reachesTarget = false →
          ¬ ReflTransGen (DependsOn s) start target) := by
  unfold ifqQueryWalkPath
  split
  next => exact ⟨.refl s, fun _ => rfl, Bool.noConfusion⟩
  rename_i hvalid
  split
  next => exact ⟨.refl s, fun _ => rfl, fun _ _ reached => Bool.noConfusion reached⟩
  rename_i hne
  have hstart : start < s.queryNodes.length := by
    simp only [ifqQueryIdIsValid, Bool.not_and, Bool.or_eq_true, not_or, Bool.not_eq_true',
      Bool.not_eq_false, decide_eq_true_eq] at hvalid
    simpa using hvalid.1.2
  have hwalk₀ : Walking s (ifqNextWalk s.truncateWorklist) [] :=
    (Walking.start (s := s.truncateWorklist) rfl hs).rebase ⟨rfl, rfl, rfl, rfl, fun _ => rfl⟩
      ⟨rfl, rfl, fun _ => rfl, fun _ => rfl⟩ (fun _ => rfl) rfl
  dsimp only
  cases hp : ifqWalkPush (ifqNextWalk s.truncateWorklist) start with
  | none => exact ⟨hwalk₀.dropped, hwalk₀.status, fun _ budget => Bool.noConfusion budget⟩
  | some p =>
    have hpush := hwalk₀.push hstart hp
    have hout : target ∉ [start] := fun hm => by
      rw [mem_singleton.mp hm] at hne
      exact hne (beq_self_eq_true start)
    obtain ⟨visited, hwalk, hfound⟩ := walkRounds_spec hL p.queryNodes.length p 0 _ hpush
      (Explored.start _ start) hout (by rw [hpush.values.length]; omega)
    dsimp only
    generalize ifqWalkRounds target p.queryNodes.length p 0 = r at hwalk hfound ⊢
    obtain ⟨v, walk⟩ := r
    dsimp only at hwalk hfound ⊢
    refine ⟨hwalk.dropped, hwalk.status, fun h1 h2 h3 => hfound ?_⟩
    obtain ⟨valid, budgetOk, reachesTarget⟩ := walk
    simp_all [WalkResult.complete]

end Forward

end Elisa.Semantic
