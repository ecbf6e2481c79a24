import Mathlib.Data.List.Perm.Subperm
import Elisa.Lib.LinkedList
import Elisa.Semantic.QueryStaleness

/-!
# The links of the edge pool

`Linked s head out inc` describes the edge pool of a session: `out n` are the edges out of `n`, a
linked list that starts at `head n`, and `inc n` the edges into it, a doubly linked list.  Every
slot of the pool is on one list of each kind, or free.  The heads of the outgoing lists are a
parameter, because a replacement of dependencies releases the edges of a node one by one before it
writes the head back.

Releasing the first edge out of a node (`Linked.release`) and linking a new one (`Linked.link`) keep
the description; everything else leaves the links alone (`Linked.frame`).
-/

namespace Elisa.Semantic

open QuerySession LinkedList List Function

/-! ## Reads and writes -/

namespace QuerySession

variable {s : QuerySession} {i j : Nat}

theorem node_modifyNode (f : QueryNode → QueryNode) :
    (s.modifyNode i f).node j = if i = j ∧ j < s.queryNodes.length then f (s.node j)
      else s.node j := by
  unfold node modifyNode
  simp only [getD_eq_getElem?_getD, getElem?_modify]
  by_cases hj : j < s.queryNodes.length
  · by_cases hij : i = j <;> simp [hj, hij]
  · simp [hj]

theorem node_modifyNode_ne (f : QueryNode → QueryNode) (h : i ≠ j) :
    (s.modifyNode i f).node j = s.node j := by
  rw [node_modifyNode, if_neg fun hc => h hc.1]

theorem node_modifyNode_self (f : QueryNode → QueryNode) (h : i < s.queryNodes.length) :
    (s.modifyNode i f).node i = f (s.node i) := by
  rw [node_modifyNode, if_pos ⟨rfl, h⟩]

/-- A field that a write does not touch is the same everywhere. -/
theorem node_modifyNode_field {β : Type} (π : QueryNode → β) {f : QueryNode → QueryNode}
    (h : ∀ node, π (f node) = π node) : π ((s.modifyNode i f).node j) = π (s.node j) := by
  rw [node_modifyNode]
  split
  · exact h _
  · rfl

theorem node_of_le (h : s.queryNodes.length ≤ i) : s.node i = default := by
  unfold node
  rw [getD_eq_getElem?_getD, getElem?_eq_none h]
  rfl

theorem edge_modifyEdge (f : DependencyEdge → DependencyEdge) :
    (s.modifyEdge i f).edge j = if i = j ∧ j < s.queryEdges.length then f (s.edge j)
      else s.edge j := by
  unfold edge modifyEdge
  simp only [getD_eq_getElem?_getD, getElem?_modify]
  by_cases hj : j < s.queryEdges.length
  · by_cases hij : i = j <;> simp [hj, hij]
  · simp [hj]

@[simp] theorem length_modifyNode (f : QueryNode → QueryNode) :
    (s.modifyNode i f).queryNodes.length = s.queryNodes.length := by simp [modifyNode]

@[simp] theorem length_modifyEdge (f : DependencyEdge → DependencyEdge) :
    (s.modifyEdge i f).queryEdges.length = s.queryEdges.length := by simp [modifyEdge]

@[simp] theorem edge_modifyNode (f : QueryNode → QueryNode) :
    (s.modifyNode i f).edge j = s.edge j := rfl

@[simp] theorem edges_modifyNode (f : QueryNode → QueryNode) :
    (s.modifyNode i f).queryEdges = s.queryEdges := rfl

@[simp] theorem free_modifyNode (f : QueryNode → QueryNode) :
    (s.modifyNode i f).freeQueryEdges = s.freeQueryEdges := rfl

@[simp] theorem node_modifyEdge (f : DependencyEdge → DependencyEdge) :
    (s.modifyEdge i f).node j = s.node j := rfl

@[simp] theorem nodes_modifyEdge (f : DependencyEdge → DependencyEdge) :
    (s.modifyEdge i f).queryNodes = s.queryNodes := rfl

@[simp] theorem free_modifyEdge (f : DependencyEdge → DependencyEdge) :
    (s.modifyEdge i f).freeQueryEdges = s.freeQueryEdges := rfl

end QuerySession

/-! ## The description of the pool -/

def QueryNode.links (node : QueryNode) : Nat × Nat × Nat × Nat :=
  (node.firstDepender, node.incomingEdgeCount, node.incomingChainGeneration,
    node.incomingChainValidatedGeneration)

structure Linked (s : QuerySession) (head : Nat → Nat) (out inc : Nat → List Nat) : Prop where
  nodes_le : s.queryNodes.length ≤ queryNodeLimit
  edges_le : s.queryEdges.length ≤ queryEdgeLimit
  slot : ∀ e < s.queryEdges.length,
    ((s.edge e).depender = queryNone ∧ (s.edge e).dependee = queryNone) ∨
    ((s.edge e).depender < s.queryNodes.length ∧ (s.edge e).dependee < s.queryNodes.length ∧
      (s.edge e).depender ≠ (s.edge e).dependee ∧ (s.edge e).observedResultGeneration ≠ 0)
  out_chain : ∀ n < s.queryNodes.length,
    Chain queryNone (fun e => (s.edge e).nextDependency) (head n) (out n)
  out_mem : ∀ n < s.queryNodes.length, ∀ e,
    e ∈ out n ↔ e < s.queryEdges.length ∧ (s.edge e).depender = n
  out_nodup : ∀ n < s.queryNodes.length, ((out n).map fun e => (s.edge e).dependee).Nodup
  inc_chain : ∀ n < s.queryNodes.length,
    DChain queryNone (fun e => (s.edge e).nextDepender) (fun e => (s.edge e).previousDepender)
      queryNone (s.node n).firstDepender (inc n)
  inc_mem : ∀ n < s.queryNodes.length, ∀ e,
    e ∈ inc n ↔ e < s.queryEdges.length ∧ (s.edge e).dependee = n
  inc_nodup : ∀ n < s.queryNodes.length, (inc n).Nodup
  inc_count : ∀ n < s.queryNodes.length, (s.node n).incomingEdgeCount = (inc n).length
  validated : ∀ n < s.queryNodes.length, (s.node n).incomingChainGeneration ≠ 0 ∧
    (s.node n).incomingChainValidatedGeneration = (s.node n).incomingChainGeneration
  free_nodup : s.freeQueryEdges.Nodup
  free_mem : ∀ e, e ∈ s.freeQueryEdges ↔ e < s.queryEdges.length ∧ (s.edge e).depender = queryNone

def QuerySession.heads (s : QuerySession) (n : Nat) : Nat := (s.node n).firstDependency

namespace Linked

variable {s s' : QuerySession} {head : Nat → Nat} {out inc : Nat → List Nat}

theorem frame (h : Linked s head out inc) (he : s'.queryEdges = s.queryEdges)
    (hf : s'.freeQueryEdges = s.freeQueryEdges) (hl : s'.queryNodes.length = s.queryNodes.length)
    (hn : ∀ n, (s'.node n).links = (s.node n).links) : Linked s' head out inc := by
  have hedge : ∀ e, s'.edge e = s.edge e := fun e => by simp [edge, he]
  have hlinks : ∀ n, (s'.node n).firstDepender = (s.node n).firstDepender ∧
      (s'.node n).incomingEdgeCount = (s.node n).incomingEdgeCount ∧
      (s'.node n).incomingChainGeneration = (s.node n).incomingChainGeneration ∧
      (s'.node n).incomingChainValidatedGeneration =
        (s.node n).incomingChainValidatedGeneration := by
    intro n
    simpa [QueryNode.links] using hn n
  constructor
  all_goals simp only [he, hf, hl, hedge, hlinks]
  · exact h.nodes_le
  · exact h.edges_le
  · exact h.slot
  · exact h.out_chain
  · exact h.out_mem
  · exact h.out_nodup
  · exact h.inc_chain
  · exact h.inc_mem
  · exact h.inc_nodup
  · exact h.inc_count
  · exact h.validated
  · exact h.free_nodup
  · exact h.free_mem

variable {n : Nat}

theorem ne_none_of_node (h : Linked s head out inc) (hn : n < s.queryNodes.length) :
    n ≠ queryNone := by
  have := h.nodes_le
  unfold queryNodeLimit at this
  unfold queryNone
  omega

variable {e : Nat}

section Reads

variable (h : Linked s head out inc)
include h

theorem ne_none_of_edge (he : e < s.queryEdges.length) : e ≠ queryNone := by
  have := h.edges_le
  unfold queryEdgeLimit at this
  unfold queryNone
  omega

theorem idIsValid (hn : n < s.queryNodes.length) : ifqQueryIdIsValid s n = true := by
  simp [ifqQueryIdIsValid, hn, h.ne_none_of_node hn]

theorem live (he : e < s.queryEdges.length) (hn : (s.edge e).depender ≠ queryNone) :
    (s.edge e).depender < s.queryNodes.length ∧ (s.edge e).dependee < s.queryNodes.length ∧
      (s.edge e).depender ≠ (s.edge e).dependee ∧ (s.edge e).observedResultGeneration ≠ 0 :=
  (h.slot e he).resolve_left fun hf => hn hf.1

theorem depender_ne_none (he : e < s.queryEdges.length)
    (hd : (s.edge e).dependee < s.queryNodes.length) : (s.edge e).depender ≠ queryNone := by
  rcases h.slot e he with ⟨-, hf⟩ | ⟨hn, -⟩
  · exact absurd hf (h.ne_none_of_node hd)
  · exact h.ne_none_of_node hn

theorem validateCached (hn : n < s.queryNodes.length) :
    ifqQueryIncomingChainValidateCached s n = (s, true) := by
  unfold ifqQueryIncomingChainValidateCached
  simp [h.idIsValid hn, h.validated n hn]

theorem out_head (hn : n < s.queryNodes.length) (hne : head n ≠ queryNone) :
    ∃ rest, out n = head n :: rest ∧ head n < s.queryEdges.length ∧
      (s.edge (head n)).depender = n := by
  obtain ⟨rest, hout, -⟩ := (h.out_chain n hn).exists_cons hne
  have hmem := (h.out_mem n hn (head n)).mp (by rw [hout]; exact mem_cons_self)
  exact ⟨rest, hout, hmem⟩

/-! ## Counting the edges into a node -/

end Reads

theorem counted_validated (added : Bool) (node : QueryNode) :
    (node.counted added).incomingChainGeneration ≠ 0 ∧
      (node.counted added).incomingChainValidatedGeneration =
        (node.counted added).incomingChainGeneration := by
  refine ⟨?_, rfl⟩
  simp only [QueryNode.counted]
  split <;> omega

theorem noteChange (h : Linked s head out inc) (hn : n < s.queryNodes.length) {added : Bool}
    (hadd : added = true → (inc n).length < queryEdgeLimit) (hremove : added = false → inc n ≠ []) :
    ifqQueryNoteIncomingEdgeChange s n added =
      some (s.modifyNode n (QueryNode.counted added)) := by
  obtain ⟨hgen, hval⟩ := h.validated n hn
  unfold ifqQueryNoteIncomingEdgeChange
  simp only [h.idIsValid hn, hval]
  cases added with
  | true =>
    have hlt := hadd rfl
    rw [← h.inc_count n hn] at hlt
    simp [hgen, Nat.not_le.mpr hlt]
  | false =>
    have hne : (s.node n).incomingEdgeCount ≠ 0 := by
      rw [h.inc_count n hn]
      exact fun hl => hremove rfl (length_eq_zero_iff.mp hl)
    simp [hgen, hne]

/-! ## One slot changes hands -/

/-- The pools differ in the slot `e` alone, but for the links of the incoming lists. -/
structure ChangedAt (s t : QuerySession) (e : Nat) : Prop where
  nodes : t.queryNodes.length = s.queryNodes.length
  edges_le : t.queryEdges.length ≤ queryEdgeLimit
  bound : ∀ j, j ≠ e → (j < t.queryEdges.length ↔ j < s.queryEdges.length)
  depender : ∀ j < s.queryEdges.length, j ≠ e → (t.edge j).depender = (s.edge j).depender
  dependee : ∀ j < s.queryEdges.length, j ≠ e → (t.edge j).dependee = (s.edge j).dependee
  next : ∀ j < s.queryEdges.length, j ≠ e → (t.edge j).nextDependency = (s.edge j).nextDependency
  seen : ∀ j < s.queryEdges.length, j ≠ e →
    (t.edge j).observedResultGeneration = (s.edge j).observedResultGeneration

structure OutList (t : QuerySession) (n first : Nat) (edges : List Nat) : Prop where
  chain : Chain queryNone (fun e => (t.edge e).nextDependency) first edges
  mem : ∀ j, j ∈ edges ↔ j < t.queryEdges.length ∧ (t.edge j).depender = n
  nodup : (edges.map fun e => (t.edge e).dependee).Nodup

/-- The incoming list of `d`, with what its node says of it. -/
structure IncList (t : QuerySession) (d : Nat) (edges : List Nat) : Prop where
  chain : DChain queryNone (fun e => (t.edge e).nextDepender) (fun e => (t.edge e).previousDepender)
    queryNone (t.node d).firstDepender edges
  mem : ∀ j, j ∈ edges ↔ j < t.queryEdges.length ∧ (t.edge j).dependee = d
  nodup : edges.Nodup
  count : (t.node d).incomingEdgeCount = edges.length
  validated : (t.node d).incomingChainGeneration ≠ 0 ∧
    (t.node d).incomingChainValidatedGeneration = (t.node d).incomingChainGeneration

/-- A pool is described node by node. -/
theorem of_lists (nodes_le : s.queryNodes.length ≤ queryNodeLimit)
    (edges_le : s.queryEdges.length ≤ queryEdgeLimit)
    (slot : ∀ e < s.queryEdges.length,
      ((s.edge e).depender = queryNone ∧ (s.edge e).dependee = queryNone) ∨
      ((s.edge e).depender < s.queryNodes.length ∧ (s.edge e).dependee < s.queryNodes.length ∧
        (s.edge e).depender ≠ (s.edge e).dependee ∧ (s.edge e).observedResultGeneration ≠ 0))
    (outs : ∀ n < s.queryNodes.length, OutList s n (head n) (out n))
    (incs : ∀ n < s.queryNodes.length, IncList s n (inc n)) (free_nodup : s.freeQueryEdges.Nodup)
    (free_mem : ∀ e, e ∈ s.freeQueryEdges ↔
      e < s.queryEdges.length ∧ (s.edge e).depender = queryNone) : Linked s head out inc :=
  ⟨nodes_le, edges_le, slot, fun n hn => (outs n hn).chain, fun n hn => (outs n hn).mem,
    fun n hn => (outs n hn).nodup, fun n hn => (incs n hn).chain, fun n hn => (incs n hn).mem,
    fun n hn => (incs n hn).nodup, fun n hn => (incs n hn).count,
    fun n hn => (incs n hn).validated, free_nodup, free_mem⟩

section Changes

variable {t : QuerySession} {d : Nat} {head' : Nat → Nat} {outs incs : List Nat}

theorem outList_other {m : Nat} (h : Linked s head out inc) (hc : ChangedAt s t e)
    (hm : m < s.queryNodes.length) (hold : e ∉ out m) (hnew : (t.edge e).depender ≠ m) :
    OutList t m (head m) (out m) := by
  have hbelow : ∀ j ∈ out m, j < s.queryEdges.length ∧ j ≠ e := fun j hj =>
    ⟨((h.out_mem m hm j).mp hj).1, fun hje => hold (hje ▸ hj)⟩
  refine ⟨(h.out_chain m hm).congr fun j hj => hc.next j (hbelow j hj).1 (hbelow j hj).2,
    fun j => ?_, ?_⟩
  · by_cases hje : j = e
    · subst hje
      exact ⟨fun hj => absurd hj hold, fun hj => absurd hj.2 hnew⟩
    · rw [h.out_mem m hm j, hc.bound j hje]
      exact and_congr_right fun hj => by rw [hc.depender j hj hje]
  · rw [map_congr_left fun j hj => hc.dependee j (hbelow j hj).1 (hbelow j hj).2]
    exact h.out_nodup m hm

theorem incList_other {c : Nat} (h : Linked s head out inc) (hc : ChangedAt s t e)
    (hlt : c < s.queryNodes.length) (hold : e ∉ inc c) (hnew : (t.edge e).dependee ≠ c)
    (hnode : (t.node c).links = (s.node c).links)
    (hlinks : ∀ j ∈ inc c, (t.edge j).nextDepender = (s.edge j).nextDepender ∧
      (t.edge j).previousDepender = (s.edge j).previousDepender) : IncList t c (inc c) := by
  simp only [QueryNode.links, Prod.mk.injEq] at hnode
  obtain ⟨hfirst, hcount, hgen, hval⟩ := hnode
  refine ⟨?_, fun j => ?_, h.inc_nodup c hlt, by rw [hcount, h.inc_count c hlt], ?_⟩
  · rw [hfirst]
    exact (h.inc_chain c hlt).congr (fun j hj => (hlinks j hj).1) fun j hj => (hlinks j hj).2
  · by_cases hje : j = e
    · subst hje
      exact ⟨fun hj => absurd hj hold, fun hj => absurd hj.2 hnew⟩
    · rw [h.inc_mem c hlt j, hc.bound j hje]
      exact and_congr_right fun hj => by rw [hc.dependee j hj hje]
  · rw [hgen, hval]
    exact h.validated c hlt

theorem changedAt (h : Linked s head out inc) (hc : ChangedAt s t e)
    (hslot : ((t.edge e).depender = queryNone ∧ (t.edge e).dependee = queryNone) ∨
      ((t.edge e).depender < s.queryNodes.length ∧ (t.edge e).dependee < s.queryNodes.length ∧
        (t.edge e).depender ≠ (t.edge e).dependee ∧ (t.edge e).observedResultGeneration ≠ 0))
    (hhead : ∀ m, m ≠ n → head' m = head m)
    (houts : OutList t n (head' n) outs) (hincs : IncList t d incs)
    (hout : ∀ m < s.queryNodes.length, m ≠ n → e ∉ out m ∧ (t.edge e).depender ≠ m)
    (hinc : ∀ c < s.queryNodes.length, c ≠ d → IncList t c (inc c))
    (hnodup : t.freeQueryEdges.Nodup)
    (hfree : ∀ j, j ∈ t.freeQueryEdges ↔ j < t.queryEdges.length ∧
      (t.edge j).depender = queryNone) :
    Linked t head' (Function.update out n outs) (Function.update inc d incs) := by
  have houtList : ∀ m < t.queryNodes.length,
      OutList t m (head' m) (Function.update out n outs m) := by
    intro m hm
    rw [hc.nodes] at hm
    by_cases hmn : m = n
    · subst hmn
      rw [update_self]
      exact houts
    · rw [update_of_ne hmn, hhead m hmn]
      exact h.outList_other hc hm (hout m hm hmn).1 (hout m hm hmn).2
  have hincList : ∀ c < t.queryNodes.length, IncList t c (Function.update inc d incs c) := by
    intro c hlt
    rw [hc.nodes] at hlt
    by_cases hcd : c = d
    · subst hcd
      rw [update_self]
      exact hincs
    · rw [update_of_ne hcd]
      exact hinc c hlt hcd
  refine .of_lists (hc.nodes ▸ h.nodes_le) hc.edges_le (fun j hj => ?_) houtList
    hincList hnodup hfree
  rw [hc.nodes]
  by_cases hje : j = e
  · rw [hje]
    exact hslot
  · have hjs := (hc.bound j hje).mp hj
    rw [hc.depender j hjs hje, hc.dependee j hjs hje, hc.seen j hjs hje]
    exact h.slot j hjs

end Changes

/-! ## Releasing an edge -/

theorem edge_releaseEdge {j : Nat} (hj : j < s.queryEdges.length) (hne : queryNone ≠ j)
    (hje : e ≠ j) :
    (ifqReleaseEdge s e).edge j =
      { s.edge j with
        nextDepender := if (s.edge e).previousDepender = j then (s.edge e).nextDepender
          else (s.edge j).nextDepender
        previousDepender := if (s.edge e).nextDepender = j then (s.edge e).previousDepender
          else (s.edge j).previousDepender } := by
  have hj0 : j ≠ queryNone := fun h => hne h.symm
  unfold ifqReleaseEdge
  show (QuerySession.modifyEdge _ e fun _ => .free).edge j = _
  rw [edge_modifyEdge, if_neg fun hc => hje hc.1]
  by_cases hp : (s.edge e).previousDepender = queryNone
  · by_cases hx : (s.edge e).nextDepender = queryNone
    · simp [hp, hx, hne]
    · by_cases hjx : (s.edge e).nextDepender = j
      · simp [hp, hne, hjx, hj, edge_modifyEdge, hj0]
      · simp [hp, hx, hne, hjx, edge_modifyEdge]
  · by_cases hx : (s.edge e).nextDepender = queryNone
    · by_cases hjp : (s.edge e).previousDepender = j
      · simp [hx, hne, hjp, hj, edge_modifyEdge, hj0]
      · simp [hp, hx, hne, hjp, edge_modifyEdge]
    by_cases hjp : (s.edge e).previousDepender = j
    · by_cases hjx : (s.edge e).nextDepender = j
      · simp [hjp, hjx, hj, edge_modifyEdge, hj0]
      · simp [hx, hjp, hjx, hj, edge_modifyEdge, hj0]
    · by_cases hjx : (s.edge e).nextDepender = j
      · simp [hp, hjp, hjx, hj, edge_modifyEdge, hj0]
      · simp [hp, hx, hjp, hjx, edge_modifyEdge]

theorem edge_releaseEdge_self (he : e < s.queryEdges.length) :
    (ifqReleaseEdge s e).edge e = .free := by
  unfold ifqReleaseEdge
  show (QuerySession.modifyEdge _ e fun _ => .free).edge e = _
  rw [edge_modifyEdge, if_pos]
  refine ⟨rfl, ?_⟩
  split <;> split <;> simpa using he

theorem node_releaseEdge {j : Nat} :
    (ifqReleaseEdge s e).node j =
      if (s.edge e).previousDepender = queryNone ∧ (s.edge e).dependee = j ∧ j < s.queryNodes.length
      then { s.node j with firstDepender := (s.edge e).nextDepender } else s.node j := by
  unfold ifqReleaseEdge
  show QuerySession.node (QuerySession.modifyEdge _ e fun _ => .free) j = _
  rw [node_modifyEdge]
  by_cases hp : (s.edge e).previousDepender = queryNone
  · by_cases hx : (s.edge e).nextDepender = queryNone <;> simp [hp, hx, node_modifyNode]
  · by_cases hx : (s.edge e).nextDepender = queryNone <;> simp [hp, hx]

@[simp] theorem edges_length_releaseEdge :
    (ifqReleaseEdge s e).queryEdges.length = s.queryEdges.length := by
  unfold ifqReleaseEdge
  show (QuerySession.modifyEdge _ e fun _ => .free).queryEdges.length = _
  rw [length_modifyEdge]
  split <;> split <;> simp

@[simp] theorem nodes_length_releaseEdge :
    (ifqReleaseEdge s e).queryNodes.length = s.queryNodes.length := by
  unfold ifqReleaseEdge
  show (QuerySession.modifyEdge _ e fun _ => .free).queryNodes.length = _
  rw [nodes_modifyEdge]
  split <;> split <;> simp

@[simp] theorem free_releaseEdge : (ifqReleaseEdge s e).freeQueryEdges = e :: s.freeQueryEdges := by
  simp only [ifqReleaseEdge, free_modifyEdge]
  split <;> split <;> rfl

variable {d : Nat}

theorem inc_release {t : QuerySession} (h : Linked s head out inc)
    (ht : t.queryEdges = s.queryEdges) (hd : d < s.queryNodes.length) (he : e ∈ inc d) :
    DChain queryNone (fun j => ((ifqReleaseEdge t e).edge j).nextDepender)
      (fun j => ((ifqReleaseEdge t e).edge j).previousDepender) queryNone
      (if (s.edge e).previousDepender = queryNone then (s.edge e).nextDepender
        else (s.node d).firstDepender) ((inc d).erase e) := by
  obtain ⟨a, b, hab⟩ := append_of_mem he
  have hnd := h.inc_nodup d hd
  have hchain := h.inc_chain d hd
  have hread : ∀ j, t.edge j = s.edge j := fun j => by simp [edge, ht]
  have hslot : ∀ j ∈ a ++ b, j < s.queryEdges.length := fun j hj => by
    refine ((h.inc_mem d hd j).mp ?_).1
    rw [hab]
    rcases mem_append.mp hj with hj | hj <;> simp [hj]
  rw [hab] at hnd hchain
  have hea : e ∉ a := fun hm => (nodup_append.mp hnd).2.2 e hm e mem_cons_self rfl
  have hout : ∀ j ∈ a ++ b, e ≠ j := by
    rintro j hj rfl
    rcases mem_append.mp hj with hj | hj
    · exact hea hj
    · exact (nodup_cons.mp (nodup_append.mp hnd).2.1).1 hj
  have hedge : ∀ j ∈ a ++ b, (ifqReleaseEdge t e).edge j = _ := fun j hj =>
    edge_releaseEdge (ht ▸ hslot j hj) (h.ne_none_of_edge (hslot j hj)).symm (hout j hj)
  rw [hab, erase_append_right _ hea, erase_cons_head]
  refine hchain.unlink hnd (fun hm => hchain.chain.ne_nil_of_mem hm rfl) (fun j hj => ?_) fun j hj => ?_
  · show ((ifqReleaseEdge t e).edge j).nextDepender = _
    rw [hedge j hj]
    simp only [hread, eq_comm]
  · show ((ifqReleaseEdge t e).edge j).previousDepender = _
    rw [hedge j hj]
    simp only [hread, eq_comm]

theorem not_neighbour {j : Nat} (h : Linked s head out inc) (hd : d < s.queryNodes.length)
    (he : e ∈ inc d) (hj : j < s.queryEdges.length) (hjd : (s.edge j).dependee ≠ d) :
    (s.edge e).previousDepender ≠ j ∧ (s.edge e).nextDepender ≠ j := by
  have hchain := h.inc_chain d hd
  have hne := h.ne_none_of_edge hj
  constructor
  · rintro rfl
    rcases hchain.back he with ⟨hp, -⟩ | ⟨hm, -⟩
    · exact hne hp
    · exact hjd ((h.inc_mem d hd _).mp hm).2
  · rintro rfl
    exact hjd ((h.inc_mem d hd _).mp (hchain.forth he hne).1).2

section Release

variable {t : QuerySession} {rest : List Nat}

theorem changedAt_release (h : Linked s head out inc) (hte : t.queryEdges = s.queryEdges)
    (htn : t.queryNodes.length = s.queryNodes.length) : ChangedAt s (ifqReleaseEdge t e) e := by
  have hread : ∀ j, t.edge j = s.edge j := fun j => by simp [edge, hte]
  have hother : ∀ j < s.queryEdges.length, j ≠ e → (ifqReleaseEdge t e).edge j = _ :=
    fun j hj hje => edge_releaseEdge (hte ▸ hj) (h.ne_none_of_edge hj).symm hje.symm
  refine ⟨by rw [nodes_length_releaseEdge, htn], ?_, fun j _ => ?_, fun j hj hje => ?_,
    fun j hj hje => ?_, fun j hj hje => ?_, fun j hj hje => ?_⟩
  · rw [edges_length_releaseEdge, hte]
    exact h.edges_le
  · rw [edges_length_releaseEdge, hte]
  all_goals rw [hother j hj hje, hread]

theorem outList_release (h : Linked s head out inc) (hn : n < s.queryNodes.length)
    (hout : out n = e :: rest) (hc : ChangedAt s t e)
    (hbound : t.queryEdges.length = s.queryEdges.length) (hself : (t.edge e).depender = queryNone) :
    OutList t n (s.edge e).nextDependency rest := by
  have hchain := h.out_chain n hn
  have hmem := h.out_mem n hn
  have hnd := h.out_nodup n hn
  rw [hout] at hchain hmem hnd
  rw [map_cons, nodup_cons] at hnd
  have hrest : e ∉ rest := fun hm => hnd.1 (mem_map_of_mem hm)
  have hbelow : ∀ j ∈ rest, j < s.queryEdges.length ∧ j ≠ e := fun j hj =>
    ⟨((hmem j).mp (mem_cons_of_mem _ hj)).1, fun hje => hrest (hje ▸ hj)⟩
  refine ⟨hchain.2.2.congr fun j hj => hc.next j (hbelow j hj).1 (hbelow j hj).2,
    fun j => ?_, ?_⟩
  · rw [hbound]
    by_cases hje : j = e
    · subst hje
      rw [hself]
      exact ⟨fun hj => absurd hj hrest, fun hj => absurd hj.2.symm (h.ne_none_of_node hn)⟩
    · have hiff : j ∈ rest ↔ j ∈ e :: rest := by simp [hje]
      rw [hiff, hmem j]
      exact and_congr_right fun hj => by rw [hc.depender j hj hje]
  · rw [map_congr_left fun j hj => hc.dependee j (hbelow j hj).1 (hbelow j hj).2]
    exact hnd.2

/-- Releasing the first edge out of `n` takes it off its two lists. -/
theorem release {n e : Nat} {rest : List Nat} (h : Linked s head out inc)
    (hn : n < s.queryNodes.length) (hout : out n = e :: rest) :
    ifqQueryNoteIncomingEdgeChange s (s.edge e).dependee false =
        some (s.modifyNode (s.edge e).dependee (QueryNode.counted false)) ∧
      Linked (ifqReleaseEdge (s.modifyNode (s.edge e).dependee (QueryNode.counted false)) e)
        (Function.update head n (s.edge e).nextDependency) (Function.update out n rest)
        (Function.update inc (s.edge e).dependee ((inc (s.edge e).dependee).erase e)) := by
  have hmem : e ∈ out n := by
    rw [hout]
    exact mem_cons_self
  obtain ⟨he, hdep⟩ := (h.out_mem n hn e).mp hmem
  obtain ⟨-, hd, -, -⟩ := h.live he (by rw [hdep]; exact h.ne_none_of_node hn)
  generalize hdd : (s.edge e).dependee = d at hd ⊢
  have hinc : e ∈ inc d := (h.inc_mem d hd e).mpr ⟨he, hdd⟩
  refine ⟨h.noteChange hd nofun (fun _ hnil => by simp [hnil] at hinc), ?_⟩
  generalize ht : s.modifyNode d (QueryNode.counted false) = t
  have hte : t.queryEdges = s.queryEdges := by rw [← ht]; rfl
  have htn : t.queryNodes.length = s.queryNodes.length := by rw [← ht]; simp
  have hread : ∀ j, t.edge j = s.edge j := fun j => by simp [edge, hte]
  have hself : (ifqReleaseEdge t e).edge e = .free := edge_releaseEdge_self (hte ▸ he)
  have hc := h.changedAt_release (e := e) hte htn
  have hbound : (ifqReleaseEdge t e).queryEdges.length = s.queryEdges.length := by
    rw [edges_length_releaseEdge, hte]
  have hnone : ((ifqReleaseEdge t e).edge e).depender = queryNone ∧
      ((ifqReleaseEdge t e).edge e).dependee = queryNone := by rw [hself]; exact ⟨rfl, rfl⟩
  have hdnode : (ifqReleaseEdge t e).node d =
      { t.node d with
        firstDepender := if (s.edge e).previousDepender = queryNone then (s.edge e).nextDepender
          else (s.node d).firstDepender } := by
    rw [node_releaseEdge, hread]
    have hfirst : (t.node d).firstDepender = (s.node d).firstDepender := by
      rw [← ht, node_modifyNode_self _ hd]
      rfl
    by_cases hp : (s.edge e).previousDepender = queryNone
    · rw [if_pos ⟨hp, hdd, htn ▸ hd⟩, if_pos hp]
    · rw [if_neg fun hcond => hp hcond.1, if_neg hp, ← hfirst]
  refine h.changedAt hc (.inl hnone) (fun m hm => update_of_ne hm _ _) ?_ ?_ (fun m hm hmn => ?_)
    (fun c hlt hcd => ?_) ?_ fun j => ?_
  · rw [update_self]
    exact h.outList_release hn hout hc hbound hnone.1
  · -- the incoming list of `d` loses the edge wherever it stands
    refine ⟨?_, fun j => ?_, (h.inc_nodup d hd).erase e, ?_, ?_⟩
    · rw [hdnode]
      exact h.inc_release hte hd hinc
    · rw [hbound, (h.inc_nodup d hd).mem_erase_iff, h.inc_mem d hd j]
      by_cases hje : j = e
      · subst hje
        rw [hnone.2]
        exact ⟨fun hh => absurd rfl hh.1, fun hh => absurd hh.2.symm (h.ne_none_of_node hd)⟩
      · rw [and_iff_right hje]
        exact and_congr_right fun hj => by rw [hc.dependee j hj hje]
    · rw [hdnode, length_erase_of_mem hinc, ← h.inc_count d hd, ← ht, node_modifyNode_self _ hd]
      rfl
    · rw [hdnode, ← ht, node_modifyNode_self _ hd]
      exact counted_validated false _
  · refine ⟨fun hm' => hmn ?_, fun hm' => h.ne_none_of_node hm (hm'.symm.trans hnone.1)⟩
    exact ((h.out_mem m hm e).mp hm').2.symm.trans hdep
  · have hnot : e ∉ inc c := fun hm => hcd (((h.inc_mem c hlt e).mp hm).2.symm.trans hdd)
    have hnew : ((ifqReleaseEdge t e).edge e).dependee ≠ c := fun hh =>
      h.ne_none_of_node hlt (hh.symm.trans hnone.2)
    refine h.incList_other hc hlt hnot hnew ?_ fun j hj => ?_
    · rw [node_releaseEdge, hread, if_neg fun hcond => hcd (hcond.2.1.symm.trans hdd), ← ht,
        node_modifyNode_ne _ (Ne.symm hcd)]
    · obtain ⟨hj', hjd⟩ := (h.inc_mem c hlt j).mp hj
      obtain ⟨hp, hx⟩ := h.not_neighbour hd hinc hj' fun hjd' => hcd (hjd.symm.trans hjd')
      have hje : j ≠ e := fun hje => hnot (hje ▸ hj)
      rw [edge_releaseEdge (hte ▸ hj') (h.ne_none_of_edge hj').symm hje.symm]
      simp [hread, hp, hx]
  · rw [free_releaseEdge, ← ht, free_modifyNode]
    refine nodup_cons.mpr ⟨fun hm => ?_, h.free_nodup⟩
    exact h.ne_none_of_node hn (hdep.symm.trans ((h.free_mem e).mp hm).2)
  · rw [free_releaseEdge, hbound, ← ht, free_modifyNode, ht, mem_cons, h.free_mem j]
    by_cases hje : j = e
    · subst hje
      exact ⟨fun _ => ⟨he, hnone.1⟩, fun _ => .inl rfl⟩
    · rw [or_iff_right hje]
      exact and_congr_right fun hj => by rw [hc.depender j hj hje]

end Release

/-! ## Linking an edge -/

theorem length_le_of_slots {l : List Nat} {k : Nat} (hnd : l.Nodup) (hlt : ∀ e ∈ l, e < k) :
    l.length ≤ k := by
  have hsub : l.Subperm (List.range k) :=
    subperm_of_subset hnd fun e he => mem_range.mpr (hlt e he)
  simpa using hsub.length_le

theorem inc_lt (h : Linked s head out inc) (hd : d < s.queryNodes.length)
    (hroom : s.freeQueryEdges ≠ [] ∨ s.queryEdges.length < queryEdgeLimit) :
    (inc d).length < queryEdgeLimit := by
  have hlt : ∀ e ∈ inc d, e < s.queryEdges.length := fun e he => ((h.inc_mem d hd e).mp he).1
  rcases hroom with hfree | hroom
  · obtain ⟨f, hf⟩ := exists_mem_of_ne_nil _ hfree
    obtain ⟨hfe, hfn⟩ := (h.free_mem f).mp hf
    have hout : f ∉ inc d := fun hm =>
      h.depender_ne_none hfe (by rw [((h.inc_mem d hd f).mp hm).2]; exact hd) hfn
    have hle := length_le_of_slots (nodup_cons.mpr ⟨hout, h.inc_nodup d hd⟩)
      (forall_mem_cons.mpr ⟨hfe, hlt⟩)
    have := h.edges_le
    simp only [length_cons] at hle
    omega
  · exact Nat.lt_of_le_of_lt (length_le_of_slots (h.inc_nodup d hd) hlt) hroom

/-- A slot taken for a new edge was free, and nothing else changed. -/
structure SlotTaken (s t : QuerySession) (e : Nat) : Prop where
  nodes : t.queryNodes = s.queryNodes
  edges_le : t.queryEdges.length ≤ queryEdgeLimit
  slot_lt : e < t.queryEdges.length
  other : ∀ j, j ≠ e → (j < t.queryEdges.length ↔ j < s.queryEdges.length) ∧ t.edge j = s.edge j
  was_free : e < s.queryEdges.length → (s.edge e).depender = queryNone
  free_nodup : t.freeQueryEdges.Nodup
  free_mem : ∀ j, j ∈ t.freeQueryEdges ↔ j ∈ s.freeQueryEdges ∧ j ≠ e

theorem SlotTaken.node {t : QuerySession} (h : SlotTaken s t e) (c : Nat) :
    t.node c = s.node c := by
  simp [QuerySession.node, h.nodes]

theorem SlotTaken.field {β : Type} {u : QuerySession} (π : QueryNode → β)
    (taken : SlotTaken (s.modifyNode d (QueryNode.counted true)) u e)
    (h : ∀ node, π (node.counted true) = π node) (c : Nat) : π (u.node c) = π (s.node c) := by
  rw [taken.node]
  exact node_modifyNode_field π h

theorem takeEdgeSlot (hle : s.queryEdges.length ≤ queryEdgeLimit) (hfree : s.freeQueryEdges.Nodup)
    (hmem : ∀ e, e ∈ s.freeQueryEdges ↔
      e < s.queryEdges.length ∧ (s.edge e).depender = queryNone)
    (hroom : s.freeQueryEdges ≠ [] ∨ s.queryEdges.length < queryEdgeLimit) :
    SlotTaken s (ifqTakeEdgeSlot s).1 (ifqTakeEdgeSlot s).2 := by
  cases hf : s.freeQueryEdges with
  | cons e rest =>
    have htake : ifqTakeEdgeSlot s = ({ s with freeQueryEdges := rest }, e) := by
      simp [ifqTakeEdgeSlot, hf]
    have hnd := nodup_cons.mp (hf ▸ hfree)
    obtain ⟨he, hslot⟩ := (hmem e).mp (by rw [hf]; exact mem_cons_self)
    rw [htake]
    refine ⟨rfl, hle, he, fun j _ => ⟨Iff.rfl, rfl⟩, fun _ => hslot, hnd.2, fun j => ?_⟩
    rw [hf]
    constructor
    · intro hj
      exact ⟨mem_cons_of_mem _ hj, fun hje : j = e => hnd.1 (hje ▸ hj)⟩
    · rintro ⟨hj, hje⟩
      exact (mem_cons.mp hj).resolve_left hje
  | nil =>
    have htake : ifqTakeEdgeSlot s =
        ({ s with queryEdges := s.queryEdges ++ [.free] }, s.queryEdges.length) := by
      simp [ifqTakeEdgeSlot, hf]
    have hlt : s.queryEdges.length < queryEdgeLimit :=
      hroom.resolve_left fun hne => hne hf
    rw [htake]
    refine ⟨rfl, by simpa using Nat.succ_le_of_lt hlt, by simp, fun j hj => ⟨?_, ?_⟩,
      fun hlt => absurd hlt (Nat.lt_irrefl _), by simp [hf], by simp [hf]⟩
    · simp only [length_append, length_singleton]
      dsimp only at hj
      omega
    simp only [edge, getD_eq_getElem?_getD]
    dsimp only at hj
    by_cases hlt : j < s.queryEdges.length
    · rw [getElem?_append_left hlt]
    · rw [getElem?_eq_none (by simp; omega), getElem?_eq_none (by omega)]

theorem edge_linkEdge {j : Nat} (hj : j < s.queryEdges.length) (hne : j ≠ queryNone) (hje : e ≠ j) :
    (ifqLinkEdge s n d e).edge j =
      { s.edge j with
        previousDepender := if (s.node d).firstDepender = j then e
          else (s.edge j).previousDepender } := by
  unfold ifqLinkEdge
  simp only [edge_modifyNode]
  by_cases hh : (s.node d).firstDepender = queryNone
  · have hhj : queryNone ≠ j := hne.symm
    simp [hh, hhj, edge_modifyEdge, hje]
  · by_cases hhj : (s.node d).firstDepender = j
    · simp [hhj, hne, hj, hje, edge_modifyEdge]
    · simp [hh, hhj, hje, edge_modifyEdge]

theorem edge_linkEdge_self (he : e < s.queryEdges.length) (hhead : (s.node d).firstDepender ≠ e) :
    (ifqLinkEdge s n d e).edge e =
      { depender := n, dependee := d, nextDependency := (s.node n).firstDependency,
        previousDepender := queryNone, nextDepender := (s.node d).firstDepender,
        observedResultGeneration := (s.node d).resultGeneration } := by
  unfold ifqLinkEdge
  simp only [edge_modifyNode]
  by_cases hh : (s.node d).firstDepender = queryNone
  · simp [hh, he, edge_modifyEdge]
  · simp [hh, hhead, he, edge_modifyEdge]

theorem node_linkEdge {j : Nat} (hj : j < s.queryNodes.length) :
    (ifqLinkEdge s n d e).node j =
      { s.node j with
        firstDependency := if n = j then e else (s.node j).firstDependency
        firstDepender := if d = j then e else (s.node j).firstDepender } := by
  have hnodes : (ifqLinkEdge s n d e).node j =
      ((s.modifyNode n fun node => { node with firstDependency := e }).modifyNode d
        fun node => { node with firstDepender := e }).node j := by
    simp only [ifqLinkEdge]
    split <;> rfl
  rw [hnodes, node_modifyNode, node_modifyNode]
  by_cases hn : n = j <;> by_cases hd : d = j <;> simp [hn, hd, hj]

@[simp] theorem nodes_length_linkEdge :
    (ifqLinkEdge s n d e).queryNodes.length = s.queryNodes.length := by
  simp only [ifqLinkEdge, length_modifyNode]
  split <;> simp

@[simp] theorem edges_length_linkEdge :
    (ifqLinkEdge s n d e).queryEdges.length = s.queryEdges.length := by
  simp only [ifqLinkEdge, edges_modifyNode]
  split <;> simp

@[simp] theorem free_linkEdge : (ifqLinkEdge s n d e).freeQueryEdges = s.freeQueryEdges := by
  simp only [ifqLinkEdge, free_modifyNode]
  split <;> rfl

section Link

variable {u : QuerySession} (h : Linked s s.heads out inc)
include h

theorem first_mem (hd : d < s.queryNodes.length) (hne : (s.node d).firstDepender ≠ queryNone) :
    (s.node d).firstDepender ∈ inc d := by
  obtain ⟨xs, hxs, -⟩ := (h.inc_chain d hd).chain.exists_cons hne
  rw [hxs]
  exact mem_cons_self

variable (taken : SlotTaken (s.modifyNode d (QueryNode.counted true)) u e)
include taken

/-- The slot that is taken is on no list. -/
theorem slot_unlisted : e ≠ queryNone ∧ ∀ m < s.queryNodes.length, e ∉ out m ∧ e ∉ inc m := by
  have hunused : e < s.queryEdges.length → (s.edge e).depender = queryNone := taken.was_free
  have h1 := taken.slot_lt
  have h2 := taken.edges_le
  unfold queryEdgeLimit at h2
  refine ⟨by unfold queryNone; omega, fun m hm => ⟨fun hmem => ?_, fun hmem => ?_⟩⟩
  · obtain ⟨he, hdep⟩ := (h.out_mem m hm e).mp hmem
    exact h.ne_none_of_node hm (hdep.symm.trans (hunused he))
  · obtain ⟨he, hdep⟩ := (h.inc_mem m hm e).mp hmem
    exact h.depender_ne_none he (by rw [hdep]; exact hm) (hunused he)

variable (hd : d < s.queryNodes.length)
include hd

theorem first_ne : (s.node d).firstDepender ≠ e := by
  obtain ⟨heu, hlists⟩ := h.slot_unlisted taken
  exact fun hfe => (hlists d hd).2 (hfe ▸ h.first_mem hd (hfe ▸ heu))

/-- What the link leaves in every slot. -/
theorem edge_link :
    (ifqLinkEdge u n d e).edge e =
      { depender := n, dependee := d, nextDependency := s.heads n, previousDepender := queryNone,
        nextDepender := (s.node d).firstDepender,
        observedResultGeneration := (s.node d).resultGeneration } ∧
    ∀ j < s.queryEdges.length, j ≠ e → (ifqLinkEdge u n d e).edge j =
      { s.edge j with
        previousDepender := if (s.node d).firstDepender = j then e
          else (s.edge j).previousDepender } := by
  have hhead := taken.field QueryNode.firstDepender (fun _ => rfl) d
  constructor
  · rw [edge_linkEdge_self taken.slot_lt (hhead ▸ h.first_ne taken hd), hhead,
      taken.field QueryNode.resultGeneration fun _ => rfl,
      taken.field QueryNode.firstDependency fun _ => rfl]
    rfl
  · intro j hj hje
    rw [edge_linkEdge ((taken.other j hje).1.mpr hj) (h.ne_none_of_edge hj) hje.symm,
      (taken.other j hje).2, hhead]
    rfl

theorem changedAt_link : ChangedAt s (ifqLinkEdge u n d e) e := by
  refine ⟨by rw [nodes_length_linkEdge, taken.nodes, length_modifyNode], ?_, fun j hje => ?_,
    fun j hj hje => ?_, fun j hj hje => ?_, fun j hj hje => ?_, fun j hj hje => ?_⟩
  · rw [edges_length_linkEdge]
    exact taken.edges_le
  · rw [edges_length_linkEdge]
    exact (taken.other j hje).1
  all_goals rw [(h.edge_link taken hd).2 j hj hje]

theorem outList_link (hn : n < s.queryNodes.length)
    (hnew : ∀ j ∈ out n, (s.edge j).dependee ≠ d) :
    OutList (ifqLinkEdge u n d e) n e (e :: out n) := by
  obtain ⟨heu, hlists⟩ := h.slot_unlisted taken
  have hc : ChangedAt s (ifqLinkEdge u n d e) e := h.changedAt_link taken hd
  obtain ⟨hself, -⟩ := @edge_link s out inc n e d u h taken hd
  have hbelow : ∀ j ∈ out n, j < s.queryEdges.length ∧ j ≠ e := fun j hj =>
    ⟨((h.out_mem n hn j).mp hj).1, fun hje => (hlists n hn).1 (hje ▸ hj)⟩
  refine ⟨⟨rfl, heu, ?_⟩, fun j => ?_, ?_⟩
  · show Chain _ _ ((ifqLinkEdge u n d e).edge e).nextDependency _
    rw [hself]
    exact (h.out_chain n hn).congr fun j hj => hc.next j (hbelow j hj).1 (hbelow j hj).2
  · rw [mem_cons]
    by_cases hje : j = e
    · subst hje
      rw [hself, edges_length_linkEdge]
      simp [taken.slot_lt]
    · rw [or_iff_right hje, h.out_mem n hn j, hc.bound j hje]
      exact and_congr_right fun hj => by rw [hc.depender j hj hje]
  · rw [map_cons, map_congr_left fun j hj => hc.dependee j (hbelow j hj).1 (hbelow j hj).2, hself]
    refine nodup_cons.mpr ⟨fun hmem => ?_, h.out_nodup n hn⟩
    obtain ⟨j, hj, hjd⟩ := mem_map.mp hmem
    exact hnew j hj hjd

/-- The edges into a node keep their successors, and all but the first edge into `d` what they
follow. -/
theorem inc_link {c : Nat} (hlt : c < s.queryNodes.length) {j : Nat} (hj : j ∈ inc c) :
    ((ifqLinkEdge u n d e).edge j).nextDepender = (s.edge j).nextDepender ∧
      ((s.node d).firstDepender ≠ j →
        ((ifqLinkEdge u n d e).edge j).previousDepender = (s.edge j).previousDepender) := by
  rw [(h.edge_link taken hd).2 j ((h.inc_mem c hlt j).mp hj).1 fun hje =>
    ((h.slot_unlisted taken).2 c hlt).2 (hje ▸ hj)]
  exact ⟨rfl, fun hjd => if_neg hjd⟩

theorem incList_link : IncList (ifqLinkEdge u n d e) d (e :: inc d) := by
  obtain ⟨heu, hlists⟩ := h.slot_unlisted taken
  have hc : ChangedAt s (ifqLinkEdge u n d e) e := h.changedAt_link taken hd
  obtain ⟨hself, hother⟩ := @edge_link s out inc n e d u h taken hd
  have hnode : (ifqLinkEdge u n d e).node d = _ :=
    node_linkEdge (by rw [taken.nodes, length_modifyNode]; exact hd)
  rw [taken.node, node_modifyNode_self _ hd] at hnode
  refine ⟨?_, fun j => ?_, nodup_cons.mpr ⟨(hlists d hd).2, h.inc_nodup d hd⟩, ?_, ?_⟩
  · rw [hnode, if_pos rfl]
    refine (h.inc_chain d hd).push heu (by rw [hself]) (by rw [hself]) (h.inc_nodup d hd)
      (fun hne => ?_) (fun j hj => (h.inc_link taken hd hd hj).1)
      fun j hj hjd => (h.inc_link taken hd hd hj).2 hjd.symm
    rw [hother _ ((h.inc_mem d hd _).mp (h.first_mem hd hne)).1 (h.first_ne taken hd)]
    exact if_pos rfl
  · rw [mem_cons]
    by_cases hje : j = e
    · subst hje
      rw [hself, edges_length_linkEdge]
      simp [taken.slot_lt]
    · rw [or_iff_right hje, h.inc_mem d hd j, hc.bound j hje]
      exact and_congr_right fun hj => by rw [hc.dependee j hj hje]
  · rw [hnode, length_cons, ← h.inc_count d hd]
    rfl
  · rw [hnode]
    exact counted_validated true _

end Link

/-- Linking a new edge keeps the description, whose lists get the edge in front. -/
theorem link {n d : Nat} (h : Linked s s.heads out inc) (hn : n < s.queryNodes.length)
    (hd : d < s.queryNodes.length) (hnd : n ≠ d)
    (hnew : ∀ e ∈ out n, (s.edge e).dependee ≠ d) (hgen : (s.node d).resultGeneration ≠ 0)
    (hroom : s.freeQueryEdges ≠ [] ∨ s.queryEdges.length < queryEdgeLimit) :
    ∃ u e, ifqQueryNoteIncomingEdgeChange s d true =
        some (s.modifyNode d (QueryNode.counted true)) ∧
      ifqTakeEdgeSlot (s.modifyNode d (QueryNode.counted true)) = (u, e) ∧
      SlotTaken (s.modifyNode d (QueryNode.counted true)) u e ∧
      (∀ m < s.queryNodes.length, e ∉ out m) ∧ (s.node d).firstDepender ≠ e ∧
      Linked (ifqLinkEdge u n d e) (ifqLinkEdge u n d e).heads
        (Function.update out n (e :: out n)) (Function.update inc d (e :: inc d)) := by
  have taken := @takeEdgeSlot (s.modifyNode d (QueryNode.counted true)) h.edges_le h.free_nodup
    h.free_mem hroom
  obtain ⟨u, e, htake⟩ : ∃ u e,
    ifqTakeEdgeSlot (s.modifyNode d (QueryNode.counted true)) = (u, e) :=
    ⟨_, _, rfl⟩
  rw [htake] at taken
  obtain ⟨-, hlists⟩ := h.slot_unlisted taken
  have hc : ChangedAt s (ifqLinkEdge u n d e) e := h.changedAt_link taken hd
  obtain ⟨hself, -⟩ := @edge_link s out inc n e d u h taken hd
  have hnode : ∀ c < s.queryNodes.length, (ifqLinkEdge u n d e).node c = _ := fun c hlt =>
    node_linkEdge (by rw [taken.nodes, length_modifyNode]; exact hlt)
  refine ⟨u, e, h.noteChange hd (fun _ : true = true => h.inc_lt hd hroom) nofun, htake, taken,
    fun m hm => (hlists m hm).1, h.first_ne taken hd, h.changedAt hc (.inr ?_)
    (fun m hmn => ?_) ?_ (h.incList_link taken hd) (fun m hm hmn => ⟨(hlists m hm).1, ?_⟩)
    (fun c hlt hcd => ?_) ?_ fun j => ?_⟩
  · rw [hself]
    exact ⟨hn, hd, hnd, hgen⟩
  · by_cases hm : m < s.queryNodes.length
    · rw [heads, hnode m hm, if_neg (Ne.symm hmn)]
      exact taken.field QueryNode.firstDependency (fun _ => rfl) m
    · rw [heads, heads, node_of_le (by rw [hc.nodes]; omega), node_of_le (by omega)]
  · rw [heads, hnode n hn, if_pos rfl]
    exact h.outList_link taken hd hn hnew
  · rw [hself]
    exact Ne.symm hmn
  · have hnew' : ((ifqLinkEdge u n d e).edge e).dependee ≠ c := by
      rw [hself]
      exact Ne.symm hcd
    refine h.incList_other hc hlt (hlists c hlt).2 hnew' ?_ fun j hj =>
      ⟨(h.inc_link taken hd hlt hj).1, (h.inc_link taken hd hlt hj).2 fun hfj => hcd ?_⟩
    · rw [hnode c hlt, if_neg (Ne.symm hcd), taken.node, node_modifyNode_ne _ (Ne.symm hcd)]
      rfl
    · -- the first edge into `d` is no edge into `c`
      obtain ⟨hjs, hjc⟩ := (h.inc_mem c hlt j).mp hj
      have hmem : j ∈ inc d := hfj ▸ h.first_mem hd (hfj ▸ h.ne_none_of_edge hjs)
      exact hjc.symm.trans ((h.inc_mem d hd j).mp hmem).2
  · rw [free_linkEdge]
    exact taken.free_nodup
  · rw [free_linkEdge, taken.free_mem, free_modifyNode, h.free_mem]
    by_cases hje : j = e
    · subst hje
      rw [hself]
      exact ⟨fun hh => absurd rfl hh.2, fun hh => absurd hh.2 (h.ne_none_of_node hn)⟩
    · rw [and_iff_left hje, hc.bound j hje]
      exact and_congr_right fun hj => by rw [hc.depender j hj hje]


end Linked

end Elisa.Semantic
