import Elisa.Semantic.QueryWalks

/-!
# Replacing the dependencies of a query

A commit that names other dependencies than the edges of its query releases the old edges and links
new ones.  Neither can fail in a pool that is linked and has room: the result has exactly the named
dependencies, each with the current generation of its result, and other edges as they were
(`applyDependencySet_spec`).  A commit with the same dependencies only refreshes the generations its
edges saw (`refreshEdges_spec`).
-/

namespace Elisa.Semantic

open QuerySession LinkedList List

variable {s t u : QuerySession} {head : Nat → Nat} {out out' inc : Nat → List Nat} {q : Nat}

/-! ## What an edit of one query keeps -/

/-- An edit of the edges out of `q` keeps the values and the edges out of every
other node. -/
structure KeepsOthers (q : Nat) (s t : QuerySession) (out out' : Nat → List Nat) : Prop where
  values : SameValues s t
  status : SameStatus s t
  stamps : Stamped s → Stamped t
  poisoned : t.queryGraphPoisoned = s.queryGraphPoisoned
  others : ∀ n, n ≠ q → out' n = out n
  edge : ∀ n < s.queryNodes.length, n ≠ q → ∀ e ∈ out n,
    (t.edge e).dependee = (s.edge e).dependee ∧
      (t.edge e).observedResultGeneration = (s.edge e).observedResultGeneration

theorem KeepsOthers.refl (q : Nat) (s : QuerySession) (out : Nat → List Nat) :
    KeepsOthers q s s out out :=
  ⟨.refl s, fun _ => rfl, id, rfl, fun _ _ => rfl, fun _ _ _ _ _ => ⟨rfl, rfl⟩⟩

theorem KeepsOthers.trans {out'' : Nat → List Nat} (h : KeepsOthers q s t out out')
    (h' : KeepsOthers q t u out' out'') : KeepsOthers q s u out out'' where
  values := h.values.trans h'.values
  status := fun i => (h'.status i).trans (h.status i)
  stamps := fun hs => h'.stamps (h.stamps hs)
  poisoned := h'.poisoned.trans h.poisoned
  others := fun n hn => (h'.others n hn).trans (h.others n hn)
  edge := fun n hl hn e he => by
    obtain ⟨h1, h2⟩ := h.edge n hl hn e he
    obtain ⟨h3, h4⟩ := h'.edge n (by rw [h.values.length]; exact hl) hn e
      (by rw [h.others n hn]; exact he)
    exact ⟨h3.trans h1, h4.trans h2⟩

/-- A node after writes to its links. -/
def QueryNode.SameBut (a b : QueryNode) : Prop :=
  b.core = a.core ∧ b.status = a.status ∧
    b.lastInvalidationGeneration = a.lastInvalidationGeneration

theorem KeepsOthers.of_nodes (hcontext : t.context = s.context)
    (hkeys : t.queryKeyBytes = s.queryKeyBytes) (hbytes : t.queryValueBytes = s.queryValueBytes)
    (hlen : t.queryNodes.length = s.queryNodes.length)
    (hgen : t.queryInvalidationGeneration = s.queryInvalidationGeneration)
    (hpoison : t.queryGraphPoisoned = s.queryGraphPoisoned)
    (hnode : ∀ i, (s.node i).SameBut (t.node i)) (hout : ∀ n, n ≠ q → out' n = out n)
    (hedge : ∀ n < s.queryNodes.length, n ≠ q → ∀ e ∈ out n,
      (t.edge e).dependee = (s.edge e).dependee ∧
        (t.edge e).observedResultGeneration = (s.edge e).observedResultGeneration) :
    KeepsOthers q s t out out' where
  values := ⟨hcontext, hkeys, hbytes, hlen, fun i => (hnode i).1⟩
  status := fun i => (hnode i).2.1
  stamps := fun hs i hi => by
    rw [(hnode i).2.2, hgen]
    exact hs i (hlen ▸ hi)
  poisoned := hpoison
  others := hout
  edge := hedge

/-! ## Releasing -/

theorem sameBut_counted (added : Bool) (node : QueryNode) : node.SameBut (node.counted added) :=
  ⟨rfl, rfl, rfl⟩

theorem releaseEdge_node {d e i : Nat} :
    (s.node i).SameBut ((ifqReleaseEdge (s.modifyNode d (QueryNode.counted false)) e).node i) := by
  rw [Linked.node_releaseEdge]
  have hcounted : (s.node i).SameBut ((s.modifyNode d (QueryNode.counted false)).node i) := by
    rw [node_modifyNode]
    split
    · exact sameBut_counted _ _
    · exact ⟨rfl, rfl, rfl⟩
  split
  · exact hcounted
  · exact hcounted

theorem releaseEdge_rest {e : Nat} :
    (ifqReleaseEdge s e).context = s.context ∧ (ifqReleaseEdge s e).queryKeyBytes =
      s.queryKeyBytes ∧
      (ifqReleaseEdge s e).queryValueBytes = s.queryValueBytes ∧
      (ifqReleaseEdge s e).queryInvalidationGeneration = s.queryInvalidationGeneration ∧
      (ifqReleaseEdge s e).queryGraphPoisoned = s.queryGraphPoisoned := by
  simp only [ifqReleaseEdge, modifyNode, modifyEdge]
  split <;> split <;> simp only [context, and_self]

theorem releaseEdge_heads {d e i : Nat} :
    (ifqReleaseEdge (s.modifyNode d (QueryNode.counted false)) e).heads i = s.heads i := by
  simp only [heads]
  rw [Linked.node_releaseEdge, node_modifyNode]
  split <;> split <;> rfl

theorem releaseEdge_keeps {d e : Nat} (rest : List Nat) (hL : Linked s head out inc)
    (hq : q < s.queryNodes.length) (he : e ∈ out q) :
    KeepsOthers q s (ifqReleaseEdge (s.modifyNode d (QueryNode.counted false)) e) out
      (Function.update out q rest) := by
  have hfields := releaseEdge_rest (s := s.modifyNode d (QueryNode.counted false)) (e := e)
  obtain ⟨hcontext, hkeys, hbytes, hgen, hpoison⟩ := hfields
  refine .of_nodes hcontext hkeys hbytes (by simp) hgen hpoison (fun _ => releaseEdge_node)
    (fun n hn => Function.update_of_ne hn _ _) fun n hn hnq j hj => ?_
  obtain ⟨hje, hdep⟩ := (hL.out_mem n hn j).mp hj
  have hne : e ≠ j := fun hej =>
    hnq (hdep.symm.trans (by rw [← hej]; exact ((hL.out_mem q hq e).mp he).2))
  rw [Linked.edge_releaseEdge (s := s.modifyNode d _) hje (hL.ne_none_of_edge hje).symm hne]
  exact ⟨rfl, rfl⟩

/-- The release of all edges out of a node.  The induction is on the edges that
are left, which the bound on the rounds covers. -/
theorem releaseEdges_spec :
    ∀ (l : List Nat) (rounds : Nat) (s : QuerySession) (head : Nat → Nat)
      (out inc : Nat → List Nat),
      Linked s head out inc → q < s.queryNodes.length → out q = l → l.length ≤ rounds →
      ∃ t inc', ifqReleaseEdges rounds s (head q) = (t, true) ∧
        Linked t (Function.update head q queryNone) (Function.update out q []) inc' ∧
        KeepsOthers q s t out (Function.update out q []) ∧ (∀ i, t.heads i = s.heads i) ∧
        t.freeQueryEdges.length = s.freeQueryEdges.length + l.length ∧
        t.queryEdges.length = s.queryEdges.length := by
  intro l
  induction l with
  | nil =>
    intro rounds s head out inc hL hq hl _
    have hhead : head q = queryNone := by
      have := hL.out_chain q hq
      rwa [hl] at this
    refine ⟨s, inc, ?_, ?_, ?_, fun _ => rfl, rfl, rfl⟩
    · rw [ifqReleaseEdges, if_pos hhead]
    · rw [← hl, ← hhead, Function.update_eq_self, Function.update_eq_self]
      exact hL
    · rw [← hl, Function.update_eq_self]
      exact .refl q s out
  | cons e l ih =>
    intro rounds s head out inc hL hq hl hrounds
    have hchain := hL.out_chain q hq
    rw [hl] at hchain
    obtain ⟨hhead, hne, -⟩ := hchain
    obtain ⟨hnote, hL'⟩ := hL.release hq hl
    have hmem : e ∈ out q := by
      rw [hl]
      exact mem_cons_self
    have hkeeps := releaseEdge_keeps (d := (s.edge e).dependee) l hL hq hmem
    cases rounds with
    | zero => cases hrounds
    | succ rounds =>
      obtain ⟨t, inc', hrun, hL'', hkeeps', hheads, hfree, hedges⟩ := ih rounds _ _ _ _ hL'
        (by simpa using hq) (Function.update_self ..) (by simpa using hrounds)
      simp only [Function.update_idem] at hL'' hkeeps'
      rw [Function.update_self] at hrun
      refine ⟨t, inc', ?_, hL'', hkeeps.trans hkeeps', fun i => ?_, ?_, ?_⟩
      · rw [ifqReleaseEdges, hhead, if_neg hne]
        dsimp only
        rw [hnote]
        exact hrun
      · rw [hheads, releaseEdge_heads]
      · rw [hfree, Linked.free_releaseEdge]
        simp
        omega
      · rw [hedges]
        simp

/-! ## Linking -/

theorem linkEdge_rest {n d e : Nat} :
    (ifqLinkEdge s n d e).context = s.context ∧
      (ifqLinkEdge s n d e).queryKeyBytes = s.queryKeyBytes ∧
      (ifqLinkEdge s n d e).queryValueBytes = s.queryValueBytes ∧
      (ifqLinkEdge s n d e).queryInvalidationGeneration = s.queryInvalidationGeneration ∧
      (ifqLinkEdge s n d e).queryGraphPoisoned = s.queryGraphPoisoned := by
  simp only [ifqLinkEdge, modifyNode, modifyEdge]
  split <;> simp only [context, and_self]

/-- There is room for that many more edges, in free slots or at the end of the pool. -/
def Room (s : QuerySession) (count : Nat) : Prop :=
  s.queryEdges.length + (count - s.freeQueryEdges.length) ≤ queryEdgeLimit

theorem Room.some {count : Nat} (h : Room s (count + 1)) :
    s.freeQueryEdges ≠ [] ∨ s.queryEdges.length < queryEdgeLimit := by
  cases hf : s.freeQueryEdges with
  | nil =>
    rw [Room, hf, length_nil] at h
    exact .inr (by omega)
  | cons e rest => exact .inl nofun

theorem takeEdgeSlot_rest :
    (ifqTakeEdgeSlot s).1.context = s.context ∧
      (ifqTakeEdgeSlot s).1.queryKeyBytes = s.queryKeyBytes ∧
      (ifqTakeEdgeSlot s).1.queryValueBytes = s.queryValueBytes ∧
      (ifqTakeEdgeSlot s).1.queryInvalidationGeneration = s.queryInvalidationGeneration ∧
      (ifqTakeEdgeSlot s).1.queryGraphPoisoned = s.queryGraphPoisoned ∧
      ∀ count, Room s (count + 1) → Room (ifqTakeEdgeSlot s).1 count := by
  cases hf : s.freeQueryEdges with
  | nil =>
    have htake : ifqTakeEdgeSlot s =
        ({ s with queryEdges := s.queryEdges ++ [.free] }, s.queryEdges.length) := by
      simp [ifqTakeEdgeSlot, hf]
    rw [htake]
    refine ⟨rfl, rfl, rfl, rfl, rfl, fun count h => ?_⟩
    simp only [Room, hf, length_append, length_singleton, length_nil] at h ⊢
    omega
  | cons e rest =>
    have htake : ifqTakeEdgeSlot s = ({ s with freeQueryEdges := rest }, e) := by
      simp [ifqTakeEdgeSlot, hf]
    rw [htake]
    refine ⟨rfl, rfl, rfl, rfl, rfl, fun count h => ?_⟩
    simp only [Room, hf, length_cons] at h ⊢
    omega

/-- The edges out of `q`, as pairs of a dependency and the generation it was seen at. -/
def Reads (s : QuerySession) (l : List Nat) (d g : Nat) : Prop :=
  ∃ e ∈ l, (s.edge e).dependee = d ∧ (s.edge e).observedResultGeneration = g

theorem linkEdge_spec {d count : Nat} (hL : Linked s s.heads out inc)
    (hq : q < s.queryNodes.length) (hd : d < s.queryNodes.length) (hqd : q ≠ d)
    (hnew : ∀ e ∈ out q, (s.edge e).dependee ≠ d) (hgen : (s.node d).resultGeneration ≠ 0)
    (hroom : Room s (count + 1)) :
    ∃ u e inc', ifqQueryNoteIncomingEdgeChange s d true =
        some (s.modifyNode d (QueryNode.counted true)) ∧
      ifqTakeEdgeSlot (s.modifyNode d (QueryNode.counted true)) = (u, e) ∧
      Linked (ifqLinkEdge u q d e) (ifqLinkEdge u q d e).heads
        (Function.update out q (e :: out q)) inc' ∧
      KeepsOthers q s (ifqLinkEdge u q d e) out (Function.update out q (e :: out q)) ∧
      Room (ifqLinkEdge u q d e) count ∧
      (∀ j ∈ out q, ((ifqLinkEdge u q d e).edge j).dependee = (s.edge j).dependee ∧
        ((ifqLinkEdge u q d e).edge j).observedResultGeneration =
          (s.edge j).observedResultGeneration) ∧
      ((ifqLinkEdge u q d e).edge e).dependee = d ∧
      ((ifqLinkEdge u q d e).edge e).observedResultGeneration = (s.node d).resultGeneration := by
  obtain ⟨u, e, hnote, htake, hslot, hout, hfirst, hL'⟩ :=
    hL.link hq hd hqd hnew hgen hroom.some
  have hrest := takeEdgeSlot_rest (s := s.modifyNode d (QueryNode.counted true))
  rw [htake] at hrest
  obtain ⟨hcontext, hkeys, hbytes, hinval, hpoison, hroom'⟩ := hrest
  obtain ⟨hcontext', hkeys', hbytes', hinval', hpoison'⟩ := linkEdge_rest (s := u) (n := q) (d := d)
    (e := e)
  have hunode : ∀ i, u.node i = (s.modifyNode d (QueryNode.counted true)).node i := fun i => by
    simp [node, hslot.nodes]
  have hcounted : ∀ i, (s.node i).SameBut (u.node i) := fun i => by
    rw [hunode, node_modifyNode]
    split
    · exact sameBut_counted _ _
    · exact ⟨rfl, rfl, rfl⟩
  have hun : u.queryNodes.length = s.queryNodes.length := by
    rw [hslot.nodes]
    simp
  have hfields : (u.node d).firstDepender = (s.node d).firstDepender ∧
      (u.node d).resultGeneration = (s.node d).resultGeneration := by
    rw [hunode, node_modifyNode_self _ hd]
    exact ⟨rfl, rfl⟩
  -- an edge that is on a list keeps its target and its generation
  have hkept : ∀ n < s.queryNodes.length, ∀ j ∈ out n,
      ((ifqLinkEdge u q d e).edge j).dependee = (s.edge j).dependee ∧
        ((ifqLinkEdge u q d e).edge j).observedResultGeneration =
          (s.edge j).observedResultGeneration := by
    intro n hn j hj
    have hje : j ≠ e := fun h => hout n hn (h ▸ hj)
    have hjs := ((hL.out_mem n hn j).mp hj).1
    obtain ⟨hlt, hread⟩ := hslot.other j hje
    rw [Linked.edge_linkEdge (hlt.mpr hjs) (hL.ne_none_of_edge hjs) hje.symm, hread]
    exact ⟨rfl, rfl⟩
  refine ⟨u, e, _, hnote, htake, hL', ?_, ?_, hkept q hq, ?_⟩
  · refine .of_nodes (hcontext'.trans hcontext) (hkeys'.trans hkeys) (hbytes'.trans hbytes)
      (by rw [Linked.nodes_length_linkEdge, hun]) (hinval'.trans hinval) (hpoison'.trans hpoison)
      (fun i => ?_) (fun n hn => Function.update_of_ne hn _ _) fun n hn _ => hkept n hn
    by_cases hi : i < u.queryNodes.length
    · rw [Linked.node_linkEdge hi]
      exact hcounted i
    have hle : u.queryNodes.length ≤ i := Nat.le_of_not_lt hi
    have hdef : (ifqLinkEdge u q d e).node i = default :=
      node_of_le (by rw [Linked.nodes_length_linkEdge]; exact hle)
    have hdef' : s.node i = default := node_of_le (hun ▸ hle)
    rw [hdef, hdef']
    exact ⟨rfl, rfl, rfl⟩
  · have := hroom' count hroom
    simpa [Room] using this
  · rw [Linked.edge_linkEdge_self hslot.slot_lt (by rw [hfields.1]; exact hfirst)]
    exact ⟨rfl, hfields.2⟩

theorem addDependencies_spec :
    ∀ (ds : List Nat) (s : QuerySession) (out inc : Nat → List Nat), Linked s s.heads out inc →
      q < s.queryNodes.length → ds.Nodup →
      (∀ d ∈ ds, d < s.queryNodes.length ∧ d ≠ q ∧ (s.node d).resultGeneration ≠ 0) →
      (∀ d ∈ ds, ∀ e ∈ out q, (s.edge e).dependee ≠ d) → Room s ds.length →
      ∃ t out' inc', ifqAddDependencies q ds s = (t, true) ∧ Linked t t.heads out' inc' ∧
        KeepsOthers q s t out out' ∧
        ∀ d g, Reads t (out' q) d g ↔
          Reads s (out q) d g ∨ (d ∈ ds ∧ g = (s.node d).resultGeneration) := by
  intro ds
  induction ds with
  | nil =>
    intro s out inc hL _ _ _ _ _
    exact ⟨s, out, inc, rfl, hL, .refl q s out, fun d g => by simp⟩
  | cons d ds ih =>
    intro s out inc hL hq hnd hds hnew hroom
    obtain ⟨hd, hdq, hgen⟩ := hds d mem_cons_self
    obtain ⟨hdds, hnd'⟩ := nodup_cons.mp hnd
    obtain ⟨u, e, inc₁, hnote, htake, hL₁, hkeeps, hroom₁, hkept, hself, hobserved⟩ :=
      linkEdge_spec hL hq hd hdq.symm (hnew d mem_cons_self) hgen hroom
    have hgens : ∀ i, ((ifqLinkEdge u q d e).node i).resultGeneration =
        (s.node i).resultGeneration := hkeeps.values.field QueryNode.resultGeneration fun _ => rfl
    obtain ⟨t, out', inc', hrun, hL', hkeeps', hreads⟩ := ih (ifqLinkEdge u q d e) _ inc₁ hL₁
      (by rw [hkeeps.values.length]; exact hq) hnd'
      (fun d' hd' => by
        obtain ⟨h1, h2, h3⟩ := hds d' (mem_cons_of_mem _ hd')
        exact ⟨by rw [hkeeps.values.length]; exact h1, h2, by rw [hgens]; exact h3⟩)
      (fun d' hd' j hj => by
        rw [Function.update_self] at hj
        rcases mem_cons.mp hj with rfl | hj
        · rw [hself]
          exact fun h => hdds (h ▸ hd')
        · rw [(hkept j hj).1]
          exact hnew d' (mem_cons_of_mem _ hd') j hj) hroom₁
    refine ⟨t, out', inc', ?_, hL', hkeeps.trans hkeeps', fun d' g => ?_⟩
    · rw [ifqAddDependencies, hnote]
      dsimp only
      rw [htake]
      exact hrun
    rw [hreads, Function.update_self, hgens]
    have hone : Reads (ifqLinkEdge u q d e) (e :: out q) d' g ↔
        (d' = d ∧ g = (s.node d).resultGeneration) ∨ Reads s (out q) d' g := by
      constructor
      · rintro ⟨j, hj, rfl, rfl⟩
        rcases mem_cons.mp hj with rfl | hj
        · exact .inl ⟨hself, hobserved⟩
        · exact .inr ⟨j, hj, (hkept j hj).1.symm, (hkept j hj).2.symm⟩
      · rintro (⟨rfl, rfl⟩ | ⟨j, hj, rfl, rfl⟩)
        · exact ⟨e, mem_cons_self, hself, hobserved⟩
        · exact ⟨j, mem_cons_of_mem _ hj, (hkept j hj).1, (hkept j hj).2⟩
    rw [hone, mem_cons]
    constructor
    · rintro ((⟨rfl, rfl⟩ | h) | ⟨h, rfl⟩)
      · exact .inr ⟨.inl rfl, rfl⟩
      · exact .inl h
      · exact .inr ⟨.inr h, rfl⟩
    · rintro (h | ⟨rfl | h, rfl⟩)
      · exact .inl (.inr h)
      · exact .inl (.inl ⟨rfl, rfl⟩)
      · exact .inr ⟨h, rfl⟩

/-! ## The replacement -/

theorem depends_iff_reads {n d g : Nat} (hL : Linked s head out inc)
    (hn : n < s.queryNodes.length) : Depends s n d g ↔ Reads s (out n) d g := by
  constructor
  · rintro ⟨-, e, he, hdep, hd, hg⟩
    exact ⟨e, (hL.out_mem n hn e).mpr ⟨he, hdep⟩, hd, hg⟩
  · rintro ⟨e, he, hd, hg⟩
    obtain ⟨hlt, hdep⟩ := (hL.out_mem n hn e).mp he
    exact ⟨hn, e, hlt, hdep, hd, hg⟩

theorem KeepsOthers.depends {inc' : Nat → List Nat} {n d g : Nat}
    (h : KeepsOthers q s t out out') (hL : Linked s s.heads out inc)
    (hL' : Linked t t.heads out' inc') (hn : n ≠ q) : Depends t n d g ↔ Depends s n d g := by
  by_cases hlt : n < s.queryNodes.length
  · rw [depends_iff_reads hL' (by rw [h.values.length]; exact hlt), depends_iff_reads hL hlt,
      h.others n hn]
    have hedge := h.edge n hlt hn
    constructor
    · rintro ⟨e, he, hd, hg⟩
      exact ⟨e, he, (hedge e he).1.symm.trans hd, (hedge e he).2.symm.trans hg⟩
    · rintro ⟨e, he, hd, hg⟩
      exact ⟨e, he, (hedge e he).1.trans hd, (hedge e he).2.trans hg⟩
  · exact ⟨fun hd => absurd (h.values.length ▸ hd.1) hlt, fun hd => absurd hd.1 hlt⟩

theorem applyDependencySet_spec {ds : List Nat} (hL : Linked s s.heads out inc)
    (hq : q < s.queryNodes.length) (hnd : ds.Nodup)
    (hds : ∀ d ∈ ds, d < s.queryNodes.length ∧ d ≠ q ∧ (s.node d).resultGeneration ≠ 0)
    (hroom : s.queryEdges.length + (ds.length - (s.freeQueryEdges.length + (out q).length)) ≤
      queryEdgeLimit) :
    ∃ t out' inc', ifqApplyDependencySet s q ds = (t, true) ∧ Linked t t.heads out' inc' ∧
      KeepsOthers q s t out out' ∧
      ∀ d g, Depends t q d g ↔ d ∈ ds ∧ g = (s.node d).resultGeneration := by
  have hlen : (out q).length ≤ s.queryEdges.length := by
    refine Linked.length_le_of_slots ?_ fun e he => ((hL.out_mem q hq e).mp he).1
    exact (hL.out_nodup q hq).of_map _
  obtain ⟨r, inc₁, hrun, hL₁, hkeeps₁, hheads, hfree, hedges⟩ :=
    releaseEdges_spec (out q) s.queryEdges.length s s.heads out inc hL hq rfl hlen
  -- the head of the released list is written back
  generalize hv : r.modifyNode q (fun node => { node with firstDependency := queryNone }) = v
  have hqr : q < r.queryNodes.length := by
    rw [hkeeps₁.values.length]
    exact hq
  have hvnode : ∀ i, (r.node i).SameBut (v.node i) ∧ (v.node i).links = (r.node i).links := by
    intro i
    rw [← hv, node_modifyNode]
    split
    · exact ⟨⟨rfl, rfl, rfl⟩, rfl⟩
    · exact ⟨⟨rfl, rfl, rfl⟩, rfl⟩
  have hvheads : v.heads = Function.update s.heads q queryNone := by
    funext i
    simp only [heads]
    rw [← hv]
    by_cases hi : i = q
    · subst hi
      rw [node_modifyNode_self _ hqr, Function.update_self]
    · rw [node_modifyNode_ne _ fun h => hi h.symm, Function.update_of_ne hi]
      exact hheads i
  have hvlen : v.queryNodes.length = r.queryNodes.length := by
    rw [← hv]
    simp
  have hL₂ : Linked v v.heads (Function.update out q []) inc₁ := by
    rw [hvheads]
    exact hL₁.frame (by rw [← hv]; rfl) (by rw [← hv]; rfl) hvlen fun i => (hvnode i).2
  have hkeeps₂ : KeepsOthers q r v (Function.update out q []) (Function.update out q []) := by
    refine .of_nodes ?_ ?_ ?_ hvlen ?_ ?_ (fun i => (hvnode i).1) (fun _ _ => rfl)
      fun _ _ _ _ _ => ?_
    all_goals rw [← hv]
    all_goals first | rfl | exact ⟨rfl, rfl⟩
  have hkeeps := hkeeps₁.trans hkeeps₂
  have hgens : ∀ i, (v.node i).resultGeneration = (s.node i).resultGeneration :=
    hkeeps.values.field QueryNode.resultGeneration fun _ => rfl
  have hroom' : Room v ds.length := by
    have h1 : v.queryEdges.length = s.queryEdges.length := by
      rw [← hv]
      exact hedges
    have h2 : v.freeQueryEdges.length = s.freeQueryEdges.length + (out q).length := by
      rw [← hv]
      exact hfree
    rw [Room, h1, h2]
    exact hroom
  obtain ⟨t, out', inc', hadd, hL', hkeeps', hreads⟩ := addDependencies_spec ds v _ inc₁ hL₂
    (by rw [hkeeps.values.length]; exact hq) hnd
    (fun d hd => by
      obtain ⟨h1, h2, h3⟩ := hds d hd
      exact ⟨by rw [hkeeps.values.length]; exact h1, h2, by rw [hgens]; exact h3⟩)
    (fun d _ e he => by
      rw [Function.update_self] at he
      cases he) hroom'
  refine ⟨t, out', inc', ?_, hL', hkeeps.trans hkeeps', fun d g => ?_⟩
  · unfold ifqApplyDependencySet
    have hstart : (s.node q).firstDependency = s.heads q := rfl
    rw [hstart, hrun]
    dsimp only
    rw [hv]
    exact hadd
  · rw [depends_iff_reads hL' (by rw [(hkeeps.trans hkeeps').values.length]; exact hq), hreads,
      Function.update_self, hgens]
    constructor
    · rintro (⟨e, he, -⟩ | h)
      · cases he
      · exact h
    · exact .inr

/-! ## The refresh -/

def DependencyEdge.seenAt (edge : DependencyEdge) (generation : Nat) : DependencyEdge :=
  { edge with observedResultGeneration := generation }

theorem refreshEdges_spec :
    ∀ (l : List Nat) (remaining : Nat) (s : QuerySession) (cursor : Nat),
      Chain queryNone (fun e => (s.edge e).nextDependency) cursor l →
      (∀ e ∈ l, e < s.queryEdges.length) → l.Nodup → l.length ≤ remaining →
      ∃ edges, ifqRefreshEdges remaining s cursor = { s with queryEdges := edges } ∧
        edges.length = s.queryEdges.length ∧
        ∀ e, (QuerySession.edge { s with queryEdges := edges } e) =
          if e ∈ l then (s.edge e).seenAt (s.node (s.edge e).dependee).resultGeneration
          else s.edge e := by
  intro l
  induction l with
  | nil =>
    intro remaining s cursor hc _ _ _
    rw [chain_nil] at hc
    refine ⟨s.queryEdges, ?_, rfl, fun e => by simp⟩
    rw [ifqRefreshEdges, if_pos hc]
  | cons x l ih =>
    intro remaining s cursor hc hlt hnd hlen
    obtain ⟨rfl, hne, hrest⟩ := hc
    obtain ⟨hxl, hnd'⟩ := nodup_cons.mp hnd
    have hx := hlt cursor mem_cons_self
    generalize hv : s.modifyEdge cursor (fun e => e.seenAt
      (s.node (s.edge cursor).dependee).resultGeneration) = v
    have hvedge : ∀ e, v.edge e = if cursor = e then
        (s.edge e).seenAt (s.node (s.edge e).dependee).resultGeneration else s.edge e := by
      intro e
      rw [← hv, edge_modifyEdge]
      by_cases he : cursor = e
      · subst he
        rw [if_pos ⟨rfl, hx⟩, if_pos rfl]
      · rw [if_neg fun h => he h.1, if_neg he]
    have hvlen : v.queryEdges.length = s.queryEdges.length := by
      rw [← hv]
      simp
    cases remaining with
    | zero => cases hlen
    | succ remaining =>
      obtain ⟨edges, hrun, hlen', hedges⟩ := ih remaining v (s.edge cursor).nextDependency
        (hrest.congr fun e he => by
          have hce : cursor ≠ e := fun h => hxl (h ▸ he)
          rw [hvedge, if_neg hce])
        (fun e he => by
          rw [hvlen]
          exact hlt e (mem_cons_of_mem _ he)) hnd' (by simpa using hlen)
      have hs : ({ v with queryEdges := edges } : QuerySession) =
          { s with queryEdges := edges } := by
        rw [← hv]
        rfl
      refine ⟨edges, ?_, hlen'.trans hvlen, fun e => ?_⟩
      · rw [ifqRefreshEdges, if_neg hne]
        show ifqRefreshEdges remaining (s.modifyEdge cursor fun e => e.seenAt
          (s.node (s.edge cursor).dependee).resultGeneration) _ = _
        rw [hv, hrun, hs]
      rw [← hs, hedges, hvedge]
      have hvnode : ∀ i, v.node i = s.node i := fun i => by
        rw [← hv]
        rfl
      by_cases he : cursor = e
      · subst he
        rw [if_neg hxl, if_pos rfl, if_pos mem_cons_self]
      · have hmem : e ∈ cursor :: l ↔ e ∈ l := by
          rw [mem_cons]
          exact ⟨fun h => h.resolve_left fun h => he h.symm, .inr⟩
        simp only [if_neg he, hmem, hvnode]

theorem Linked.seenAt (h : Linked s head out inc) (hn : t.queryNodes = s.queryNodes)
    (hf : t.freeQueryEdges = s.freeQueryEdges) (hl : t.queryEdges.length = s.queryEdges.length)
    (hedge : ∀ e, ∃ generation, t.edge e = (s.edge e).seenAt generation)
    (hseen : ∀ e < s.queryEdges.length, (s.edge e).depender ≠ queryNone →
      (t.edge e).observedResultGeneration ≠ 0) : Linked t head out inc := by
  have hnode : ∀ i, t.node i = s.node i := fun i => by simp [node, hn]
  have hfield : ∀ (π : DependencyEdge → Nat), (∀ edge g, π (edge.seenAt g) = π edge) →
      ∀ e, π (t.edge e) = π (s.edge e) := fun π hπ e => by
    obtain ⟨g, hg⟩ := hedge e
    rw [hg, hπ]
  have hdepender := hfield (·.depender) fun _ _ => rfl
  have hdependee := hfield (·.dependee) fun _ _ => rfl
  have hnextDependency := hfield (·.nextDependency) fun _ _ => rfl
  have hnextDepender := hfield (·.nextDepender) fun _ _ => rfl
  have hprevious := hfield (·.previousDepender) fun _ _ => rfl
  constructor
  case slot =>
    intro e he
    rw [hl] at he
    rw [hdepender, hdependee, hn]
    rcases h.slot e he with hfree | ⟨h1, h2, h3, -⟩
    · exact .inl hfree
    · exact .inr ⟨h1, h2, h3, hseen e he (h.ne_none_of_node h1)⟩
  all_goals
    simp only [hn, hf, hl, hnode, hdepender, hdependee, hnextDependency, hnextDepender, hprevious]
  · exact h.nodes_le
  · exact h.edges_le
  · exact h.out_chain
  · exact h.out_mem
  · exact h.out_nodup
  · exact h.inc_chain
  · exact h.inc_mem
  · exact h.inc_nodup
  · exact h.inc_count
  · exact h.validated
  · exact h.free_nodup
  · exact h.free_mem

end Elisa.Semantic
