import Elisa.Bytes
import Elisa.Lib.DepthFirst
import Elisa.Lib.HeightStack

/-!
# The order of manifests

A project names manifests, and these name others.  `orderManifestGraph` (`project_resolve.elisa`)
goes over the loaded table in depth and puts every manifest behind the ones it depends on.  Names
that are blank or not in the table are passed over.

The two arrays of the source for the nodes and the child cursors of its stack are one stack of pairs
here, that of a depth-first search over the table (`walkStep_search`, `orderManifestGraph_spec`).
-/

namespace Elisa.ProjectSystem

open Lib List

/-! ## Byte strings -/

/-- A list of byte strings, one buffer with offset columns in the source. -/
abbrev StrList := List Bytes

def bytesIsSpace (byte : UInt8) : Bool := byte == 32 || byte == 9 || byte == 10 || byte == 13

def bytesTrimmed (value : Bytes) : Bytes :=
  ((value.dropWhile bytesIsSpace).reverse.dropWhile bytesIsSpace).reverse

/-! ## Tables -/

structure ResolvedManifest where
  name : Bytes
  dependencies : StrList
  deriving DecidableEq

structure ManifestGraph where
  items : List ResolvedManifest
  order : List Nat
  failed : Bool
  errorText : Bytes
  deriving DecidableEq

namespace ManifestGraph

def indexOf (graph : ManifestGraph) (name : Bytes) : Nat :=
  graph.items.findIdx fun item => item.name == name

/-- The manifest that a name in a list stands for, if it is not blank and in the table. -/
def resolve (graph : ManifestGraph) (name : Bytes) : Option Nat :=
  let trimmed := bytesTrimmed name
  if trimmed = [] then none
  else
    let index := graph.indexOf trimmed
    if index ≥ graph.items.length then none else some index

def dependencies (graph : ManifestGraph) (node : Nat) : StrList :=
  match graph.items[node]? with
  | some item => item.dependencies
  | none => []

variable {graph : ManifestGraph}

theorem resolve_lt {name : Bytes} {index : Nat} (h : graph.resolve name = some index) :
    index < graph.items.length := by
  unfold resolve at h
  dsimp only at h
  split at h
  next => cases h
  split at h
  next => cases h
  next within => exact Option.some.inj h ▸ Nat.lt_of_not_le within

/-- The table as a graph: a dependency may lead nowhere. -/
def search (graph : ManifestGraph) : DepthFirst.Graph Nat where
  vertices := range graph.items.length
  degree node := (graph.dependencies node).length
  child node index := ((graph.dependencies node)[index]?).bind graph.resolve
  inside := by
    intro node index child found
    obtain ⟨name, -, resolved⟩ := Option.bind_eq_some_iff.1 found
    exact mem_range.2 (resolve_lt resolved)

def DependsOn (graph : ManifestGraph) (node dependency : Nat) : Prop :=
  ∃ name ∈ graph.dependencies node, graph.resolve name = some dependency

theorem edge_search {node dependency : Nat} :
    graph.search.Edge node dependency ↔ graph.DependsOn node dependency := by
  constructor
  · rintro ⟨index, -, found⟩
    obtain ⟨name, here, resolved⟩ := Option.bind_eq_some_iff.1 found
    exact ⟨name, mem_of_getElem? here, resolved⟩
  · rintro ⟨name, mem, resolved⟩
    obtain ⟨index, within, rfl⟩ := mem_iff_getElem.1 mem
    refine ⟨index, within, ?_⟩
    simp only [search, getElem?_eq_getElem within, Option.bind_some, resolved]

end ManifestGraph

/-! ## The walk -/

inductive Visit where
  | unvisited
  | reached
  | emitted
  deriving DecidableEq

/-- The order so far, the state of each manifest, and the stack of nodes with their child
cursors. -/
structure Walk where
  order : List Nat
  state : List Visit
  pile : HeightStack (Nat × Nat)

/-- The state of a manifest is not 0. -/
def Walk.visited (walk : Walk) (node : Nat) : Bool :=
  walk.state[node]?.any fun visit => visit != .unvisited

def Walk.enter (walk : Walk) (node : Nat) : Walk :=
  { walk with pile := walk.pile.push (node, 0), state := walk.state.set node .reached }

/-- One round of the inner loop, while the stack is not empty. -/
def walkStep (graph : ManifestGraph) (walk : Walk) : Option Walk :=
  match walk.pile.top? with
  | none => none
  | some (node, child) =>
    match (graph.dependencies node)[child]? with
    | none => some { order := walk.order ++ [node], state := walk.state.set node .emitted,
                     pile := walk.pile.pop }
    | some name =>
      let walk := { walk with pile := walk.pile.setTop (node, child + 1) }
      match graph.resolve name with
      | none => some walk
      | some index => some (if walk.visited index then walk else walk.enter index)

def walkRoot (graph : ManifestGraph) (fuel : Nat) (walk : Walk) (root : Bytes) : Option Walk :=
  match graph.resolve root with
  | none => some walk
  | some start =>
    if walk.visited start then some walk
    else
      let last := runSteps (walkStep graph) fuel (walk.enter start)
      if last.pile.height = 0 then some last else none

def startWalk (graph : ManifestGraph) : Walk where
  order := []
  state := replicate graph.items.length .unvisited
  pile := .empty

/-- The table with its order, or nothing if a loop runs out of fuel. -/
def orderManifestGraph (fuel : Nat) (graph : ManifestGraph) (roots : StrList) :
    Option ManifestGraph :=
  (roots.foldlM (walkRoot graph fuel) (startWalk graph)).map fun walk =>
    { graph with order := walk.order }

/-! ## The walk is a depth-first search -/

def Walk.toSearch (walk : Walk) : DepthFirst.Search Nat where
  order := walk.order
  seen := walk.visited
  stack := walk.pile.live

/-- The manifests on the stack have been reached. -/
structure Walk.Consistent (graph : ManifestGraph) (walk : Walk) : Prop where
  length_state : walk.state.length = graph.items.length
  reached : ∀ frame ∈ walk.pile.live, walk.visited frame.1 = true

section
variable {graph : ManifestGraph} {walk next : Walk} {node : Nat}

theorem lt_of_visited (consistent : walk.Consistent graph) (h : walk.visited node = true) :
    node < graph.items.length := by
  obtain ⟨visit, found, -⟩ := (Option.any_eq_true _ _).1 h
  exact consistent.length_state ▸ (List.getElem?_eq_some_iff.1 found).1

theorem visited_set {visit : Visit} {state : List Visit} (within : node < state.length)
    (visits : visit ≠ .unvisited) (other : Nat) :
    ((state.set node visit)[other]?.any fun visit => visit != .unvisited) =
      Function.update (fun other => state[other]?.any fun visit => visit != .unvisited) node true
        other := by
  by_cases here : other = node
  · subst here
    simp [within, visits]
  · rw [Function.update_of_ne here, getElem?_set_ne (Ne.symm here)]

theorem toSearch_enter (consistent : walk.Consistent graph) (within : node < graph.items.length) :
    (walk.enter node).toSearch = walk.toSearch.enter node := by
  have seen : (walk.enter node).visited = Function.update walk.visited node true :=
    funext (visited_set (consistent.length_state ▸ within) (by decide))
  have stack : (walk.enter node).pile.live = (node, 0) :: walk.pile.live := HeightStack.live_push
  unfold Walk.toSearch
  rw [seen, stack]
  rfl

theorem Walk.Consistent.enter (consistent : walk.Consistent graph)
    (within : node < graph.items.length) : (walk.enter node).Consistent graph := by
  refine ⟨(length_set ..).trans consistent.length_state, fun frame mem => ?_⟩
  have visits : ∀ other, (walk.enter node).visited other =
    Function.update walk.visited node true other :=
    visited_set (consistent.length_state ▸ within) (by decide)
  rw [visits, Function.update_apply]
  split
  next => rfl
  rename_i away
  have mem : frame = (node, 0) ∨ frame ∈ walk.pile.live := by simpa [Walk.enter] using mem
  rcases mem with rfl | mem
  · exact absurd rfl away
  · exact consistent.reached frame mem

theorem walkStep_search (consistent : walk.Consistent graph) :
    DepthFirst.step graph.search walk.toSearch = (walkStep graph walk).map Walk.toSearch ∧
      ∀ next, walkStep graph walk = some next → next.Consistent graph := by
  unfold walkStep DepthFirst.step
  cases top : walk.pile.top? with
  | none =>
    have empty : walk.toSearch.stack = [] := HeightStack.top?_eq_none_iff.1 top
    rw [empty]
    exact ⟨rfl, fun next h => by cases h⟩
  | some frame =>
    obtain ⟨node, child⟩ := frame
    have live : walk.toSearch.stack = (node, child) :: walk.pile.pop.live :=
      HeightStack.live_of_top top
    have advanced : (walk.pile.setTop (node, child + 1)).live =
      (node, child + 1) :: walk.pile.pop.live :=
      HeightStack.live_setTop top
    have reached : walk.visited node = true :=
      consistent.reached (node, child) (by rw [show walk.pile.live = _ from live]; exact .head _)
    have below : ∀ frame ∈ walk.pile.pop.live, walk.visited frame.1 = true := fun frame mem =>
      consistent.reached frame (by rw [show walk.pile.live = _ from live]; exact .tail _ mem)
    have node_lt : node < walk.state.length :=
      consistent.length_state ▸ lt_of_visited consistent reached
    simp only [live]
    cases named : (graph.dependencies node)[child]? with
    | none =>
      have done : graph.search.degree node ≤ child := getElem?_eq_none_iff.1 named
      rw [if_pos done]
      have kept : ∀ other, ((walk.state.set node .emitted)[other]?.any fun visit =>
        visit != .unvisited) =
          walk.visited other := by
        intro other
        rw [visited_set node_lt (by decide), Function.update_apply]
        split
        next here => rw [here, reached]
        next => rfl
      refine ⟨congrArg some ?_, ?_⟩
      · unfold Walk.toSearch
        congr
        funext other
        exact (kept other).symm
      · rintro next ⟨⟩
        refine ⟨(length_set ..).trans consistent.length_state, fun frame mem => ?_⟩
        exact (kept frame.1).trans (below frame mem)
    | some name =>
      have going : ¬graph.search.degree node ≤ child :=
        Nat.not_le_of_lt (List.getElem?_eq_some_iff.1 named).1
      have edge : graph.search.child node child = graph.resolve name := by
        simp only [ManifestGraph.search, named, Option.bind_some]
      have followed : Walk.Consistent graph
        { walk with pile := walk.pile.setTop (node, child + 1) } := by
        refine ⟨consistent.length_state, fun frame mem => ?_⟩
        rw [advanced] at mem
        rcases mem_cons.1 mem with rfl | mem
        · exact reached
        · exact below frame mem
      have same : ({ walk with pile := walk.pile.setTop (node, child + 1) } : Walk).toSearch =
          { walk.toSearch with stack := (node, child + 1) :: walk.pile.pop.live } := by
        unfold Walk.toSearch
        rw [advanced]
        rfl
      rw [if_neg going, edge]
      dsimp only
      cases found : graph.resolve name with
      | none =>
        refine ⟨congrArg some same.symm, ?_⟩
        rintro next ⟨⟩
        exact followed
      | some index =>
        have within := ManifestGraph.resolve_lt found
        dsimp only
        cases seen : walk.visited index with
        | true =>
          have here :
            ({ walk with pile := walk.pile.setTop (node, child + 1) } : Walk).visited index =
            true := seen
          rw [show walk.toSearch.seen index = true from seen, here, if_pos rfl, if_pos rfl]
          refine ⟨congrArg some same.symm, ?_⟩
          rintro next ⟨⟩
          exact followed
        | false =>
          have here :
            ({ walk with pile := walk.pile.setTop (node, child + 1) } : Walk).visited index =
            false := seen
          rw [show walk.toSearch.seen index = false from seen, here, if_neg Bool.false_ne_true,
            if_neg Bool.false_ne_true]
          refine ⟨congrArg some ?_, ?_⟩
          · rw [toSearch_enter followed within, same]
          · rintro next ⟨⟩
            exact followed.enter within

def ManifestGraph.rootIndices (graph : ManifestGraph) (roots : StrList) : List Nat :=
  roots.filterMap graph.resolve

theorem consistent_startWalk (graph : ManifestGraph) : (startWalk graph).Consistent graph :=
  ⟨length_replicate, fun frame mem => by simp [startWalk] at mem⟩

theorem toSearch_startWalk (graph : ManifestGraph) :
    (startWalk graph).toSearch = ⟨[], fun _ => false, []⟩ := by
  unfold Walk.toSearch startWalk
  congr
  funext node
  simp only [Walk.visited, getElem?_replicate]
  split <;> rfl

theorem walkRoot_search {fuel : Nat} {root : Bytes} {start : Nat} {roots : Nat → Prop}
    (consistent : walk.Consistent graph) (resolved : graph.resolve root = some start)
    (isRoot : roots start)
    (underway : DepthFirst.Underway graph.search roots walk.toSearch)
    (ended : walk.toSearch.stack = []) (enough : walk.toSearch.left graph.search ≤ fuel) :
    ∃ last, walkRoot graph fuel walk root = some last ∧ last.Consistent graph ∧
      last.toSearch = DepthFirst.searchFrom graph.search fuel walk.toSearch start := by
  have within := ManifestGraph.resolve_lt resolved
  obtain ⟨-, empty, -⟩ :=
    DepthFirst.searchFrom_spec underway ended isRoot (mem_range.2 within) enough
  unfold walkRoot
  unfold DepthFirst.searchFrom at empty ⊢
  rw [resolved]
  dsimp only
  cases seen : walk.visited start with
  | true =>
    rw [show walk.toSearch.seen start = true from seen, if_pos rfl, if_pos rfl]
    exact ⟨walk, rfl, consistent, rfl⟩
  | false =>
    rw [show walk.toSearch.seen start = false from seen, if_neg Bool.false_ne_true] at empty ⊢
    rw [if_neg Bool.false_ne_true]
    have entered := consistent.enter within
    have kept : ∀ walk next : Walk, walk.Consistent graph → walkStep graph walk = some next →
        next.Consistent graph := fun _ next h taken => (walkStep_search h).2 next taken
    have run : runSteps (DepthFirst.step graph.search) fuel (walk.enter start).toSearch =
        (runSteps (walkStep graph) fuel (walk.enter start)).toSearch :=
      runSteps_map Walk.toSearch (Walk.Consistent graph) kept (fun _ h => (walkStep_search h).1)
        entered
    rw [toSearch_enter consistent within] at run
    rw [run] at empty
    have height : (runSteps (walkStep graph) fuel (walk.enter start)).pile.height = 0 := by
      rw [← HeightStack.length_live]
      exact length_eq_zero_iff.2 empty
    rw [if_pos height]
    exact ⟨_, rfl, runSteps_keeps _ kept entered, run.symm⟩

theorem walkRoots_search {fuel : Nat} (all : Nat → Prop) (roots : StrList)
    (isRoot : ∀ start ∈ graph.rootIndices roots, all start) (consistent : walk.Consistent graph)
    (underway : DepthFirst.Underway graph.search all walk.toSearch)
    (ended : walk.toSearch.stack = []) (enough : walk.toSearch.left graph.search ≤ fuel) :
    ∃ last, roots.foldlM (walkRoot graph fuel) walk = some last ∧
      last.toSearch =
        (graph.rootIndices roots).foldl
          (DepthFirst.searchFrom graph.search fuel) walk.toSearch := by
  induction roots generalizing walk with
  | nil => exact ⟨walk, rfl, rfl⟩
  | cons root roots ih =>
    cases resolved : graph.resolve root with
    | none =>
      have same : graph.rootIndices (root :: roots) = graph.rootIndices roots :=
        filterMap_cons_none resolved
      obtain ⟨last, run, eq⟩ := ih (same ▸ isRoot) consistent underway ended enough
      refine ⟨last, ?_, same ▸ eq⟩
      rw [foldlM_cons, walkRoot, resolved]
      exact run
    | some start =>
      have first : graph.rootIndices (root :: roots) = start :: graph.rootIndices roots :=
        filterMap_cons_some resolved
      rw [first] at isRoot ⊢
      obtain ⟨next, run, consistent', eq⟩ := walkRoot_search consistent resolved
        (isRoot start (.head _)) underway ended enough
      have mem : start ∈ graph.search.vertices :=
        mem_range.2 (ManifestGraph.resolve_lt resolved)
      have left' := DepthFirst.left_searchFrom walk.toSearch fuel mem
      obtain ⟨underway', ended', -⟩ := DepthFirst.searchFrom_spec underway ended
        (isRoot start (.head _)) mem enough
      rw [← eq] at underway' ended' left'
      obtain ⟨last, run', eq'⟩ := ih (fun other mem => isRoot other (.tail _ mem)) consistent'
        underway' ended' (Nat.le_trans left' enough)
      refine ⟨last, ?_, ?_⟩
      · rw [foldlM_cons, run]
        exact run'
      · rw [foldl_cons, eq', eq]

/-- The loops end within two rounds for each manifest and one for each dependency.  The order has
each manifest that the roots lead to once and no other, and each comes behind the ones it depends
on, unless these lead back to it. -/
theorem orderManifestGraph_spec (graph : ManifestGraph) (roots : StrList) :
    ∃ order, (∀ fuel ≥ graph.search.budget,
        orderManifestGraph fuel graph roots = some { graph with order := order }) ∧
      order.Nodup ∧
      (∀ node, node ∈ order ↔
        ∃ root ∈ graph.rootIndices roots, Relation.ReflTransGen graph.DependsOn root node) ∧
      ∀ node ∈ order, ∀ dependency, graph.DependsOn node dependency →
        order.idxOf dependency < order.idxOf node ∨
          Relation.ReflTransGen graph.DependsOn dependency node := by
  have leads : graph.search.Edge = graph.DependsOn := by
    funext node dependency
    exact propext ManifestGraph.edge_search
  have inside : ∀ root ∈ graph.rootIndices roots, root ∈ graph.search.vertices := by
    intro root mem
    obtain ⟨name, -, resolved⟩ := mem_filterMap.1 mem
    exact mem_range.2 (ManifestGraph.resolve_lt resolved)
  have start := toSearch_startWalk graph
  have left : (startWalk graph).toSearch.left graph.search = graph.search.budget := by
    rw [start, DepthFirst.left_start]
  let done := (graph.rootIndices roots).foldl
    (DepthFirst.searchFrom graph.search graph.search.budget) (startWalk graph).toSearch
  have postOrder : DepthFirst.PostOrder graph.search (· ∈ graph.rootIndices roots) done.order := by
    have found := (DepthFirst.postOrder_foldl inside (Nat.le_refl graph.search.budget)).2
    rwa [← start] at found
  refine ⟨done.order, fun fuel enough => ?_, postOrder.nodup, ?_, ?_⟩
  · obtain ⟨last, run, eq⟩ := walkRoots_search (· ∈ graph.rootIndices roots) roots
      (fun _ => id) (consistent_startWalk graph) (start ▸ .start) (by rw [start])
      (Nat.le_trans (Nat.le_of_eq left) enough)
    rw [DepthFirst.foldl_searchFrom_of_le inside (Nat.le_of_eq left) enough] at eq
    rw [orderManifestGraph, run, ← show last.order =
      done.order from congrArg DepthFirst.Search.order eq]
    rfl
  · rw [← leads]
    exact postOrder.mem_iff
  · intro node mem dependency depends
    rw [← leads] at depends ⊢
    exact postOrder.idxOf_lt mem depends

end

end Elisa.ProjectSystem
