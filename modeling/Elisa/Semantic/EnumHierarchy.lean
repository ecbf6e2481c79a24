import Mathlib.Data.List.Nodup
import Mathlib.Logic.Function.Iterate
import Mathlib.Order.Nat
import Elisa.Semantic.MatchExhaustiveness

/-!
# The order of enums

`enum child is parent` puts an enum below another one.  The walks of the exhaustiveness checks have
as many steps as there are edges; this is enough to find every enum above (`climbs_edges`), so
that being below is an order (`Below.trans`).  Where an enum has one parent only, the arms of a
match are held against a common upper bound of the enums they name
(`coveringHierarchyNode_bounds`).
-/

namespace Elisa.Semantic.Matches.EnumTable

open Lexer List

variable {table : EnumTable} {child enum root top : Bytes}

/-! ## Walks up -/

theorem climbs_iff {steps : Nat} : table.climbs root steps child = true ↔
    ∃ n < steps, table.parentOf^[n + 1] child = root ∧
      ∀ i ≤ n, table.parentOf^[i + 1] child ≠ [] := by
  induction steps generalizing child with
  | zero => simp [climbs]
  | succ steps ih =>
    rw [climbs]
    by_cases empty : table.parentOf child = []
    · rw [if_pos empty]
      constructor
      · nofun
      · rintro ⟨n, -, -, clear⟩
        exact absurd empty (clear 0 (Nat.zero_le n))
    rw [if_neg empty]
    split
    next found => exact iff_of_true rfl ⟨0, Nat.succ_pos steps, found, fun i le => by
      rw [Nat.le_zero.mp le]
      exact empty⟩
    next other =>
      rw [ih]
      constructor
      · rintro ⟨n, lt, at_, clear⟩
        refine ⟨n + 1, Nat.succ_lt_succ lt, at_, fun i le => ?_⟩
        cases i with
        | zero => exact empty
        | succ i => exact clear i (Nat.le_of_succ_le_succ le)
      · rintro ⟨n, lt, at_, clear⟩
        cases n with
        | zero => exact absurd at_ other
        | succ n =>
          exact ⟨n, Nat.lt_of_succ_lt_succ lt, at_, fun i le => clear (i + 1) (Nat.succ_le_succ le)⟩

theorem exists_edge_of_parentOf (parent : table.parentOf child ≠ []) :
    ∃ edge ∈ table.edges, edge.child = child ∧ edge.parent = table.parentOf child := by
  have last : ∀ (edges : List HierarchyEdge) (found : Bytes),
      let result := edges.foldl
        (fun parent edge => if edge.child = child then edge.parent else parent) found
      result = found ∨ ∃ edge ∈ edges, edge.child = child ∧ edge.parent = result := by
    intro edges
    induction edges with
    | nil => exact fun _ => .inl rfl
    | cons edge rest ih =>
      intro found
      rcases ih (if edge.child = child then edge.parent else found) with same | ⟨other, mem, is⟩
      · by_cases here : edge.child = child
        · refine .inr ⟨edge, mem_cons_self, here, ?_⟩
          rw [if_pos here] at same
          rw [foldl_cons, if_pos here, same]
        · rw [if_neg here] at same
          rw [foldl_cons, if_neg here]
          exact .inl same
      · exact .inr ⟨other, mem_cons_of_mem _ mem, is⟩
  exact (last table.edges []).resolve_left parent

/-- A shortest walk meets no enum twice, so that it has at most as many steps as there are edges. -/
theorem climbs_edges {steps : Nat} (climbs : table.climbs root steps child = true) :
    table.enumInHierarchy child root = true := by
  have reached : ∃ n, table.parentOf^[n + 1] child = root := by
    obtain ⟨n, -, at_, -⟩ := climbs_iff.mp climbs
    exact ⟨n, at_⟩
  obtain ⟨n, at_, shortest⟩ : ∃ n, table.parentOf^[n + 1] child = root ∧
      ∀ m < n, table.parentOf^[m + 1] child ≠ root := by
    classical exact ⟨Nat.find reached, Nat.find_spec reached, fun m lt => Nat.find_min reached lt⟩
  have clear : ∀ i ≤ n, table.parentOf^[i + 1] child ≠ [] := by
    obtain ⟨m, -, found, all⟩ := climbs_iff.mp climbs
    have le : n ≤ m := Nat.le_of_not_lt fun lt => shortest m lt found
    exact fun i leN => all i (Nat.le_trans leN le)
  have distinct : ((List.range (n + 1)).map (table.parentOf^[·] child)).Nodup := by
    refine nodup_range.map_on ?_
    have apart : ∀ i j, i < j → j ≤ n → table.parentOf^[i] child ≠ table.parentOf^[j] child := by
      intro i j lt le same
      refine shortest (n - j + i) (by omega) ?_
      calc table.parentOf^[n - j + i + 1] child
          = table.parentOf^[n - j + 1] (table.parentOf^[i] child) := by
            rw [← Function.iterate_add_apply]
            congr 1
            omega
        _ = table.parentOf^[n - j + 1] (table.parentOf^[j] child) := by rw [same]
        _ = table.parentOf^[n + 1] child := by
            rw [← Function.iterate_add_apply]
            congr 1
            omega
        _ = root := at_
    intro i inRange j inRange' same
    rw [mem_range] at inRange inRange'
    rcases Nat.lt_trichotomy i j with lt | rfl | lt
    · exact absurd same (apart i j lt (by omega))
    · rfl
    · exact absurd same.symm (apart j i lt (by omega))
  have children : (List.range (n + 1)).map (table.parentOf^[·] child) ⊆
      table.edges.map HierarchyEdge.child := by
    intro enum mem
    obtain ⟨i, inRange, rfl⟩ := mem_map.mp mem
    have parent := clear i (Nat.le_of_lt_succ (mem_range.mp inRange))
    rw [Function.iterate_succ_apply'] at parent
    obtain ⟨edge, inEdges, is, -⟩ := exists_edge_of_parentOf parent
    exact mem_map.mpr ⟨edge, inEdges, is⟩
  have short := distinct.length_le_of_subset children
  rw [length_map, length_map, length_range] at short
  exact climbs_iff.mpr ⟨n, short, at_, clear⟩

/-! ## The order -/

/-- An enum is another one or, by some edges, below it. -/
def Below (table : EnumTable) (enum top : Bytes) : Prop :=
  enum = top ∨ table.enumInHierarchy enum top = true

theorem Below.trans (lower : table.Below child enum) (upper : table.Below enum top) :
    table.Below child top := by
  rcases lower with rfl | lower
  · exact upper
  rcases upper with rfl | upper
  · exact .inr lower
  obtain ⟨n, -, at_, clear⟩ := climbs_iff.mp lower
  obtain ⟨m, -, at', clear'⟩ := climbs_iff.mp upper
  refine .inr (climbs_edges (climbs_iff.mpr ⟨m + 1 + n, Nat.lt_succ_self _, ?_, fun i le => ?_⟩))
  · rw [Nat.add_assoc, Function.iterate_add_apply, at_, at']
  · by_cases first : i ≤ n
    · exact clear i first
    · have walked := clear' (i - (n + 1)) (by omega)
      rwa [← at_, ← Function.iterate_add_apply,
        show i - (n + 1) + 1 + (n + 1) = i + 1 by omega] at walked

theorem below_parentOf (parent : table.parentOf enum ≠ []) :
    table.Below enum (table.parentOf enum) :=
  .inr (climbs_edges (climbs_iff.mpr ⟨0, Nat.zero_lt_one, rfl, fun i le => by
    rw [Nat.le_zero.mp le]
    exact parent⟩))

/-- Whether an edge is about the enum. -/
def HasEdge (table : EnumTable) (enum : Bytes) : Prop :=
  ∃ edge ∈ table.edges, edge.child = enum ∨ edge.parent = enum

theorem hasEdge_of_enumInHierarchy (below : table.enumInHierarchy child root = true) :
    root ≠ [] ∧ table.HasEdge child ∧ table.HasEdge root := by
  obtain ⟨n, -, at_, clear⟩ := climbs_iff.mp below
  obtain ⟨first, inEdges, is, -⟩ := exists_edge_of_parentOf (clear 0 (Nat.zero_le n))
  have last := clear n (Nat.le_refl n)
  rw [Function.iterate_succ_apply'] at last
  obtain ⟨edge, inEdges', -, parent⟩ := exists_edge_of_parentOf last
  rw [← Function.iterate_succ_apply' table.parentOf, at_] at last parent
  exact ⟨last, ⟨first, inEdges, .inl is⟩, ⟨edge, inEdges', .inr parent⟩⟩

/-! ## Upper bounds -/

/-- No enum has two parents. -/
def OneParent (table : EnumTable) : Prop := (table.edges.map HierarchyEdge.child).Nodup

theorem foldl_parent_of_others {edges : List HierarchyEdge} {found : Bytes}
    (others : ∀ edge ∈ edges, edge.child ≠ enum) :
    edges.foldl (fun parent edge => if edge.child = enum then edge.parent else parent) found =
      found := by
  induction edges with
  | nil => rfl
  | cons edge rest ih =>
    rw [foldl_cons, if_neg (others edge mem_cons_self)]
    exact ih fun other mem => others other (mem_cons_of_mem _ mem)

theorem foldl_parent_of_mem {edges : List HierarchyEdge} {edge : HierarchyEdge} {found : Bytes}
    (nodup : (edges.map HierarchyEdge.child).Nodup) (mem : edge ∈ edges)
    (is : edge.child = enum) :
    edges.foldl (fun parent edge => if edge.child = enum then edge.parent else parent) found =
      edge.parent := by
  induction edges generalizing found with
  | nil => cases mem
  | cons first rest ih =>
    obtain ⟨fresh, nodup⟩ := nodup_cons.mp nodup
    rcases mem_cons.mp mem with rfl | later
    · rw [foldl_cons, if_pos is]
      exact foldl_parent_of_others fun other inRest same =>
        fresh (mem_map.mpr ⟨other, inRest, same.trans is.symm⟩)
    · exact ih nodup later

theorem OneParent.enumHierarchyRootOf_eq (one : table.OneParent) :
    table.enumHierarchyRootOf enum = table.parentOf enum := by
  unfold enumHierarchyRootOf
  cases found : table.edges.find? (·.child = enum) with
  | none =>
    refine (foldl_parent_of_others fun edge mem is => ?_).symm
    exact find?_eq_none.mp found edge mem (decide_eq_true is)
  | some edge =>
    have is := find?_some found
    exact (foldl_parent_of_mem one (mem_of_find?_eq_some found) (of_decide_eq_true is)).symm

/-- The way up from below a bound stops at an enum that has both below it. -/
theorem coverOwner_bounds (one : table.OneParent) {owner anchor : Bytes} {steps : Nat}
    (bound : table.Below owner top) (way : anchor = top ∨ table.climbs top steps anchor = true) :
    table.Below anchor (coverOwner table owner steps anchor) ∧
      table.Below owner (coverOwner table owner steps anchor) ∧
      table.Below (coverOwner table owner steps anchor) top := by
  induction steps generalizing anchor with
  | zero =>
    obtain rfl := way.resolve_right nofun
    exact ⟨.inl rfl, bound, .inl rfl⟩
  | succ steps ih =>
    rw [coverOwner]
    split
    next covered =>
      rw [Bool.or_eq_true, decide_eq_true_eq] at covered
      exact ⟨.inl rfl, covered, way.imp_right climbs_edges⟩
    next uncovered =>
      rw [Bool.or_eq_true, decide_eq_true_eq] at uncovered
      have climbs : table.climbs top (steps + 1) anchor = true :=
        way.resolve_left fun same => uncovered (same ▸ bound)
      rw [EnumTable.climbs] at climbs
      rw [one.enumHierarchyRootOf_eq]
      simp only at climbs ⊢
      by_cases parent : table.parentOf anchor = []
      · rw [if_pos parent] at climbs
        cases climbs
      rw [if_neg parent] at climbs ⊢
      have rest : table.parentOf anchor = top ∨
          table.climbs top steps (table.parentOf anchor) = true := by
        split at climbs
        next at_ => exact .inl at_
        next => exact .inr climbs
      obtain ⟨start, covered, below⟩ := ih rest
      exact ⟨(below_parentOf parent).trans start, covered, below⟩

/-- The enum that the arms are held against has every enum below it that they name, provided that
some enum has. -/
theorem coveringHierarchyNode_bounds (one : table.OneParent) {start : Bytes} {coverage : Coverage}
    (bound : table.Below start top)
    (named : ∀ enum ∈ coverage.covered.map (enumOwnerOfPath table) ++ coverage.categories,
      enum ≠ [] → table.Below enum top) :
    table.Below start (coveringHierarchyNode table start coverage) ∧
      ∀ enum ∈ coverage.covered.map (enumOwnerOfPath table) ++ coverage.categories,
        enum ≠ [] → table.Below enum (coveringHierarchyNode table start coverage) := by
  unfold coveringHierarchyNode
  generalize coverage.covered.map (enumOwnerOfPath table) ++ coverage.categories = enums at named ⊢
  induction enums generalizing start with
  | nil => exact ⟨.inl rfl, nofun⟩
  | cons owner rest ih =>
    rw [foldl_cons]
    have later := fun enum mem => named enum (mem_cons_of_mem _ mem)
    by_cases empty : owner = []
    · rw [if_pos empty]
      obtain ⟨first, others⟩ := ih bound later
      exact ⟨first, forall_mem_cons.mpr ⟨fun given => absurd empty given, others⟩⟩
    · rw [if_neg empty]
      obtain ⟨fromStart, covers, below⟩ :=
        coverOwner_bounds one (named owner mem_cons_self empty) bound
      obtain ⟨first, others⟩ := ih below later
      exact ⟨fromStart.trans first, forall_mem_cons.mpr ⟨fun _ => covers.trans first, others⟩⟩

end Elisa.Semantic.Matches.EnumTable
