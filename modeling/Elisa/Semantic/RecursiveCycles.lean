import Mathlib.Data.List.GetD
import Mathlib.Data.List.Nodup
import Mathlib.Logic.Relation
import Elisa.Semantic.Diagnostics

/-!
# Recursive cycles

`progress_recursive_cycles` of `recursive_cycles.elisa`.  The functions that a call with no
arguments can select by name are the rows of a table.  The calls that a row makes with no arguments,
other than the protected ones, are kept in two flat columns, for its default initializers and for
its body, with a start and a count for each row.  A search from every row looks for a way back to
it: it follows the defaults of a row, and its body where the row has no evidence of its own.

What the search has marked is closed: no edge of a marked row leads to the origin, or to a row that
is not marked (`Exhausted.closed`).  So it misses no cycle, though it never marks the origin and
keeps the marks of the branches it has given up.  The collectors of the calls are parameters.
-/

namespace Elisa.Semantic.RecursiveCycles

open List Relation

/-! ## Declarations -/

structure ParamDecl where
  hasDefault : Bool
  defaultValue : Ast.Expr

structure Func where
  name : Bytes
  parameters : List ParamDecl
  body : List Ast.Stmt
  line : Nat

inductive Decl where
  | func (function : Func)
  | other

/-- What finds the calls with no arguments, each with whether it is protected.  A collector is told
on which paths control comes to it, and tells on which ones control may leave.  The collectors of
`catch_totality.elisa` are one instance; nothing here depends on which calls they find. -/
structure Collectors where
  zeroArgCallsExpr : Ast.Expr → Bool → Bool → List (Bytes × Bool) × Bool × Bool
  zeroArgCallsBody : List Ast.Stmt → Bool → Bool → List (Bytes × Bool)
  bodyHasDecreases : List Ast.Stmt → Bool

def parametersAllowZeroArguments (parameters : List ParamDecl) : Bool :=
  parameters.all (·.hasDefault)

def zeroArgCallableDeclarationCount (declarations : List Decl) (target : Bytes) : Nat :=
  declarations.countP fun
    | .func function => function.name == target && parametersAllowZeroArguments function.parameters
    | .other => false

section Table

variable (collect : Collectors)

/-- The loop over the parameters of a function. -/
def collectDefaultZeroArgCalls : List ParamDecl → List (Bytes × Bool) → (uncovered covered : Bool) →
    List (Bytes × Bool)
  | [], out, _, _ => out
  | parameter :: rest, out, uncovered, covered =>
    if parameter.hasDefault && (uncovered || covered) then
      let (calls, uncovered, covered) :=
        collect.zeroArgCallsExpr parameter.defaultValue (uncovered || covered) false
      -- The protection of one initializer ends with it.
      collectDefaultZeroArgCalls rest (out ++ calls) (uncovered || covered) false
    else collectDefaultZeroArgCalls rest out uncovered covered

def keptCalls (calls : List (Bytes × Bool)) : List Bytes :=
  (calls.filter fun call => !call.2).map Prod.fst

def defaultCalls (function : Func) : List Bytes :=
  keptCalls (collectDefaultZeroArgCalls collect function.parameters [] true false)

def bodyCalls (function : Func) : List Bytes :=
  keptCalls (collect.zeroArgCallsBody function.body true false)

structure Table where
  names : List Bytes := []
  lines : List Nat := []
  hasEvidence : List Bool := []
  bodyStart : List Nat := []
  bodyCount : List Nat := []
  allBodyCallees : List Bytes := []
  defaultStart : List Nat := []
  defaultCount : List Nat := []
  allDefaultCallees : List Bytes := []

def Table.push (table : Table) (function : Func) : Table where
  names := table.names ++ [function.name]
  lines := table.lines ++ [function.line]
  hasEvidence := table.hasEvidence ++ [collect.bodyHasDecreases function.body]
  defaultStart := table.defaultStart ++ [table.allDefaultCallees.length]
  defaultCount := table.defaultCount ++ [(defaultCalls collect function).length]
  allDefaultCallees := table.allDefaultCallees ++ defaultCalls collect function
  bodyStart := table.bodyStart ++ [table.allBodyCallees.length]
  bodyCount := table.bodyCount ++ [(bodyCalls collect function).length]
  allBodyCallees := table.allBodyCallees ++ bodyCalls collect function

/-- The declarations that stand in the table. -/
def selectable (declarations : List Decl) : Decl → Option Func
  | .func function =>
    if parametersAllowZeroArguments function.parameters &&
        zeroArgCallableDeclarationCount declarations function.name == 1 then some function
    else none
  | .other => none

def tableOf (declarations : List Decl) : Table :=
  declarations.foldl (fun table declaration =>
    match selectable declarations declaration with
    | some function => table.push collect function
    | none => table) {}

end Table

/-! ## The search -/

namespace Table

def defaultCallees (table : Table) (row : Nat) : List Bytes :=
  (table.allDefaultCallees.drop (table.defaultStart.getD row 0)).take
    (table.defaultCount.getD row 0)

def bodyCallees (table : Table) (row : Nat) : List Bytes :=
  (table.allBodyCallees.drop (table.bodyStart.getD row 0)).take (table.bodyCount.getD row 0)

def target (table : Table) (callee : Bytes) : Option Nat := table.names.findIdx? (· == callee)

end Table

/-- The loop over the calls of a row. -/
def followCalls (table : Table) (origin : Nat)
    (enter : Nat → List Bool → Option (Bool × List Bool)) :
    List Bytes → List Bool → Option (Bool × List Bool)
  | [], visited => some (false, visited)
  | callee :: rest, visited =>
    match table.target callee with
    | none => followCalls table origin enter rest visited
    | some target =>
      if target = origin then some (true, visited)
      else if visited.getD target false then followCalls table origin enter rest visited
      else do
        let (found, visited) ← enter target (visited.set target true)
        if found then some (true, visited) else followCalls table origin enter rest visited

def reachesSelfWithDefaults (table : Table) (origin : Nat) :
    Nat → Nat → List Bool → Option (Bool × List Bool)
  | 0, _, _ => none
  | fuel + 1, current, visited => do
    let enter := reachesSelfWithDefaults table origin fuel
    let (found, visited) ← followCalls table origin enter (table.defaultCallees current) visited
    if found then some (true, visited)
    else if table.hasEvidence.getD current false then some (false, visited)
    else followCalls table origin enter (table.bodyCallees current) visited

def Table.finding (table : Table) (row : Nat) : Diagnostic :=
  { kind := .progressRecursiveCycle, name := table.names.getD row []
    line := table.lines.getD row 0 }

def reportCycles (table : Table) (fuel : Nat) :
    List Nat → List Diagnostic → Option (List Diagnostic)
  | [], diagnostics => some diagnostics
  | row :: rest, diagnostics => do
    let visited := replicate table.names.length false
    let (found, _) ← reachesSelfWithDefaults table row fuel row visited
    reportCycles table fuel rest (if found then diagnostics ++ [table.finding row] else diagnostics)

def progressRecursiveCycles (collect : Collectors) (fuel : Nat) (declarations : List Decl)
    (diagnostics : List Diagnostic) : Option (List Diagnostic) :=
  let table := tableOf collect declarations
  reportCycles table fuel (range table.names.length) diagnostics

/-! ## What a search has seen -/

def Marked (visited : List Bool) (row : Nat) : Prop := visited.getD row false = true

def Table.callees (table : Table) (row : Nat) : List Bytes :=
  table.defaultCallees row ++ if table.hasEvidence.getD row false then [] else table.bodyCallees row

def Table.Targets (table : Table) (callees : List Bytes) (row : Nat) : Prop :=
  ∃ callee ∈ callees, table.target callee = some row

abbrev Table.Edge (table : Table) (row : Nat) : Nat → Prop := table.Targets (table.callees row)

/-- What a search from some rows has marked when it has found no way to the origin. -/
structure Exhausted (table : Table) (origin : Nat) (starts : Nat → Prop)
    (visited visited' : List Bool) : Prop where
  length : visited'.length = visited.length
  grows : ∀ row, Marked visited row → Marked visited' row
  fewer : visited'.count false ≤ visited.count false
  seen : ∀ row, starts row → row ≠ origin ∧ Marked visited' row
  closed : ∀ row, Marked visited' row → ¬Marked visited row →
    ∀ next, table.Edge row next → next ≠ origin ∧ Marked visited' next

/-- What the result of a search says. -/
def Searched (table : Table) (origin : Nat) (starts : Nat → Prop) (visited : List Bool) :
    Bool × List Bool → Prop
  | (true, _) => ∃ row, starts row ∧ ReflTransGen table.Edge row origin
  | (false, visited') => Exhausted table origin starts visited visited'

section Search

variable {table : Table} {origin : Nat} {visited visited' : List Bool} {starts others : Nat → Prop}

theorem marked_set {row other : Nat} (inside : row < visited.length) :
    Marked (visited.set row true) other ↔ other = row ∨ Marked visited other := by
  simp only [Marked, getD_eq_getElem?_getD, getElem?_set]
  split
  next same => simp [← same, inside]
  next apart => simp [Ne.symm apart]

theorem count_set {row : Nat} (inside : row < visited.length) (fresh : ¬Marked visited row) :
    (visited.set row true).count false + 1 = visited.count false := by
  have unmarked : visited[row] = false := by
    simpa [Marked, getD_eq_getElem?_getD, inside] using fresh
  have some_ : 0 < visited.count false := count_pos_iff.mpr (unmarked ▸ getElem_mem inside)
  rw [List.count_set inside, unmarked]
  simp only [beq_self_eq_true, if_true, Bool.true_beq, Bool.false_eq_true, if_false]
  omega

namespace Exhausted

theorem nothing (known : ∀ row, starts row → row ≠ origin ∧ Marked visited row) :
    Exhausted table origin starts visited visited :=
  ⟨rfl, fun _ marked => marked, Nat.le_refl _, known, fun _ marked fresh => (fresh marked).elim⟩

theorem append {visited'' : List Bool} {all : Nat → Prop}
    (first : Exhausted table origin starts visited visited')
    (second : Exhausted table origin others visited' visited'')
    (covers : ∀ row, all row ↔ starts row ∨ others row) :
    Exhausted table origin all visited visited'' where
  length := second.length.trans first.length
  grows row marked := second.grows row (first.grows row marked)
  fewer := Nat.le_trans second.fewer first.fewer
  seen row here := by
    rcases (covers row).mp here with here | here
    · exact (first.seen row here).imp_right (second.grows row)
    · exact second.seen row here
  closed row marked fresh next edge := by
    by_cases old : Marked visited' row
    · exact (first.closed row old fresh next edge).imp_right (second.grows next)
    · exact second.closed row marked old next edge

/-- A row that is entered: it is marked, and what its edges lead to is searched. -/
theorem entered {row : Nat} (inside : row < visited.length) (fresh : ¬Marked visited row)
    (apart : row ≠ origin)
    (inner : Exhausted table origin (table.Edge row) (visited.set row true) visited') :
    Exhausted table origin (· = row) visited visited' where
  length := by rw [inner.length, length_set]
  grows other marked := inner.grows other ((marked_set inside).mpr (.inr marked))
  fewer := by
    have := inner.fewer
    have := RecursiveCycles.count_set inside fresh
    omega
  seen other here := by
    rw [here]
    exact ⟨apart, inner.grows row ((marked_set inside).mpr (.inl rfl))⟩
  closed other marked unmarked next edge := by
    by_cases here : other = row
    · rw [here] at edge
      exact inner.seen next edge
    · refine inner.closed other marked (fun old => ?_) next edge
      exact unmarked (((marked_set inside).mp old).resolve_left here)

/-- A row that leads to itself is found: what a search from it has marked is closed. -/
theorem no_cycle (exhausted : Exhausted table origin (table.Edge origin) visited visited')
    (unmarked : ∀ row, ¬Marked visited row) : ¬TransGen table.Edge origin origin := by
  intro cycle
  have kept : ∀ {row}, TransGen table.Edge origin row → row ≠ origin ∧ Marked visited' row := by
    intro row way
    induction way with
    | single edge => exact exhausted.seen _ edge
    | tail _ edge ih => exact exhausted.closed _ ih.2 (unmarked _) _ edge
  exact (kept cycle).1 rfl

end Exhausted

theorem Searched.append {result : Bool × List Bool} {all : Nat → Prop}
    (first : Exhausted table origin starts visited visited')
    (second : Searched table origin others visited' result)
    (covers : ∀ row, all row ↔ starts row ∨ others row) :
    Searched table origin all visited result := by
  obtain ⟨found, visited''⟩ := result
  cases found with
  | true =>
    obtain ⟨row, here, leads⟩ := second
    exact ⟨row, (covers row).mpr (.inr here), leads⟩
  | false => exact first.append second covers

theorem target_lt {callee : Bytes} {row : Nat} (leads : table.target callee = some row) :
    row < table.names.length := by
  obtain ⟨lt, -⟩ := findIdx?_eq_some_iff_getElem.mp leads
  exact lt

/-- What a search that enters a row does, with `fuel` rows left at most. -/
def Enters (table : Table) (origin fuel : Nat)
    (enter : Nat → List Bool → Option (Bool × List Bool)) : Prop :=
  ∀ row visited, visited.length = table.names.length → visited.count false < fuel →
    ∃ result, enter row visited = some result ∧
      Searched table origin (table.Edge row) visited result

theorem followCalls_spec {fuel : Nat} {enter : Nat → List Bool → Option (Bool × List Bool)}
    (enters : Enters table origin fuel enter) (callees : List Bytes)
    (length : visited.length = table.names.length) (enough : visited.count false < fuel + 1) :
    ∃ result, followCalls table origin enter callees visited = some result ∧
      Searched table origin (table.Targets callees) visited result := by
  induction callees generalizing visited with
  | nil =>
    exact ⟨(false, visited), rfl, .nothing fun row ⟨callee, mem, _⟩ => (not_mem_nil mem).elim⟩
  | cons callee rest ih =>
    have targets (row : Nat) : table.Targets (callee :: rest) row ↔
        table.target callee = some row ∨ table.Targets rest row := by
      simp [Table.Targets]
    unfold followCalls
    cases leads : table.target callee with
    | none =>
      obtain ⟨result, run, searched⟩ := ih length enough
      refine ⟨result, run, ?_⟩
      have first : Exhausted table origin (fun _ => False) visited visited :=
        .nothing fun _ => nofun
      refine .append first searched fun row => ?_
      rw [targets, leads]
      simp
    | some target =>
      have inside : target < visited.length := length ▸ target_lt leads
      have split (row : Nat) : table.Targets (callee :: rest) row ↔
          row = target ∨ table.Targets rest row := by
        rw [targets, leads, Option.some.injEq, eq_comm]
      dsimp only
      split_ifs with back old
      · exact ⟨(true, visited), rfl, target, (split target).mpr (.inl rfl), back ▸ .refl⟩
      · obtain ⟨result, run, searched⟩ := ih length enough
        have known : Exhausted table origin (· = target) visited visited :=
          .nothing fun row here => here ▸ ⟨back, old⟩
        exact ⟨result, run, .append known searched split⟩
      · have fewer := count_set inside old
        obtain ⟨⟨found, visited'⟩, run, searched⟩ :=
          enters target (visited.set target true) (by rw [length_set, length]) (by omega)
        rw [run]
        cases found with
        | true =>
          obtain ⟨next, edge, leads⟩ := searched
          exact ⟨(true, visited'), rfl, target, (split target).mpr (.inl rfl), .head edge leads⟩
        | false =>
          have first := Exhausted.entered inside old back searched
          have left := first.fewer
          obtain ⟨result, run', searched'⟩ := ih (first.length.trans length) (by omega)
          exact ⟨result, run', .append first searched' split⟩

/-- A search ends, if it may be as deep as there are rows that are not marked. -/
theorem reachesSelfWithDefaults_spec (fuel : Nat) :
    Enters table origin fuel (reachesSelfWithDefaults table origin fuel) := by
  induction fuel with
  | zero => exact fun row visited _ enough => (Nat.not_lt_zero _ enough).elim
  | succ fuel ih =>
    intro row visited length enough
    unfold reachesSelfWithDefaults
    obtain ⟨⟨found, visited'⟩, run, searched⟩ :=
      followCalls_spec ih (table.defaultCallees row) length enough
    have edges (next : Nat) : table.Edge row next ↔
        table.Targets (table.defaultCallees row) next ∨ table.Targets
          (if table.hasEvidence.getD row false then [] else table.bodyCallees row) next := by
      simp only [Table.Targets, Table.callees, mem_append, or_and_right, exists_or]
    simp only [run, Option.bind_eq_bind, Option.bind_some]
    cases found with
    | true =>
      obtain ⟨next, here, leads⟩ := searched
      exact ⟨(true, visited'), rfl, next, (edges next).mpr (.inl here), leads⟩
    | false =>
      cases evidence : table.hasEvidence.getD row false with
      | true =>
        refine ⟨(false, visited'), rfl,
          Exhausted.append searched (.nothing fun next here => ?_) edges⟩
        rw [evidence, if_pos rfl] at here
        obtain ⟨callee, none_, -⟩ := here
        exact (not_mem_nil none_).elim
      | false =>
        have left := searched.fewer
        obtain ⟨result, run', searched'⟩ := followCalls_spec ih (table.bodyCallees row)
          (searched.length.trans length) (by omega)
        refine ⟨result, run', .append searched searched' fun next => ?_⟩
        rw [edges, evidence]
        simp

/-- A search from a row finds a way back exactly where there is one. -/
theorem reachesSelfWithDefaults_iff {fuel : Nat} (enough : table.names.length < fuel) (row : Nat) :
    ∃ found visited', reachesSelfWithDefaults table row fuel row
        (replicate table.names.length false) = some (found, visited') ∧
      (found = true ↔ TransGen table.Edge row row) := by
  have enters : Enters table row fuel _ := reachesSelfWithDefaults_spec fuel
  obtain ⟨⟨found, visited'⟩, run, searched⟩ :=
    enters row (replicate table.names.length false) length_replicate (by simpa using enough)
  refine ⟨found, visited', run, ?_⟩
  cases found with
  | true =>
    obtain ⟨next, edge, leads⟩ := searched
    exact iff_of_true rfl (.head' edge leads)
  | false =>
    refine iff_of_false Bool.false_ne_true (searched.no_cycle fun other marked => ?_)
    rw [Marked, getD_eq_getElem?_getD, getElem?_replicate] at marked
    split at marked <;> cases marked

/-- The rows that are reported are those on a cycle, in their order. -/
theorem reportCycles_spec {fuel : Nat} (enough : table.names.length < fuel) (rows : List Nat)
    (diagnostics : List Diagnostic) :
    ∃ reported, reportCycles table fuel rows diagnostics =
        some (diagnostics ++ reported.map table.finding) ∧ reported <+ rows ∧
      ∀ row, row ∈ reported ↔ row ∈ rows ∧ TransGen table.Edge row row := by
  induction rows generalizing diagnostics with
  | nil => exact ⟨[], by simp [reportCycles], .refl _, by simp⟩
  | cons row rest ih =>
    obtain ⟨found, visited', run, way⟩ := reachesSelfWithDefaults_iff enough row
    unfold reportCycles
    simp only [run, Option.bind_eq_bind, Option.bind_some]
    cases found with
    | true =>
      obtain ⟨reported, run', sub, mem⟩ := ih (diagnostics ++ [table.finding row])
      refine ⟨row :: reported, by simpa using run', sub.cons_cons row, fun other => ?_⟩
      rw [mem_cons, mem_cons, mem, or_and_right]
      exact or_congr_left (iff_self_and.mpr fun same => same ▸ way.mp rfl)
    | false =>
      obtain ⟨reported, run', sub, mem⟩ := ih diagnostics
      refine ⟨reported, by simpa using run', sub.cons row, fun other => ?_⟩
      rw [mem, mem_cons, or_and_right]
      refine (or_iff_right fun ⟨same, cycle⟩ => ?_).symm
      exact Bool.false_ne_true (way.mpr (same ▸ cycle))

end Search

/-! ## The table and the graph -/

def callables (declarations : List Decl) : List Func :=
  declarations.filterMap (selectable declarations)

/-- The calls of the graph: from a function of the table to one that has the name. -/
def Calls (collect : Collectors) (declarations : List Decl) (caller callee : Bytes) : Prop :=
  ∃ function ∈ callables declarations, function.name = caller ∧
    callee ∈ (callables declarations).map Func.name ∧
      (callee ∈ defaultCalls collect function ∨
        collect.bodyHasDecreases function.body = false ∧ callee ∈ bodyCalls collect function)

structure Column (starts counts : List Nat) (all : List Bytes) (rows : List (List Bytes)) :
    Prop where
  length_starts : starts.length = rows.length
  length_counts : counts.length = rows.length
  holds : ∀ i row, rows[i]? = some row → starts.getD i 0 + counts.getD i 0 ≤ all.length ∧
    (all.drop (starts.getD i 0)).take (counts.getD i 0) = row

theorem Column.push {starts counts : List Nat} {all : List Bytes} {rows : List (List Bytes)}
    (column : Column starts counts all rows) (row : List Bytes) :
    Column (starts ++ [all.length]) (counts ++ [row.length]) (all ++ row) (rows ++ [row]) := by
  refine ⟨by simp [column.length_starts], by simp [column.length_counts], fun i found here => ?_⟩
  have inside := (List.getElem?_eq_some_iff.mp here).1
  simp only [length_append, length_singleton, Nat.lt_succ_iff] at inside
  rcases Nat.lt_or_eq_of_le inside with earlier | last
  · rw [getElem?_append_left earlier] at here
    obtain ⟨fits, same⟩ := column.holds i found here
    rw [getD_append _ _ _ _ (column.length_starts ▸ earlier),
      getD_append _ _ _ _ (column.length_counts ▸ earlier),
      length_append, drop_append_of_le_length (by omega),
      take_append_of_le_length (by rw [length_drop]; omega)]
    exact ⟨by omega, same⟩
  · obtain rfl : row = found := by simpa [last] using here
    have starts_ : starts.length ≤ i := Nat.le_of_eq (column.length_starts.trans last.symm)
    have counts_ : counts.length ≤ i := Nat.le_of_eq (column.length_counts.trans last.symm)
    rw [getD_append_right _ _ _ _ starts_, getD_append_right _ _ _ _ counts_, last,
      column.length_starts, column.length_counts, Nat.sub_self]
    simp

structure Table.Holds (collect : Collectors) (table : Table) (rows : List Func) : Prop where
  names : table.names = rows.map Func.name
  lines : table.lines = rows.map Func.line
  evidence : table.hasEvidence = rows.map fun function => collect.bodyHasDecreases function.body
  defaults : Column table.defaultStart table.defaultCount table.allDefaultCallees
    (rows.map (defaultCalls collect))
  bodies : Column table.bodyStart table.bodyCount table.allBodyCallees
    (rows.map (bodyCalls collect))

section Graph

variable {collect : Collectors} {declarations : List Decl} {table : Table} {rows : List Func}

theorem Table.Holds.push (holds : table.Holds collect rows) (function : Func) :
    (table.push collect function).Holds collect (rows ++ [function]) := by
  refine ⟨?_, ?_, ?_, ?_, ?_⟩
  · simp [Table.push, holds.names]
  · simp [Table.push, holds.lines]
  · simp [Table.push, holds.evidence]
  · rw [map_append]
    exact holds.defaults.push _
  · rw [map_append]
    exact holds.bodies.push _

theorem tableOf_holds (collect : Collectors) (declarations : List Decl) :
    (tableOf collect declarations).Holds collect (callables declarations) := by
  have grown (rest : List Decl) (table : Table) (rows : List Func)
      (holds : table.Holds collect rows) : (rest.foldl (fun table declaration =>
        match selectable declarations declaration with
        | some function => table.push collect function
        | none => table) table).Holds collect
          (rows ++ rest.filterMap (selectable declarations)) := by
    induction rest generalizing table rows with
    | nil => simpa using holds
    | cons declaration rest ih =>
      rw [foldl_cons]
      cases selected : selectable declarations declaration with
      | none => simpa [selected] using ih table rows holds
      | some function => simpa [selected] using ih _ _ (holds.push function)
  exact grown declarations {} [] ⟨rfl, rfl, rfl, ⟨rfl, rfl, nofun⟩, ⟨rfl, rfl, nofun⟩⟩

theorem selectable_some {declaration : Decl} {function : Func}
    (selected : selectable declarations declaration = some function) :
    (parametersAllowZeroArguments function.parameters = true ∧
      zeroArgCallableDeclarationCount declarations function.name = 1) ∧
      declaration = .func function := by
  cases declaration with
  | other => cases selected
  | func other =>
    rw [selectable] at selected
    split at selected
    next taken =>
      obtain rfl := Option.some.inj selected
      rw [Bool.and_eq_true, beq_iff_eq] at taken
      exact ⟨taken, rfl⟩
    next => cases selected

theorem nodup_callables (declarations : List Decl) :
    ((callables declarations).map Func.name).Nodup := by
  have counted (rest : List Decl) (name : Bytes) :
      ((rest.filterMap (selectable declarations)).map Func.name).count name ≤
        zeroArgCallableDeclarationCount rest name := by
    induction rest with
    | nil => exact Nat.le_refl _
    | cons declaration rest ih =>
      rw [zeroArgCallableDeclarationCount, countP_cons]
      cases declaration with
      | other => exact ih
      | func function =>
        rw [filterMap_cons]
        cases selected : selectable declarations (.func function) with
        | none => exact Nat.le_trans ih (Nat.le_add_right _ _)
        | some taken =>
          obtain ⟨allowed, same⟩ := selectable_some selected
          cases same
          simp only [map_cons, count_cons, allowed.1, Bool.and_true]
          exact Nat.add_le_add_right ih _
  refine nodup_iff_count_le_one.mpr fun name => ?_
  by_cases mem : name ∈ (callables declarations).map Func.name
  · obtain ⟨function, inside, rfl⟩ := mem_map.mp mem
    obtain ⟨declaration, -, selected⟩ := mem_filterMap.mp inside
    obtain ⟨⟨-, once⟩, -⟩ := selectable_some selected
    exact once ▸ counted declarations function.name
  · rw [count_eq_zero_of_not_mem mem]
    exact Nat.zero_le 1

theorem edge_iff (holds : table.Holds collect rows) (nodup : (rows.map Func.name).Nodup)
    (row next : Nat) : table.Edge row next ↔ ∃ function callee, rows[row]? = some function ∧
      (rows.map Func.name)[next]? = some callee ∧ (callee ∈ defaultCalls collect function ∨
        collect.bodyHasDecreases function.body = false ∧ callee ∈ bodyCalls collect function) := by
  have target (callee : Bytes) : table.target callee = some next ↔
      (rows.map Func.name)[next]? = some callee := by
    rw [Table.target, holds.names, findIdx?_eq_some_iff_getElem, List.getElem?_eq_some_iff]
    refine ⟨fun ⟨lt, same, _⟩ => ⟨lt, beq_iff_eq.mp same⟩,
      fun ⟨lt, same⟩ => ⟨lt, by simpa using same, fun j earlier other => ?_⟩⟩
    have := (nodup.getElem_inj_iff).mp ((beq_iff_eq.mp other).trans same.symm)
    omega
  cases here : rows[row]? with
  | none =>
    have outside := List.getElem?_eq_none_iff.mp here
    have none_ : table.callees row = [] := by
      have start (column : List Nat) (length : column.length = rows.length) :
          column.getD row 0 = 0 := by
        rw [getD_eq_getElem?_getD, List.getElem?_eq_none_iff.mpr (length ▸ outside),
          Option.getD_none]
      rw [Table.callees, Table.defaultCallees, Table.bodyCallees,
        start table.defaultCount (by simpa using holds.defaults.length_counts),
        start table.bodyCount (by simpa using holds.bodies.length_counts), take_zero, take_zero]
      split <;> rfl
    simp [Table.Targets, none_]
  | some function =>
    have defaults : table.defaultCallees row = defaultCalls collect function :=
      (holds.defaults.holds row _ (by rw [getElem?_map, here]; rfl)).2
    have bodies : table.bodyCallees row = bodyCalls collect function :=
      (holds.bodies.holds row _ (by rw [getElem?_map, here]; rfl)).2
    have evidence : table.hasEvidence.getD row false = collect.bodyHasDecreases function.body := by
      rw [holds.evidence, getD_eq_getElem?_getD, getElem?_map, here]
      rfl
    simp only [Table.Targets, Table.callees, defaults, bodies, evidence, target, mem_append]
    constructor
    · rintro ⟨callee, mem, leads⟩
      refine ⟨function, callee, rfl, leads, ?_⟩
      cases evidence : collect.bodyHasDecreases function.body with
      | false => simpa [evidence] using mem
      | true => simpa [evidence] using mem
    · rintro ⟨_, callee, ⟨⟩, leads, mem⟩
      refine ⟨callee, ?_, leads⟩
      cases evidence : collect.bodyHasDecreases function.body with
      | false => simpa [evidence] using mem
      | true => simpa [evidence] using mem

/-- A row is on a cycle of the table exactly if its name is on one of the graph. -/
theorem cycle_iff {row : Nat} {function : Func}
    (here : (callables declarations)[row]? = some function) :
    TransGen (tableOf collect declarations).Edge row row ↔
      TransGen (Calls collect declarations) function.name function.name := by
  have nodup := nodup_callables declarations
  have edge := edge_iff (tableOf_holds collect declarations) nodup
  have named : ((callables declarations).map Func.name)[row]? = some function.name := by
    rw [getElem?_map, here]
    rfl
  constructor
  · intro cycle
    have found {name : Bytes} {i : Nat}
        (at_ : ((callables declarations).map Func.name)[i]? = some name) :
        ((callables declarations).map Func.name).getD i [] = name := by
      rw [getD_eq_getElem?_getD, at_, Option.getD_some]
    have lifted : TransGen (Calls collect declarations)
        (((callables declarations).map Func.name).getD row [])
        (((callables declarations).map Func.name).getD row []) := by
      refine cycle.lift (((callables declarations).map Func.name).getD · []) fun i j way => ?_
      obtain ⟨caller, callee, at_, named, calls⟩ := (edge i j).mp way
      change Calls collect declarations (((callables declarations).map Func.name).getD i [])
        (((callables declarations).map Func.name).getD j [])
      rw [found (i := i) (by rw [getElem?_map, at_]; rfl), found named]
      exact ⟨caller, mem_of_getElem? at_, rfl, mem_of_getElem? named, calls⟩
    rwa [found named] at lifted
  · intro cycle
    have index {name : Bytes} {i : Nat}
        (at_ : ((callables declarations).map Func.name)[i]? = some name) :
        ((callables declarations).map Func.name).idxOf name = i := by
      obtain ⟨lt, rfl⟩ := List.getElem?_eq_some_iff.mp at_
      exact nodup.idxOf_getElem i lt
    have lifted : TransGen (tableOf collect declarations).Edge
        (((callables declarations).map Func.name).idxOf function.name)
        (((callables declarations).map Func.name).idxOf function.name) := by
      refine cycle.lift ((callables declarations).map Func.name).idxOf fun caller callee way => ?_
      obtain ⟨function, mem, rfl, named, calls⟩ := way
      obtain ⟨i, at_⟩ := mem_iff_getElem?.mp mem
      obtain ⟨j, at_'⟩ := mem_iff_getElem?.mp named
      change (tableOf collect declarations).Edge
        (((callables declarations).map Func.name).idxOf function.name)
        (((callables declarations).map Func.name).idxOf callee)
      rw [index at_', index (i := i) (by rw [getElem?_map, at_]; rfl)]
      exact (edge i j).mpr ⟨function, callee, at_, at_', calls⟩
    rwa [index named] at lifted

end Graph

theorem filterMap_range_getElem? {α : Type} (list : List α) :
    (range list.length).filterMap (list[·]?) = list := by
  induction list with
  | nil => rfl
  | cons x rest ih =>
    rw [length_cons, range_succ_eq_map, filterMap_cons, filterMap_map]
    simpa [Function.comp_def] using ih

def finding (function : Func) : Diagnostic :=
  { kind := .progressRecursiveCycle, name := function.name, line := function.line }

/-- The check ends, and reports exactly the functions of the table that are on a cycle of the graph,
each once, in the order of their declarations. -/
theorem progressRecursiveCycles_exact (collect : Collectors) (declarations : List Decl)
    (diagnostics : List Diagnostic) : ∃ bound, ∀ fuel, bound < fuel → ∃ reported,
      progressRecursiveCycles collect fuel declarations diagnostics =
          some (diagnostics ++ reported.map finding) ∧
      reported <+ callables declarations ∧ (reported.map Func.name).Nodup ∧
      ∀ function, function ∈ reported ↔ function ∈ callables declarations ∧
        TransGen (Calls collect declarations) function.name function.name := by
  have holds := tableOf_holds collect declarations
  have nodup := nodup_callables declarations
  refine ⟨(tableOf collect declarations).names.length, fun fuel enough => ?_⟩
  obtain ⟨rows, run, sub, mem⟩ := reportCycles_spec enough
    (range (tableOf collect declarations).names.length) diagnostics
  have length : (tableOf collect declarations).names.length = (callables declarations).length := by
    rw [holds.names, length_map]
  have all : (range (tableOf collect declarations).names.length).filterMap
      ((callables declarations)[·]?) = callables declarations := by
    rw [length]
    exact filterMap_range_getElem? _
  have short := sub.filterMap ((callables declarations)[·]?)
  rw [all] at short
  refine ⟨rows.filterMap ((callables declarations)[·]?), ?_, short, (short.map _).nodup nodup,
    fun function => ?_⟩
  · rw [progressRecursiveCycles, run, map_filterMap, ← filterMap_eq_map]
    refine congrArg (some <| diagnostics ++ ·) (filterMap_congr fun row inside => ?_)
    have lt : row < (callables declarations).length := length ▸ mem_range.mp (sub.subset inside)
    simp [Table.finding, finding, holds.names, holds.lines, lt]
  · rw [mem_filterMap]
    constructor
    · rintro ⟨row, inside, here⟩
      exact ⟨mem_of_getElem? here, (cycle_iff here).mp ((mem row).mp inside).2⟩
    · rintro ⟨inside, cycle⟩
      obtain ⟨row, here⟩ := mem_iff_getElem?.mp inside
      have lt := (List.getElem?_eq_some_iff.mp here).1
      exact ⟨row, (mem row).mpr ⟨mem_range.mpr (length ▸ lt), (cycle_iff here).mpr cycle⟩, here⟩

end Elisa.Semantic.RecursiveCycles
