import Mathlib.Data.List.Nodup
import Elisa.Backend.StaticIf

/-!
# The forest behind the static-if rows

The parser writes the branches of all `static if` chains into one list of rows, in source order,
with the nesting depth of each (`parser_decl_impl.elisa`).  Here the chains are a forest again:
`Items` are the declarations of a file, `Arms` the branches of a chain behind its first one.

A chain chooses its first true branch, or its `static else`.  The row loop finds these choices,
since the flag of a depth is reset where a chain begins, and nested chains use deeper flags
(`Items.selectRowsLoop_rows`).  What stands in a branch that was not chosen is dropped when the
branches are flattened, with the chains in it (`Items.flatten_decls`).
-/

namespace Elisa.Backend

open List

/-! ## Forests -/

/-- The head of a branch: its condition, the module it stands in, and where it stands. -/
structure BranchHead where
  cond : ConstExpr
  module : Bytes
  offset : Nat
deriving DecidableEq

mutual

/-- Declarations in source order.  A chain has its first branch written out. -/
inductive Items where
  | nil
  | const (decl : ConstDecl) (rest : Items)
  | other (rest : Items)
  | module (name : Bytes) (body rest : Items)
  | scope (body : Items) (offset : Nat) (rest : Items)
  | chain (head : BranchHead) (body : Items) (arms : Arms) (rest : Items)

/-- The branches of a chain behind its first one. -/
inductive Arms where
  | done
  | fallback (head : BranchHead) (body : Items)
  | arm (head : BranchHead) (body : Items) (rest : Arms)

end

def BranchHead.row (head : BranchHead) (kind : BranchKind) (depth : Nat) : StaticIfRow where
  kind := kind
  depth := depth
  cond := head.cond
  module := head.module
  offset := head.offset

@[simp] theorem BranchHead.row_kind (head : BranchHead) (kind : BranchKind) (depth : Nat) :
    (head.row kind depth).kind = kind := rfl

@[simp] theorem BranchHead.row_depth (head : BranchHead) (kind : BranchKind) (depth : Nat) :
    (head.row kind depth).depth = depth := rfl

@[simp] theorem BranchHead.row_offset (head : BranchHead) (kind : BranchKind) (depth : Nat) :
    (head.row kind depth).offset = head.offset := rfl

mutual

/-- The rows the parser writes. -/
def Items.rows (depth : Nat) : Items → List StaticIfRow
  | .nil => []
  | .const _ rest => rest.rows depth
  | .other rest => rest.rows depth
  | .module _ body rest => body.rows depth ++ rest.rows depth
  | .scope body _ rest => body.rows depth ++ rest.rows depth
  | .chain head body arms rest =>
    head.row .chainHead depth :: (body.rows (depth + 1) ++ (arms.rows depth ++ rest.rows depth))

def Arms.rows (depth : Nat) : Arms → List StaticIfRow
  | .done => []
  | .fallback head body => head.row .fallback depth :: body.rows (depth + 1)
  | .arm head body rest =>
    head.row .chainContinuation depth :: (body.rows (depth + 1) ++ rest.rows depth)

end

mutual

/-- The declarations the parser keeps: each branch is a scope. -/
def Items.decls : Items → List Decl
  | .nil => []
  | .const decl rest => .const decl :: rest.decls
  | .other rest => .other :: rest.decls
  | .module name body rest => .module name body.decls :: rest.decls
  | .scope body offset rest => .scoped body.decls offset :: rest.decls
  | .chain head body arms rest => .scoped body.decls head.offset :: (arms.decls ++ rest.decls)

def Arms.decls : Arms → List Decl
  | .done => []
  | .fallback head body => [.scoped body.decls head.offset]
  | .arm head body rest => .scoped body.decls head.offset :: rest.decls

end

/-! ## Choices -/

section Choices

variable (evaluate : StaticIfRow → Option Int64)

/-- The branch that a chain chooses among those behind the first one, by its number. -/
def Arms.choice (depth : Nat) : Arms → Option Nat
  | .done => none
  | .fallback _ _ => some 0
  | .arm head _ rest =>
    if conditionSelectsBranch (evaluate (head.row .chainContinuation depth)) then some 0
    else (rest.choice depth).map (· + 1)

/-- The branch that a chain chooses: the first true one, or the `static else`. -/
def chainChoice (depth : Nat) (head : BranchHead) (arms : Arms) : Option Nat :=
  if conditionSelectsBranch (evaluate (head.row .chainHead depth)) then some 0
  else (arms.choice evaluate depth).map (· + 1)

def laterChoice : Option Nat → Option Nat
  | some (number + 1) => some number
  | _ => none

mutual

/-- Row by row, whether its branch is the one that its chain chooses. -/
def Items.chosen (depth : Nat) : Items → List Bool
  | .nil => []
  | .const _ rest => rest.chosen depth
  | .other rest => rest.chosen depth
  | .module _ body rest => body.chosen depth ++ rest.chosen depth
  | .scope body _ rest => body.chosen depth ++ rest.chosen depth
  | .chain head body arms rest =>
    let choice := chainChoice evaluate depth head arms
    (choice == some 0) :: (body.chosen (depth + 1) ++
      (arms.chosen depth (laterChoice choice) ++ rest.chosen depth))

def Arms.chosen (depth : Nat) : Arms → Option Nat → List Bool
  | .done, _ => []
  | .fallback _ body, choice => (choice == some 0) :: body.chosen (depth + 1)
  | .arm _ body rest, choice =>
    (choice == some 0) :: (body.chosen (depth + 1) ++ rest.chosen depth (laterChoice choice))

end

mutual

def Items.live (enclosed : Bool) (depth : Nat) : Items → List Bool
  | .nil => []
  | .const _ rest => rest.live enclosed depth
  | .other rest => rest.live enclosed depth
  | .module _ body rest => body.live enclosed depth ++ rest.live enclosed depth
  | .scope body _ rest => body.live enclosed depth ++ rest.live enclosed depth
  | .chain head body arms rest =>
    let choice := chainChoice evaluate depth head arms
    (enclosed && choice == some 0) :: (body.live (enclosed && choice == some 0) (depth + 1) ++
      (arms.live enclosed depth (laterChoice choice) ++ rest.live enclosed depth))

def Arms.live (enclosed : Bool) (depth : Nat) : Arms → Option Nat → List Bool
  | .done, _ => []
  | .fallback _ body, choice =>
    (enclosed && choice == some 0) :: body.live (enclosed && choice == some 0) (depth + 1)
  | .arm _ body rest, choice =>
    (enclosed && choice == some 0) :: (body.live (enclosed && choice == some 0) (depth + 1) ++
      rest.live enclosed depth (laterChoice choice))

end

mutual

/-- The declarations outside branches and in chosen ones, in source order. -/
def Items.kept (depth : Nat) : Items → List Decl
  | .nil => []
  | .const decl rest => .const decl :: rest.kept depth
  | .other rest => .other :: rest.kept depth
  | .module name body rest => .module name (body.kept depth) :: rest.kept depth
  | .scope body _ rest => body.kept depth ++ rest.kept depth
  | .chain head body arms rest =>
    let choice := chainChoice evaluate depth head arms
    (if choice = some 0 then body.kept (depth + 1) else []) ++
      (arms.kept depth (laterChoice choice) ++ rest.kept depth)

def Arms.kept (depth : Nat) : Arms → Option Nat → List Decl
  | .done, _ => []
  | .fallback _ body, choice => if choice = some 0 then body.kept (depth + 1) else []
  | .arm _ body rest, choice =>
    (if choice = some 0 then body.kept (depth + 1) else []) ++
      rest.kept depth (laterChoice choice)

end

end Choices

/-! ## The row loop -/

section Selection

variable {evaluate : StaticIfRow → Option Int64} {depth : Nat}

def positions : List Bool → Nat → List Nat
  | [], _ => []
  | flag :: flags, index => (if flag then [index] else []) ++ positions flags (index + 1)

theorem positions_append (first second : List Bool) (index : Nat) :
    positions (first ++ second) index =
      positions first index ++ positions second (index + first.length) := by
  induction first generalizing index with
  | nil => rfl
  | cons flag flags ih =>
    simp only [cons_append, positions, ih, length_cons, append_assoc]
    rw [Nat.add_assoc, Nat.add_comm 1]

theorem mem_positions {flags : List Bool} {index row : Nat} :
    row ∈ positions flags index ↔ index ≤ row ∧ flags[row - index]? = some true := by
  induction flags generalizing index with
  | nil => simp [positions]
  | cons flag flags ih =>
    rw [positions, mem_append, ih]
    rcases Nat.lt_trichotomy row index with before | rfl | behind
    · constructor
      · rintro (here | ⟨le, -⟩)
        · split at here
          · have := mem_singleton.1 here
            omega
          · exact absurd here (by simp)
        · omega
      · rintro ⟨le, -⟩
        omega
    · have behind : ¬ (row + 1 ≤ row ∧ flags[row - (row + 1)]? = some true) := by
        rintro ⟨le, -⟩
        omega
      rw [iff_false_intro behind, or_false, Nat.sub_self]
      cases flag <;> simp
    · obtain ⟨next, rfl⟩ : ∃ next, row = index + 1 + next := ⟨row - (index + 1), by omega⟩
      rw [show index + 1 + next - index = next + 1 by omega, Nat.add_sub_cancel_left,
        getElem?_cons_succ]
      have apart : index + 1 + next ≠ index := by omega
      have le : index ≤ index + 1 + next := by omega
      cases flag <;> simp [apart, le]

/-- Some rows are passed with these flags.  The flags of lower depths are left alone. -/
def Selects (evaluate : StaticIfRow → Option Int64) (depth : Nat) (satisfied : Nat → Bool)
    (rows : List StaticIfRow) (flags : List Bool) : Prop :=
  ∃ after : Nat → Bool, (∀ lower < depth, after lower = satisfied lower) ∧
    ∀ index more, selectRowsLoop evaluate (rows ++ more) index satisfied =
      positions flags index ++ selectRowsLoop evaluate more (index + rows.length) after

theorem Selects.nil {satisfied : Nat → Bool} : Selects evaluate depth satisfied [] [] :=
  ⟨satisfied, fun _ _ => rfl, fun _ _ => rfl⟩

theorem Selects.append {satisfied : Nat → Bool} {first second : List StaticIfRow}
    {flags others : List Bool} {inner : Nat} (le : depth ≤ inner)
    (same : flags.length = first.length)
    (before : Selects evaluate inner satisfied first flags)
    (then_ : ∀ after : Nat → Bool, (∀ lower < inner, after lower = satisfied lower) →
      Selects evaluate depth after second others) :
    Selects evaluate depth satisfied (first ++ second) (flags ++ others) := by
  obtain ⟨between, kept, passed⟩ := before
  obtain ⟨after, frame, rest⟩ := then_ between kept
  refine ⟨after, fun lower lt => (frame lower lt).trans (kept lower (by omega)),
    fun index more => ?_⟩
  rw [append_assoc, passed, rest, positions_append, same, append_assoc,
    length_append, Nat.add_assoc]

theorem Selects.cons {satisfied : Nat → Bool} {head : StaticIfRow} {rows : List StaticIfRow}
    {flags : List Bool} {chosen : Bool} (passed : Bool)
    (step : ∀ index more, selectRowsLoop evaluate (head :: more) index satisfied =
      (if chosen then [index] else []) ++ selectRowsLoop evaluate more (index + 1)
        (Function.update satisfied depth passed))
    (then_ : ∀ after : Nat → Bool, (∀ lower < depth, after lower = satisfied lower) →
      after depth = passed → Selects evaluate depth after rows flags) :
    Selects evaluate depth satisfied (head :: rows) (chosen :: flags) := by
  obtain ⟨after, frame, rest⟩ := then_ (Function.update satisfied depth passed)
    (fun lower lt => Function.update_of_ne (Nat.ne_of_lt lt) _ _) (Function.update_self ..)
  refine ⟨after, fun lower lt =>
    (frame lower lt).trans (Function.update_of_ne (Nat.ne_of_lt lt) _ _),
    fun index more => ?_⟩
  rw [cons_append, step, rest, positions, append_assoc, length_cons,
    Nat.add_assoc, Nat.add_comm 1]

theorem selectRowsLoop_head (head : BranchHead) (satisfied : Nat → Bool) (index : Nat)
    (more : List StaticIfRow) :
    selectRowsLoop evaluate (head.row .chainHead depth :: more) index satisfied =
      (if conditionSelectsBranch (evaluate (head.row .chainHead depth)) then [index] else []) ++
        selectRowsLoop evaluate more (index + 1) (Function.update satisfied depth
          (conditionSelectsBranch (evaluate (head.row .chainHead depth)))) := by
  rw [selectRowsLoop]
  simp only [BranchHead.row_kind, BranchHead.row_depth, rowAction, ne_eq, not_true_eq_false,
    and_false, if_false, true_or, if_true]
  cases conditionSelectsBranch (evaluate (head.row .chainHead depth)) <;> simp

theorem selectRowsLoop_continuation (head : BranchHead) (satisfied : Nat → Bool) (index : Nat)
    (more : List StaticIfRow) :
    selectRowsLoop evaluate (head.row .chainContinuation depth :: more) index satisfied =
      (if !satisfied depth &&
          conditionSelectsBranch (evaluate (head.row .chainContinuation depth)) then [index]
        else []) ++
        selectRowsLoop evaluate more (index + 1)
          (Function.update satisfied depth (satisfied depth ||
          conditionSelectsBranch (evaluate (head.row .chainContinuation depth)))) := by
  have same : Function.update satisfied depth (satisfied depth) = satisfied :=
    Function.update_eq_self depth satisfied
  rw [selectRowsLoop]
  cases flag : satisfied depth with
  | true =>
    rw [flag] at same
    simp [rowAction, flag, same]
  | false =>
    rw [flag] at same
    cases conditionSelectsBranch (evaluate (head.row .chainContinuation depth)) <;>
      simp [rowAction, flag, same]

theorem selectRowsLoop_fallback (head : BranchHead) (satisfied : Nat → Bool) (index : Nat)
    (more : List StaticIfRow) :
    selectRowsLoop evaluate (head.row .fallback depth :: more) index satisfied =
      (if !satisfied depth then [index] else []) ++
        selectRowsLoop evaluate more (index + 1) (Function.update satisfied depth true) := by
  have same : Function.update satisfied depth (satisfied depth) = satisfied :=
    Function.update_eq_self depth satisfied
  rw [selectRowsLoop]
  cases flag : satisfied depth with
  | true =>
    rw [flag] at same
    simp [rowAction, flag, same]
  | false => simp [rowAction, flag]

mutual

theorem Items.length_chosen (evaluate : StaticIfRow → Option Int64) (depth : Nat) :
    ∀ items : Items, (items.chosen evaluate depth).length = (items.rows depth).length
  | .nil => rfl
  | .const _ rest => rest.length_chosen evaluate depth
  | .other rest => rest.length_chosen evaluate depth
  | .module _ body rest | .scope body _ rest => by
    simp only [Items.chosen, Items.rows, length_append, body.length_chosen evaluate depth,
      rest.length_chosen evaluate depth]
  | .chain head body arms rest => by
    simp only [Items.chosen, Items.rows, length_cons, length_append,
      body.length_chosen evaluate (depth + 1), arms.length_chosen evaluate depth,
      rest.length_chosen evaluate depth]

theorem Arms.length_chosen (evaluate : StaticIfRow → Option Int64) (depth : Nat) :
    ∀ (arms : Arms) {choice : Option Nat},
      (arms.chosen evaluate depth choice).length = (arms.rows depth).length
  | .done, _ => rfl
  | .fallback _ body, _ => by
    simp only [Arms.chosen, Arms.rows, length_cons, body.length_chosen evaluate (depth + 1)]
  | .arm _ body rest, _ => by
    simp only [Arms.chosen, Arms.rows, length_cons, length_append,
      body.length_chosen evaluate (depth + 1), rest.length_chosen evaluate depth]

end

/-- What a chain still chooses, once its flag is known. -/
def openChoice (satisfied : Bool) (choice : Option Nat) : Option Nat :=
  if satisfied then none else choice

theorem laterChoice_open {flag selected : Bool} {choice : Option Nat} :
    laterChoice (openChoice flag (if selected then some 0 else choice.map (· + 1))) =
      openChoice (flag || selected) choice := by
  cases flag <;> cases selected <;> cases choice <;> rfl

theorem open_eq_zero {flag selected : Bool} {choice : Option Nat} :
    (openChoice flag (if selected then some 0 else choice.map (· + 1)) == some 0) =
      (!flag && selected) := by
  cases flag <;> cases selected <;> cases choice <;> rfl

mutual

theorem Items.selects (depth : Nat) (satisfied : Nat → Bool) :
    ∀ items : Items, Selects evaluate depth satisfied (items.rows depth)
      (items.chosen evaluate depth)
  | .nil => .nil
  | .const _ rest => rest.selects depth satisfied
  | .other rest => rest.selects depth satisfied
  | .module _ body rest | .scope body _ rest =>
    (body.selects depth satisfied).append (Nat.le_refl _) (body.length_chosen evaluate depth)
      fun after _ => rest.selects depth after
  | .chain head body arms rest => by
    have choice : chainChoice evaluate depth head arms = openChoice false
        (if conditionSelectsBranch (evaluate (head.row .chainHead depth)) then some 0
          else (arms.choice evaluate depth).map (· + 1)) := rfl
    simp only [Items.rows, Items.chosen]
    rw [choice, laterChoice_open, open_eq_zero]
    refine Selects.cons _ (selectRowsLoop_head head satisfied) fun after frame flag => ?_
    refine (body.selects (depth + 1) after).append (Nat.le_succ _)
      (body.length_chosen evaluate (depth + 1)) fun inner kept => ?_
    rw [Bool.false_or, ← flag, ← kept depth (Nat.lt_succ_self _)]
    exact (arms.selects depth inner).append (Nat.le_refl _) (arms.length_chosen evaluate depth)
      fun after _ => rest.selects depth after

theorem Arms.selects (depth : Nat) (satisfied : Nat → Bool) :
    ∀ arms : Arms, Selects evaluate depth satisfied (arms.rows depth)
      (arms.chosen evaluate depth (openChoice (satisfied depth) (arms.choice evaluate depth)))
  | .done => .nil
  | .fallback head body => by
    have zero : (openChoice (satisfied depth) (some 0) == some 0) = !satisfied depth := by
      cases satisfied depth <;> rfl
    simp only [Arms.rows, Arms.chosen, Arms.choice]
    rw [zero]
    refine Selects.cons _ (selectRowsLoop_fallback head satisfied) fun after frame flag => ?_
    have inner := (body.selects (depth + 1) after).append (Nat.le_succ depth)
      (body.length_chosen evaluate (depth + 1)) fun after _ => Selects.nil
    simpa using inner
  | .arm head body rest => by
    simp only [Arms.rows, Arms.chosen, Arms.choice]
    rw [laterChoice_open, open_eq_zero]
    refine Selects.cons _ (selectRowsLoop_continuation head satisfied) fun after frame flag => ?_
    refine (body.selects (depth + 1) after).append (Nat.le_succ _)
      (body.length_chosen evaluate (depth + 1)) fun inner kept => ?_
    rw [← flag, ← kept depth (Nat.lt_succ_self _)]
    exact rest.selects depth inner

end

end Selection

/-! ## Flattening -/

mutual

/-- Where the scopes stand that are no branches. -/
def Items.scopes : Items → List Nat
  | .nil => []
  | .const _ rest => rest.scopes
  | .other rest => rest.scopes
  | .module _ body rest => body.scopes ++ rest.scopes
  | .scope body offset rest => offset :: (body.scopes ++ rest.scopes)
  | .chain _ body arms rest => body.scopes ++ (arms.scopes ++ rest.scopes)

def Arms.scopes : Arms → List Nat
  | .done => []
  | .fallback _ body => body.scopes
  | .arm _ body rest => body.scopes ++ rest.scopes

end

section Flattening

variable {evaluate : StaticIfRow → Option Int64} {branches taken : List Nat}

def Fits (branches taken : List Nat) (rows : List StaticIfRow) (flags : List Bool) : Prop :=
  ∀ pair ∈ rows.zip flags, pair.1.offset ∈ branches ∧ (pair.1.offset ∈ taken ↔ pair.2 = true)

theorem fits_append {first second : List StaticIfRow} {flags others : List Bool}
    (same : flags.length = first.length) :
    Fits branches taken (first ++ second) (flags ++ others) ↔
      Fits branches taken first flags ∧ Fits branches taken second others := by
  unfold Fits
  rw [zip_append same.symm, forall_mem_append]

theorem fits_cons {row : StaticIfRow} {rows : List StaticIfRow} {flag : Bool} {flags : List Bool} :
    Fits branches taken (row :: rows) (flag :: flags) ↔
      (row.offset ∈ branches ∧ (row.offset ∈ taken ↔ flag = true)) ∧
        Fits branches taken rows flags := by
  unfold Fits
  rw [zip_cons_cons, forall_mem_cons]

theorem flattenDecl_branch {row : StaticIfRow} {body : List Decl} {choice : Option Nat}
    (fits : row.offset ∈ branches ∧ (row.offset ∈ taken ↔ (choice == some 0) = true)) :
    flattenDecl branches taken (.scoped body row.offset) =
      if choice = some 0 then flattenStaticBranches branches taken body else [] := by
  obtain ⟨branch, flag⟩ := fits
  rw [beq_iff_eq] at flag
  unfold flattenDecl
  by_cases chosen : choice = some 0
  · rw [if_pos chosen, if_neg fun dropped => dropped.2 (flag.2 chosen)]
  · rw [if_neg chosen, if_pos ⟨branch, fun mem => chosen (flag.1 mem)⟩]

theorem flattenDecl_scope {body : List Decl} {offset : Nat} (other : offset ∉ branches) :
    flattenDecl branches taken (.scoped body offset) =
      flattenStaticBranches branches taken body := by
  unfold flattenDecl
  rw [if_neg fun dropped => other dropped.1]

theorem flatten_cons {decl : Decl} {decls : List Decl} :
    flattenStaticBranches branches taken (decl :: decls) =
      flattenDecl branches taken decl ++ flattenStaticBranches branches taken decls := by
  rw [flattenStaticBranches]

theorem flatten_append (first second : List Decl) :
    flattenStaticBranches branches taken (first ++ second) =
      flattenStaticBranches branches taken first ++
        flattenStaticBranches branches taken second := by
  induction first with
  | nil => rfl
  | cons decl decls ih => rw [cons_append, flatten_cons, ih, flatten_cons, append_assoc]

mutual

theorem Items.flatten_decls (depth : Nat) :
    ∀ items : Items, Fits branches taken (items.rows depth) (items.chosen evaluate depth) →
      (∀ offset ∈ items.scopes, offset ∉ branches) →
      flattenStaticBranches branches taken items.decls = items.kept evaluate depth
  | .nil, _, _ => rfl
  | .const decl rest, fits, apart => by
    rw [Items.decls, flatten_cons, rest.flatten_decls depth fits apart]
    rfl
  | .other rest, fits, apart => by
    rw [Items.decls, flatten_cons, rest.flatten_decls depth fits apart]
    rfl
  | .module name body rest, fits, apart => by
    obtain ⟨inner, later⟩ := (fits_append (body.length_chosen evaluate depth)).1 fits
    obtain ⟨innerApart, laterApart⟩ := forall_mem_append.1 apart
    rw [Items.decls, flatten_cons, rest.flatten_decls depth later laterApart, flattenDecl,
      body.flatten_decls depth inner innerApart]
    rfl
  | .scope body offset rest, fits, apart => by
    obtain ⟨inner, later⟩ := (fits_append (body.length_chosen evaluate depth)).1 fits
    obtain ⟨here, apart⟩ := forall_mem_cons.1 apart
    obtain ⟨innerApart, laterApart⟩ := forall_mem_append.1 apart
    rw [Items.decls, flatten_cons, rest.flatten_decls depth later laterApart,
      flattenDecl_scope here, body.flatten_decls depth inner innerApart]
    rfl
  | .chain head body arms rest, fits, apart => by
    obtain ⟨at_, fits⟩ := fits_cons.1 fits
    obtain ⟨inner, fits⟩ := (fits_append (body.length_chosen evaluate (depth + 1))).1 fits
    obtain ⟨others, later⟩ := (fits_append (arms.length_chosen evaluate depth)).1 fits
    obtain ⟨innerApart, apart⟩ := forall_mem_append.1 apart
    obtain ⟨othersApart, laterApart⟩ := forall_mem_append.1 apart
    have branch := @flattenDecl_branch branches taken _ body.decls _ at_
    rw [BranchHead.row_offset] at branch
    rw [Items.decls, flatten_cons, flatten_append, rest.flatten_decls depth later laterApart,
      arms.flatten_decls depth others othersApart, branch,
      body.flatten_decls (depth + 1) inner innerApart]
    rfl

theorem Arms.flatten_decls (depth : Nat) :
    ∀ (arms : Arms) {choice : Option Nat},
      Fits branches taken (arms.rows depth) (arms.chosen evaluate depth choice) →
      (∀ offset ∈ arms.scopes, offset ∉ branches) →
      flattenStaticBranches branches taken arms.decls = arms.kept evaluate depth choice
  | .done, _, _, _ => rfl
  | .fallback head body, _, fits, apart => by
    obtain ⟨at_, inner⟩ := fits_cons.1 fits
    have branch := @flattenDecl_branch branches taken _ body.decls _ at_
    rw [BranchHead.row_offset] at branch
    rw [Arms.decls, flatten_cons, branch, body.flatten_decls (depth + 1) inner apart]
    exact append_nil _
  | .arm head body rest, _, fits, apart => by
    obtain ⟨at_, fits⟩ := fits_cons.1 fits
    obtain ⟨inner, later⟩ := (fits_append (body.length_chosen evaluate (depth + 1))).1 fits
    obtain ⟨innerApart, laterApart⟩ := forall_mem_append.1 apart
    have branch := @flattenDecl_branch branches taken _ body.decls _ at_
    rw [BranchHead.row_offset] at branch
    rw [Arms.decls, flatten_cons, rest.flatten_decls depth later laterApart, branch,
      body.flatten_decls (depth + 1) inner innerApart]
    rfl

end

theorem fits_offsets {file : SourceFile} {flags : List Bool}
    (distinct : (file.staticIfRows.map StaticIfRow.offset).Nodup)
    (same : flags.length = file.staticIfRows.length) :
    Fits (file.staticIfRows.map StaticIfRow.offset)
      (staticIfOffsetsForRows file (positions flags 0)) file.staticIfRows flags := by
  intro pair mem
  obtain ⟨index, lt, at_⟩ := mem_iff_getElem.1 mem
  rw [getElem_zip] at at_
  rw [length_zip] at lt
  obtain ⟨row, flag⟩ := pair
  obtain ⟨rowAt, flagAt⟩ := Prod.mk.inj at_
  subst rowAt flagAt
  refine ⟨mem_map_of_mem (getElem_mem _), ?_⟩
  unfold staticIfOffsetsForRows
  rw [mem_filterMap]
  constructor
  · rintro ⟨other, chosen, found⟩
    rw [mem_positions, Nat.sub_zero] at chosen
    obtain ⟨otherRow, otherAt, offset⟩ := Option.map_eq_some_iff.1 found
    obtain ⟨otherLt, rfl⟩ := List.getElem?_eq_some_iff.1 otherAt
    have equal : other = index := by
      have otherIn : other < (file.staticIfRows.map StaticIfRow.offset).length := by
        simpa using otherLt
      have in_ : index < (file.staticIfRows.map StaticIfRow.offset).length := by
        rw [length_map]
        omega
      have offsets : (file.staticIfRows.map StaticIfRow.offset)[other] =
          (file.staticIfRows.map StaticIfRow.offset)[index] := by
        simpa using offset
      exact (distinct.getElem_inj_iff).1 offsets
    subst equal
    exact (List.getElem?_eq_some_iff.1 chosen.2).2
  · intro set
    refine ⟨index, mem_positions.2 ⟨Nat.zero_le _, ?_⟩, ?_⟩
    · have flag : flags[index] = true := set
      rw [Nat.sub_zero, getElem?_eq_getElem (by omega), flag]
    · rw [getElem?_eq_getElem]
      rfl

end Flattening

/-! ## Files -/

/-- The declarations of a file.  No two branches stand at one place, and no other scope stands at
the place of a branch. -/
structure StaticIfForest where
  items : Items
  distinct : ((items.rows 0).map StaticIfRow.offset).Nodup
  apart : ∀ offset ∈ items.scopes, offset ∉ (items.rows 0).map StaticIfRow.offset

def StaticIfForest.file (forest : StaticIfForest) : SourceFile where
  topDecls := forest.items.decls
  staticIfRows := forest.items.rows 0

/-- In every chain the first branch with a true condition is selected, or the `static else`.  What
flattening keeps are the declarations outside branches and in selected ones, in source order. -/
theorem StaticIfForest.selected (forest : StaticIfForest) (evaluate : StaticIfRow → Option Int64) :
    let rows := selectRowsLoop evaluate forest.file.staticIfRows 0 fun _ => false
    (∀ row, row ∈ rows ↔ (forest.items.chosen evaluate 0)[row]? = some true) ∧
      flattenStaticBranches (forest.file.staticIfRows.map StaticIfRow.offset)
        (staticIfOffsetsForRows forest.file rows) forest.file.topDecls =
          forest.items.kept evaluate 0 := by
  obtain ⟨after, -, passed⟩ := @Items.selects evaluate 0 (fun _ => false) forest.items
  have found : selectRowsLoop evaluate forest.file.staticIfRows 0 (fun _ => false) =
      positions (forest.items.chosen evaluate 0) 0 := by
    have all := passed 0 []
    rwa [append_nil, selectRowsLoop, append_nil] at all
  intro rows
  rw [show rows = _ from found]
  refine ⟨fun row => ?_, ?_⟩
  · rw [mem_positions, Nat.sub_zero]
    simp
  · exact forest.items.flatten_decls 0
      (@fits_offsets forest.file _ forest.distinct (forest.items.length_chosen evaluate 0))
      forest.apart

/-- The chain in a branch that is not selected selects a branch of its own. -/
def nestedForest : StaticIfForest where
  items := .chain ⟨.boolLit false, [], 0⟩ (.chain ⟨.boolLit true, [], 1⟩ .nil .done .nil) .done .nil
  distinct := by decide
  apart := by decide

theorem nestedForest_selected :
    ¬ ∀ (forest : StaticIfForest) (evaluate : StaticIfRow → Option Int64)
    (row : Nat), row ∈ selectRowsLoop evaluate forest.file.staticIfRows 0 (fun _ => false) ↔
      (forest.items.live evaluate true 0)[row]? = some true := by
  intro claimed
  have row := claimed nestedForest (fun row => foldConstExpr (fun _ _ => none) row.cond) 1
  exact absurd row (by decide)

end Elisa.Backend
