import Elisa.Backend.ConstResolution
import Elisa.Lib.Resolution

/-!
# Folding as the application of rules

What an initialiser folds to is a function of the rows that its names stand for (`foldConstExpr_eq`,
`foldConstFloatExpr_eq`).  The tables of a run differ in their contents only (`Table.holding`).  A
declaration of a pass is a visit to the item of its key (`foldConst_holding`), and `foldConsts`
finds what can be derived (`foldConsts_known`).
-/

namespace Elisa.Backend.Constants

open Lib.Resolution Option

variable {F : Type}

/-! ## Names -/

/-- A name as an initialiser spells it. -/
inductive Query where
  | bare (name : Bytes)
  | inModule (module name : Bytes)
  | inNested (root module name : Bytes)
deriving DecidableEq

def Query.name : Query → Bytes
  | .bare name | .inModule _ name | .inNested _ _ name => name

namespace Table

def lookupOwner (table : Table F) (aliases : Aliases) (owner : Bytes) : Query → Option Bytes
  | .bare _ => some owner
  | .inModule module _ => some (table.scopeOwner aliases owner module)
  | .inNested root module _ => table.ownerOf root module

def rowOf (table : Table F) (aliases : Aliases) (owner : Bytes) (query : Query) :
    Option (Row F) :=
  (table.lookupOwner aliases owner query).bind fun owner => table.indexOf owner query.name

end Table

/-! ## What an initialiser folds to -/

section
variable (rows : Query → Option (Row F))

mutual

def intOf : Initializer → Option Int64
  | .intLit value => some value
  | .boolLit value => some (flag (value = true))
  | .charLit code => some code.toUInt64.toInt64
  | .ident name => (rows (.bare name)).bind Row.intValue?
  | .scope module name => (rows (.inModule module name)).bind Row.intValue?
  | .nestedScope root module name => (rows (.inNested root module name)).bind Row.intValue?
  | .field receiver isLen member =>
    (if isLen then lengthOf receiver else none) <|> if receiver.isPath then member else none
  | .paren inner => intOf inner
  | .unary operator operand => (intOf operand).bind (foldConstUnaryValue operator)
  | .cast object _ => intOf object
  | .binary left operator right =>
    (intOf left).bind fun l => (intOf right).bind fun r => foldConstBinaryValues l operator r
  | .floatLit _ | .stringLit _ _ | .conditional _ _ _ | .other => none

def lengthOf : Initializer → Option Int64
  | .paren inner => lengthOf inner
  | .stringLit bytes _ => some bytes
  | .ident name => (rows (.bare name)).bind Row.textLength
  | .conditional condition thenValue elseValue =>
    (intOf condition).bind fun value =>
      if value ≠ 0 then lengthOf thenValue else lengthOf elseValue
  | .intLit _ | .boolLit _ | .charLit _ | .floatLit _ | .scope _ _ | .nestedScope _ _ _
  | .field _ _ _ | .unary _ _ | .cast _ _ | .binary _ _ _ | .other => none

end

def floatOf (floats : FloatArithmetic F) : Initializer → Option F
  | .floatLit text => some (floats.ofText text)
  | .intLit value => some (floats.ofInt value)
  | .paren inner => floatOf floats inner
  | .ident name => (rows (.bare name)).bind (Row.floatValue? floats)
  | .scope module name => (rows (.inModule module name)).bind (Row.floatValue? floats)
  | .nestedScope root module name => (rows (.inNested root module name)).bind
      (Row.floatValue? floats)
  | .unary operator operand => (floatOf floats operand).map (foldFloatUnaryValue floats operator)
  | .cast object true => floatOf floats object
  | .binary left operator right =>
    (floatOf floats left).bind fun l => (floatOf floats right).bind fun r =>
      foldFloatBinaryValues floats l operator r
  | .cast _ false | .boolLit _ | .charLit _ | .stringLit _ _ | .field _ _ _
  | .conditional _ _ _ | .other => none

end

section
variable (table : Table F) (aliases : Aliases)

/-- The integer folder, and the length of a text, as functions of the rows; both leave the current
owner as it was. -/
theorem foldConstExpr_eq_and (e : Initializer) (owner : Bytes) :
    foldConstExpr table aliases e owner = (intOf (table.rowOf aliases owner) e, owner) ∧
      constEvalStringLen table aliases e owner =
        (lengthOf (table.rowOf aliases owner) e, owner) := by
  induction e generalizing owner with
  | intLit value => simp [foldConstExpr, constEvalStringLen, intOf, lengthOf]
  | boolLit value => simp [foldConstExpr, constEvalStringLen, intOf, lengthOf]
  | charLit code => simp [foldConstExpr, constEvalStringLen, intOf, lengthOf]
  | floatLit text => simp [foldConstExpr, constEvalStringLen, intOf, lengthOf]
  | stringLit bytes untilNul => simp [foldConstExpr, constEvalStringLen, intOf, lengthOf]
  | other => simp [foldConstExpr, constEvalStringLen, intOf, lengthOf]
  | ident name =>
    simp [foldConstExpr, constEvalStringLen, intOf, lengthOf, Table.rowOf, Table.lookupOwner,
      Query.name]
  | scope module name =>
    simp [foldConstExpr, constEvalStringLen, intOf, lengthOf, Table.rowOf, Table.lookupOwner,
      Query.name]
  | nestedScope root module name =>
    cases found : table.ownerOf root module <;>
      simp [foldConstExpr, constEvalStringLen, intOf, lengthOf, Table.rowOf, Table.lookupOwner,
        Query.name, found]
  | field receiver isLen member ih =>
    cases isLen <;> simp [foldConstExpr, constEvalStringLen, intOf, lengthOf, (ih owner).2]
  | paren inner ih => simp [foldConstExpr, constEvalStringLen, intOf, lengthOf, ih owner]
  | unary operator operand ih =>
    simp [foldConstExpr, constEvalStringLen, intOf, lengthOf, (ih owner).1]
  | cast object toFloat ih =>
    simp [foldConstExpr, constEvalStringLen, intOf, lengthOf, (ih owner).1]
  | binary left operator right ihl ihr =>
    simp [foldConstExpr, constEvalStringLen, intOf, lengthOf, (ihl owner).1, (ihr owner).1]
  | conditional condition thenValue elseValue ihc iht ihe =>
    refine ⟨by simp [foldConstExpr, intOf], ?_⟩
    simp only [constEvalStringLen, lengthOf, (ihc owner).1]
    cases intOf (table.rowOf aliases owner) condition with
    | none => rfl
    | some value =>
      simp only [(iht owner).2, (ihe owner).2, bind_some]
      split <;> rfl

theorem foldConstExpr_eq (e : Initializer) (owner : Bytes) :
    foldConstExpr table aliases e owner = (intOf (table.rowOf aliases owner) e, owner) :=
  (foldConstExpr_eq_and table aliases e owner).1

theorem foldConstFloatExpr_eq (floats : FloatArithmetic F) (e : Initializer) (owner : Bytes) :
    foldConstFloatExpr table aliases floats e owner =
      (floatOf (table.rowOf aliases owner) floats e, owner) := by
  induction e generalizing owner with
  | ident name =>
    simp [foldConstFloatExpr, floatOf, Table.rowOf, Table.lookupOwner, Query.name]
  | scope module name =>
    simp [foldConstFloatExpr, floatOf, Table.rowOf, Table.lookupOwner, Query.name]
  | nestedScope root module name =>
    cases found : table.ownerOf root module <;>
      simp [foldConstFloatExpr, floatOf, Table.rowOf, Table.lookupOwner, Query.name, found]
  | paren inner ih => simp [foldConstFloatExpr, floatOf, ih owner]
  | unary operator operand ih => simp [foldConstFloatExpr, floatOf, ih owner]
  | cast object toFloat ih => cases toFloat <;> simp [foldConstFloatExpr, floatOf, ih owner]
  | binary left operator right ihl ihr =>
    simp [foldConstFloatExpr, floatOf, ihl owner, ihr owner]
  | intLit | boolLit | charLit | floatLit | stringLit | field | conditional | other =>
    simp [foldConstFloatExpr, floatOf]

end

/-! ## Rows with more contents -/

/-- Rows of the same names, some of which have contents since. -/
structure Below (floats : FloatArithmetic F) (rows rows' : Query → Option (Row F)) : Prop where
  text : ∀ q, (rows' q).bind Row.textLength = (rows q).bind Row.textLength
  int : ∀ q v, (rows q).bind Row.intValue? = some v → (rows' q).bind Row.intValue? = some v
  float : ∀ q x, (rows q).bind (Row.floatValue? floats) = some x →
    (rows' q).bind (Row.floatValue? floats) = some x

section
variable {floats : FloatArithmetic F} {rows rows' : Query → Option (Row F)}

theorem Below.intOf_and (h : Below floats rows rows') (e : Initializer) :
    (∀ v, intOf rows e = some v → intOf rows' e = some v) ∧
      ∀ v, lengthOf rows e = some v → lengthOf rows' e = some v := by
  induction e with
  | intLit | boolLit | charLit | floatLit | stringLit | other => exact ⟨fun _ => id, fun _ => id⟩
  | ident name => exact ⟨h.int (.bare name), fun v found => (h.text (.bare name)).trans found⟩
  | scope module name => exact ⟨h.int (.inModule module name), fun _ => id⟩
  | nestedScope root module name => exact ⟨h.int (.inNested root module name), fun _ => id⟩
  | paren inner ih => exact ih
  | field receiver isLen member ih =>
    refine ⟨fun v found => ?_, fun _ => id⟩
    cases isLen with
    | false => exact found
    | true =>
      simp only [intOf, if_true] at found ⊢
      cases length : lengthOf rows receiver with
      | some n => rwa [ih.2 n length, ← length]
      | none =>
        -- A path that spells an enum member has no length that depends on contents.
        cases receiver with
        | ident name =>
          have same : lengthOf rows' (.ident name) = none := (h.text (.bare name)).trans length
          rwa [same, ← length]
        | scope | nestedScope => exact found
        | _ => simp [length, Initializer.isPath] at found
  | unary operator operand ih =>
    refine ⟨fun v found => ?_, fun _ => id⟩
    obtain ⟨x, folded, result⟩ := bind_eq_some_iff.1 found
    exact bind_eq_some_iff.2 ⟨x, ih.1 x folded, result⟩
  | cast object toFloat ih => exact ⟨ih.1, fun _ => id⟩
  | binary left operator right ihl ihr =>
    refine ⟨fun v found => ?_, fun _ => id⟩
    obtain ⟨x, foldedX, found⟩ := bind_eq_some_iff.1 found
    obtain ⟨y, foldedY, result⟩ := bind_eq_some_iff.1 found
    exact bind_eq_some_iff.2
      ⟨x, ihl.1 x foldedX, bind_eq_some_iff.2 ⟨y, ihr.1 y foldedY, result⟩⟩
  | conditional condition thenValue elseValue ihc iht ihe =>
    refine ⟨fun _ => id, fun v found => ?_⟩
    obtain ⟨x, folded, result⟩ := bind_eq_some_iff.1 found
    refine bind_eq_some_iff.2 ⟨x, ihc.1 x folded, ?_⟩
    split at result
    next nonzero =>
      rw [if_pos nonzero]
      exact iht.2 v result
    next zero =>
      rw [if_neg zero]
      exact ihe.2 v result

theorem Below.intOf (h : Below floats rows rows') {e : Initializer} {v : Int64}
    (found : intOf rows e = some v) : intOf rows' e = some v :=
  (h.intOf_and e).1 v found

theorem Below.floatOf (h : Below floats rows rows') {e : Initializer} {x : F}
    (found : floatOf rows floats e = some x) : floatOf rows' floats e = some x := by
  induction e generalizing x with
  | intLit | boolLit | charLit | floatLit | stringLit | field | conditional | other => exact found
  | ident name => exact h.float (.bare name) x found
  | scope module name => exact h.float (.inModule module name) x found
  | nestedScope root module name => exact h.float (.inNested root module name) x found
  | paren inner ih => exact ih found
  | unary operator operand ih =>
    obtain ⟨y, folded, result⟩ := map_eq_some_iff.1 found
    exact map_eq_some_iff.2 ⟨y, ih folded, result⟩
  | cast object toFloat ih =>
    cases toFloat with
    | true => exact ih found
    | false => exact found
  | binary left operator right ihl ihr =>
    obtain ⟨y, foldedY, found⟩ := bind_eq_some_iff.1 found
    obtain ⟨z, foldedZ, result⟩ := bind_eq_some_iff.1 found
    exact bind_eq_some_iff.2
      ⟨y, ihl foldedY, bind_eq_some_iff.2 ⟨z, ihr foldedZ, result⟩⟩

end

/-! ## Tables that hold known contents -/

structure Contents (F : Type) where
  value : Int64
  floatText : Bytes
  floatValue : Option F
deriving DecidableEq

def Row.contents (row : Row F) : Contents F := ⟨row.value, row.floatText, row.floatValue⟩

def Row.blank (row : Row F) : Row F :=
  { row with floatText := [], floatValue := none, resolved := false }

def Row.holding (known : Known Key (Contents F)) (row : Row F) : Row F :=
  match known row.key with
  | some contents =>
    { row with
      value := contents.value
      floatText := contents.floatText
      floatValue := contents.floatValue
      resolved := true }
  | none => row.blank

section Holding

variable (known : Known Key (Contents F)) (row : Row F)
include known row

@[simp] theorem Row.holding_owner : (row.holding known).owner = row.owner := by
  unfold holding
  split <;> rfl

@[simp] theorem Row.holding_name : (row.holding known).name = row.name := by
  unfold holding
  split <;> rfl

@[simp] theorem Row.holding_key : (row.holding known).key = row.key := by
  simp [Row.key]

@[simp] theorem Row.holding_kind : (row.holding known).kind = row.kind := by
  unfold holding
  split <;> rfl

@[simp] theorem Row.holding_textLength : (row.holding known).textLength = row.textLength := by
  unfold holding textLength
  split <;> rfl

end Holding

theorem Row.intValue?_blank (row : Row F) : row.blank.intValue? = none := by
  unfold intValue? blank
  cases row.kind <;> rfl

theorem Row.floatValue?_blank (floats : FloatArithmetic F) (row : Row F) :
    row.blank.floatValue? floats = none := by
  simp only [floatValue?, blank, ne_eq, not_true_eq_false, if_false, Bool.false_eq_true]
  split <;> rfl

theorem Row.holding_of_unknown {known : Known Key (Contents F)} {row : Row F}
    (h : known row.key = none) : row.holding known = row.blank := by
  simp only [holding, h]

theorem Row.holding_resolved (known : Known Key (Contents F)) (row : Row F) :
    (row.holding known).resolved = (known row.key).isSome := by
  unfold holding
  cases known row.key <;> rfl

namespace Table

def holding (table : Table F) (known : Known Key (Contents F)) : Table F where
  rows := table.rows.map (Row.holding known)
  distinct := by
    rw [List.map_map, show Row.key ∘ Row.holding known =
      Row.key from funext (Row.holding_key known)]
    exact table.distinct

def known (table : Table F) : Known Key (Contents F) := fun key =>
  (table.indexOfIn key.1 key.2).bind fun row => if row.resolved then some row.contents else none

theorem ext_rows {table table' : Table F} (h : table.rows = table'.rows) : table = table' := by
  cases table
  cases table'
  cases h
  rfl

theorem row_eq_of_key {table : Table F} {row row' : Row F} (mem : row ∈ table.rows)
    (mem' : row' ∈ table.rows) (key : row.key = row'.key) : row = row' :=
  List.inj_on_of_nodup_map table.distinct mem mem' key

theorem indexOfIn_eq_some_iff {table : Table F} {owner name : Bytes} {row : Row F} :
    table.indexOfIn owner name = some row ↔ row ∈ table.rows ∧ row.key = (owner, name) := by
  unfold indexOfIn
  constructor
  · intro found
    exact ⟨List.mem_of_find?_eq_some found, by simpa using List.find?_some found⟩
  · rintro ⟨mem, key⟩
    cases found : table.rows.find? fun row => decide (row.key = (owner, name)) with
    | none => exact absurd key (by simpa using List.find?_eq_none.mp found row mem)
    | some other =>
      have otherKey : other.key = (owner, name) := by simpa using List.find?_some found
      rw [row_eq_of_key (List.mem_of_find?_eq_some found) mem (otherKey.trans key.symm)]

theorem known_of_mem {table : Table F} {row : Row F} (mem : row ∈ table.rows) :
    table.known row.key = if row.resolved then some row.contents else none := by
  have found : table.indexOfIn row.key.1 row.key.2 = some row :=
    indexOfIn_eq_some_iff.2 ⟨mem, rfl⟩
  simp [known, found]

theorem exists_of_known {table : Table F} {key : Key} {contents : Contents F}
    (h : table.known key = some contents) :
    ∃ row ∈ table.rows, row.key = key ∧ row.resolved = true ∧ row.contents = contents := by
  obtain ⟨row, found, resolved⟩ := bind_eq_some_iff.1 h
  obtain ⟨mem, rowKey⟩ := indexOfIn_eq_some_iff.1 found
  split at resolved
  next yes => exact ⟨row, mem, rowKey, yes, Option.some.inj resolved⟩
  next => cases resolved

section
variable (table : Table F) (known : Known Key (Contents F)) (aliases : Aliases)

theorem indexOfIn_holding (owner name : Bytes) :
    (table.holding known).indexOfIn owner name =
      (table.indexOfIn owner name).map (Row.holding known) := by
  simp only [indexOfIn, holding, List.find?_map, Function.comp_def, Row.holding_key]

theorem indexOf_holding (owner name : Bytes) :
    (table.holding known).indexOf owner name =
      (table.indexOf owner name).map (Row.holding known) := by
  simp only [indexOf, indexOfIn_holding]
  have any : (table.holding known).rows.find? (fun row => row.name = name) =
      (table.rows.find? fun row => row.name = name).map (Row.holding known) := by
    simp only [holding, List.find?_map, Function.comp_def, Row.holding_name]
  rw [any]
  split
  · cases table.indexOfIn [] name <;> rfl
  · cases table.indexOfIn owner name <;> cases table.indexOfIn [] name <;> rfl

theorem ownerOf_holding (head rest : Bytes) :
    (table.holding known).ownerOf head rest = table.ownerOf head rest := by
  simp only [ownerOf, holding, List.find?_map, Function.comp_def, Row.holding_owner,
    map_map]

theorem lookupOwner_holding (owner : Bytes) (q : Query) :
    (table.holding known).lookupOwner aliases owner q = table.lookupOwner aliases owner q := by
  cases q with
  | bare name => rfl
  | inModule module name => simp only [lookupOwner, scopeOwner, ownerOf_holding]
  | inNested root module name => exact table.ownerOf_holding known root module

theorem rowOf_holding (owner : Bytes) (q : Query) :
    (table.holding known).rowOf aliases owner q =
      (table.rowOf aliases owner q).map (Row.holding known) := by
  simp only [rowOf, lookupOwner_holding, indexOf_holding, Option.map_bind, Function.comp_def]

end

theorem below_holding (table : Table F) (aliases : Aliases) (floats : FloatArithmetic F)
    (owner : Bytes) {known known' : Known Key (Contents F)} (keeps : Keeps known known') :
    Below floats ((table.holding known).rowOf aliases owner)
      ((table.holding known').rowOf aliases owner) := by
  have same : ∀ {row : Row F} {contents : Contents F}, known row.key = some contents →
      row.holding known' = row.holding known := by
    intro row contents found
    simp only [Row.holding, found, keeps _ _ found]
  constructor
  · intro q
    simp only [rowOf_holding]
    cases table.rowOf aliases owner q <;> simp
  · intro q v found
    simp only [rowOf_holding] at found ⊢
    obtain ⟨_, stands, value⟩ := bind_eq_some_iff.1 found
    obtain ⟨row, rowOf, rfl⟩ := map_eq_some_iff.1 stands
    cases held : known row.key with
    | none => simp [Row.holding_of_unknown held, Row.intValue?_blank] at value
    | some contents => simpa [rowOf, same held] using value
  · intro q x found
    simp only [rowOf_holding] at found ⊢
    obtain ⟨_, stands, value⟩ := bind_eq_some_iff.1 found
    obtain ⟨row, rowOf, rfl⟩ := map_eq_some_iff.1 stands
    cases held : known row.key with
    | none => simp [Row.holding_of_unknown held, Row.floatValue?_blank] at value
    | some contents => simpa [rowOf, same held] using value

end Table

/-! ## The rules of a file -/

section
variable (floats : FloatArithmetic F) (aliases : Aliases)

/-- What a row of a kind, with a value so far, is resolved with when an initialiser folds. -/
def foldedContents (rows : Query → Option (Row F)) (kind : ConstKind) (value : Int64)
    (e : Initializer) : Option (Contents F) :=
  match kind with
  | .float => (floatOf rows floats e).map fun x => ⟨value, [], some x⟩
  | _ => (intOf rows e).map fun v => ⟨v, [], none⟩

theorem Below.foldedContents {floats : FloatArithmetic F} {rows rows' : Query → Option (Row F)}
    (h : Below floats rows rows') {kind : ConstKind} {value : Int64} {e : Initializer}
    {contents : Contents F} (found : foldedContents floats rows kind value e = some contents) :
    foldedContents floats rows' kind value e = some contents := by
  cases kind with
  | float =>
    obtain ⟨x, folded, result⟩ := map_eq_some_iff.1 found
    exact map_eq_some_iff.2 ⟨x, h.floatOf folded, result⟩
  | scalar | cstr | sview | other =>
    obtain ⟨v, folded, result⟩ := map_eq_some_iff.1 found
    exact map_eq_some_iff.2 ⟨v, h.intOf folded, result⟩

def foldRules (consts : List Owned) (table : Table F) : Rules Key (Contents F) where
  apply key known :=
    (consts.find? fun c => c.key = key).bind fun c =>
      (table.indexOfIn key.1 key.2).bind fun row =>
        foldedContents floats ((table.holding known).rowOf aliases c.owner) row.kind row.value
          c.constant.value
  mono := by
    intro key known known' contents keeps found
    obtain ⟨c, decl, found⟩ := bind_eq_some_iff.1 found
    obtain ⟨row, index, folded⟩ := bind_eq_some_iff.1 found
    rw [decl, bind_some, index, bind_some]
    exact (Table.below_holding table aliases floats c.owner keeps).foldedContents folded

/-- The constants are told apart by owner and name. -/
def Once (consts : List Owned) : Prop := (consts.map Owned.key).Nodup

variable {floats aliases} {consts : List Owned} {table : Table F}
  {known : Known Key (Contents F)}

theorem Once.find (once : Once consts) {c : Owned} (mem : c ∈ consts) :
    (consts.find? fun d => d.key = c.key) = some c := by
  cases found : consts.find? fun d => decide (d.key = c.key) with
  | none => simpa using List.find?_eq_none.1 found c mem
  | some d =>
    have key : d.key = c.key := by simpa using List.find?_some found
    rw [List.inj_on_of_nodup_map once (List.mem_of_find?_eq_some found) mem key]

theorem foldRules_apply (once : Once consts) {c : Owned} (mem : c ∈ consts) {row : Row F}
    (rowMem : row ∈ table.rows) (key : row.key = c.key) (known : Known Key (Contents F)) :
    (foldRules floats aliases consts table).apply c.key known =
      foldedContents floats ((table.holding known).rowOf aliases c.owner) row.kind row.value
        c.constant.value := by
  have index : table.indexOfIn c.key.1 c.key.2 = some row :=
    Table.indexOfIn_eq_some_iff.2 ⟨rowMem, key⟩
  simp only [foldRules, once.find mem, bind_some, index]

theorem exists_of_apply {key : Key} {contents : Contents F}
    (h : (foldRules floats aliases consts table).apply key known = some contents) :
    ∃ c ∈ consts, c.key = key ∧ ∃ row ∈ table.rows, row.key = key := by
  obtain ⟨c, decl, found⟩ := bind_eq_some_iff.1 h
  obtain ⟨row, index, -⟩ := bind_eq_some_iff.1 found
  obtain ⟨rowMem, rowKey⟩ := Table.indexOfIn_eq_some_iff.1 index
  exact ⟨c, List.mem_of_find?_eq_some decl, by simpa using List.find?_some decl, row,
    rowMem, rowKey⟩

/-! ## A run of folding holds more and more contents -/

namespace Table

/-- A row that is not resolved has no contents yet. -/
def Clean (table : Table F) : Prop :=
  ∀ row ∈ table.rows, row.resolved = false → row.floatText = [] ∧ row.floatValue = none

theorem holding_known (clean : table.Clean) : table.holding table.known = table := by
  apply ext_rows
  change table.rows.map (Row.holding table.known) = table.rows
  conv_rhs => rw [← List.map_id table.rows]
  apply List.map_congr_left
  intro row mem
  have known := known_of_mem mem
  cases resolved : row.resolved with
  | true =>
    simp only [resolved, if_true] at known
    simp [Row.holding, known, Row.contents, ← resolved]
  | false =>
    obtain ⟨text, value⟩ := clean row mem resolved
    simp only [resolved, Bool.false_eq_true, if_false] at known
    simp [Row.holding_of_unknown known, Row.blank, ← text, ← value, ← resolved]

theorem known_holding (hasRow : ∀ key contents, known key = some contents →
    ∃ row ∈ table.rows, row.key = key) : (table.holding known).known = known := by
  funext key
  cases row : table.indexOfIn key.1 key.2 with
  | none =>
    have unknown : known key = none := by
      cases found : known key with
      | none => rfl
      | some contents =>
        obtain ⟨other, mem, otherKey⟩ := hasRow key contents found
        cases row.symm.trans (indexOfIn_eq_some_iff.2 ⟨mem, otherKey⟩)
    simp [Table.known, indexOfIn_holding, row, unknown]
  | some row' =>
    obtain ⟨mem, rowKey⟩ := indexOfIn_eq_some_iff.1 row
    have same : row'.key = key := rowKey
    simp only [Table.known, indexOfIn_holding, row, map_some, bind_some,
      Row.holding_resolved, same]
    cases found : known key with
    | none => rfl
    | some contents =>
      have held : known row'.key = some contents := same ▸ found
      simp [Row.contents, Row.holding, held]

theorem update_holding {row : Row F} (mem : row ∈ table.rows) (f : Row F → Row F)
    (hf : ∀ row, (f row).key = row.key) (contents : Contents F)
    (stores : f row.blank = row.holding (Function.update known row.key (some contents)))
    (unknown : known row.key = none) :
    (table.holding known).update row.key f hf =
      table.holding (Function.update known row.key (some contents)) := by
  apply ext_rows
  simp only [update, updateRow, holding, List.map_map]
  apply List.map_congr_left
  intro other otherMem
  simp only [Function.comp_apply, Row.holding_key]
  split
  next same =>
    obtain rfl := row_eq_of_key otherMem mem same
    rw [Row.holding_of_unknown unknown, stores]
  next different => simp only [Row.holding, Function.update_of_ne different]

end Table

theorem foldConst_holding (once : Once consts) {c : Owned} (mem : c ∈ consts)
    (known : Known Key (Contents F)) (owner : Bytes) (progressed : Bool) :
    foldConst floats aliases c ⟨table.holding known, owner, progressed⟩ =
      ⟨table.holding
        (visit (foldRules floats aliases consts table) c.key ⟨known, progressed⟩).known, owner,
          (visit (foldRules floats aliases consts table) c.key
            ⟨known, progressed⟩).progressed⟩ := by
  simp only [foldConst, visit, Table.indexOfIn_holding]
  cases index : table.indexOfIn c.owner c.constant.name with
  | none =>
    have computes : (foldRules floats aliases consts table).apply c.key known = none := by
      cases computed : (foldRules floats aliases consts table).apply c.key known with
      | none => rfl
      | some contents =>
        obtain ⟨-, -, -, row, rowMem, rowKey⟩ := exists_of_apply computed
        cases index.symm.trans (Table.indexOfIn_eq_some_iff.2 ⟨rowMem, rowKey⟩)
    cases known c.key <;> simp [computes]
  | some row =>
    obtain ⟨rowMem, rowKey⟩ := Table.indexOfIn_eq_some_iff.1 index
    have same : row.key = c.key := rowKey
    simp only [map_some, Row.holding_resolved, same, foldRules_apply once mem rowMem same]
    cases unknown : known c.key with
    | some contents => rfl
    | none =>
      have blank : known row.key = none := same ▸ unknown
      simp only [isSome_none, Bool.false_eq_true, if_false, Row.holding_kind,
        foldConstExpr_eq, foldConstFloatExpr_eq]
      -- The integer folder serves every kind but one.
      have storeInt : ∀ v, (table.holding known).update c.key (Row.storeInt v) (fun _ => rfl) =
          table.holding (Function.update known c.key (some ⟨v, [], none⟩)) := by
        intro v
        rw [← same]
        apply Table.update_holding rowMem _ _ _ _ blank
        simp [Row.storeInt, Row.blank, Row.holding]
      cases kind : row.kind with
      | float =>
        simp only [foldedContents]
        cases floatOf ((table.holding known).rowOf aliases c.owner) floats c.constant.value with
        | none => rfl
        | some x =>
          simp only [map_some, FoldState.mk.injEq, and_true]
          rw [← same]
          apply Table.update_holding rowMem _ _ _ _ blank
          simp [Row.storeFloat, Row.blank, Row.holding]
      | scalar | cstr | sview | other =>
        simp only [foldedContents]
        cases intOf ((table.holding known).rowOf aliases c.owner) c.constant.value with
        | none => rfl
        | some v => simp only [map_some, storeInt]

theorem foldr_foldConst_holding (once : Once consts) (pending : List Owned)
    (sub : ∀ c ∈ pending, c ∈ consts) (known : Known Key (Contents F)) (owner : Bytes) :
    pending.foldr (foldConst floats aliases) ⟨table.holding known, owner, false⟩ =
      ⟨table.holding
        (pass (foldRules floats aliases consts table) (pending.map Owned.key) known).known, owner,
        (pass (foldRules floats aliases consts table)
          (pending.map Owned.key) known).progressed⟩ := by
  induction pending with
  | nil => rfl
  | cons c pending ih =>
    rw [List.foldr_cons, ih fun d mem => sub d (.tail _ mem),
      foldConst_holding once (sub c (.head _))]
    rfl

theorem foldConstsLoop_holding {top : List Declaration} (once : Once (declared [] top))
    (passCount : Nat) (known : Known Key (Contents F)) (owner : Bytes) :
    (foldConstsLoop floats aliases top passCount (table.holding known) owner).table =
        table.holding (passes (foldRules floats aliases (declared [] top) table)
          ((declared [] top).map Owned.key) passCount known) ∧
      (foldConstsLoop floats aliases top passCount (table.holding known) owner).currentOwner =
        owner := by
  induction passCount generalizing known with
  | zero => exact ⟨rfl, rfl⟩
  | succ passCount ih =>
    simp only [foldConstsLoop, foldPass, passes,
      foldr_foldConst_holding once (declared [] top) (fun _ mem => mem) known owner]
    split
    · exact ih _
    · exact ⟨rfl, rfl⟩

/-- A value of a constant that can be derived from the resolved rows of a table. -/
def Folds (floats : FloatArithmetic F) (aliases : Aliases) (consts : List Owned)
    (table : Table F) : Key → Contents F → Prop :=
  Derives (foldRules floats aliases consts table) (consts.map Owned.key) table.known

theorem Folds.exists_row {key : Key} {contents : Contents F}
    (h : Folds floats aliases consts table key contents) : ∃ row ∈ table.rows, row.key = key := by
  cases h with
  | given found =>
    obtain ⟨row, mem, rowKey, -, -⟩ := Table.exists_of_known found
    exact ⟨row, mem, rowKey⟩
  | rule _ _ _ _ computed =>
    obtain ⟨-, -, -, row⟩ := exists_of_apply computed
    exact row

theorem foldConsts_known {top : List Declaration} (clean : table.Clean)
    (once : Once (declared [] top)) (owner : Bytes) :
    (foldConsts floats aliases top table owner).currentOwner = owner ∧
      ∀ key contents, (foldConsts floats aliases top table owner).table.known key = some contents ↔
        Folds floats aliases (declared [] top) table key contents := by
  have run := @foldConstsLoop_holding F floats aliases table top once
    table.rows.length table.known owner
  rw [Table.holding_known clean] at run
  refine ⟨run.2, fun key contents => ?_⟩
  have enough : unknownCount (table.rows.map Row.key) table.known ≤ table.rows.length :=
    Nat.le_trans List.countP_le_length (Nat.le_of_eq (List.length_map _))
  have inScope : ∀ key known contents,
      (foldRules floats aliases (declared [] top) table).apply key known = some contents →
        key ∈ table.rows.map Row.key := by
    intro key known contents computed
    obtain ⟨-, -, -, row, mem, rowKey⟩ := exists_of_apply computed
    exact List.mem_map.2 ⟨row, mem, rowKey⟩
  have found : ∀ {key contents}, _ ↔ Folds floats aliases (declared [] top) table key contents :=
    fun {key contents} => passes_eq_some_iff inScope enough
  rw [foldConsts, run.1, Table.known_holding fun key contents known => (found.1 known).exists_row]
  exact found

end

end Elisa.Backend.Constants
