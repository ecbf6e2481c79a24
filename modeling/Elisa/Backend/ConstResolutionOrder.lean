import Elisa.Backend.ConstResolutionRules

/-!
# What the order of the declarations decides

The constants that fold are those whose initialisers fold where the constants they read do
(`Folds`). The order of the declarations has a part in this through the last resort of a lookup
only: a bare name that neither the enclosing module nor the top level declares stands for the first
constant of that name.  Where no name is of this kind, or one module declares it, the order makes no
difference (`resolveConsts_spec`).
-/

namespace Elisa.Backend.Constants

open Lib.Resolution List Option

variable {F : Type}

/-! ## The names in an initialiser -/

namespace Initializer

def queries : Initializer → List Query
  | .ident name => [.bare name]
  | .scope module name => [.inModule module name]
  | .nestedScope root module name => [.inNested root module name]
  | .field receiver _ _ => receiver.queries
  | .paren inner => inner.queries
  | .unary _ operand => operand.queries
  | .cast object _ => object.queries
  | .binary left _ right => left.queries ++ right.queries
  | .conditional condition thenValue elseValue =>
    condition.queries ++ thenValue.queries ++ elseValue.queries
  | .intLit _ | .boolLit _ | .charLit _ | .floatLit _ | .stringLit _ _ | .other => []

mutual

/-- The names whose values a fold reads whatever these are.  The length of a conditional text
reads its condition, and then one of its branches. -/
def reads : Initializer → List Query
  | .ident name => [.bare name]
  | .scope module name => [.inModule module name]
  | .nestedScope root module name => [.inNested root module name]
  | .field receiver isLen _ => if isLen then receiver.lengthReads else []
  | .paren inner => inner.reads
  | .unary _ operand => operand.reads
  | .cast object _ => object.reads
  | .binary left _ right => left.reads ++ right.reads
  | .intLit _ | .boolLit _ | .charLit _ | .floatLit _ | .stringLit _ _ | .conditional _ _ _
  | .other => []

def lengthReads : Initializer → List Query
  | .paren inner => inner.lengthReads
  | .conditional condition _ _ => condition.reads
  | .intLit _ | .boolLit _ | .charLit _ | .floatLit _ | .stringLit _ _ | .ident _ | .scope _ _
  | .nestedScope _ _ _ | .field _ _ _ | .unary _ _ | .cast _ _ | .binary _ _ _ | .other => []

end

end Initializer

section
variable {rows rows' : Query → Option (Row F)} {floats : FloatArithmetic F}

theorem intOf_congr_and (e : Initializer) (same : ∀ q ∈ e.queries, rows q = rows' q) :
    intOf rows e = intOf rows' e ∧ lengthOf rows e = lengthOf rows' e := by
  induction e with
  | intLit | boolLit | charLit | floatLit | stringLit | other => exact ⟨rfl, rfl⟩
  | ident name => simp only [intOf, lengthOf, same (.bare name) (.head _), and_self]
  | scope module name =>
    simp only [intOf, lengthOf, same (.inModule module name) (.head _), and_self]
  | nestedScope root module name =>
    simp only [intOf, lengthOf, same (.inNested root module name) (.head _), and_self]
  | field receiver isLen member ih => simp only [intOf, lengthOf, (ih same).2, and_self]
  | paren inner ih => exact ih same
  | unary operator operand ih => simp only [intOf, lengthOf, (ih same).1, and_self]
  | cast object toFloat ih => exact ⟨(ih same).1, rfl⟩
  | binary left operator right ihl ihr =>
    have hl := ihl fun q mem => same q (mem_append_left _ mem)
    have hr := ihr fun q mem => same q (mem_append_right _ mem)
    simp only [intOf, lengthOf, hl.1, hr.1, and_self]
  | conditional condition thenValue elseValue ihc iht ihe =>
    have hc := ihc fun q mem => same q (mem_append_left _ (mem_append_left _ mem))
    have ht := iht fun q mem => same q (mem_append_left _ (mem_append_right _ mem))
    have he := ihe fun q mem => same q (mem_append_right _ mem)
    simp only [intOf, lengthOf, hc.1, ht.2, he.2, and_self]

theorem floatOf_congr (e : Initializer) (same : ∀ q ∈ e.queries, rows q = rows' q) :
    floatOf rows floats e = floatOf rows' floats e := by
  induction e with
  | intLit | boolLit | charLit | floatLit | stringLit | field | conditional | other => rfl
  | ident name => simp only [floatOf, same (.bare name) (.head _)]
  | scope module name => simp only [floatOf, same (.inModule module name) (.head _)]
  | nestedScope root module name => simp only [floatOf, same (.inNested root module name) (.head _)]
  | paren inner ih => exact ih same
  | unary operator operand ih => simp only [floatOf, ih same]
  | cast object toFloat ih =>
    cases toFloat with
    | true => exact ih same
    | false => rfl
  | binary left operator right ihl ihr =>
    have hl := ihl fun q mem => same q (mem_append_left _ mem)
    have hr := ihr fun q mem => same q (mem_append_right _ mem)
    simp only [floatOf, hl, hr]

theorem foldedContents_congr (kind : ConstKind) (value : Int64) (e : Initializer)
    (same : ∀ q ∈ e.queries, rows q = rows' q) :
    foldedContents floats rows kind value e = foldedContents floats rows' kind value e := by
  cases kind <;> simp only [foldedContents, floatOf_congr e same, (intOf_congr_and e same).1]

theorem intOf_reads (e : Initializer) :
    (∀ v, intOf rows e = some v → ∀ q ∈ e.reads, ((rows q).bind Row.intValue?).isSome) ∧
      ∀ v, lengthOf rows e = some v → ∀ q ∈ e.lengthReads,
        ((rows q).bind Row.intValue?).isSome := by
  induction e with
  | intLit | boolLit | charLit | floatLit | stringLit | other =>
    exact ⟨fun _ _ _ mem => (by cases mem), fun _ _ _ mem => (by cases mem)⟩
  | ident name =>
    refine ⟨fun v found q mem => ?_, fun _ _ _ mem => (by cases mem)⟩
    obtain rfl := mem_singleton.1 mem
    exact isSome_of_eq_some found
  | scope module name =>
    refine ⟨fun v found q mem => ?_, fun _ _ _ mem => (by cases mem)⟩
    obtain rfl := mem_singleton.1 mem
    exact isSome_of_eq_some found
  | nestedScope root module name =>
    refine ⟨fun v found q mem => ?_, fun _ _ _ mem => (by cases mem)⟩
    obtain rfl := mem_singleton.1 mem
    exact isSome_of_eq_some found
  | paren inner ih => exact ih
  | field receiver isLen member ih =>
    refine ⟨fun v found q mem => ?_, fun _ _ _ mem => (by cases mem)⟩
    cases isLen with
    | false => cases mem
    | true =>
      change q ∈ receiver.lengthReads at mem
      cases length : lengthOf rows receiver with
      | some n => exact ih.2 n length q mem
      | none =>
        -- Without a length it is an enum member, and its head has nothing to read.
        cases receiver with
        | paren | conditional => simp [intOf, length, Initializer.isPath] at found
        | _ => cases mem
  | unary operator operand ih =>
    refine ⟨fun v found => ?_, fun _ _ _ mem => (by cases mem)⟩
    obtain ⟨x, folded, -⟩ := bind_eq_some_iff.1 found
    exact ih.1 x folded
  | cast object toFloat ih => exact ⟨ih.1, fun _ _ _ mem => (by cases mem)⟩
  | binary left operator right ihl ihr =>
    refine ⟨fun v found q mem => ?_, fun _ _ _ mem => (by cases mem)⟩
    obtain ⟨x, foldedX, found⟩ := bind_eq_some_iff.1 found
    obtain ⟨y, foldedY, -⟩ := bind_eq_some_iff.1 found
    rcases mem_append.1 mem with mem | mem
    · exact ihl.1 x foldedX q mem
    · exact ihr.1 y foldedY q mem
  | conditional condition thenValue elseValue ihc _ _ =>
    refine ⟨fun _ _ _ mem => (by cases mem), fun v found => ?_⟩
    obtain ⟨x, folded, -⟩ := bind_eq_some_iff.1 found
    exact ihc.1 x folded

theorem floatOf_reads (e : Initializer) {x : F} (found : floatOf rows floats e = some x) :
    ∀ q ∈ e.reads, ((rows q).bind (Row.floatValue? floats)).isSome := by
  induction e generalizing x with
  | intLit | floatLit => exact fun _ mem => by cases mem
  | boolLit | charLit | stringLit | field | conditional | other => cases found
  | ident name | scope module name | nestedScope root module name =>
    intro q mem
    obtain rfl := mem_singleton.1 mem
    exact isSome_of_eq_some found
  | paren inner ih => exact ih found
  | unary operator operand ih =>
    obtain ⟨y, folded, -⟩ := map_eq_some_iff.1 found
    exact ih folded
  | cast object toFloat ih =>
    cases toFloat with
    | true => exact ih found
    | false => cases found
  | binary left operator right ihl ihr =>
    intro q mem
    obtain ⟨y, foldedY, found⟩ := bind_eq_some_iff.1 found
    obtain ⟨z, foldedZ, -⟩ := bind_eq_some_iff.1 found
    rcases mem_append.1 mem with mem | mem
    · exact ihl foldedY q mem
    · exact ihr foldedZ q mem

end

/-! ## Chains of reads -/

section
variable (aliases : Aliases) (consts : List Owned) (table : Table F)

/-- The fold of one constant, not resolved to begin with, always reads another. -/
def Reads (key key' : Key) : Prop :=
  table.known key = none ∧ ∃ c ∈ consts, c.key = key ∧ ∃ q ∈ c.constant.value.reads,
    ∃ row, table.rowOf aliases c.owner q = some row ∧ row.key = key'

variable {aliases consts table} {floats : FloatArithmetic F}

theorem Reads.needs (once : Once consts) {key key' : Key}
    (h : Reads aliases consts table key key') :
    Needs (foldRules floats aliases consts table) key key' := by
  obtain ⟨-, c, mem, rfl, q, qMem, row, stands, rfl⟩ := h
  intro known contents computed
  obtain ⟨-, -, -, own, ownMem, ownKey⟩ := exists_of_apply computed
  rw [foldRules_apply once mem ownMem ownKey] at computed
  cases held : known row.key with
  | some other => rfl
  | none =>
    have blank : (table.holding known).rowOf aliases c.owner q = some row.blank := by
      rw [Table.rowOf_holding, stands, map_some, Row.holding_of_unknown held]
    cases kind : own.kind with
    | float =>
      rw [kind] at computed
      obtain ⟨x, folded, -⟩ := map_eq_some_iff.1 computed
      have read := floatOf_reads _ folded q qMem
      simp [blank, Row.floatValue?_blank] at read
    | scalar | cstr | sview | other =>
      rw [kind] at computed
      obtain ⟨v, folded, -⟩ := map_eq_some_iff.1 computed
      have read := (intOf_reads _).1 v folded q qMem
      simp [blank, Row.intValue?_blank] at read

/-- Along a chain of reads every constant folds, and none is read again. -/
theorem Folds.reads (once : Once consts) {key key' : Key} {contents : Contents F}
    (h : Folds floats aliases consts table key contents)
    (chain : Relation.ReflTransGen (Reads aliases consts table) key key') :
    (∃ contents', Folds floats aliases consts table key' contents') ∧
      ¬ Relation.TransGen (Reads aliases consts table) key' key' := by
  have folds : ∃ contents', Folds floats aliases consts table key' contents' := by
    induction chain with
    | refl => exact ⟨contents, h⟩
    | tail _ step ih =>
      obtain ⟨contents', folds⟩ := ih
      exact Derives.needs folds step.1 (step.needs once)
  refine ⟨folds, ?_⟩
  have acc : Acc (fun k k' => Reads aliases consts table k' k) key' := by
    obtain ⟨contents', folds⟩ := folds
    exact Subrelation.accessible (fun step => ⟨step.1, step.needs once⟩) folds.acc
  clear chain folds
  intro cycle
  induction acc with
  | intro k _ ih =>
    obtain ⟨next, step, back⟩ := Relation.TransGen.head'_iff.1 cycle
    exact ih next step (Relation.TransGen.tail' back step)

end

/-! ## Tables with the same rows in another order -/

theorem find_congr {α : Type*} {p : α → Bool} {l l' : List α} (same : ∀ a, a ∈ l ↔ a ∈ l')
    (unique : ∀ a ∈ l, ∀ b ∈ l, p a = true → p b = true → a = b) : l.find? p = l'.find? p := by
  cases found : l.find? p with
  | none =>
    refine (find?_eq_none.2 fun a mem => ?_).symm
    exact find?_eq_none.1 found a ((same a).2 mem)
  | some a =>
    have mem := mem_of_find?_eq_some found
    have holds := find?_some found
    cases found' : l'.find? p with
    | none => exact absurd holds (find?_eq_none.1 found' a ((same a).1 mem))
    | some b =>
      have mem' := (same b).2 (mem_of_find?_eq_some found')
      rw [unique a mem b mem' holds (find?_some found')]

namespace Table

/-- A bare name stands for a constant of the module or of the top level, or for the only one of
that name. -/
def Settles (table : Table F) (owner name : Bytes) : Prop :=
  (∃ row ∈ table.rows, row.key = (owner, name)) ∨ (∃ row ∈ table.rows, row.key = ([], name)) ∨
    ∀ row ∈ table.rows, ∀ row' ∈ table.rows, row.name = name → row'.name = name → row = row'

section
variable {table table' : Table F} (same : ∀ row, row ∈ table.rows ↔ row ∈ table'.rows)
include same

theorem indexOfIn_congr (owner name : Bytes) :
    table.indexOfIn owner name = table'.indexOfIn owner name := by
  apply find_congr same
  intro row mem row' mem' key key'
  rw [decide_eq_true_iff] at key key'
  exact row_eq_of_key mem mem' (key.trans key'.symm)

theorem indexOf_congr {owner name : Bytes} (settles : table.Settles owner name) :
    table.indexOf owner name = table'.indexOf owner name := by
  unfold indexOf
  rw [indexOfIn_congr same [] name, indexOfIn_congr same owner name]
  rcases settles with ⟨row, mem, key⟩ | ⟨row, mem, key⟩ | unique
  · have found := indexOfIn_eq_some_iff.2 ⟨(same row).1 mem, key⟩
    split
    next top =>
      subst top
      simp [found]
    next => simp [found]
  · have found := indexOfIn_eq_some_iff.2 ⟨(same row).1 mem, key⟩
    simp [found]
  have any : table.rows.find? (fun row => row.name = name) =
      table'.rows.find? fun row => row.name = name := by
    apply find_congr same
    intro row mem row' mem' named named'
    rw [decide_eq_true_iff] at named named'
    exact unique row mem row' mem' named named'
  rw [any]

theorem ownerOf_congr (head rest : Bytes) : table.ownerOf head rest = table'.ownerOf head rest := by
  have spelled : ∀ {table : Table F} {owner : Bytes}, table.ownerOf head rest = some owner ↔
      (∃ row ∈ table.rows, qualifiedOwnerMatches row.owner head rest = true) ∧
        owner = head ++ [colon, colon] ++ rest := by
    intro table owner
    have spelling : ∀ {row : Row F}, qualifiedOwnerMatches row.owner head rest = true →
        row.owner = head ++ [colon, colon] ++ rest := by
      intro row matching
      simp only [qualifiedOwnerMatches, decide_eq_true_iff] at matching
      exact matching.2.2
    constructor
    · intro found
      obtain ⟨row, search, rfl⟩ := map_eq_some_iff.1 found
      have matching : qualifiedOwnerMatches row.owner head rest = true := by
        simpa using find?_some search
      exact ⟨⟨row, mem_of_find?_eq_some search, matching⟩, spelling matching⟩
    · rintro ⟨⟨row, mem, matching⟩, rfl⟩
      cases found : table.rows.find? fun row => qualifiedOwnerMatches row.owner head rest with
      | none => exact absurd matching (find?_eq_none.1 found row mem)
      | some other =>
        have otherMatches : qualifiedOwnerMatches other.owner head rest = true := by
          simpa using find?_some found
        simp only [ownerOf, found, map_some, spelling otherMatches]
  apply Option.ext
  intro owner
  rw [spelled, spelled]
  simp only [same]

theorem lookupOwner_congr (aliases : Aliases) (owner : Bytes) (q : Query) :
    table.lookupOwner aliases owner q = table'.lookupOwner aliases owner q := by
  cases q with
  | bare name => rfl
  | inModule module name => simp only [lookupOwner, scopeOwner, ownerOf_congr same]
  | inNested root module name => exact ownerOf_congr same root module

end

/-- Every name of an initialiser, looked up from its module, is settled. -/
def SettlesAll (table : Table F) (aliases : Aliases) (c : Owned) : Prop :=
  ∀ q ∈ c.constant.value.queries, ∀ owner,
    table.lookupOwner aliases c.owner q = some owner → table.Settles owner q.name

theorem rowOf_congr {table table' : Table F} (same : ∀ row, row ∈ table.rows ↔ row ∈ table'.rows)
    {aliases : Aliases} {c : Owned} (settles : table.SettlesAll aliases c) {q : Query}
    (mem : q ∈ c.constant.value.queries) :
    table.rowOf aliases c.owner q = table'.rowOf aliases c.owner q := by
  unfold rowOf
  rw [← lookupOwner_congr same]
  cases found : table.lookupOwner aliases c.owner q with
  | none => rfl
  | some owner =>
    rw [bind_some, bind_some, indexOf_congr same (settles q mem owner found)]

theorem known_congr {table table' : Table F} (same : ∀ row, row ∈ table.rows ↔ row ∈ table'.rows) :
    table.known = table'.known := by
  funext key
  simp only [known, indexOfIn_congr same]

end Table

section
variable (aliases : Aliases) (consts : List Owned) (table : Table F)

def Names (key key' : Key) : Prop :=
  ∃ c ∈ consts, c.key = key ∧ ∃ q ∈ c.constant.value.queries,
    ∃ row, table.rowOf aliases c.owner q = some row ∧ row.key = key'

def DependsOnSettled (key : Key) : Prop :=
  ∀ c ∈ consts, Relation.ReflTransGen (Names aliases consts table) key c.key →
    table.SettlesAll aliases c

variable {aliases consts table} {floats : FloatArithmetic F}

theorem foldedContents_of_same {table' : Table F}
    (same : ∀ row, row ∈ table.rows ↔ row ∈ table'.rows) {c : Owned}
    (settles : table.SettlesAll aliases c) {known known' : Known Key (Contents F)}
    (agree : ∀ q ∈ c.constant.value.queries, ∀ row, table.rowOf aliases c.owner q = some row →
      known row.key = known' row.key) (kind : ConstKind) (value : Int64) :
    foldedContents floats ((table.holding known).rowOf aliases c.owner) kind value
        c.constant.value =
      foldedContents floats ((table'.holding known').rowOf aliases c.owner) kind value
        c.constant.value := by
  apply foldedContents_congr
  intro q mem
  rw [Table.rowOf_holding, Table.rowOf_holding, ← Table.rowOf_congr same settles mem]
  cases stands : table.rowOf aliases c.owner q with
  | none => rfl
  | some row => simp only [map_some, Row.holding, agree q mem row stands]

theorem folds_iff_of_perm {consts' : List Owned} {table' : Table F} (once : Once consts)
    (perm : consts.Perm consts') (same : ∀ row, row ∈ table.rows ↔ row ∈ table'.rows) {key : Key}
    (settled : DependsOnSettled aliases consts table key) (contents : Contents F) :
    Folds floats aliases consts table key contents ↔
      Folds floats aliases consts' table' key contents := by
  classical
  have once' : Once consts' := (perm.map Owned.key).nodup_iff.1 once
  have given : table.known = table'.known := Table.known_congr same
  -- What the names inside stand for is inside, so that nothing else need be known.
  let Inside := Relation.ReflTransGen (Names aliases consts table) key
  have inside : ∀ c ∈ consts, Inside c.key → ∀ q ∈ c.constant.value.queries, ∀ row,
      table.rowOf aliases c.owner q = some row → Inside row.key :=
    fun c mem reached q qMem row stands => reached.tail ⟨c, mem, rfl, q, qMem, row, stands, rfl⟩
  constructor
  · refine fun h => Derives.transfer Inside (fun k _ mem => (perm.map Owned.key).mem_iff.1 mem) ?_ h
      (fun k _ => congrFun given k) Relation.ReflTransGen.refl
    intro k known value reached computed
    obtain ⟨c, mem, rfl, row, rowMem, rowKey⟩ := exists_of_apply computed
    rw [foldRules_apply once mem rowMem rowKey] at computed
    rw [foldRules_apply once' (perm.mem_iff.1 mem) ((same row).1 rowMem) rowKey, ← computed]
    refine (foldedContents_of_same same (settled c mem reached) ?_ _ _).symm
    intro q qMem other stands
    exact (if_pos (inside c mem reached q qMem other stands)).symm
  · refine fun h => Derives.transfer Inside (fun k _ mem => (perm.map Owned.key).mem_iff.2 mem) ?_ h
      (fun k _ => (congrFun given k).symm) Relation.ReflTransGen.refl
    intro k known value reached computed
    obtain ⟨c, mem, rfl, row, rowMem, rowKey⟩ := exists_of_apply computed
    have mem := perm.mem_iff.2 mem
    rw [foldRules_apply once' (perm.mem_iff.1 mem) rowMem rowKey] at computed
    rw [foldRules_apply once mem ((same row).2 rowMem) rowKey, ← computed]
    refine foldedContents_of_same same (settled c mem reached) ?_ _ _
    intro q qMem other stands
    exact if_pos (inside c mem reached q qMem other stands)

end

/-! ## The constants of a file -/

def noFloats : FloatArithmetic Unit where
  ofText _ := ()
  ofInt _ := ()
  zero := ()
  isZero _ := true
  add _ _ := ()
  sub _ _ := ()
  mul _ _ := ()
  div _ _ := ()

def integerConst (name : String) (value : Initializer) : Declaration :=
  .const ⟨ascii name, value⟩

def moduleWithX (name : String) (value : Int64) : Declaration :=
  .module (ascii name) [integerConst "X" (.intLit value)]

/-- The row of an `i64` constant that is registered. -/
def integerRow (owner name : String) : Row Unit where
  owner := ascii owner
  name := ascii name
  kind := .scalar (.signed .w64)
  value := 0
  floatText := []
  floatValue := none
  text := none
  literalTyped := false
  resolved := false

def integerContents (value : Int64) : Contents Unit := ⟨value, [], none⟩

/-- A constant that depends on two others, declared before them. -/
def chained : List Declaration :=
  [integerConst "A" (.binary (.ident (ascii "B")) .plus (.ident (ascii "C"))),
    integerConst "B" (.unary .minus (.ident (ascii "C"))), integerConst "C" (.intLit 5)]

def chainedTable : Table Unit where
  rows := [integerRow "" "A", integerRow "" "B", integerRow "" "C"]
  distinct := by decide +kernel

/-- The rows of `X` in the modules `A` and `B`, in either order, and of a top-level `Y`. -/
def rowsOfX (first second : String) : List (Row Unit) :=
  [integerRow first "X", integerRow second "X", integerRow "" "Y"]

end Elisa.Backend.Constants
