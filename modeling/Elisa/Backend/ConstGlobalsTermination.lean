import Mathlib.Data.Set.Finite.Lattice
import Mathlib.Data.Finite.Prod
import Elisa.Backend.ConstGlobals

/-!
# When materialisation returns

The states of the recursion are an initializer and a type, and a given program has finitely many: an
initializer is a part of the first one or of a declaration, or a field of such a part, and a type is
the first one or comes from the tables (`finite_states`).  So `terminates_iff`.
-/

namespace Elisa.Backend

open Elisa.Lib List

/-! ## Calls -/

/-- The states of the recursive calls that are left to do. -/
def Work.calls : Work → List (GlobalExpr × ValueType)
  | .done _ => []
  | .follow value type => [(value, type)]
  | .elements elementType items => items.map (·, elementType)
  | .fields _ _ _ parts => parts.map Prod.snd

def aggregateCalls (g : GlobalTables) (state : GlobalExpr × ValueType) :
    List (GlobalExpr × ValueType) :=
  (constAggregateWork g state.1 state.2).calls

theorem isSome_mapM {α β : Type} (f : α → Option β) (l : List α) :
    (l.mapM f).isSome ↔ ∀ a ∈ l, (f a).isSome := by
  induction l with
  | nil => simp
  | cons a l ih =>
    rw [mapM_cons, forall_mem_cons, ← ih]
    cases f a with
    | none => simp
    | some b => cases l.mapM f <;> simp

theorem isSome_constAggregateValue (g : GlobalTables) (fuel : Nat) (value : GlobalExpr)
    (type : ValueType) : (constAggregateValue g (fuel + 1) value type).isSome ↔
      ∀ y ∈ aggregateCalls g (value, type), (constAggregateValue g fuel y.1 y.2).isSome := by
  rw [constAggregateValue, aggregateCalls]
  cases constAggregateWork g value type with
  | done result => simp [Work.calls]
  | follow value type => simp [Work.calls]
  | elements elementType elements =>
    simp only [Work.calls, forall_mem_map]
    rw [← isSome_mapM]
    cases elements.mapM fun element => constAggregateValue g fuel element elementType <;> simp
  | fields type types placed parts =>
    simp only [Work.calls, forall_mem_map]
    have each : ∀ part : Nat × GlobalExpr × ValueType,
        (constAggregateValue g fuel part.2.1 part.2.2).isSome ↔
          ((constAggregateValue g fuel part.2.1 part.2.2).map (part.1, ·)).isSome := by simp
    simp only [each]
    rw [← isSome_mapM fun part : Nat × GlobalExpr × ValueType =>
      (constAggregateValue g fuel part.2.1 part.2.2).map (part.1, ·)]
    have same : (parts.mapM fun part => do
        let child ← constAggregateValue g fuel part.2.1 part.2.2
        some (part.1, child)) = parts.mapM fun part =>
          (constAggregateValue g fuel part.2.1 part.2.2).map (part.1, ·) := by
      congr 1
      funext part
      cases constAggregateValue g fuel part.2.1 part.2.2 <;> rfl
    simp only [same]
    cases parts.mapM fun part =>
      (constAggregateValue g fuel part.2.1 part.2.2).map (part.1, ·) <;> simp

theorem terminates_iff_returns (g : GlobalTables) (value : GlobalExpr) (type : ValueType) :
    Terminates g value type ↔ Unfolding.Returns (aggregateCalls g) (value, type) := by
  have within : ∀ fuel (state : GlobalExpr × ValueType),
      (constAggregateValue g fuel state.1 state.2).isSome ↔
        Unfolding.ReturnsWithin (aggregateCalls g) fuel state := by
    intro fuel
    induction fuel with
    | zero =>
      intro state
      constructor
      · intro no
        cases no
      · intro no
        cases no
    | succ fuel ih =>
      rintro ⟨value, type⟩
      rw [isSome_constAggregateValue]
      constructor
      · intro all
        exact .intro fun y mem => (ih y).1 (all y mem)
      · rintro ⟨all⟩ y mem
        exact (ih y).2 (all y mem)
  exact exists_congr fun fuel => within fuel (value, type)

/-! ## Parts of an initializer -/

mutual

/-- The initializer, and the parts of the literals and fields in it. -/
def parts : GlobalExpr → List GlobalExpr
  | .array elements => .array elements :: partsOfAll elements
  | .construct type fields => .construct type fields :: partsOfFields fields
  | .field object name => .field object name :: parts object
  | value => [value]

def partsOfAll : List GlobalExpr → List GlobalExpr
  | [] => []
  | value :: values => parts value ++ partsOfAll values

def partsOfFields : List (Bytes × GlobalExpr) → List GlobalExpr
  | [] => []
  | entry :: fields => parts entry.2 ++ partsOfFields fields

end

theorem self_mem_parts (value : GlobalExpr) : value ∈ parts value := by
  cases value <;> simp [parts]

variable {value part : GlobalExpr}

theorem mem_partsOfAll {values : List GlobalExpr} (mem : value ∈ values)
    (inside : part ∈ parts value) : part ∈ partsOfAll values := by
  induction values with
  | nil => cases mem
  | cons first values ih =>
    rw [partsOfAll, mem_append]
    cases mem with
    | head => exact .inl inside
    | tail _ mem => exact .inr (ih mem)

variable {fields : List (Bytes × GlobalExpr)}

theorem mem_partsOfFields {entry : Bytes × GlobalExpr} (mem : entry ∈ fields)
    (inside : part ∈ parts entry.2) : part ∈ partsOfFields fields := by
  induction fields with
  | nil => cases mem
  | cons first fields ih =>
    rw [partsOfFields, mem_append]
    cases mem with
    | head => exact .inl inside
    | tail _ mem => exact .inr (ih mem)

mutual

theorem parts_trans {a b : GlobalExpr} (inside : a ∈ parts b) :
    ∀ c, b ∈ parts c → a ∈ parts c
  | .array elements, h => by
    rw [parts, mem_cons] at h
    rcases h with rfl | h
    · exact inside
    · rw [parts]
      exact .tail _ (partsOfAll_trans inside elements h)
  | .construct type fields, h => by
    rw [parts, mem_cons] at h
    rcases h with rfl | h
    · exact inside
    · rw [parts]
      exact .tail _ (partsOfFields_trans inside fields h)
  | .field object name, h => by
    rw [parts, mem_cons] at h
    rcases h with rfl | h
    · exact inside
    · rw [parts]
      exact .tail _ (parts_trans inside object h)
  | .ident name, h => by
    obtain rfl : b = .ident name := by simpa [parts] using h
    exact inside
  | .stringLit text, h => by
    obtain rfl : b = .stringLit text := by simpa [parts] using h
    exact inside
  | .floatLit text, h => by
    obtain rfl : b = .floatLit text := by simpa [parts] using h
    exact inside
  | .index object position, h => by
    obtain rfl : b = .index object position := by simpa [parts] using h
    exact inside
  | .unary operator operand, h => by
    obtain rfl : b = .unary operator operand := by simpa [parts] using h
    exact inside
  | .other text, h => by
    obtain rfl : b = .other text := by simpa [parts] using h
    exact inside

theorem partsOfAll_trans {a b : GlobalExpr} (inside : a ∈ parts b) :
    ∀ values, b ∈ partsOfAll values → a ∈ partsOfAll values
  | [], h => by cases h
  | value :: values, h => by
    rw [partsOfAll, mem_append] at h ⊢
    exact h.imp (parts_trans inside value) (partsOfAll_trans inside values)

theorem partsOfFields_trans {a b : GlobalExpr} (inside : a ∈ parts b) :
    ∀ fields, b ∈ partsOfFields fields → a ∈ partsOfFields fields
  | [], h => by cases h
  | entry :: fields, h => by
    rw [partsOfFields, mem_append] at h ⊢
    exact h.imp (parts_trans inside entry.2) (partsOfFields_trans inside fields)

end

/-! ## States -/

section States

variable (g : GlobalTables) (start : GlobalExpr) (first : ValueType)

def declaredParts : List GlobalExpr :=
  parts start ++ g.decls.flatMap fun declaration => parts declaration.2

def fieldNameOf : GlobalExpr → Option Bytes
  | .field _ name => some name
  | _ => none

/-- The parts, and the fields that are selected in one of them. -/
def reachedExprs : List GlobalExpr :=
  let names := (declaredParts g start).filterMap fieldNameOf
  declaredParts g start ++
    (declaredParts g start).flatMap fun object => names.map (GlobalExpr.field object)

def reachedTypes : List ValueType :=
  first :: unmodeledType :: (g.arrayElements ++ g.fieldTypes)

def Work.Inside (work : Work) : Prop :=
  ∀ y ∈ work.calls, y.1 ∈ reachedExprs g start ∧ y.2 ∈ reachedTypes g first

variable {g start first}

theorem mem_reachedExprs (mem : value ∈ declaredParts g start) : value ∈ reachedExprs g start :=
  mem_append_left _ mem

theorem declaredParts_trans (mem : value ∈ declaredParts g start) (inside : part ∈ parts value) :
    part ∈ declaredParts g start := by
  rw [declaredParts, mem_append, mem_flatMap] at mem ⊢
  rcases mem with mem | ⟨declaration, declared, mem⟩
  · exact .inl (parts_trans inside start mem)
  · exact .inr ⟨declaration, declared, parts_trans inside declaration.2 mem⟩

variable {name : Bytes}

theorem source_mem {source : GlobalExpr} (found : g.constGlobalExpression name = some source) :
    source ∈ declaredParts g start := by
  obtain ⟨declaration, isFirst, rfl⟩ := Option.map_eq_some_iff.1 found
  refine mem_append_right _ (mem_flatMap.2 ⟨declaration, ?_, self_mem_parts _⟩)
  exact mem_of_find?_eq_some isFirst

theorem element_mem {elements : List GlobalExpr} {element : GlobalExpr}
    (mem : .array elements ∈ declaredParts g start) (inside : element ∈ elements) :
    element ∈ declaredParts g start := by
  refine declaredParts_trans mem ?_
  rw [parts]
  exact .tail _ (mem_partsOfAll inside (self_mem_parts element))

theorem entry_mem {type : GlobalExpr} {entry : Bytes × GlobalExpr}
    (mem : .construct type fields ∈ declaredParts g start) (inside : entry ∈ fields) :
    entry.2 ∈ declaredParts g start := by
  refine declaredParts_trans mem ?_
  rw [parts]
  exact .tail _ (mem_partsOfFields inside (self_mem_parts entry.2))

theorem declared_of_reached (mem : value ∈ reachedExprs g start)
    (plain : ∀ object name, value ≠ .field object name) : value ∈ declaredParts g start := by
  rw [reachedExprs, mem_append, mem_flatMap] at mem
  rcases mem with mem | ⟨object, -, mem⟩
  · exact mem
  · obtain ⟨name, -, rfl⟩ := mem_map.1 mem
    exact absurd rfl (plain object name)

theorem field_mem {object : GlobalExpr} (mem : .field object name ∈ reachedExprs g start) :
    object ∈ declaredParts g start ∧
      ∀ other ∈ declaredParts g start, .field other name ∈ reachedExprs g start := by
  have select : ∀ other ∈ declaredParts g start,
      name ∈ (declaredParts g start).filterMap fieldNameOf →
        .field other name ∈ reachedExprs g start := fun other otherMem named =>
    mem_append_right _
      (mem_flatMap.2 ⟨other, otherMem, mem_map.2 ⟨name, named, rfl⟩⟩)
  rw [reachedExprs, mem_append, mem_flatMap] at mem
  rcases mem with mem | ⟨object', objectMem, mem⟩
  · refine ⟨declaredParts_trans mem ?_, fun other otherMem => select other otherMem ?_⟩
    · rw [parts]
      exact .tail _ (self_mem_parts object)
    · exact mem_filterMap.2 ⟨_, mem, rfl⟩
  · obtain ⟨name', named, same⟩ := mem_map.1 mem
    obtain ⟨rfl, rfl⟩ := GlobalExpr.field.inj same
    exact ⟨objectMem, fun other otherMem => select other otherMem named⟩

theorem typeAt_mem {types : List ValueType} (within : ∀ type ∈ types, type ∈ reachedTypes g first)
    (i : Nat) : types.getD i unmodeledType ∈ reachedTypes g first := by
  rw [getD_eq_getElem?_getD]
  cases h : types[i]? with
  | none => exact .tail _ (.head _)
  | some type => exact within type (mem_of_getElem? h)

theorem arrayElementOf_mem (type : ValueType) : g.arrayElementOf type ∈ reachedTypes g first := by
  rw [GlobalTables.arrayElementOf]
  split
  · exact typeAt_mem (fun type mem => .tail _ (.tail _ (mem_append_left _ mem))) _
  · exact .tail _ (.head _)

theorem fieldType_mem (structIndex position : Nat) :
    g.fieldType structIndex position ∈ reachedTypes g first :=
  typeAt_mem (fun _ mem => .tail _ (.tail _ (mem_append_right _ mem))) _

theorem inside_done (result : Option GlobalConstant) : (Work.done result).Inside g start first := by
  simp [Work.Inside, Work.calls]

variable {type : ValueType}

theorem inside_follow (valueMem : value ∈ reachedExprs g start)
    (typeMem : type ∈ reachedTypes g first) : (Work.follow value type).Inside g start first := by
  simpa [Work.Inside, Work.calls] using ⟨valueMem, typeMem⟩

theorem elementAt_mem {elements : List GlobalExpr} {position element : GlobalExpr}
    (found : elementAt g elements position = some element) : element ∈ elements := by
  unfold elementAt at found
  split at found
  · cases found
  · split at found
    · exact mem_of_getElem? found
    · cases found

theorem indexWork_inside (object position : GlobalExpr) :
    (indexWork g object position).Inside g start first := by
  unfold indexWork
  split
  next name =>
    split
    next elements found =>
      split
      next element picked =>
        exact inside_follow (mem_reachedExprs (element_mem (source_mem found)
          (elementAt_mem picked))) (arrayElementOf_mem _)
      · exact inside_done _
    · exact inside_done _
  · exact inside_done _

theorem lastField_mem (found : lastField fields name = some value) :
    ∃ entry ∈ fields, entry.2 = value := by
  obtain ⟨entry, picked, rfl⟩ := Option.map_eq_some_iff.1 found
  exact ⟨entry, mem_reverse.1 (mem_of_find?_eq_some picked), rfl⟩

theorem lastFieldAt_mem {position : Nat} (found : lastFieldAt fields name position = some value) :
    ∃ entry ∈ fields, entry.2 = value := by
  obtain ⟨entry, picked, rfl⟩ := Option.map_eq_some_iff.1 found
  have mem := mem_reverse.1 (mem_of_find?_eq_some picked)
  exact ⟨entry.1, fst_mem_of_mem_zipIdx mem, rfl⟩

theorem fieldWork_inside {object : GlobalExpr} (mem : .field object name ∈ reachedExprs g start)
    (typeMem : type ∈ reachedTypes g first) :
    (fieldWork g object name type).Inside g start first := by
  obtain ⟨objectMem, select⟩ := field_mem mem
  have value_mem : ∀ {type fields value}, .construct type fields ∈ declaredParts g start →
      (∃ entry ∈ fields, entry.2 = value) → value ∈ reachedExprs g start := by
    rintro type fields _ construct ⟨entry, inside, rfl⟩
    exact mem_reachedExprs (entry_mem construct inside)
  unfold fieldWork
  split
  next constructType fields =>
    dsimp only
    split
    · split
      next position value _ picked =>
        exact inside_follow (value_mem objectMem (lastField_mem picked)) (fieldType_mem _ _)
      · exact inside_done _
    · exact inside_done _
  next indexedName position =>
    split
    next elements found =>
      dsimp only
      split
      · split
        · exact inside_done _
        rename_i element picked
        split
        · split
          · exact inside_follow (select element (element_mem (source_mem found)
              (elementAt_mem picked))) (fieldType_mem _ _)
          · exact inside_done _
        · exact inside_done _
      · exact inside_done _
    · exact inside_done _
  next globalName =>
    split
    next fields found =>
      split
      next value picked =>
        exact inside_follow (value_mem (source_mem found) (lastField_mem picked)) typeMem
      · dsimp only
        split
        · exact inside_done _
        split
        next value picked =>
          exact inside_follow (value_mem (source_mem found) (lastFieldAt_mem picked))
            (fieldType_mem _ _)
        · exact inside_done _
    · exact inside_done _
  · exact inside_done _

theorem scalarWork_inside (value : GlobalExpr) (type : ValueType) :
    (scalarWork g value type).Inside g start first := by
  unfold scalarWork
  dsimp only
  repeat' split
  all_goals exact inside_done _

theorem constructWork_inside {constructType : GlobalExpr}
    (mem : .construct constructType fields ∈ reachedExprs g start) (type : ValueType) :
    (constructWork g fields type).Inside g start first := by
  have declared := declared_of_reached mem fun _ _ no => by cases no
  unfold constructWork
  dsimp only
  generalize (if type.kind = .arena then g.arenaUserStruct else type) = structType
  split
  · exact inside_done _
  · rintro y yMem
    obtain ⟨part, partMem, rfl⟩ := mem_map.1 yMem
    obtain ⟨placed, placedMem, same⟩ := mem_filterMap.1 partMem
    obtain ⟨entry, entryMem, made⟩ := mem_map.1 placedMem
    obtain rfl : placed = some part := same
    have inside := entry_mem declared (fst_mem_of_mem_zipIdx entryMem)
    dsimp only at made
    split at made
    · cases made
    · split at made
      · obtain rfl := Option.some.inj made
        exact ⟨mem_reachedExprs inside, fieldType_mem _ _⟩
      · cases made

theorem calls_inside (mem : value ∈ reachedExprs g start) (typeMem : type ∈ reachedTypes g first) :
    (constAggregateWork g value type).Inside g start first := by
  unfold constAggregateWork
  split
  · exact inside_done _
  split
  · exact inside_done _
  split
  · exact inside_done _
  unfold valueWork
  split
  · split
    · exact inside_done _
    · split
      next source found => exact inside_follow (mem_reachedExprs (source_mem found)) typeMem
      · exact inside_done _
  · exact inside_done _
  split
  · split
    next elements _ _ _ =>
      split
      · exact inside_done _
      · rintro y yMem
        obtain ⟨element, elementMem, rfl⟩ := mem_map.1 yMem
        have declared := declared_of_reached mem fun _ _ no => by cases no
        exact ⟨mem_reachedExprs (element_mem declared elementMem), arrayElementOf_mem _⟩
    · exact inside_done _
  split
  · exact indexWork_inside _ _
  split
  · split
    · exact constructWork_inside mem type
    · exact inside_done _
  split
  · exact fieldWork_inside mem typeMem
  · exact scalarWork_inside _ _

end States

/-- Materialisation returns if and only if it does not come back to the same initializer at the
same type. -/
theorem terminates_iff (g : GlobalTables) (value : GlobalExpr) (type : ValueType) :
    Terminates g value type ↔ Unfolding.Acyclic (aggregateCalls g) (value, type) := by
  rw [terminates_iff_returns]
  let states : Set (GlobalExpr × ValueType) :=
    { e | e ∈ reachedExprs g value } ×ˢ { t | t ∈ reachedTypes g type }
  have finite : states.Finite := Set.Finite.prod (finite_toSet _) (finite_toSet _)
  have start : (value, type) ∈ states :=
    ⟨mem_reachedExprs (mem_append_left _ (self_mem_parts value)), .head _⟩
  exact Unfolding.returns_iff finite start fun s inside y mem =>
    calls_inside inside.1 inside.2 y mem

/-- A program with some constants and one array type, that of two 32-bit integers. -/
def pairTables (decls : List (Bytes × GlobalExpr)) : GlobalTables where
  decls
  arrayElements := [{ kind := .signed, bits := 32 }]
  arrayExtents := [2]
  darrayElements := []
  optionalTargets := []
  refIsHeap := []
  fieldStart := []
  fieldCount := []
  fieldTypes := []
  fieldIndexOf _ _ := none
  arenaUserStruct := unmodeledType
  constType _ := some { kind := .array, bits := 0 }
  mutableGlobalType _ := none
  annotationValueType _ := unmodeledType
  plainVariant _ _ := none
  enumConstantValue _ := none
  constEnumValueOfDottedPath _ := none
  foldConstExpr _ := none

/-- `const A: i32[2] = A` is followed to itself. -/
theorem selfNamed_diverges :
    ¬ Terminates (pairTables [([65], .ident [65])]) (.ident [65])
      { kind := .array, bits := 0 } := by
  rintro ⟨fuel, returned⟩
  induction fuel with
  | zero => cases returned
  | succ fuel ih => exact ih returned

end Elisa.Backend
