import Elisa.Semantic.UnreachableArms

/-!
# Exhaustive matches

The four verdicts on the arms of a match: `match_arms_exhaustive`, `progress_match_is_total`,
`check_match_exhaustive` and `check_hierarchy_exhaustive`.  All compare texts: a variant is covered
by a path whose part behind the last dot is its name, and enums and their refinements are known by
their bare names.
-/

namespace Elisa.Semantic.Matches

open Ast Lexer Enums Progress

/-! ## The table -/

/-- A row of the registered variants. -/
structure EnumRow where
  owner : Bytes
  variant : Bytes
  module : Bytes
  deriving DecidableEq

/-- `enum child is parent` -/
structure HierarchyEdge where
  child : Bytes
  parent : Bytes
  deriving DecidableEq

/-- What the verdicts read of the symbol table. -/
structure EnumTable where
  rows : List EnumRow
  edges : List HierarchyEdge := []
  currentModule : Bytes := []
  openForeignEnumNames : List Bytes := []
  constEnumNames : List Bytes := []
  structNames : List Bytes := []

namespace EnumTable

/-- The parent of an enum: of several edges the last one counts. -/
def parentOf (table : EnumTable) (cursor : Bytes) : Bytes :=
  table.edges.foldl (fun parent edge => if edge.child = cursor then edge.parent else parent) []

/-- Whether the root is met on the way up, in at most so many steps. -/
def climbs (table : EnumTable) (root : Bytes) : Nat → Bytes → Bool
  | 0, _ => false
  | steps + 1, cursor =>
    let parent := table.parentOf cursor
    if parent = [] then false else if parent = root then true else table.climbs root steps parent

def enumInHierarchy (table : EnumTable) (child root : Bytes) : Bool :=
  table.climbs root table.edges.length child

/-- Here the first edge counts. -/
def enumHierarchyRootOf (table : EnumTable) (enumName : Bytes) : Bytes :=
  match table.edges.find? (·.child = enumName) with
  | some edge => edge.parent
  | none => []

def enumIsHierarchyMember (table : EnumTable) (enumName : Bytes) : Bool :=
  enumName ≠ [] && table.edges.any fun edge => edge.child = enumName || edge.parent = enumName

def enumIsKnown (table : EnumTable) (enumName : Bytes) : Bool :=
  table.rows.any (·.owner = enumName)

/-- The rows behind those that have been looked at: `found` is the last module that declares the
enum. -/
def bareEnumModuleFrom (table : EnumTable) (enumName : Bytes) :
    List EnumRow → Option Bytes → Bool → Option Bytes
  | [], found, ambiguous => if ambiguous then none else found
  | row :: rest, found, ambiguous =>
    if row.owner = enumName then
      if row.module = table.currentModule then some row.module
      else table.bareEnumModuleFrom enumName rest (some row.module)
        (ambiguous || found.any (· ≠ row.module))
    else table.bareEnumModuleFrom enumName rest found ambiguous

def bareEnumModule (table : EnumTable) (enumName : Bytes) : Option Bytes :=
  table.bareEnumModuleFrom enumName table.rows none false

end EnumTable

/-! ## Paths -/

def lastDot (path : Bytes) : Option Nat :=
  (List.range path.length).foldl (fun last i => if path[i]? = some 46 then some i else last) none

/-- The part of a path behind its last dot. -/
def pathTail (path : Bytes) : Bytes :=
  match lastDot path with
  | some dot => path.drop (dot + 1)
  | none => path

def pathTailEquals (path variantName : Bytes) : Bool := pathTail path = variantName

def pathsCoverVariant (covered : List Bytes) (variantName : Bytes) : Bool :=
  covered.any (pathTailEquals · variantName)

def pathNamesEnum (path enumName : Bytes) : Bool :=
  enumName.length + 1 < path.length && path[enumName.length]? = some 46 &&
    path.take enumName.length = enumName

def pathNamesEnumQualified (path enumName : Bytes) : Bool :=
  pathNamesEnum path enumName ||
    enumName.length ≠ 0 && enumName.length + 1 < path.length &&
      match lastDot path with
      | none => false
      | some dot =>
        let start := dot - enumName.length
        enumName.length ≤ dot && start ≠ 0 &&
          (path[start - 1]? = some 46 || path[start - 1]? = some 58) &&
          (path.drop start).take enumName.length = enumName

def enumOwnerOfPath (table : EnumTable) (path : Bytes) : Bytes :=
  match table.rows.find? fun row => pathNamesEnumQualified path row.owner with
  | some row => row.owner
  | none => []

def enumModuleMatchesPathQualifier (module path enumName : Bytes) : Bool :=
  match lastDot path with
  | none => false
  | some dot =>
    let start := dot - enumName.length
    let qualifier := path.take (start - 2)
    enumName.length + 3 ≤ dot && path[start - 1]? = some 58 && path[start - 2]? = some 58 &&
      (path.drop start).take enumName.length = enumName && !qualifier.contains 46 &&
      (module = qualifier || (ascii "::" ++ qualifier).isSuffixOf module)

def variantPathQualifierMatchesSomeModule (table : EnumTable) (path enumName : Bytes) : Bool :=
  table.rows.any fun row =>
    row.owner = enumName && enumModuleMatchesPathQualifier row.module path enumName

def pathNameIsQualifiedTail (path name : Bytes) : Bool :=
  path = name ||
    name.length ≠ 0 && name.length + 3 ≤ path.length && (ascii "::" ++ name).isSuffixOf path

def pathNamesDeclaredStruct (table : EnumTable) (path : Bytes) : Bool :=
  path.length ≠ 0 && !path.contains 46 && table.structNames.any (pathNameIsQualifiedTail path)

/-! ## Names that patterns bind -/

def isNamed (name : Bytes) : Bool := name ≠ [] && name ≠ ascii "_"

mutual

/-- Whether a pattern binds a name: an alternative of an `or` has to bind it as well as the
others. -/
def patternBindsName (wanted : Bytes) : Pattern → Bool
  | .binding name | .typeBind _ name => name = wanted
  | .rest name => isNamed name && name = wanted
  | .asName name inner => name = wanted || anyBindsName wanted inner
  | .variant _ children | .struct _ children | .field _ children | .tuple children =>
    anyBindsName wanted children
  | .or options => !options.isEmpty && allBindName wanted options
  | _ => false

def anyBindsName (wanted : Bytes) : List Pattern → Bool
  | [] => false
  | pattern :: rest => patternBindsName wanted pattern || anyBindsName wanted rest

def allBindName (wanted : Bytes) : List Pattern → Bool
  | [] => true
  | pattern :: rest => patternBindsName wanted pattern && allBindName wanted rest

end

/-- The names of the first alternative that the others have too.  A single name is looked for in
them, and several ones are counted in what they gather. -/
def commonNames (first : List Bytes) (others : List Pattern) (gathered : List (List Bytes)) :
    List Bytes :=
  if others.isEmpty then first
  else if first.length = 1 then first.filter fun name => others.all (patternBindsName name)
  else first.filter fun name => gathered.all (·.contains name)

mutual

def gatherPattern : Pattern → List Bytes
  | .binding name | .typeBind _ name => [name]
  | .rest name => if isNamed name then [name] else []
  | .variant _ children | .struct _ children | .field _ children | .tuple children =>
    (gatherEach children).flatten
  | .or [] => []
  | .or (first :: others) => commonNames (gatherPattern first) others (gatherEach others)
  | .asName name inner => name :: (gatherEach inner).flatten
  | _ => []

def gatherEach : List Pattern → List (List Bytes)
  | [] => []
  | pattern :: rest => gatherPattern pattern :: gatherEach rest

end

mutual

def patternHasNamedBinding : Pattern → Bool
  | .binding name | .typeBind _ name | .rest name => isNamed name
  | .asName name inner => isNamed name || anyHasNamedBinding inner
  | .variant _ children | .struct _ children | .field _ children | .tuple children =>
    anyHasNamedBinding children
  | .or [] => false
  | .or (first :: others) =>
    let names := gatherPattern first
    if others.isEmpty then names.any isNamed
    else
      match names with
      | [candidate] => isNamed candidate && (first :: others).all (patternBindsName candidate)
      | _ => names.any fun candidate =>
        isNamed candidate && (gatherEach others).all (·.contains candidate)
  | _ => false

def anyHasNamedBinding : List Pattern → Bool
  | [] => false
  | pattern :: rest => patternHasNamedBinding pattern || anyHasNamedBinding rest

end

def armOrPatternBindsNames : Pattern → Bool
  | .or options => options.any patternHasNamedBinding
  | _ => false

/-! ## What arms cover -/

/-- The variants that an arm names, and whether it is nothing but those. -/
structure ArmPaths where
  ok : Bool
  paths : List Bytes

mutual

def collectArmVariantPaths : Pattern → ArmPaths
  | .variant path _ => ⟨true, [path]⟩
  | .or options => collectAll options
  | .asName _ inner => collectAll inner
  | _ => ⟨false, []⟩

def collectAll : List Pattern → ArmPaths
  | [] => ⟨true, []⟩
  | pattern :: rest =>
    let first := collectArmVariantPaths pattern
    let later := collectAll rest
    ⟨first.ok && later.ok, first.paths ++ later.paths⟩

end

/-- An unguarded `_` or bare name, or a row of `_`. -/
def matchHasCatchAll (arms : List MatchArm) : Bool :=
  arms.any fun arm => !guarded arm &&
    match arm.pattern with
    | .wildcard | .binding _ => true
    | .tuple elements => !elements.isEmpty && elements.all fun
      | .wildcard => true
      | _ => false
    | _ => false

mutual

def structFieldIsIrrefutable : Pattern → Bool
  | .wildcard | .binding _ => true
  | .field _ [inner] => structFieldIsIrrefutable inner
  | .struct _ nested => structPatternFieldsAreIrrefutable nested
  | _ => false

def structPatternFieldsAreIrrefutable : List Pattern → Bool
  | [] => true
  | field :: rest => structFieldIsIrrefutable field && structPatternFieldsAreIrrefutable rest

end

def matchArmIsUnguardedStruct (table : EnumTable) (arm : MatchArm) : Bool :=
  !guarded arm &&
    match arm.pattern with
    | .struct _ fields => structPatternFieldsAreIrrefutable fields
    | .variant path fields =>
      pathNamesDeclaredStruct table path && structPatternFieldsAreIrrefutable fields
    | _ => false

/-- What the unguarded arms of a match cover: variants, and enums with their refinements. -/
structure Coverage where
  covered : List Bytes := []
  categories : List Bytes := []

def coverageOf (table : EnumTable) : List MatchArm → Coverage → Option Coverage
  | [], so_far => some so_far
  | arm :: rest, so_far =>
    if guarded arm then coverageOf table rest so_far
    else
      match arm.pattern with
      | .typeBind category _ =>
        if table.enumIsHierarchyMember category then
          coverageOf table rest { so_far with categories := so_far.categories ++ [category] }
        else none
      | pattern =>
        let found := collectArmVariantPaths pattern
        if armOrPatternBindsNames pattern || !found.ok then none
        else coverageOf table rest { so_far with covered := so_far.covered ++ found.paths }

/-- The way up to a node that has an enum below it. -/
def coverOwner (table : EnumTable) (owner : Bytes) : Nat → Bytes → Bytes
  | 0, anchor => anchor
  | steps + 1, anchor =>
    if owner = anchor || table.enumInHierarchy owner anchor then anchor
    else
      let parent := table.enumHierarchyRootOf anchor
      if parent = [] then anchor else coverOwner table owner steps parent

def coveringHierarchyNode (table : EnumTable) (start : Bytes) (coverage : Coverage) : Bytes :=
  (coverage.covered.map (enumOwnerOfPath table) ++ coverage.categories).foldl
    (fun anchor owner =>
      if owner = [] then anchor else coverOwner table owner table.edges.length anchor) start

def categoryCoversOwner (table : EnumTable) (categories : List Bytes) (owner : Bytes) : Bool :=
  categories.any fun category => owner = category || table.enumInHierarchy owner category

def hierarchyAsks (table : EnumTable) (node : Bytes) (row : EnumRow) : Bool :=
  (row.owner = node || table.enumInHierarchy row.owner node) &&
    (table.bareEnumModule row.owner).all (row.module = ·)

def hierarchySubtreeAllCovered (table : EnumTable) (node : Bytes) (coverage : Coverage) : Bool :=
  table.rows.all fun row => !hierarchyAsks table node row ||
    categoryCoversOwner table coverage.categories row.owner ||
      pathsCoverVariant coverage.covered row.variant

/-- Every path has a qualifier that names a module of the enum. -/
def narrowed (table : EnumTable) (enumName : Bytes) (covered : List Bytes) : Bool :=
  !covered.isEmpty && covered.all (variantPathQualifierMatchesSomeModule table · enumName)

def flatAsks (table : EnumTable) (enumName : Bytes) (covered : List Bytes) (row : EnumRow) : Bool :=
  row.owner = enumName &&
    if narrowed table enumName covered then
      covered.any (enumModuleMatchesPathQualifier row.module · enumName)
    else (table.bareEnumModule enumName).all (row.module = ·)

def flatEnumVariantsAllCovered (table : EnumTable) (enumName : Bytes) (covered : List Bytes) :
    Bool :=
  table.enumIsKnown enumName && table.rows.all fun row =>
    !flatAsks table enumName covered row || pathsCoverVariant covered row.variant

/-- The enum that the arms are held against. -/
def anchorNode (table : EnumTable) (coverage : Coverage) : Option Bytes :=
  let owner := match coverage.covered, coverage.categories with
    | path :: _, _ => enumOwnerOfPath table path
    | [], category :: _ => category
    | [], [] => []
  if owner = [] then none else some (coveringHierarchyNode table owner coverage)

def matchArmsExhaustive (arms : List MatchArm) (table : EnumTable) : Bool :=
  matchHasCatchAll arms || arms.any (matchArmIsUnguardedStruct table) ||
    match coverageOf table arms {} with
    | none => false
    | some coverage =>
      match anchorNode table coverage with
      | none => false
      | some node =>
        if table.enumIsHierarchyMember node then hierarchySubtreeAllCovered table node coverage
        else flatEnumVariantsAllCovered table node coverage.covered

def literalIsTotal (scrutinee : Expr) (arms : List MatchArm) (found : Pattern → PatternMatch) :
    Bool :=
  (List.range arms.length).any fun i =>
    match arms[i]? with
    | some arm => matchArmReachable scrutinee arms i && (found arm.pattern).known &&
        (found arm.pattern).matched && unconditional arm
    | none => false

def progressMatchIsTotal (scrutinee : Expr) (arms : List MatchArm) (table : EnumTable) : Bool :=
  match literalBool scrutinee, literalInt scrutinee with
  | some value, _ => literalIsTotal scrutinee arms (boolPatternMatches · value)
  | none, some value => literalIsTotal scrutinee arms (intPatternMatches · value)
  | none, none =>
    ((List.range arms.length).any fun i =>
      match arms[i]? with
      | some arm => unconditional arm && matchArmReachable scrutinee arms i &&
          patternIsIrrefutable arm.pattern
      | none => false) || matchArmsExhaustive arms table

/-! ## Diagnostics -/

def checkArmEnumTypes (enumName : Bytes) (arms : List MatchArm) (line : Nat) (table : EnumTable) :
    List Diagnostic :=
  (arms.flatMap fun arm => (collectArmVariantPaths arm.pattern).paths).filterMap fun path =>
    (table.rows.find? fun row => pathNamesEnum path row.owner).bind fun row =>
      if row.owner = enumName || table.enumInHierarchy row.owner enumName then none
      else some { kind := .matchArmEnumType, name := row.owner, line, expected := enumName }

/-- The variants that the unguarded arms name, if all of them are variants.  An `or` that binds
names is passed over. -/
def coveredPaths : List MatchArm → List Bytes → Option (List Bytes)
  | [], covered => some covered
  | arm :: rest, covered =>
    if guarded arm || armOrPatternBindsNames arm.pattern then coveredPaths rest covered
    else
      let found := collectArmVariantPaths arm.pattern
      if found.ok then coveredPaths rest (covered ++ found.paths) else none

def missingReport (table : EnumTable) (enumName : Bytes) (reportPos : Pos) (covered : List Bytes)
    (asks : EnumRow → Bool) : List Diagnostic :=
  match table.rows.find? fun row => asks row && !pathsCoverVariant covered row.variant with
  | none => []
  | some missing =>
    [{ kind := .nonExhaustiveMatch, name := enumName, pos := reportPos, line := reportPos.line,
       expected := missing.variant,
       actual := if enumName ∈ table.constEnumNames then ascii "members" else ascii "variants",
       detail := missing.owner }]

def checkHierarchyExhaustive (root : Bytes) (arms : List MatchArm) (reportPos : Pos)
    (table : EnumTable) : List Diagnostic :=
  match coveredPaths arms [] with
  | none => []
  | some covered =>
    missingReport table root reportPos covered fun row => table.enumInHierarchy row.owner root

def localTypeOf (names types : List Bytes) (name : Bytes) : Bytes :=
  match (names.zip types).reverse.find? (·.1 = name) with
  | some row => row.2
  | none => []

def isWildcard : Pattern → Bool
  | .wildcard => true
  | _ => false

def checkEnumExhaustive (enumName : Bytes) (arms : List MatchArm) (reportPos : Pos)
    (table : EnumTable) : List Diagnostic :=
  let isHierarchyRoot := table.edges.any (·.parent = enumName)
  let wrong := if isHierarchyRoot || table.enumIsKnown enumName then
    checkArmEnumTypes enumName arms reportPos.line table else []
  wrong ++
    if enumName ∈ table.openForeignEnumNames then
      if arms.any fun arm => isWildcard arm.pattern then []
      else [{ kind := .nonExhaustiveOpenExternEnum, name := enumName, pos := reportPos,
              line := reportPos.line }]
    else if isHierarchyRoot then checkHierarchyExhaustive enumName arms reportPos table
    else if !table.enumIsKnown enumName then []
    else
      match coveredPaths arms [], table.bareEnumModule enumName with
      | some covered, some module => missingReport table enumName reportPos covered fun row =>
        row.owner = enumName && row.module = module
      | _, _ => []

def checkMatchExhaustive (scrutinee : Expr) (arms : List MatchArm) (reportPos : Pos)
    (names types : List Bytes) (table : EnumTable) : List Diagnostic :=
  match scrutinee with
  | .ident scrutineeName =>
    let enumName := localTypeOf names types scrutineeName
    if scrutineeName = [] || enumName = [] then []
    else checkEnumExhaustive enumName arms reportPos table
  | _ => []

end Elisa.Semantic.Matches
