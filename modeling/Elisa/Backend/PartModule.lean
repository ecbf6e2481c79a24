import Elisa.Backend.NameMangling

/-!
# The parts of a module

A unit is emitted in several processes (`codegen_parallel_emit.elisa`,
`codegen_parallel_emit_partitions.elisa`).  Each has the whole module and keeps one part of it:
`partRestrictModule` leaves a definition to the part that owns it and turns it elsewhere into a
declaration, or into a body the code generator skips.  Local symbols become hidden external ones
under a reserved name, so that one part can refer to what another defines.

A module has its globals, its functions and its aliases in order.  A value is used by its place in
one of these lists (`Symbol`); a name is what the linker sees.  An instruction is the list of the
symbols it uses.  Counters and weights are unbounded.
-/

namespace Elisa.Backend

/-! ## Modules -/

/-- `LLVMLinkage`, in the order of its values. -/
inductive Linkage where
  | external
  | availableExternally
  | linkOnceAny
  | linkOnceODR
  | linkOnceODRAutoHide
  | weakAny
  | weakODR
  | appending
  | internal
  | privateLinkage
  | dllImport
  | dllExport
  | externalWeak
  | ghost
  | common
  | linkerPrivate
  | linkerPrivateWeak
deriving DecidableEq

inductive Visibility where
  | standard
  | hidden
  | protectedVisibility
deriving DecidableEq

/-- A value of the module, by its list and its place in it. -/
inductive Symbol where
  | global (index : Nat)
  | function (index : Nat)
  | globalAlias (index : Nat)
deriving DecidableEq

/-- What every symbol has. -/
structure Header where
  name : Bytes
  linkage : Linkage
  visibility : Visibility
deriving DecidableEq

/-- A global with the symbols its initializer uses; a declaration has no initializer. -/
structure PartGlobal where
  header : Header
  initializer : Option (List Symbol)
deriving DecidableEq

/-- A function with its blocks; a declaration has none. -/
structure PartFunction where
  header : Header
  blocks : List (List (List Symbol))
  personality : Option Symbol
deriving DecidableEq

structure PartAlias where
  header : Header
  aliasee : Symbol
deriving DecidableEq

structure PartModule where
  globals : List PartGlobal
  functions : List PartFunction
  aliases : List PartAlias
deriving DecidableEq

/-- The names of values, as LLVM keeps them: a value gets the name asked for, or another
one where that name is taken. -/
structure ValueNames where
  unique : List Bytes → Bytes → Bytes
  unique_of_free : ∀ {taken : List Bytes} {name : Bytes}, name ∉ taken → unique taken name = name

namespace PartModule

def header? (m : PartModule) : Symbol → Option Header
  | .global i => (m.globals[i]?).map PartGlobal.header
  | .function i => (m.functions[i]?).map PartFunction.header
  | .globalAlias i => (m.aliases[i]?).map PartAlias.header

def name (m : PartModule) (s : Symbol) : Bytes := ((m.header? s).map Header.name).getD []

def linkage (m : PartModule) (s : Symbol) : Option Linkage := (m.header? s).map Header.linkage

/-- `LLVMIsDeclaration`.  An alias is never a declaration. -/
def isDeclaration (m : PartModule) : Symbol → Bool
  | .global i => (m.globals[i]?).any fun g => g.initializer.isNone
  | .function i => (m.functions[i]?).any fun f => f.blocks.isEmpty
  | .globalAlias _ => false

/-- The symbols in the order in which the passes number them. -/
def symbols (m : PartModule) : List Symbol :=
  (List.range m.globals.length).map .global ++ (List.range m.functions.length).map .function ++
    (List.range m.aliases.length).map .globalAlias

end PartModule

/-! ## What is distributed -/

def partLinkageIsLocal (linkage : Linkage) : Bool :=
  linkage == .internal || linkage == .privateLinkage

def partLinkageIsPartitioned (linkage : Linkage) : Bool :=
  linkage == .external || partLinkageIsLocal linkage

/-- A defined global with exactly one owner. -/
def partGlobalOwned (g : PartGlobal) : Bool :=
  if g.initializer.isNone then false else partLinkageIsPartitioned g.header.linkage

def partFunctionWeight (f : PartFunction) : Int :=
  (f.blocks.map fun block => (block.length : Int)).sum

/-- A defined function that the pass distributes. -/
def partFunctionOwned (f : PartFunction) : Bool :=
  if f.blocks.isEmpty then false else partLinkageIsPartitioned f.header.linkage

def partFunctionWeights (m : PartModule) : List Int :=
  m.functions.map fun f => if partFunctionOwned f then partFunctionWeight f + 1 else -1

def partTotalWeight (weights : List Int) : Int :=
  weights.foldl (fun total weight => if weight > 0 then total + weight else total) 0

def partFunctionOwnersFrom (total jobs : Int) : (before : Int) → List Int → List Int
  | _, [] => []
  | before, weight :: weights =>
    if weight < 0 then -1 :: partFunctionOwnersFrom total jobs before weights
    else
      let owner := if total > 0 then (before * jobs) / total else 0
      let owner := if owner ≥ jobs then jobs - 1 else owner
      owner :: partFunctionOwnersFrom total jobs (before + weight) weights

def partFunctionOwners (weights : List Int) (total jobs : Int) : List Int :=
  partFunctionOwnersFrom total jobs 0 weights

def PartModule.owners (m : PartModule) (jobs : Int) : List Int :=
  partFunctionOwners (partFunctionWeights m) (partTotalWeight (partFunctionWeights m)) jobs

/-! ## Bridge symbols -/

def partPushDecimal (value : Nat) : Bytes :=
  if value = 0 then [48] else (decimalDigits value value).reverse

/-- `elisa.part.` -/
def reservedStem : Bytes := [101, 108, 105, 115, 97, 46, 112, 97, 114, 116, 46]

def bridgeName (ordinal : Nat) : Bytes := reservedStem ++ partPushDecimal ordinal

def partNameIsReserved (name : Bytes) : Bool :=
  if name.length < 11 then false else name.take 11 == reservedStem

def partModuleHasReservedSymbolPrefix (m : PartModule) : Bool :=
  (m.globals.any fun g => partNameIsReserved g.header.name) ||
    (m.functions.any fun f => partNameIsReserved f.header.name) ||
    (m.aliases.any fun a => partNameIsReserved a.header.name)

/-- One loop of `part_module_bridge_symbol_names`: the rows of a list of symbols, of which
`owned` ones with a local linkage get a bridge. -/
def bridgeRows : (ordinal : Nat) → List (Bool × Header) → Bytes
  | _, [] => []
  | ordinal, (owned, header) :: rest =>
    (if owned && partLinkageIsLocal header.linkage then bridgeName ordinal ++ [10] else []) ++
      bridgeRows (ordinal + 1) rest

def partModuleBridgeSymbolNames (m : PartModule) : Bytes :=
  bridgeRows 0 (m.globals.map fun g => (partGlobalOwned g, g.header)) ++
    bridgeRows m.globals.length (m.functions.map fun f => (partFunctionOwned f, f.header))

/-! ## Restricting a module to a part -/

/-- `LLVMSetLinkage`, which makes a local symbol visible in the standard way. -/
def Header.setLinkage (header : Header) (linkage : Linkage) : Header :=
  { header with
    linkage := linkage
    visibility := if partLinkageIsLocal linkage then .standard else header.visibility }

def partExternalize (names : ValueNames) (taken : List Bytes) (header : Header) (ordinal : Nat) :
    Header :=
  if partLinkageIsLocal header.linkage then
    { { header with name := names.unique taken (bridgeName ordinal) }.setLinkage .external with
      visibility := .hidden }
  else header

def restrictGlobal (names : ValueNames) (part : Int) (taken : List Bytes) (ordinal : Nat)
    (g : PartGlobal) : PartGlobal :=
  if partGlobalOwned g then
    let header := partExternalize names taken g.header ordinal
    if part ≠ 0 then { g with header := header.setLinkage .external, initializer := none }
    else { g with header := header }
  else g

def restrictGlobals (names : ValueNames) (part : Int) (others : List Bytes) :
    (ordinal : Nat) → (done todo : List PartGlobal) → List PartGlobal
  | _, done, [] => done
  | ordinal, done, g :: todo =>
    let taken := done.map (·.header.name) ++ todo.map (·.header.name) ++ others
    restrictGlobals names part others (ordinal + 1)
      (done ++ [restrictGlobal names part taken ordinal g]) todo

/-- A body of another part is erased, with its personality, or marked to be skipped. -/
def restrictFunction (names : ValueNames) (part : Int) (strip : Bool) (owner : Int)
    (taken : List Bytes) (ordinal : Nat) (f : PartFunction) : PartFunction :=
  if owner ≥ 0 then
    let header := partExternalize names taken f.header ordinal
    if owner ≠ part then
      if strip then { header := header, blocks := [], personality := none }
      else { f with header := header.setLinkage .availableExternally }
    else { f with header := header }
  else f

def restrictFunctions (names : ValueNames) (part : Int) (strip : Bool) (others : List Bytes) :
    (ordinal : Nat) → (done todo : List PartFunction) → (owners : List Int) → List PartFunction
  | ordinal, done, f :: todo, owner :: owners =>
    let taken := done.map (·.header.name) ++ todo.map (·.header.name) ++ others
    restrictFunctions names part strip others (ordinal + 1)
      (done ++ [restrictFunction names part strip owner taken ordinal f]) todo owners
  | _, done, todo, _ => done ++ todo

def Symbol.replace (old new s : Symbol) : Symbol := if s = old then new else s

/-- `LLVMReplaceAllUsesWith`: in initializers, bodies, personalities and aliases. -/
def PartModule.replaceAllUses (m : PartModule) (old new : Symbol) : PartModule where
  globals := m.globals.map fun g =>
    { g with initializer := g.initializer.map fun uses => uses.map (Symbol.replace old new) }
  functions := m.functions.map fun f =>
    { f with
      blocks := f.blocks.map fun block => block.map fun uses => uses.map (Symbol.replace old new)
      personality := f.personality.map (Symbol.replace old new) }
  aliases := m.aliases.map fun a => { a with aliasee := Symbol.replace old new a.aliasee }

def PartModule.setAliasLinkage (m : PartModule) (index : Nat) (linkage : Linkage) : PartModule :=
  { m with
    aliases := m.aliases.modify index fun a => { a with header := a.header.setLinkage linkage } }

def partRestrictAlias (m : PartModule) (index : Nat) : PartModule :=
  match m.aliases[index]? with
  | none => m
  | some a =>
    if m.isDeclaration a.aliasee || m.linkage a.aliasee == some .availableExternally then
      (m.replaceAllUses (.globalAlias index) a.aliasee).setAliasLinkage index .privateLinkage
    else m

def partRestrictModule (names : ValueNames) (m : PartModule) (owners : List Int) (part : Int)
    (strip : Bool) : PartModule :=
  let aliasNames := m.aliases.map (·.header.name)
  let globals := restrictGlobals names part (m.functions.map (·.header.name) ++ aliasNames) 0 []
    m.globals
  let functions := restrictFunctions names part strip (globals.map (·.header.name) ++ aliasNames)
    m.globals.length [] m.functions owners
  (List.range m.aliases.length).foldl partRestrictAlias ⟨globals, functions, m.aliases⟩

/-! ## Emission -/

namespace PartModule

/-- The code generator writes a definition of the symbol.  It writes every alias, as an
assignment to its symbol, and skips what is available externally. -/
def emits (m : PartModule) (s : Symbol) : Bool :=
  (m.header? s).any (fun header => header.linkage != .availableExternally) && !m.isDeclaration s

def uses (m : PartModule) : Symbol → List Symbol
  | .global i => ((m.globals[i]?).bind PartGlobal.initializer).getD []
  | .function i =>
    match m.functions[i]? with
    | some f => f.blocks.flatten.flatten ++ f.personality.toList
    | none => []
  | .globalAlias i => ((m.aliases[i]?).map PartAlias.aliasee).toList

def references (m : PartModule) : List Symbol := (m.symbols.filter m.emits).flatMap m.uses

def owned (m : PartModule) : Symbol → Bool
  | .global i => (m.globals[i]?).any partGlobalOwned
  | .function i => (m.functions[i]?).any partFunctionOwned
  | .globalAlias _ => false

def isLocal (m : PartModule) (s : Symbol) : Bool := (m.linkage s).any partLinkageIsLocal

end PartModule

end Elisa.Backend
