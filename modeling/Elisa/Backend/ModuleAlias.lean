import Elisa.Bytes

/-!
# Module aliases

`using Root::Nested as N` records a row of the alias table: the alias, its canonical path, the
module it is declared in and the source offset.  Three functions of `codegen_name_mangling.elisa`
read these.

* `appendModuleAliasPath` builds the canonical path of a spelling by expanding its first segment,
  then the first segment of what that stands for, and so on.
* `moduleAliasPathMatchesOwner` compares a spelling with a canonical owner in place.
* `moduleAliasChainTarget` follows whole names only.

All three select a row with `moduleAliasRowTarget`: of the visible rows of the innermost enclosing
module, the last one declared before the queried offset.
-/

namespace Elisa.Backend

/-! ## Paths -/

/-- The first segment of a path: the bytes up to its first `.` or `:`. -/
def pathRoot (path : Bytes) : Bytes := path.takeWhile fun c => c != dot && c != colon

def pathRest (path : Bytes) : Bytes := path.dropWhile fun c => c != dot && c != colon

/-- A path suffix with `::` for every `.`: what the append loop pushes. -/
def canonicalTail : Bytes → Bytes
  | [] => []
  | [c] => if c = dot then [colon, colon] else [c]
  | c :: d :: path =>
    if c = dot then colon :: colon :: canonicalTail (d :: path)
    else if c = colon ∧ d = colon then colon :: colon :: canonicalTail path
    else c :: canonicalTail (d :: path)

/-- A name the lexer can produce: nonempty, and without a separator. -/
def IsIdentifier (name : Bytes) : Prop := name ≠ [] ∧ dot ∉ name ∧ colon ∉ name

instance (name : Bytes) : Decidable (IsIdentifier name) :=
  inferInstanceAs (Decidable (_ ∧ _ ∧ _))

/-- A path written with `::` only, whose first segment is not empty. -/
def IsCanonicalPath (path : Bytes) : Prop := dot ∉ path ∧ pathRoot path ≠ []

instance (path : Bytes) : Decidable (IsCanonicalPath path) :=
  inferInstanceAs (Decidable (_ ∧ _))

/-! ## The alias table -/

/-- One declaration `using target as name`. -/
structure AliasRow where
  name : Bytes
  target : Bytes
  scope : Bytes
  offset : UInt32
deriving DecidableEq

/-- The four columns of the alias table.  The parser records an alias only for
an identifier (`using_alias`) and only with the canonical path of its target
(`canonical_using_alias_target`). -/
structure AliasTable where
  names : List Bytes
  targets : List Bytes
  scopes : List Bytes
  offsets : List UInt32
  names_identifier : ∀ name ∈ names, IsIdentifier name
  targets_canonical : ∀ target ∈ targets, IsCanonicalPath target

/-- The rows all four columns have: the source loops up to the least count. -/
def AliasTable.rows (t : AliasTable) : List AliasRow :=
  ((t.names.zip t.targets).zip (t.scopes.zip t.offsets)).map
    fun r => ⟨r.1.1, r.1.2, r.2.1, r.2.2⟩

/-! ## Selecting a row -/

/-- Whether one lexical module contains another; the empty module is file scope. -/
def moduleAliasScopeIsAncestor (candidate module : Bytes) : Bool :=
  if candidate = module ∨ candidate = [] then true
  else if candidate.length + 2 ≥ module.length then false
  else (candidate ++ [colon, colon]).isPrefixOf module

/-- The row selected so far, and whether another row ties with it. -/
structure AliasSelection where
  found : Bool
  ambiguous : Bool
  target : Bytes
  scope : Bytes
  offset : UInt32
deriving DecidableEq

def AliasSelection.empty : AliasSelection := ⟨false, false, [], [], 0⟩

/-- A place from which an alias is looked up: the name, the module the lookup
is made in, and the offset before which rows count (zero for no bound). -/
structure Lookup where
  name : Bytes
  lexicalModule : Bytes
  beforeOffset : UInt32
deriving DecidableEq

def AliasRow.visible (row : AliasRow) (l : Lookup) : Bool :=
  row.name = l.name && !(l.beforeOffset != 0 && row.offset ≥ l.beforeOffset) &&
    moduleAliasScopeIsAncestor row.scope l.lexicalModule

/-- One iteration of the selection loop. -/
def AliasSelection.consider (l : Lookup) (s : AliasSelection) (row : AliasRow) : AliasSelection :=
  if !row.visible l then s
  else if !s.found || row.scope.length > s.scope.length ||
      (row.scope = s.scope && row.offset > s.offset) then
    ⟨true, false, row.target, row.scope, row.offset⟩
  else if row.scope = s.scope && row.offset = s.offset then
    { s with ambiguous := s.ambiguous || row.target != s.target }
  else s

/-- The nearest visible alias declaration before the queried source offset. -/
def moduleAliasRowTarget (t : AliasTable) (l : Lookup) : AliasSelection :=
  t.rows.foldl (AliasSelection.consider l) .empty

def AliasSelection.lookup (s : AliasSelection) : Lookup := ⟨s.target, s.scope, s.offset⟩

/-! ## Building the canonical path -/

/-- Recursion depth at which both path resolvers give up. -/
def aliasDepthLimit : Nat := 16

/-- Append the canonical path of `l.name`, with `levels` recursive calls left
before the depth limit.  Returns the bytes appended, if it succeeds. -/
def appendModuleAliasPathFrom (t : AliasTable) : Nat → Lookup → Option Bytes
  | 0, _ => none
  | levels + 1, l =>
    let root := pathRoot l.name
    if root = [] then none
    else
      let selected := moduleAliasRowTarget t { l with name := root }
      if selected.ambiguous then none
      else if selected.found then
        (appendModuleAliasPathFrom t levels selected.lookup).map
          (· ++ canonicalTail (pathRest l.name))
      else some (root ++ canonicalTail (pathRest l.name))

def appendModuleAliasPath (t : AliasTable) (l : Lookup) : Option Bytes :=
  appendModuleAliasPathFrom t aliasDepthLimit l

/-! ## Matching an owner in place -/

def dropSeparator : Bytes → Option Bytes
  | c :: d :: owner => if c = colon ∧ d = colon then some owner else none
  | _ => none

/-- The comparison loop on what is left of the path and of the owner, with the
owner index reached so far. -/
def comparePrefixLoop : Bytes → Bytes → Nat → Bool × Nat
  | [], _, index => (true, index)
  | [c], owner, index =>
    if c = dot then
      match dropSeparator owner with
      | none => (false, index)
      | some _ => (true, index + 2)
    else if owner.head? = some c then (true, index + 1)
    else (false, index)
  | c :: d :: path, owner, index =>
    if c = dot then
      match dropSeparator owner with
      | none => (false, index)
      | some owner => comparePrefixLoop (d :: path) owner (index + 2)
    else if c = colon ∧ d = colon then
      match dropSeparator owner with
      | none => (false, index)
      | some owner => comparePrefixLoop path owner (index + 2)
    else if owner.head? = some c then comparePrefixLoop (d :: path) owner.tail (index + 1)
    else (false, index)

/-- Compare one spelling of a module-path suffix with a canonical path from
`ownerStart` on; returns the owner index it stops at. -/
def moduleAliasPathComparePrefix (suffix owner : Bytes) (ownerStart : Nat) : Bool × Nat :=
  comparePrefixLoop suffix (owner.drop ownerStart) ownerStart

/-- Resolve aliases in the path head while matching against a canonical owner. -/
def moduleAliasPathPrefixEnd (t : AliasTable) (owner : Bytes) : Nat → Lookup → Bool × Nat
  | 0, _ => (false, 0)
  | levels + 1, l =>
    let root := pathRoot l.name
    if root = [] then (false, 0)
    else
      let selected := moduleAliasRowTarget t { l with name := root }
      if selected.ambiguous then (false, 0)
      else if !selected.found then moduleAliasPathComparePrefix l.name owner 0
      else
        let targetPrefix := moduleAliasPathPrefixEnd t owner levels selected.lookup
        if !targetPrefix.1 then (false, 0)
        else moduleAliasPathComparePrefix (pathRest l.name) owner targetPrefix.2

/-- Whether the spelling denotes the owner. -/
def moduleAliasPathMatchesOwner (t : AliasTable) (l : Lookup) (owner : Bytes) : Bool :=
  let resolved := moduleAliasPathPrefixEnd t owner aliasDepthLimit l
  resolved.1 && resolved.2 = owner.length

/-! ## Following whole names -/

/-- The alias flag and the target a chain lookup returns. -/
structure ChainResult where
  isAlias : Bool
  target : Bytes
deriving DecidableEq

def moduleAliasChainLoop (t : AliasTable) : Nat → Lookup → Bool → Bytes → ChainResult
  | 0, _, hopped, _ => ⟨hopped, []⟩
  | steps + 1, l, hopped, target =>
    let selected := moduleAliasRowTarget t l
    if selected.ambiguous then ⟨true, []⟩
    else if !selected.found then ⟨hopped, target⟩
    else moduleAliasChainLoop t steps selected.lookup true selected.target

def firstAliasTarget (t : AliasTable) (name : Bytes) : Option Bytes :=
  ((t.names.zip t.targets).find? fun row => row.1 = name).map (·.2)

/-- The chain loop of callers without a source offset. -/
def moduleAliasFirstMatchLoop (t : AliasTable) : Nat → Bytes → Bool → Bytes → ChainResult
  | 0, _, hopped, _ => ⟨hopped, []⟩
  | steps + 1, name, hopped, target =>
    match firstAliasTarget t name with
    | none => ⟨hopped, target⟩
    | some next => moduleAliasFirstMatchLoop t steps next true next

/-- The module the alias chain starting at `name` ends at, from the current
module and source offset.  The empty target stands for a chain that settles
nowhere. -/
def moduleAliasChainTarget (t : AliasTable) (l : Lookup) : ChainResult :=
  if l.beforeOffset ≠ 0 then moduleAliasChainLoop t (t.names.length + 1) l false []
  else moduleAliasFirstMatchLoop t (t.names.length + 1) l.name false []

end Elisa.Backend
