import Mathlib.Algebra.Order.Ring.Int
import Elisa.Backend.NameManglingInjective
import Elisa.Backend.PartModule

/-!
# The parts make up the module

Every part is computed from the whole module in a process of its own, so that what the parts have in
common is a matter of the traversals alone.

* `partRestrictModule` is described by what it does to one symbol at its ordinal
  (`restrictedGlobal`, `restrictedFunction`): no name of the module is reserved, so every part gives
  a bridge the same name (`partName`).
* The owners rise with the weight before a function, and exactly the distributed functions have one
  (`owners_spec`).
* The loop over the aliases changes what symbols use and which aliases are seen from outside
  (`Rewired`).
-/

namespace Elisa.Backend

open List PartModule

/-! ## Bridge names -/

theorem digitsValue_partPushDecimal (n : Nat) : digitsValue (partPushDecimal n).reverse = n := by
  unfold partPushDecimal
  split
  next zero =>
    rw [zero]
    rfl
  next =>
    rw [reverse_reverse]
    exact digitsValue_decimalDigits (Nat.lt_pow_self (by decide))

theorem bridgeName_injective {m n : Nat} (h : bridgeName m = bridgeName n) : m = n := by
  have decimals : partPushDecimal m = partPushDecimal n := append_cancel_left h
  rw [← digitsValue_partPushDecimal m, decimals, digitsValue_partPushDecimal n]

theorem bridgeName_reserved (n : Nat) : partNameIsReserved (bridgeName n) = true := by
  have long : ¬ (bridgeName n).length < 11 := by simp [bridgeName, reservedStem]
  have start : (bridgeName n).take 11 = reservedStem := by simp [bridgeName, reservedStem]
  simp [partNameIsReserved, long, start]

theorem ne_bridgeName {name : Bytes} (h : partNameIsReserved name = false) (n : Nat) :
    name ≠ bridgeName n := by
  intro same
  rw [same, bridgeName_reserved] at h
  cases h

theorem not_reserved {m : PartModule} (guard : partModuleHasReservedSymbolPrefix m = false)
    (s : Symbol) : partNameIsReserved (m.name s) = false := by
  simp only [partModuleHasReservedSymbolPrefix, Bool.or_eq_false_iff, any_eq_false] at guard
  obtain ⟨⟨globals, functions⟩, aliases⟩ := guard
  have nothing : partNameIsReserved [] = false := by decide
  cases s with
  | global i =>
    cases h : m.globals[i]? with
    | none => simpa [PartModule.name, header?, h] using nothing
    | some g =>
      have free := globals g (mem_of_getElem? h)
      simpa [PartModule.name, header?, h] using free
  | function i =>
    cases h : m.functions[i]? with
    | none => simpa [PartModule.name, header?, h] using nothing
    | some f =>
      have free := functions f (mem_of_getElem? h)
      simpa [PartModule.name, header?, h] using free
  | globalAlias i =>
    cases h : m.aliases[i]? with
    | none => simpa [PartModule.name, header?, h] using nothing
    | some a =>
      have free := aliases a (mem_of_getElem? h)
      simpa [PartModule.name, header?, h] using free

/-! ## Owners -/

/-- The owner of a function with the given weight before it. -/
def ownerAt (total jobs before : Int) : Int :=
  let owner := if total > 0 then (before * jobs) / total else 0
  if owner ≥ jobs then jobs - 1 else owner

theorem ownerAt_mono {total jobs before after : Int} (positive : 0 < jobs) (h : before ≤ after) :
    ownerAt total jobs before ≤ ownerAt total jobs after := by
  unfold ownerAt
  by_cases weighty : total > 0
  · have quotient : before * jobs / total ≤ after * jobs / total :=
      Int.ediv_le_ediv weighty (Int.mul_le_mul_of_nonneg_right h positive.le)
    simp only [weighty, if_true]
    split <;> split <;> omega
  · simp [weighty]

theorem ownerAt_range {total jobs before : Int} (positive : 0 < jobs) (h : 0 ≤ before) :
    0 ≤ ownerAt total jobs before ∧ ownerAt total jobs before < jobs := by
  unfold ownerAt
  by_cases weighty : total > 0
  · have quotient : 0 ≤ before * jobs / total :=
      Int.ediv_nonneg (Int.mul_nonneg h positive.le) weighty.le
    simp only [weighty, if_true]
    split <;> omega
  · simp only [weighty, if_false]
    split <;> omega

section Owners

variable {total jobs : Int} (positive : 0 < jobs)

theorem length_partFunctionOwnersFrom (before : Int) (weights : List Int) :
    (partFunctionOwnersFrom total jobs before weights).length = weights.length := by
  induction weights generalizing before with
  | nil => rfl
  | cons weight weights ih =>
    unfold partFunctionOwnersFrom
    split <;> simp [ih]

include positive in
theorem partFunctionOwnersFrom_bounds {before owner : Int} {weights : List Int} (h : 0 ≤ before)
    (mem : owner ∈ partFunctionOwnersFrom total jobs before weights) :
    owner = -1 ∨ (ownerAt total jobs before ≤ owner ∧ owner < jobs) := by
  induction weights generalizing before with
  | nil => cases mem
  | cons weight weights ih =>
    unfold partFunctionOwnersFrom at mem
    split at mem
    next =>
      cases mem with
      | head => exact .inl rfl
      | tail _ mem => exact ih h mem
    rename_i weighty
    cases mem with
    | head => exact .inr ⟨le_refl _, (ownerAt_range positive h).2⟩
    | tail _ mem =>
      cases ih (by omega) mem with
      | inl none => exact .inl none
      | inr bounds =>
        have rise : ownerAt total jobs before ≤ ownerAt total jobs (before + weight) :=
          ownerAt_mono positive (by omega)
        exact .inr ⟨rise.trans bounds.1, bounds.2⟩

include positive in
theorem partFunctionOwnersFrom_nondecreasing {before : Int} {weights : List Int} (h : 0 ≤ before) :
    (partFunctionOwnersFrom total jobs before weights).Pairwise
      fun a b => 0 ≤ a → 0 ≤ b → a ≤ b := by
  induction weights generalizing before with
  | nil => exact .nil
  | cons weight weights ih =>
    unfold partFunctionOwnersFrom
    split
    next =>
      refine .cons (fun b _ none => ?_) (ih h)
      exact absurd none (by decide)
    rename_i weighty
    refine .cons (fun b mem _ some => ?_) (ih (by omega))
    have rise : ownerAt total jobs before ≤ ownerAt total jobs (before + weight) :=
      ownerAt_mono positive (by omega)
    cases partFunctionOwnersFrom_bounds positive (by omega) mem with
    | inl none => omega
    | inr bounds => exact rise.trans bounds.1

include positive in
theorem partFunctionOwnersFrom_getElem? {before : Int} {weights : List Int} (h : 0 ≤ before)
    {i : Nat} {weight : Int} (at_i : weights[i]? = some weight) :
    ∃ owner, (partFunctionOwnersFrom total jobs before weights)[i]? = some owner ∧
      (if weight < 0 then owner = -1 else 0 ≤ owner ∧ owner < jobs) := by
  induction weights generalizing before i with
  | nil => cases at_i
  | cons first weights ih =>
    unfold partFunctionOwnersFrom
    cases i with
    | zero =>
      cases at_i
      split
      next => exact ⟨-1, rfl, rfl⟩
      next => exact ⟨_, rfl, ownerAt_range positive h⟩
    | succ i =>
      split
      next => exact ih h at_i
      next => exact ih (by omega) at_i

end Owners

theorem partFunctionWeight_nonneg (f : PartFunction) : 0 ≤ partFunctionWeight f := by
  unfold partFunctionWeight
  induction f.blocks with
  | nil => exact le_refl _
  | cons block blocks ih =>
    rw [map_cons, sum_cons]
    omega

theorem length_owners (m : PartModule) (jobs : Int) :
    (m.owners jobs).length = m.functions.length := by
  simp [PartModule.owners, partFunctionOwners, length_partFunctionOwnersFrom, partFunctionWeights]

theorem owners_spec {m : PartModule} {jobs : Int} (positive : 0 < jobs) {i : Nat}
    {f : PartFunction} (at_i : m.functions[i]? = some f) :
    ∃ owner, (m.owners jobs)[i]? = some owner ∧
      (if partFunctionOwned f then 0 ≤ owner ∧ owner < jobs else owner = -1) := by
  have weight : (partFunctionWeights m)[i]? =
      some (if partFunctionOwned f then partFunctionWeight f + 1 else -1) := by
    simp [partFunctionWeights, at_i]
  obtain ⟨owner, found, bounds⟩ := partFunctionOwnersFrom_getElem? positive (le_refl 0) weight
  refine ⟨owner, found, ?_⟩
  cases owned : partFunctionOwned f with
  | true =>
    have light : ¬ partFunctionWeight f + 1 < 0 := by
      have := partFunctionWeight_nonneg f
      omega
    simpa [owned, light] using bounds
  | false => simpa [owned] using bounds

/-! ## What happens to one symbol -/

/-- The header of a distributed symbol in every part. -/
def bridgedHeader (header : Header) (ordinal : Nat) : Header :=
  if partLinkageIsLocal header.linkage then ⟨bridgeName ordinal, .external, .hidden⟩ else header

def restrictedGlobal (part : Int) (ordinal : Nat) (g : PartGlobal) : PartGlobal :=
  if partGlobalOwned g then
    let header := bridgedHeader g.header ordinal
    if part ≠ 0 then { g with header := header.setLinkage .external, initializer := none }
    else { g with header := header }
  else g

def restrictedFunction (part : Int) (strip : Bool) (owner : Int) (ordinal : Nat)
    (f : PartFunction) : PartFunction :=
  if owner ≥ 0 then
    let header := bridgedHeader f.header ordinal
    if owner ≠ part then
      if strip then { header := header, blocks := [], personality := none }
      else { f with header := header.setLinkage .availableExternally }
    else { f with header := header }
  else f

def BridgesFree (ordinal : Nat) (taken : List Bytes) : Prop :=
  ∀ name ∈ taken, ∀ k, ordinal ≤ k → name ≠ bridgeName k

section Traversal

variable {ordinal : Nat}

theorem BridgesFree.append {names others : List Bytes} (h : BridgesFree ordinal names)
    (h' : BridgesFree ordinal others) : BridgesFree ordinal (names ++ others) := by
  intro name mem
  cases mem_append.mp mem with
  | inl mem => exact h name mem
  | inr mem => exact h' name mem

theorem BridgesFree.mono {later : Nat} {names : List Bytes} (h : BridgesFree ordinal names)
    (le : ordinal ≤ later) : BridgesFree later names :=
  fun name mem k hk => h name mem k (le.trans hk)

theorem bridgesFree_of_not_reserved {names : List Bytes}
    (h : ∀ name ∈ names, partNameIsReserved name = false) : BridgesFree ordinal names :=
  fun name mem k _ => ne_bridgeName (h name mem) k

theorem bridgesFree_bridgedHeader {header : Header} (h : partNameIsReserved header.name = false) :
    BridgesFree (ordinal + 1) [(bridgedHeader header ordinal).name] := by
  intro name mem k hk
  cases mem_singleton.mp mem
  unfold bridgedHeader
  split
  · intro same
    have := bridgeName_injective same
    omega
  · exact ne_bridgeName h k

variable {names : ValueNames} {part : Int} {strip : Bool}

theorem partExternalize_eq {taken : List Bytes} {header : Header}
    (free : BridgesFree ordinal taken) :
    partExternalize names taken header ordinal = bridgedHeader header ordinal := by
  have fresh : bridgeName ordinal ∉ taken := fun mem => free _ mem ordinal (le_refl _) rfl
  unfold partExternalize bridgedHeader
  rw [names.unique_of_free fresh]
  rfl

theorem restrictedGlobal_name (part : Int) (ordinal : Nat) (g : PartGlobal) :
    (restrictedGlobal part ordinal g).header.name =
      if partGlobalOwned g then (bridgedHeader g.header ordinal).name else g.header.name := by
  unfold restrictedGlobal
  split
  · dsimp only
    split <;> rfl
  · rfl

theorem restrictedFunction_name (part : Int) (strip : Bool) (owner : Int) (ordinal : Nat)
    (f : PartFunction) :
    (restrictedFunction part strip owner ordinal f).header.name =
      if owner ≥ 0 then (bridgedHeader f.header ordinal).name else f.header.name := by
  unfold restrictedFunction
  split
  · dsimp only
    split
    · split <;> rfl
    · rfl
  · rfl

theorem bridgesFree_restrictedGlobal {g : PartGlobal}
    (h : partNameIsReserved g.header.name = false) :
    BridgesFree (ordinal + 1) [(restrictedGlobal part ordinal g).header.name] := by
  rw [restrictedGlobal_name]
  split
  · exact bridgesFree_bridgedHeader h
  · exact bridgesFree_of_not_reserved (by simpa using h)

theorem bridgesFree_restrictedFunction {owner : Int} {f : PartFunction}
    (h : partNameIsReserved f.header.name = false) :
    BridgesFree (ordinal + 1) [(restrictedFunction part strip owner ordinal f).header.name] := by
  rw [restrictedFunction_name]
  split
  · exact bridgesFree_bridgedHeader h
  · exact bridgesFree_of_not_reserved (by simpa using h)

/-- The loop over the globals treats each by itself.  The invariant: no bridge that is
still to be given out is a name already. -/
theorem restrictGlobals_eq {others : List Bytes} {done todo : List PartGlobal}
    (free : BridgesFree ordinal others) (hdone : BridgesFree ordinal (done.map (·.header.name)))
    (htodo : ∀ g ∈ todo, partNameIsReserved g.header.name = false) :
    restrictGlobals names part others ordinal done todo =
      done ++ todo.mapIdx fun i g => restrictedGlobal part (ordinal + i) g := by
  induction todo generalizing ordinal done with
  | nil => simp [restrictGlobals]
  | cons g todo ih =>
    have rest : ∀ g ∈ todo, partNameIsReserved g.header.name = false :=
      fun g mem => htodo g (mem_cons_of_mem _ mem)
    have taken :
      BridgesFree ordinal (done.map (·.header.name) ++ todo.map (·.header.name) ++ others) :=
      (hdone.append (bridgesFree_of_not_reserved (by simpa using rest))).append free
    have one : restrictGlobal names part
        (done.map (·.header.name) ++ todo.map (·.header.name) ++ others) ordinal g =
        restrictedGlobal part ordinal g := by
      unfold restrictGlobal restrictedGlobal
      rw [partExternalize_eq taken]
    have next : BridgesFree (ordinal + 1)
        ((done ++ [restrictedGlobal part ordinal g]).map (·.header.name)) := by
      rw [map_append]
      exact (hdone.mono (Nat.le_succ _)).append
        (bridgesFree_restrictedGlobal (htodo g (mem_cons_self ..)))
    rw [restrictGlobals, one, ih (free.mono (Nat.le_succ _)) next rest, mapIdx_cons]
    simp [Nat.add_assoc, Nat.add_comm 1]

theorem restrictFunctions_eq {others : List Bytes} {done todo : List PartFunction}
    {owners : List Int} (length : owners.length = todo.length) (free : BridgesFree ordinal others)
    (hdone : BridgesFree ordinal (done.map (·.header.name)))
    (htodo : ∀ f ∈ todo, partNameIsReserved f.header.name = false) :
    restrictFunctions names part strip others ordinal done todo owners =
      done ++ todo.mapIdx fun i f =>
        restrictedFunction part strip (owners.getD i (-1)) (ordinal + i) f := by
  induction todo generalizing ordinal done owners with
  | nil => simp [restrictFunctions]
  | cons f todo ih =>
    cases owners with
    | nil => cases length
    | cons owner owners =>
      have rest : ∀ f ∈ todo, partNameIsReserved f.header.name = false :=
        fun f mem => htodo f (mem_cons_of_mem _ mem)
      have taken : BridgesFree ordinal
          (done.map (·.header.name) ++ todo.map (·.header.name) ++ others) :=
        (hdone.append (bridgesFree_of_not_reserved (by simpa using rest))).append free
      have one : restrictFunction names part strip owner
          (done.map (·.header.name) ++ todo.map (·.header.name) ++ others) ordinal f =
          restrictedFunction part strip owner ordinal f := by
        unfold restrictFunction restrictedFunction
        rw [partExternalize_eq taken]
      have next : BridgesFree (ordinal + 1)
          ((done ++ [restrictedFunction part strip owner ordinal f]).map (·.header.name)) := by
        rw [map_append]
        exact (hdone.mono (Nat.le_succ _)).append
          (bridgesFree_restrictedFunction (htodo f (mem_cons_self ..)))
      rw [restrictFunctions, one,
        ih (Nat.succ.inj length) (free.mono (Nat.le_succ _)) next rest, mapIdx_cons]
      simp [Nat.add_assoc, Nat.add_comm 1]

end Traversal

def PartModule.distributed (m : PartModule) (jobs part : Int) (strip : Bool) : PartModule where
  globals := m.globals.mapIdx (restrictedGlobal part)
  functions := m.functions.mapIdx fun i f =>
    restrictedFunction part strip ((m.owners jobs).getD i (-1)) (m.globals.length + i) f
  aliases := m.aliases

theorem partRestrictModule_eq {names : ValueNames} {m : PartModule} {jobs part : Int} {strip : Bool}
    (guard : partModuleHasReservedSymbolPrefix m = false) :
    partRestrictModule names m (m.owners jobs) part strip =
      (List.range m.aliases.length).foldl partRestrictAlias (m.distributed jobs part strip) := by
  simp only [partModuleHasReservedSymbolPrefix, Bool.or_eq_false_iff, any_eq_false,
    Bool.not_eq_true] at guard
  obtain ⟨⟨globals, functions⟩, aliases⟩ := guard
  have aliasesFree : ∀ ordinal, BridgesFree ordinal (m.aliases.map (·.header.name)) :=
    fun _ => bridgesFree_of_not_reserved (by simpa using aliases)
  have functionsFree : ∀ ordinal, BridgesFree ordinal (m.functions.map (·.header.name)) :=
    fun _ => bridgesFree_of_not_reserved (by simpa using functions)
  have nothing : ∀ ordinal, BridgesFree ordinal [] := fun _ _ mem => nomatch mem
  have first : restrictGlobals names part
      (m.functions.map (·.header.name) ++ m.aliases.map (·.header.name)) 0 [] m.globals =
      m.globals.mapIdx (restrictedGlobal part) := by
    rw [@restrictGlobals_eq 0 names part _ [] _ ((functionsFree 0).append (aliasesFree 0))
      (nothing 0) globals]
    simp
  have globalsFree : BridgesFree m.globals.length
      ((m.globals.mapIdx (restrictedGlobal part)).map (·.header.name)) := by
    intro name mem k hk
    obtain ⟨g', mem', rfl⟩ := mem_map.mp mem
    obtain ⟨i, hi, rfl⟩ := mem_mapIdx.mp mem'
    exact bridgesFree_restrictedGlobal (globals _ (getElem_mem hi)) _
      (mem_singleton.mpr rfl) k (Nat.le_trans hi hk)
  unfold partRestrictModule distributed
  dsimp only
  rw [first, @restrictFunctions_eq _ names part strip _ [] _ _ (length_owners m jobs)
    (globalsFree.append (aliasesFree _)) (nothing _) functions]
  simp

/-! ## The loop over the aliases -/

/-- `m'` is `m` with other uses in its definitions and other linkages on its aliases. -/
structure Rewired (m m' : PartModule) : Prop where
  globalHeader : ∀ i, m'.header? (.global i) = m.header? (.global i)
  functionHeader : ∀ i, m'.header? (.function i) = m.header? (.function i)
  aliasHeader : ∀ i, m'.header? (.globalAlias i) = m.header? (.globalAlias i) ∨
    ∃ header, m.header? (.globalAlias i) = some header ∧
      m'.header? (.globalAlias i) = some (header.setLinkage .privateLinkage)
  isDeclaration : ∀ s, m'.isDeclaration s = m.isDeclaration s
  uses : ∀ s t, t ∈ m'.uses s → t ∈ m.uses s ∨ ∃ i, t ∈ m.uses (.globalAlias i)

theorem Rewired.refl (m : PartModule) : Rewired m m :=
  ⟨fun _ => rfl, fun _ => rfl, fun _ => .inl rfl, fun _ => rfl, fun _ _ h => .inl h⟩

theorem Rewired.trans {m m' m'' : PartModule} (h : Rewired m m') (h' : Rewired m' m'') :
    Rewired m m'' where
  globalHeader i := (h'.globalHeader i).trans (h.globalHeader i)
  functionHeader i := (h'.functionHeader i).trans (h.functionHeader i)
  aliasHeader i := by
    cases h'.aliasHeader i with
    | inl same => exact same ▸ h.aliasHeader i
    | inr changed =>
      obtain ⟨header, found, now⟩ := changed
      cases h.aliasHeader i with
      | inl same => exact .inr ⟨header, same ▸ found, now⟩
      | inr before =>
        obtain ⟨first, found', now'⟩ := before
        rw [found] at now'
        cases now'
        exact .inr ⟨first, found', now⟩
  isDeclaration s := (h'.isDeclaration s).trans (h.isDeclaration s)
  uses s t mem := by
    cases h'.uses s t mem with
    | inl mem => exact h.uses s t mem
    | inr mem =>
      obtain ⟨i, mem⟩ := mem
      cases h.uses _ t mem with
      | inl mem => exact .inr ⟨i, mem⟩
      | inr mem => exact .inr mem

theorem Symbol.mem_map_replace {old new t : Symbol} {symbols : List Symbol}
    (h : t ∈ symbols.map (Symbol.replace old new)) : t ∈ symbols ∨ t = new := by
  obtain ⟨s, mem, rfl⟩ := mem_map.mp h
  unfold Symbol.replace
  split
  · exact .inr rfl
  · exact .inl mem

theorem uses_replaceAllUses {m : PartModule} {old new s t : Symbol}
    (h : t ∈ (m.replaceAllUses old new).uses s) : t ∈ m.uses s ∨ t = new := by
  apply @Symbol.mem_map_replace old
  cases s with
  | global i =>
    cases found : m.globals[i]? with
    | none => simp [PartModule.uses, replaceAllUses, found] at h
    | some g =>
      cases init : g.initializer with
      | none => simp [PartModule.uses, replaceAllUses, found, init] at h
      | some uses => simpa [PartModule.uses, replaceAllUses, found, init] using h
  | function i =>
    cases found : m.functions[i]? with
    | none => simp [PartModule.uses, replaceAllUses, found] at h
    | some f =>
      simp only [PartModule.uses, replaceAllUses, found, getElem?_map,
        Option.map_some, mem_append, Option.mem_toList] at h ⊢
      rw [map_append, mem_append]
      cases h with
      | inl mem => left; simpa [map_flatten, Function.comp_def] using mem
      | inr mem => right; cases person : f.personality <;> simp_all
  | globalAlias i =>
    cases found : m.aliases[i]? with
    | none => simp [PartModule.uses, replaceAllUses, found] at h
    | some a => simpa [PartModule.uses, replaceAllUses, found] using h

theorem rewired_replaceAllUses {m : PartModule} {old new : Symbol} {index : Nat}
    (h : new ∈ m.uses (.globalAlias index)) : Rewired m (m.replaceAllUses old new) where
  globalHeader i := by cases found : m.globals[i]? <;>
    simp [header?, replaceAllUses, found]
  functionHeader i := by cases found : m.functions[i]? <;>
    simp [header?, replaceAllUses, found]
  aliasHeader i := by
    left
    cases found : m.aliases[i]? <;> simp [header?, replaceAllUses, found]
  isDeclaration s := by
    cases s with
    | global i => cases found : m.globals[i]? <;>
        simp [PartModule.isDeclaration, replaceAllUses, found]
    | function i => cases found : m.functions[i]? <;>
        simp [PartModule.isDeclaration, replaceAllUses, found]
    | globalAlias i => rfl
  uses s t mem := by
    cases uses_replaceAllUses mem with
    | inl mem => exact .inl mem
    | inr new => exact .inr ⟨index, new ▸ h⟩

theorem rewired_setAliasLinkage (m : PartModule) (index : Nat) :
    Rewired m (m.setAliasLinkage index .privateLinkage) where
  globalHeader _ := rfl
  functionHeader _ := rfl
  aliasHeader i := by
    cases found : m.aliases[i]? with
    | none => left; simp [header?, setAliasLinkage, getElem?_modify, found]
    | some a =>
      by_cases same : index = i
      · right
        exact ⟨a.header, by simp [header?, found],
          by simp [header?, setAliasLinkage, found, same]⟩
      · left
        simp [header?, setAliasLinkage, found, same]
  isDeclaration s := by cases s <;> rfl
  uses s t mem := by
    left
    cases s with
    | global i => exact mem
    | function i => exact mem
    | globalAlias i =>
      cases found : m.aliases[i]? with
      | none => simp [PartModule.uses, setAliasLinkage, getElem?_modify, found] at mem
      | some a =>
        by_cases same : index = i <;>
          simpa [PartModule.uses, setAliasLinkage, getElem?_modify, found, same]
            using mem

theorem rewired_partRestrictAlias (m : PartModule) (index : Nat) :
    Rewired m (partRestrictAlias m index) := by
  unfold partRestrictAlias
  cases found : m.aliases[index]? with
  | none => exact .refl m
  | some a =>
    dsimp only
    split
    · have used : a.aliasee ∈ m.uses (.globalAlias index) := by simp [PartModule.uses, found]
      exact (rewired_replaceAllUses used).trans (rewired_setAliasLinkage _ index)
    · exact .refl m

theorem rewired_foldl_partRestrictAlias (indices : List Nat) (m : PartModule) :
    Rewired m (indices.foldl partRestrictAlias m) := by
  induction indices generalizing m with
  | nil => exact .refl m
  | cons index indices ih => exact (rewired_partRestrictAlias m index).trans (ih _)

namespace Rewired

variable {m m' : PartModule}

theorem name_eq (h : Rewired m m') (s : Symbol) : m'.name s = m.name s := by
  unfold PartModule.name
  cases s with
  | global i => rw [h.globalHeader]
  | function i => rw [h.functionHeader]
  | globalAlias i =>
    cases h.aliasHeader i with
    | inl same => rw [same]
    | inr changed =>
      obtain ⟨header, found, now⟩ := changed
      rw [found, now]
      rfl

theorem emits_global (h : Rewired m m') (i : Nat) : m'.emits (.global i) = m.emits (.global i) := by
  unfold PartModule.emits
  rw [h.globalHeader, h.isDeclaration]

theorem emits_function (h : Rewired m m') (i : Nat) :
    m'.emits (.function i) = m.emits (.function i) := by
  unfold PartModule.emits
  rw [h.functionHeader, h.isDeclaration]

theorem emits_alias (h : Rewired m m') {i : Nat} (emits : m.emits (.globalAlias i) = true) :
    m'.emits (.globalAlias i) = true := by
  unfold PartModule.emits at emits ⊢
  rw [h.isDeclaration]
  cases h.aliasHeader i with
  | inl same => rw [same]; exact emits
  | inr changed =>
    obtain ⟨header, found, now⟩ := changed
    rw [now]
    simp [PartModule.isDeclaration, Header.setLinkage]

end Rewired

/-! ## One part -/

def PartModule.part (m : PartModule) (names : ValueNames) (strip : Bool) (jobs p : Int) :
    PartModule :=
  partRestrictModule names m (m.owners jobs) p strip

def PartModule.partName (m : PartModule) : Symbol → Bytes
  | .global i => if m.owned (.global i) && m.isLocal (.global i) then bridgeName i
      else m.name (.global i)
  | .function i => if m.owned (.function i) && m.isLocal (.function i) then
      bridgeName (m.globals.length + i) else m.name (.function i)
  | .globalAlias i => m.name (.globalAlias i)

section Part

variable {names : ValueNames} {m : PartModule} {strip : Bool} {jobs : Int}
variable (guard : partModuleHasReservedSymbolPrefix m = false)

include guard in
theorem rewired_part (p : Int) :
    Rewired (m.distributed jobs p strip) (m.part names strip jobs p) := by
  unfold PartModule.part
  rw [partRestrictModule_eq guard]
  exact rewired_foldl_partRestrictAlias _ _

variable {s t : Symbol} {p : Int} {i : Nat} {g : PartGlobal} {f : PartFunction}

theorem globals_distributed (h : m.globals[i]? = some g) :
    (m.distributed jobs p strip).globals[i]? = some (restrictedGlobal p i g) := by
  simp [distributed, getElem?_mapIdx, h]

theorem functions_distributed {owner : Int} (h : m.functions[i]? = some f)
    (howner : (m.owners jobs)[i]? = some owner) :
    (m.distributed jobs p strip).functions[i]? =
      some (restrictedFunction p strip owner (m.globals.length + i) f) := by
  simp [distributed, getElem?_mapIdx, h, howner]

theorem bridgedHeader_linkage {header : Header} (ordinal : Nat)
    (h : partLinkageIsPartitioned header.linkage = true) :
    (bridgedHeader header ordinal).linkage = .external := by
  unfold bridgedHeader
  split
  · rfl
  next foreign =>
    unfold partLinkageIsPartitioned at h
    simpa [foreign] using h

theorem partGlobalOwned_iff :
    partGlobalOwned g = true ↔ g.initializer.isSome = true ∧
      partLinkageIsPartitioned g.header.linkage = true := by
  unfold partGlobalOwned
  cases g.initializer <;> simp

theorem partFunctionOwned_iff :
    partFunctionOwned f = true ↔ f.blocks ≠ [] ∧
      partLinkageIsPartitioned f.header.linkage = true := by
  unfold partFunctionOwned
  cases f.blocks <;> simp

/-! ## Names -/

include guard in
theorem part_name (positive : 0 < jobs) (p : Int) (s : Symbol) :
    (m.part names strip jobs p).name s = m.partName s := by
  rw [(rewired_part guard p).name_eq]
  cases s with
  | global i =>
    cases found : m.globals[i]? with
    | none => simp [PartModule.name, header?, partName, PartModule.owned,
        distributed, getElem?_mapIdx, found]
    | some g =>
      simp only [PartModule.name, header?, partName, PartModule.owned,
        isLocal, PartModule.linkage, globals_distributed found, found, Option.map_some,
        Option.getD_some, restrictedGlobal_name, Option.any_some, bridgedHeader]
      cases partGlobalOwned g <;> cases partLinkageIsLocal g.header.linkage <;> rfl
  | function i =>
    cases found : m.functions[i]? with
    | none => simp [PartModule.name, header?, partName, PartModule.owned,
        distributed, getElem?_mapIdx, found]
    | some f =>
      obtain ⟨owner, howner, bounds⟩ := owners_spec positive found
      simp only [PartModule.name, header?, partName, PartModule.owned,
        isLocal, PartModule.linkage, functions_distributed found howner, found,
        Option.map_some, Option.getD_some, restrictedFunction_name, Option.any_some, bridgedHeader]
      cases owned : partFunctionOwned f with
      | true =>
        rw [owned] at bounds
        rw [if_pos bounds.1]
        cases partLinkageIsLocal f.header.linkage <;> rfl
      | false =>
        rw [owned] at bounds
        rw [if_neg (by rw [show owner = -1 from bounds]; decide)]
        rfl
  | globalAlias i => rfl

def PartModule.ordinal (m : PartModule) : Symbol → Nat
  | .global i => i
  | .function i => m.globals.length + i
  | .globalAlias i => m.globals.length + m.functions.length + i

theorem ordinal_injective (hs : m.owned s = true) (ht : m.owned t = true)
    (h : m.ordinal s = m.ordinal t) : s = t := by
  have bound : ∀ i, m.owned (.global i) = true → i < m.globals.length := by
    intro i owned
    cases found : m.globals[i]? with
    | none => simp [PartModule.owned, found] at owned
    | some g => exact (List.getElem?_eq_some_iff.mp found).1
  cases s with
  | global i =>
    cases t with
    | global j => exact congrArg Symbol.global h
    | function j =>
      have := bound i hs
      simp only [PartModule.ordinal] at h
      omega
    | globalAlias j => cases ht
  | function i =>
    cases t with
    | global j =>
      have := bound j ht
      simp only [PartModule.ordinal] at h
      omega
    | function j => exact congrArg Symbol.function (Nat.add_left_cancel h)
    | globalAlias j => cases ht
  | globalAlias i => cases hs

theorem partName_cases (m : PartModule) (s : Symbol) :
    (m.owned s = true ∧ m.isLocal s = true ∧ m.partName s = bridgeName (m.ordinal s)) ∨
      (¬ (m.owned s = true ∧ m.isLocal s = true) ∧ m.partName s = m.name s) := by
  cases bridged : m.owned s && m.isLocal s with
  | true =>
    rw [Bool.and_eq_true] at bridged
    left
    cases s with
    | global i =>
      exact ⟨bridged.1, bridged.2, by simp [partName, PartModule.ordinal, bridged]⟩
    | function i =>
      exact ⟨bridged.1, bridged.2, by simp [partName, PartModule.ordinal, bridged]⟩
    | globalAlias i => cases bridged.1
  | false =>
    right
    have not : ¬ (m.owned s = true ∧ m.isLocal s = true) := by
      rw [← Bool.and_eq_true, bridged]
      decide
    cases s with
    | global i => exact ⟨not, by simp [partName, bridged]⟩
    | function i => exact ⟨not, by simp [partName, bridged]⟩
    | globalAlias i => exact ⟨not, rfl⟩

/-- Two symbols share a name only if they have none. -/
def PartModule.NamesDistinct (m : PartModule) : Prop :=
  ∀ s ∈ m.symbols, ∀ t ∈ m.symbols, s ≠ t → m.name s = m.name t → m.name s = []

include guard in
theorem partName_ne_name (owned : m.owned s = true) (islocal : m.isLocal s = true) (t : Symbol) :
    m.partName s ≠ m.name t := by
  cases partName_cases m s with
  | inl bridged =>
    rw [bridged.2.2]
    exact (ne_bridgeName (not_reserved guard t) _).symm
  | inr kept => exact absurd ⟨owned, islocal⟩ kept.1

include guard in
theorem partName_distinct (distinct : m.NamesDistinct) (hs : s ∈ m.symbols) (ht : t ∈ m.symbols)
    (hne : s ≠ t) (islocal : m.isLocal s = true) (named : m.owned s = true ∨ m.name s ≠ []) :
    m.partName s ≠ m.partName t ∧ m.partName s ≠ m.name t := by
  cases partName_cases m s with
  | inl bridged =>
    refine ⟨?_, partName_ne_name guard bridged.1 islocal t⟩
    cases partName_cases m t with
    | inl bridged' =>
      intro same
      rw [bridged.2.2, bridged'.2.2] at same
      exact hne (ordinal_injective bridged.1 bridged'.1 (bridgeName_injective same))
    | inr kept =>
      rw [kept.2]
      exact partName_ne_name guard bridged.1 islocal t
  | inr kept =>
    have nonempty : m.name s ≠ [] := by
      cases named with
      | inl owned => exact absurd ⟨owned, islocal⟩ kept.1
      | inr named => exact named
    have other : m.name s ≠ m.name t := fun same => nonempty (distinct s hs t ht hne same)
    rw [kept.2]
    refine ⟨?_, other⟩
    cases partName_cases m t with
    | inl bridged =>
      rw [bridged.2.2]
      exact ne_bridgeName (not_reserved guard s) _
    | inr kept' =>
      rw [kept'.2]
      exact other

include guard in
theorem renamed_iff (s : Symbol) :
    m.partName s ≠ m.name s ↔ m.owned s = true ∧ m.isLocal s = true := by
  constructor
  · intro changed
    cases partName_cases m s with
    | inl bridged => exact ⟨bridged.1, bridged.2.1⟩
    | inr kept => exact absurd kept.2 changed
  · intro bridged
    exact partName_ne_name guard bridged.1 bridged.2 s

/-! ## The inventory of bridges -/

theorem bridgeRows_eq (ordinal : Nat) (rows : List (Bool × Header)) :
    bridgeRows ordinal rows = (List.range rows.length).flatMap fun i =>
      if (rows[i]?).any (fun row => row.1 && partLinkageIsLocal row.2.linkage) then
        bridgeName (ordinal + i) ++ [10] else [] := by
  induction rows generalizing ordinal with
  | nil => rfl
  | cons row rows ih =>
    obtain ⟨owned, header⟩ := row
    rw [bridgeRows, ih, length_cons, range_succ_eq_map, flatMap_cons,
      flatMap_map]
    simp [Nat.add_assoc, Nat.add_comm 1]

theorem flatMap_filter_eq {α β : Type} (keep : α → Bool) (f : α → List β) (l : List α) :
    (l.filter keep).flatMap f = l.flatMap fun a => if keep a then f a else [] := by
  induction l with
  | nil => rfl
  | cons a l ih =>
    rw [filter_cons, flatMap_cons]
    split <;> simp [ih]

include guard in
theorem bridgeSymbolNames_eq :
    partModuleBridgeSymbolNames m =
      (m.symbols.filter fun s => decide (m.partName s ≠ m.name s)).flatMap
        fun s => m.partName s ++ [10] := by
  have keep : ∀ s, decide (m.partName s ≠ m.name s) = (m.owned s && m.isLocal s) := by
    intro s
    rw [Bool.eq_iff_iff, decide_eq_true_iff, renamed_iff guard, Bool.and_eq_true]
  simp only [keep]
  rw [flatMap_filter_eq, PartModule.symbols, flatMap_append, flatMap_append,
    flatMap_map, flatMap_map, flatMap_map]
  have noAlias : ((List.range m.aliases.length).flatMap fun i =>
      if m.owned (.globalAlias i) && m.isLocal (.globalAlias i) then
        m.partName (.globalAlias i) ++ [10] else []) = [] := by
    simp [PartModule.owned]
  rw [noAlias, append_nil, partModuleBridgeSymbolNames, bridgeRows_eq, bridgeRows_eq]
  congr 1
  · rw [length_map]
    apply flatMap_congr
    intro i mem
    cases found : m.globals[i]? with
    | none => simp [found, PartModule.owned]
    | some g =>
      cases hown : partGlobalOwned g <;> cases hloc : partLinkageIsLocal g.header.linkage <;>
        simp [found, hown, hloc, PartModule.owned, isLocal, PartModule.linkage,
          header?, partName]
  · rw [length_map]
    apply flatMap_congr
    intro i mem
    cases found : m.functions[i]? with
    | none => simp [found, PartModule.owned]
    | some f =>
      cases hown : partFunctionOwned f <;> cases hloc : partLinkageIsLocal f.header.linkage <;>
        simp [found, hown, hloc, PartModule.owned, isLocal, PartModule.linkage,
          header?, partName]

/-! ## Emission -/

include guard in
theorem part_owned_global (found : m.globals[i]? = some g) (owned : partGlobalOwned g = true)
    (p : Int) :
    (m.part names strip jobs p).emits (.global i) = decide (p = 0) ∧
      (m.part names strip jobs p).linkage (.global i) = some .external := by
  obtain ⟨initialized, partitioned⟩ := partGlobalOwned_iff.mp owned
  have wired : Rewired (m.distributed jobs p strip) (m.part names strip jobs p) :=
    rewired_part guard p
  have linkage := bridgedHeader_linkage i partitioned
  rw [wired.emits_global, PartModule.linkage, wired.globalHeader]
  simp only [PartModule.emits, header?, PartModule.isDeclaration,
    globals_distributed found, restrictedGlobal, owned, if_true]
  by_cases first : p = 0
  · simp [first, linkage, initialized]
  · simp [first, Header.setLinkage]

include guard in
theorem part_owned_function {owner : Int} (found : m.functions[i]? = some f)
    (howner : (m.owners jobs)[i]? = some owner) (nonneg : 0 ≤ owner)
    (owned : partFunctionOwned f = true) (p : Int) :
    (m.part names strip jobs p).emits (.function i) = decide (p = owner) ∧
      (p = owner → (m.part names strip jobs p).linkage (.function i) = some .external) := by
  obtain ⟨body, partitioned⟩ := partFunctionOwned_iff.mp owned
  have wired : Rewired (m.distributed jobs p strip) (m.part names strip jobs p) :=
    rewired_part guard p
  have linkage := bridgedHeader_linkage (m.globals.length + i) partitioned
  rw [wired.emits_function, PartModule.linkage, wired.functionHeader]
  simp only [PartModule.emits, header?, PartModule.isDeclaration,
    functions_distributed found howner, restrictedFunction, ge_iff_le, nonneg, if_true]
  by_cases own : p = owner
  · simp [own, linkage, body]
  · have foreign : owner ≠ p := fun same => own same.symm
    cases strip <;> simp [own, foreign, Header.setLinkage]

include guard in
theorem part_emits_shared (positive : 0 < jobs) (shared : m.owned s = false) (h : m.emits s = true)
    (p : Int) : (m.part names strip jobs p).emits s = true := by
  have wired : Rewired (m.distributed jobs p strip) (m.part names strip jobs p) :=
    rewired_part guard p
  cases s with
  | global i =>
    rw [wired.emits_global]
    cases found : m.globals[i]? with
    | none => simp [PartModule.emits, header?, found] at h
    | some g =>
      have foreign : partGlobalOwned g = false := by simpa [PartModule.owned, found] using shared
      have same : (m.distributed jobs p strip).globals[i]? = some (restrictedGlobal p i g) :=
        globals_distributed found
      rw [restrictedGlobal, if_neg (by rw [foreign]; decide)] at same
      simpa [PartModule.emits, header?, PartModule.isDeclaration, found, same] using h
  | function i =>
    rw [wired.emits_function]
    cases found : m.functions[i]? with
    | none => simp [PartModule.emits, header?, found] at h
    | some f =>
      have foreign : partFunctionOwned f = false := by simpa [PartModule.owned, found] using shared
      obtain ⟨owner, howner, bounds⟩ := owners_spec positive found
      rw [foreign] at bounds
      have same : (m.distributed jobs p strip).functions[i]? =
          some (restrictedFunction p strip owner (m.globals.length + i) f) :=
        functions_distributed found howner
      rw [restrictedFunction, if_neg (by rw [show owner = -1 from bounds]; decide)] at same
      simpa [PartModule.emits, header?, PartModule.isDeclaration, found, same] using h
  | globalAlias i =>
    apply wired.emits_alias
    exact h

/-! ## References -/

/-- A reference in part `p` is to something the part defines, or the symbol stands under
the same name as an external definition in another part. -/
def PartModule.Resolves (m : PartModule) (names : ValueNames) (strip : Bool) (jobs p : Int)
    (t : Symbol) : Prop :=
  (m.part names strip jobs p).emits t = true ∨
    ∃ q, (0 ≤ q ∧ q < jobs) ∧ (m.part names strip jobs q).emits t = true ∧
      (m.part names strip jobs q).name t = (m.part names strip jobs p).name t ∧
      (m.part names strip jobs q).linkage t = some .external

include guard in
theorem exists_owner (positive : 0 < jobs) (owned : m.owned s = true) :
    ∃ owner, (0 ≤ owner ∧ owner < jobs) ∧
      (∀ p, (m.part names strip jobs p).emits s = decide (p = owner)) ∧
      (m.part names strip jobs owner).linkage s = some .external := by
  cases s with
  | global i =>
    cases found : m.globals[i]? with
    | none => simp [PartModule.owned, found] at owned
    | some g =>
      have owned : partGlobalOwned g = true := by simpa [PartModule.owned, found] using owned
      exact ⟨0, ⟨le_refl _, positive⟩, fun p => (part_owned_global guard found owned p).1,
        (part_owned_global guard found owned 0).2⟩
  | function i =>
    cases found : m.functions[i]? with
    | none => simp [PartModule.owned, found] at owned
    | some f =>
      have owned : partFunctionOwned f = true := by simpa [PartModule.owned, found] using owned
      obtain ⟨owner, howner, bounds⟩ := owners_spec positive found
      rw [owned] at bounds
      exact ⟨owner, bounds, fun p => (part_owned_function guard found howner bounds.1 owned p).1,
        (part_owned_function guard found howner bounds.1 owned owner).2 rfl⟩
  | globalAlias i => cases owned

include guard in
theorem resolves_of_emits (positive : 0 < jobs) (h : m.emits t = true) (p : Int) :
    m.Resolves names strip jobs p t := by
  cases owned : m.owned t with
  | true =>
    obtain ⟨owner, range, emits, linkage⟩ := exists_owner guard positive owned
    right
    refine ⟨owner, range, ?_, ?_, linkage⟩
    · rw [emits]
      exact decide_eq_true rfl
    · rw [part_name guard positive, part_name guard positive]
  | false => exact .inl (part_emits_shared guard positive owned h p)

theorem mem_symbols_of_mem_uses (h : t ∈ m.uses s) : s ∈ m.symbols := by
  cases s with
  | global i =>
    cases found : m.globals[i]? with
    | none => simp [PartModule.uses, found] at h
    | some g => simpa [PartModule.symbols] using (List.getElem?_eq_some_iff.mp found).1
  | function i =>
    cases found : m.functions[i]? with
    | none => simp [PartModule.uses, found] at h
    | some f => simpa [PartModule.symbols] using (List.getElem?_eq_some_iff.mp found).1
  | globalAlias i =>
    cases found : m.aliases[i]? with
    | none => simp [PartModule.uses, found] at h
    | some a => simpa [PartModule.symbols] using (List.getElem?_eq_some_iff.mp found).1

theorem uses_distributed (h : t ∈ (m.distributed jobs p strip).uses s) : t ∈ m.uses s := by
  cases s with
  | global i =>
    cases found : m.globals[i]? with
    | none => simp [PartModule.uses, distributed, getElem?_mapIdx, found] at h
    | some g =>
      simp only [PartModule.uses, globals_distributed found, found, Option.bind_some,
        restrictedGlobal] at h ⊢
      split at h
      · split at h
        · cases h
        · exact h
      · exact h
  | function i =>
    cases found : m.functions[i]? with
    | none => simp [PartModule.uses, distributed, getElem?_mapIdx, found] at h
    | some f =>
      simp only [PartModule.uses, distributed, getElem?_mapIdx, found,
        Option.map_some, restrictedFunction] at h ⊢
      split at h
      · split at h
        · split at h
          · cases h
          · exact h
        · exact h
      · exact h
  | globalAlias i => exact h

include guard in
theorem uses_of_mem_references (h : t ∈ (m.part names strip jobs p).references) :
    t ∈ m.symbols.flatMap m.uses := by
  obtain ⟨s, -, mem⟩ := mem_flatMap.mp h
  have used : ∃ s, t ∈ m.uses s := by
    cases (rewired_part guard p).uses s t mem with
    | inl mem => exact ⟨s, uses_distributed mem⟩
    | inr mem =>
      obtain ⟨i, mem⟩ := mem
      exact ⟨.globalAlias i, mem⟩
  obtain ⟨s, mem⟩ := used
  exact mem_flatMap.mpr ⟨s, mem_symbols_of_mem_uses mem, mem⟩

end Part

/-! ## The partition -/

structure Partitions (names : ValueNames) (m : PartModule) (strip : Bool) (jobs : Int) : Prop where
  /-- A distributed symbol is emitted in exactly one part. -/
  emittedOnce : ∀ s, m.owned s = true →
    ∃! p, (0 ≤ p ∧ p < jobs) ∧ (m.part names strip jobs p).emits s = true
  /-- Every part gives a symbol the same name. -/
  sameName : ∀ p q s, (m.part names strip jobs p).name s = (m.part names strip jobs q).name s
  /-- A local symbol shares its name with no other symbol, of the part or of the module. -/
  localName : ∀ p, ∀ s ∈ m.symbols, ∀ t ∈ m.symbols, s ≠ t → m.isLocal s = true →
    m.owned s = true ∨ m.name s ≠ [] →
    (m.part names strip jobs p).name s ≠ (m.part names strip jobs p).name t ∧
      (m.part names strip jobs p).name s ≠ m.name t
  /-- The inventory lists the names of the renamed symbols, one a line. -/
  bridges : ∀ p, partModuleBridgeSymbolNames m =
    (m.symbols.filter fun s => decide ((m.part names strip jobs p).name s ≠ m.name s)).flatMap
      fun s => (m.part names strip jobs p).name s ++ [10]
  /-- A function has one of the parts for its owner exactly if it is distributed. -/
  owner : ∀ (i : Nat) (f : PartFunction), m.functions[i]? = some f →
    ∃ owner, (m.owners jobs)[i]? = some owner ∧
      (if partFunctionOwned f then 0 ≤ owner ∧ owner < jobs else owner = -1)
  /-- The owners do not decrease. -/
  ownersRise : (m.owners jobs).Pairwise fun a b => 0 ≤ a → 0 ≤ b → a ≤ b
  /-- A reference in a part is one the module has, and is to a definition in some part
  unless the module leaves the symbol to be defined elsewhere. -/
  references : ∀ p, ∀ t ∈ (m.part names strip jobs p).references,
    t ∈ m.symbols.flatMap m.uses ∧ (m.emits t = true → m.Resolves names strip jobs p t)

/-- Whatever the job count, the parts of a module without reserved names make it up. -/
theorem parallel_emission_partitions (names : ValueNames) (m : PartModule)
    (strip : Bool) (jobs : Int)
    (hjobs : 2 ≤ jobs) (guard : partModuleHasReservedSymbolPrefix m = false)
    (distinct : m.NamesDistinct) : Partitions names m strip jobs := by
  have positive : 0 < jobs := by omega
  constructor
  case emittedOnce =>
    intro s owned
    obtain ⟨owner, range, emits, -⟩ := exists_owner guard positive owned
    refine ⟨owner, ⟨range, by rw [emits]; exact decide_eq_true rfl⟩, ?_⟩
    rintro p ⟨-, emitted⟩
    rw [emits] at emitted
    exact of_decide_eq_true emitted
  case sameName =>
    intro p q s
    rw [part_name guard positive, part_name guard positive]
  case localName =>
    intro p s hs t ht hne islocal named
    rw [part_name guard positive, part_name guard positive]
    exact partName_distinct guard distinct hs ht hne islocal named
  case bridges =>
    intro p
    simp only [part_name guard positive]
    exact bridgeSymbolNames_eq guard
  case owner => exact fun i f found => owners_spec positive found
  case ownersRise => exact partFunctionOwnersFrom_nondecreasing positive (le_refl 0)
  case references =>
    intro p t mem
    exact ⟨uses_of_mem_references guard mem, fun emits => resolves_of_emits guard positive emits p⟩

/-- Names as LLVM makes them unique: a taken one gets a number behind a dot. -/
def ValueNames.numbering : ValueNames where
  unique taken name :=
    if name ∈ taken then
      let candidates := (List.range (taken.length + 1)).map fun k =>
        name ++ dot :: partPushDecimal k
      (candidates.find? fun candidate => decide (candidate ∉ taken)).getD name
    else name
  unique_of_free free := if_neg free

/-- `main` calls `helper` under its exported name, and `puts`; `helper` uses `table`, which
holds the address of `helper`. -/
def sampleModule : PartModule where
  globals := [⟨⟨ascii "table", .privateLinkage, .standard⟩, some [.function 1]⟩]
  functions := [
    ⟨⟨ascii "main", .external, .standard⟩, [[[.globalAlias 0], [.function 2]]], none⟩,
    ⟨⟨ascii "helper", .internal, .standard⟩, [[[.global 0]], [[]]], none⟩,
    ⟨⟨ascii "puts", .external, .standard⟩, [], none⟩]
  aliases := [⟨⟨ascii "api", .external, .standard⟩, .function 1⟩]

/-- The hypotheses hold of a module with a bridge to each side, where `main` and `helper`
come to different parts. -/
theorem parallel_emission_partitions_sample :
    sampleModule.owners 2 = [0, 1, -1] ∧ Partitions .numbering sampleModule false 2 :=
  ⟨by decide, parallel_emission_partitions .numbering sampleModule false 2 (by decide) (by decide)
    (by unfold NamesDistinct; decide)⟩

/-- A symbol that the module only declares is defined in no part, and has no owner. -/
theorem declared_symbol_in_no_part :
    (sampleModule.owners 2)[2]? = some (-1) ∧
      ¬ ∀ p : Int, 0 ≤ p ∧ p < 2 → ∀ t ∈ (sampleModule.part .numbering false 2 p).references,
        ∃ q : Int, (0 ≤ q ∧ q < 2) ∧ (sampleModule.part .numbering false 2 q).emits t = true := by
  refine ⟨by decide, fun h => ?_⟩
  obtain ⟨q, range, emits⟩ := h 0 (by decide) (.function 2) (by decide)
  have parts : q = 0 ∨ q = 1 := by omega
  cases parts with
  | inl first =>
    subst first
    exact absurd emits (by decide)
  | inr second =>
    subst second
    exact absurd emits (by decide)

end Elisa.Backend
