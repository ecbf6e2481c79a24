import Elisa.Lib.BucketStacks
import Elisa.Semantic.OwnershipLookup
import Elisa.Semantic.RowEntries

/-!
# The indexed lookup and the scan agree

What a lookup should find is said of the rows alone (`refersAt`, `Agreeing`).  Both loops carry on
what they have seen (`Sees`), and one round of either is a step with `noted`.

A table that `recordReference` has built has an index that is complete (`Indexed`), so the walk
comes by all rows of the owner.  On other tables the lookup ends without a fault, and an answer is
the binding of a row with the owner and the span.
-/

namespace Elisa.Semantic

open Ast Lib.BucketStacks List Option

namespace ReferenceTable

/-! ## What is looked up -/

section Rows

variable (table : ReferenceTable) (owner : DeclId) (position : Pos)

/-- The row has the owner and exactly the span. -/
def refersAt (row : Nat) : Bool :=
  table.refBindingIds[row]?.any (fun id => id.owner.value = owner.value) &&
    table.refPos[row]?.any (fun recorded => spanIs recorded position)

/-- There are rows with the owner and the span, and all of them have this binding. -/
def Agreeing (id : BindingId) : Prop :=
  (∃ row, table.refersAt owner position row = true) ∧
    ∀ row, table.refersAt owner position row = true → table.refBindingIds[row]? = some id

end Rows

theorem ownershipBindingIdsEqual_iff {left right : BindingId} :
    ownershipBindingIdsEqual left right = true ↔ left = right := by
  obtain ⟨⟨owner⟩, serial⟩ := left
  obtain ⟨⟨owner'⟩, serial'⟩ := right
  simp [ownershipBindingIdsEqual]

section Facts

variable {table : ReferenceTable} {owner : DeclId} {position : Pos} {row : Nat} {id : BindingId}
  {recorded : Pos}

theorem refersAt_eq (hasId : table.refBindingIds[row]? = some id)
    (hasPos : table.refPos[row]? = some recorded) :
    table.refersAt owner position row =
      (decide (id.owner.value = owner.value) && spanIs recorded position) := by
  rw [refersAt, hasId, hasPos, any_some, any_some]

theorem refersAt_bounds (refers : table.refersAt owner position row = true) :
    row < table.refBindingIds.length ∧ row < table.refPos.length := by
  rw [refersAt, Bool.and_eq_true] at refers
  obtain ⟨id, hasId, -⟩ := (any_eq_true _ _).mp refers.1
  obtain ⟨recorded, hasPos, -⟩ := (any_eq_true _ _).mp refers.2
  exact ⟨(List.getElem?_eq_some_iff.mp hasId).1, (List.getElem?_eq_some_iff.mp hasPos).1⟩

theorem owner_of_refersAt (refers : table.refersAt owner position row = true)
    (hasId : table.refBindingIds[row]? = some id) : id.owner.value = owner.value := by
  rw [refersAt, hasId, Bool.and_eq_true] at refers
  exact of_decide_eq_true refers.1

theorem rowIs_eq (hasId : table.refBindingIds[row]? = some id)
    (hasPos : table.refPos[row]? = some recorded) :
    table.rowIs owner position row = some (table.refersAt owner position row) := by
  rw [rowIs, refersAt_eq hasId hasPos, hasId, hasPos]
  cases decEq id.owner.value owner.value with
  | isTrue same => simp [same]
  | isFalse other => simp [other]

theorem exists_entry {α : Type} {l : List α} {i : Nat} (small : i < l.length) :
    ∃ entry, l[i]? = some entry :=
  ⟨_, getElem?_eq_getElem small⟩

theorem exists_row (parallel : table.refPos.length = table.refBindingIds.length)
    (small : row < table.refPos.length) :
    ∃ id recorded, table.refBindingIds[row]? = some id ∧ table.refPos[row]? = some recorded :=
  ⟨_, _, getElem?_eq_getElem (parallel ▸ small), getElem?_eq_getElem small⟩

theorem rowIs_of_lt (parallel : table.refPos.length = table.refBindingIds.length)
    (small : row < table.refPos.length) :
    table.rowIs owner position row = some (table.refersAt owner position row) := by
  obtain ⟨id, recorded, hasId, hasPos⟩ := exists_row parallel small
  exact rowIs_eq hasId hasPos

theorem rowIs_of_refersAt (refers : table.refersAt owner position row = true) :
    table.rowIs owner position row = some true := by
  obtain ⟨small, small'⟩ := refersAt_bounds refers
  rw [rowIs_eq (getElem?_eq_getElem small) (getElem?_eq_getElem small'), refers]

end Facts

/-! ## Rounds -/

section Rounds

variable {table : ReferenceTable} {owner : DeclId} {position : Pos}

/-- The row that is kept is one of those looked for. -/
def Found.Sound (table : ReferenceTable) (owner : DeclId) (position : Pos) (state : Found) : Prop :=
  state.found = true → table.refersAt owner position state.resultIndex = true

/-- What is known of the rows that were seen. -/
structure Found.Sees (table : ReferenceTable) (owner : DeclId) (position : Pos) (seen : Nat → Prop)
    (state : Found) : Prop where
  found : state.found = true →
    seen state.resultIndex ∧ table.refersAt owner position state.resultIndex = true
  missed : state.found = false → ∀ row, seen row → table.refersAt owner position row = false
  valid : state.lookupValid = true ↔ ∀ row, seen row → table.refersAt owner position row = true →
    state.found = true → table.refBindingIds[row]? = table.refBindingIds[state.resultIndex]?

def noted (table : ReferenceTable) (owner : DeclId) (position : Pos) (index : Nat) (state : Found) :
    Found :=
  if table.refersAt owner position index then
    if state.found then
      if table.refBindingIds[state.resultIndex]? = table.refBindingIds[index]? then state
      else { state with lookupValid := false }
    else { state with found := true, resultIndex := index }
  else state

variable {state : Found} {index : Nat}

theorem noted_sound (sound : state.Sound table owner position) :
    (noted table owner position index state).Sound table owner position := by
  rw [noted]
  split
  next refers =>
    split
    next => split <;> exact sound
    next => exact fun _ => refers
  next => exact sound

theorem resultIsRow_of_sound (sound : state.Sound table owner position) :
    table.resultIsRow owner position state = some true := by
  rw [resultIsRow]
  cases found : state.found with
  | false => rfl
  | true =>
    have refers := sound found
    have ⟨small, small'⟩ := refersAt_bounds refers
    rw [rowIs_of_refersAt refers]
    simp only [Bool.not_true, Bool.false_eq_true, if_false]
    rw [if_neg]
    simp only [Bool.or_eq_true, decide_eq_true_eq]
    omega

theorem noteRow_eq {id : BindingId} (sound : state.Sound table owner position)
    (refers : table.refersAt owner position index = true)
    (hasId : table.refBindingIds[index]? = some id) :
    table.noteRow owner position index id state =
      some (noted table owner position index state) := by
  rw [noteRow, noted, if_pos refers]
  cases found : state.found with
  | false => simp [rowIs_of_refersAt refers, assertThat]
  | true =>
    have ⟨small, _⟩ := refersAt_bounds (sound found)
    rw [getElem?_eq_getElem small, hasId]
    cases decEq table.refBindingIds[state.resultIndex] id with
    | isTrue same => simp [same, ownershipBindingIdsEqual_iff.mpr rfl]
    | isFalse other =>
      have differ : ownershipBindingIdsEqual table.refBindingIds[state.resultIndex] id = false :=
        Bool.eq_false_iff.mpr fun equal => other (ownershipBindingIdsEqual_iff.mp equal)
      simp [other, differ]

theorem sees_none : noneFound.Sees table owner position fun _ => False where
  found := nofun
  missed _ _ := False.elim
  valid := ⟨fun _ _ seen => seen.elim, fun _ => rfl⟩

theorem noted_sees {seen more : Nat → Prop} (sees : state.Sees table owner position seen)
    (grows : ∀ row, more row ↔ seen row ∨ row = index) :
    (noted table owner position index state).Sees table owner position more := by
  have old {row : Nat} (here : seen row) : more row := (grows row).mpr (.inl here)
  have new : more index := (grows index).mpr (.inr rfl)
  rw [noted]
  cases refers : table.refersAt owner position index with
  | false =>
    simp only [Bool.false_eq_true, if_false]
    refine ⟨fun found => ⟨old (sees.found found).1, (sees.found found).2⟩,
      fun missed row here => ?_, sees.valid.trans ⟨fun all row here isRow => ?_,
        fun all row here => all row (old here)⟩⟩
    · rcases (grows row).mp here with before | rfl
      · exact sees.missed missed row before
      · exact refers
    · rcases (grows row).mp here with before | rfl
      · exact all row before isRow
      · rw [refers] at isRow
        cases isRow
  | true =>
    simp only [if_true]
    cases found : state.found with
    | false =>
      simp only [Bool.false_eq_true, if_false]
      have valid : state.lookupValid = true :=
        sees.valid.mpr fun row here isRow => by
          rw [sees.missed found row here] at isRow
          cases isRow
      refine ⟨fun _ => ⟨new, refers⟩, nofun, ⟨fun _ row here isRow _ => ?_, fun _ => valid⟩⟩
      rcases (grows row).mp here with before | rfl
      · rw [sees.missed found row before] at isRow
        cases isRow
      · rfl
    | true =>
      simp only [if_true]
      have kept := sees.found found
      split
      next same =>
        refine ⟨fun _ => ⟨old kept.1, kept.2⟩, fun missed => ?_,
          sees.valid.trans ⟨fun all row here isRow => ?_, fun all row here => all row (old here)⟩⟩
        · rw [found] at missed
          cases missed
        · rcases (grows row).mp here with before | rfl
          · exact all row before isRow
          · exact fun _ => same.symm
      next other =>
        exact ⟨fun _ => ⟨old kept.1, kept.2⟩, nofun,
          ⟨nofun, fun all => (other (all index new refers rfl).symm).elim⟩⟩

/-! ## The walk -/

/-- The row that is next is the head, or what the row before it is linked to. -/
def Walk.OnChain (table : ReferenceTable) (head : Nat) (walk : Walk) : Prop :=
  (walk.lastRow ≠ symbolIndexRowNone ∨ walk.row.toNat = head) ∧
    (walk.lastRow = symbolIndexRowNone ∨
      table.refOwnerNext[walk.lastRow.toNat]? = some walk.row)

variable {head : Nat} {walk : Walk}

theorem walkStep_cases (parallel : table.refPos.length = table.refBindingIds.length)
    (sound : walk.toFound.Sound table owner position) (onChain : walk.OnChain table head) :
    ((walk.row ≠ symbolIndexRowNone → ∀ id next, table.refBindingIds[walk.row.toNat]? = some id →
        table.refOwnerNext[walk.row.toNat]? = some next → id.owner.value ≠ owner.value) ∧
      table.walkStep owner position head walk = some (walk.fail, false)) ∨
      ∃ id next, walk.row ≠ symbolIndexRowNone ∧
        table.refBindingIds[walk.row.toNat]? = some id ∧ id.owner.value = owner.value ∧
        table.refOwnerNext[walk.row.toNat]? = some next ∧
        table.walkStep owner position head walk =
          some ({ noted table owner position walk.row.toNat walk.toFound with
            row := next, lastRow := walk.row }, true) := by
  have first : (walk.lastRow ≠ symbolIndexRowNone || walk.row.toNat = head) = true := by
    simpa using onChain.1
  have second : (walk.lastRow = symbolIndexRowNone ||
      table.refOwnerNext[walk.lastRow.toNat]?.any (walk.row = ·)) = true := by
    rcases onChain.2 with start | linked
    · simp [start]
    · simp [linked]
  rw [walkStep, resultIsRow_of_sound sound]
  simp only [bind_eq_bind, bind_some, assertThat, if_true, first, second]
  by_cases outside : (walk.row = symbolIndexRowNone || table.refPos.length ≤ walk.row.toNat ||
      table.refOwnerNext.length ≤ walk.row.toNat) = true
  · rw [if_pos outside]
    refine .inl ⟨fun is id next hasId hasNext => ?_, rfl⟩
    have small := (List.getElem?_eq_some_iff.mp hasId).1
    have small' := (List.getElem?_eq_some_iff.mp hasNext).1
    simp only [Bool.or_eq_true, decide_eq_true_eq] at outside
    rcases outside with (none_ | large) | large
    · exact (is none_).elim
    · omega
    · omega
  rw [if_neg outside]
  simp only [Bool.or_eq_true, decide_eq_true_eq, not_or, Nat.not_le] at outside
  obtain ⟨⟨is, small⟩, small'⟩ := outside
  obtain ⟨id, recorded, hasId, hasPos⟩ := exists_row parallel small
  obtain ⟨next, hasNext⟩ : ∃ next, table.refOwnerNext[walk.row.toNat]? = some next :=
    ⟨_, getElem?_eq_getElem small'⟩
  simp only [hasId, bind_some]
  split
  next other =>
    refine .inl ⟨fun _ id' _ hasId' _ => ?_, rfl⟩
    obtain rfl := Option.some.inj hasId'
    exact other
  rename_i sameOwner
  have same := not_not.mp sameOwner
  have refers : table.refersAt owner position walk.row.toNat = _ := refersAt_eq hasId hasPos
  rw [decide_eq_true same, Bool.true_and] at refers
  have checked : table.resultIsRow owner position
      (noted table owner position walk.row.toNat walk.toFound) = some true :=
    resultIsRow_of_sound (noted_sound sound)
  refine .inr ⟨id, next, is, rfl, same, hasNext, ?_⟩
  simp only [hasPos, bind_some]
  cases span : spanIs recorded position with
  | true =>
    rw [if_pos rfl, noteRow_eq sound (refers.trans span) hasId]
    simp [hasNext, checked]
  | false =>
    have same : noted table owner position walk.row.toNat walk.toFound = walk.toFound := by
      rw [noted, refers, span]
      rfl
    rw [same] at checked ⊢
    simp [hasNext, checked]

theorem Walk.onChain_next {next : UInt32} (is : walk.row ≠ symbolIndexRowNone)
    (hasNext : table.refOwnerNext[walk.row.toNat]? = some next) :
    ({ state with row := next, lastRow := walk.row } : Walk).OnChain table head :=
  ⟨.inl is, .inr hasNext⟩

theorem walkLoop_sound {steps : Nat} (parallel : table.refPos.length = table.refBindingIds.length)
    (sound : walk.toFound.Sound table owner position) (onChain : walk.OnChain table head) :
    ∃ walk', table.walkLoop owner position head steps walk = some walk' ∧
      walk'.toFound.Sound table owner position := by
  induction steps generalizing walk with
  | zero => exact ⟨walk, rfl, sound⟩
  | succ steps ih =>
    rw [walkLoop]
    rcases walkStep_cases parallel sound onChain with
      ⟨-, fails⟩ | ⟨id, next, is, -, -, hasNext, goes⟩
    · rw [fails]
      exact ⟨walk.fail, rfl, sound⟩
    · rw [goes]
      exact ih (noted_sound sound) (Walk.onChain_next is hasNext)

theorem walkStep_of_owner {id : BindingId} {next : UInt32}
    (parallel : table.refPos.length = table.refBindingIds.length)
    (sound : walk.toFound.Sound table owner position) (onChain : walk.OnChain table head)
    (is : walk.row ≠ symbolIndexRowNone) (hasId : table.refBindingIds[walk.row.toNat]? = some id)
    (same : id.owner.value = owner.value)
    (hasNext : table.refOwnerNext[walk.row.toNat]? = some next) :
    table.walkStep owner position head walk =
      some ({ noted table owner position walk.row.toNat walk.toFound with
        row := next, lastRow := walk.row }, true) := by
  rcases walkStep_cases parallel sound onChain with
    ⟨reason, -⟩ | ⟨_, next', -, -, -, hasNext', goes⟩
  · exact (reason is id next hasId hasNext same).elim
  · rw [goes, Option.some.inj (hasNext.symm.trans hasNext')]

/-! ## The scan -/

theorem Found.Sees.sound {seen : Nat → Prop} (sees : state.Sees table owner position seen) :
    state.Sound table owner position :=
  fun found => (sees.found found).2

theorem scanLoop_sees {rows : Nat} (parallel : table.refPos.length = table.refBindingIds.length)
    (all : index + rows = table.refBindingIds.length)
    (sees : state.Sees table owner position (· < index)) :
    ∃ state', table.scanLoop owner position rows index state = some state' ∧
      state'.Sees table owner position (· < table.refBindingIds.length) := by
  induction rows generalizing index state with
  | zero =>
    obtain rfl : index = table.refBindingIds.length := all
    exact ⟨state, rfl, sees⟩
  | succ rows ih =>
    obtain ⟨id, recorded, hasId, hasPos⟩ : ∃ id recorded, table.refBindingIds[index]? = some id ∧
        table.refPos[index]? = some recorded := exists_row parallel (by omega)
    have refers : table.refersAt owner position index = _ := refersAt_eq hasId hasPos
    have next :
        (noted table owner position index state).Sees table owner position (· < index + 1) :=
      noted_sees sees fun row => by omega
    have step : table.scanLoop owner position (rows + 1) index state =
        table.scanLoop owner position rows (index + 1)
          (noted table owner position index state) := by
      rw [scanLoop, resultIsRow_of_sound sees.sound, hasId]
      simp only [bind_eq_bind, bind_some, assertThat, if_true]
      split
      next other =>
        rw [decide_eq_false other, Bool.false_and] at refers
        rw [noted, refers]
        rfl
      rename_i sameOwner
      rw [decide_eq_true (not_not.mp sameOwner), Bool.true_and] at refers
      rw [hasPos, bind_some]
      cases span : spanIs recorded position with
      | true =>
        simp only [Bool.not_true, Bool.false_eq_true, if_false]
        rw [noteRow_eq sees.sound (refers.trans span) hasId]
        simp only [bind_some, resultIsRow_of_sound next.sound, if_true]
      | false =>
        rw [noted, refers, span]
        rfl
    rw [step]
    exact ih (by omega) next

end Rounds

/-! ## Complete indexes -/

def ownerAt (table : ReferenceTable) (row : Nat) : Nat :=
  (table.refBindingIds[row]?.map fun id => id.owner.value.toNat).getD 0

def headOf (table : ReferenceTable) (owner : Nat) : Option Nat :=
  toRow (table.refOwnerHeads.getD owner symbolIndexRowNone)

def nextOf (table : ReferenceTable) (row : Nat) : Option Nat :=
  toRow (table.refOwnerNext.getD row symbolIndexRowNone)

def rowsOf (table : ReferenceTable) (owner : Nat) : Nat :=
  tally table.ownerAt owner table.refBindingIds.length

/-- The index is about all rows. -/
structure Complete (table : ReferenceTable) : Prop where
  few : table.refBindingIds.length < 2 ^ 32
  owners : ∀ row < table.refBindingIds.length, table.ownerAt row < table.refOwnerHeads.length
  stacked : Stacked table.ownerAt table.refBindingIds.length table.headOf table.nextOf
  tails : ∀ owner,
    (table.rowsOf owner = 0 ∧
        table.refOwnerTails.getD owner symbolIndexRowNone = symbolIndexRowNone) ∨
      First table.ownerAt owner table.refBindingIds.length
        (table.refOwnerTails.getD owner symbolIndexRowNone).toNat
  counts : ∀ owner, (table.refOwnerCounts.getD owner 0).toNat = table.rowsOf owner
  observed : ∀ owner, table.refOwnerObservedCounts.getD owner 0 = table.rowsOf owner

/-- The arrays are of one length each, and the index, if it is valid, is complete. -/
structure Indexed (table : ReferenceTable) : Prop where
  parallel : table.refPos.length = table.refBindingIds.length
  next : table.refOwnerNext.length = table.refBindingIds.length
  tails : table.refOwnerTails.length = table.refOwnerHeads.length
  counts : table.refOwnerCounts.length = table.refOwnerHeads.length
  observed : table.refOwnerObservedCounts.length = table.refOwnerHeads.length
  complete : table.refOwnerIndexValid = true → table.Complete

section Walks

variable {table : ReferenceTable} {owner : DeclId} {position : Pos}

theorem ownerAt_eq {row : Nat} {id : BindingId} (hasId : table.refBindingIds[row]? = some id) :
    table.ownerAt row = id.owner.value.toNat := by
  rw [ownerAt, hasId]
  rfl

theorem Found.Sees.congr {seen more : Nat → Prop} {state : Found}
    (sees : state.Sees table owner position seen) (same : ∀ row, seen row ↔ more row) :
    state.Sees table owner position more := by
  obtain rfl : seen = more := funext fun row => propext (same row)
  exact sees

theorem walkLoop_sees {head steps n : Nat} {walk : Walk} (indexed : table.Indexed)
    (complete : table.Complete)
    (sees : walk.toFound.Sees table owner position fun row =>
      n ≤ row ∧ table.ownerAt row = owner.value.toNat ∧ row < table.refBindingIds.length)
    (onChain : walk.OnChain table head) (inside : n ≤ table.refBindingIds.length)
    (last : Last table.ownerAt owner.value.toNat n (toRow walk.row))
    (counted : tally table.ownerAt owner.value.toNat n = steps) :
    ∃ walk', table.walkLoop owner position head steps walk = some walk' ∧
      (walk'.toFound.Sees table owner position fun row =>
        table.ownerAt row = owner.value.toNat ∧ row < table.refBindingIds.length) ∧
      walk'.row = symbolIndexRowNone ∧ (steps = 0 → walk' = walk) ∧
      (0 < steps → First table.ownerAt owner.value.toNat table.refBindingIds.length
        walk'.lastRow.toNat) := by
  induction steps generalizing walk n with
  | zero =>
    have ended : toRow walk.row = none := by
      cases reached : toRow walk.row with
      | none => rfl
      | some r =>
        rw [reached] at last
        have one := last.tally_some
        omega
    refine ⟨walk, rfl, sees.congr fun row => ⟨fun both => both.2, fun both => ⟨?_, both⟩⟩,
      toRow_none ended, fun _ => rfl, fun pos => (Nat.lt_irrefl 0 pos).elim⟩
    by_contra below
    have pos := tally_pos (Nat.not_le.mp below) both.1
    omega
  | succ steps ih =>
    cases reached : toRow walk.row with
    | none =>
      rw [reached] at last
      have zero := last.tally_none
      omega
    | some r =>
      rw [reached] at last
      have one := last.tally_some
      obtain ⟨is, rfl⟩ := toRow_some reached
      have ⟨below, ownerIs, _⟩ := last
      have small : walk.row.toNat < table.refBindingIds.length := by omega
      obtain ⟨id, hasId⟩ := exists_entry small
      obtain ⟨next, hasNext⟩ := exists_entry (l := table.refOwnerNext)
        (by rw [indexed.next]; exact small)
      have same : id.owner.value = owner.value :=
        UInt32.toNat_inj.mp ((ownerAt_eq hasId).symm.trans ownerIs)
      have earlier := complete.stacked.next _ small
      rw [ownerIs, nextOf, getD_eq_getElem?_getD, hasNext, getD_some] at earlier
      have grown : (noted table owner position walk.row.toNat walk.toFound).Sees table owner
          position fun row => walk.row.toNat ≤ row ∧ table.ownerAt row = owner.value.toNat ∧
            row < table.refBindingIds.length := by
        refine noted_sees sees fun row => ⟨fun here => ?_, fun here => ?_⟩
        · rcases Nat.lt_or_ge row n with low | high
          · rcases last.earlier low here.2.1 with rfl | before
            · exact .inr rfl
            · omega
          · exact .inl ⟨high, here.2⟩
        · rcases here with old | rfl
          · exact ⟨by omega, old.2⟩
          · exact ⟨Nat.le_refl _, ownerIs, small⟩
      obtain ⟨walk', runs, all, ended, kept, first⟩ := ih grown
        (Walk.onChain_next is hasNext) (Nat.le_of_lt small) earlier (by omega)
      refine ⟨walk', ?_, all, ended, nofun, fun _ => ?_⟩
      · rw [walkLoop, walkStep_of_owner indexed.parallel sees.sound onChain is hasId same hasNext]
        exact runs
      cases steps with
      | zero =>
        rw [kept rfl]
        exact ⟨small, ownerIs, Nat.succ.inj (one.symm.trans counted)⟩
      | succ => exact first (Nat.succ_pos _)

end Walks

/-! ## Answers -/

/-- What is promised of every answer. -/
structure Supported (table : ReferenceTable) (owner : DeclId) (position : Pos)
    (result : OwnershipBindingLookupResult) : Prop where
  asked : result.known = true → table.rejects owner position = false
  index : result.known = true → table.refOwnerIndexValid = true →
    table.refOwnerNext.length = table.refPos.length ∧
      owner.value.toNat < table.refOwnerHeads.length
  witness : result.known = true → table.refersAt owner position result.witnessIndex = true ∧
    table.refBindingIds[result.witnessIndex]? = some result.bindingId
  unknown : result.known = false → result = .unknown

/-- The answer is known exactly when the rows agree on a binding, and then it is this one. -/
structure Correct (table : ReferenceTable) (owner : DeclId) (position : Pos)
    (result : OwnershipBindingLookupResult) : Prop where
  known : result.known = true ↔
    table.rejects owner position = false ∧ ∃ id, table.Agreeing owner position id
  binding : result.known = true → table.Agreeing owner position result.bindingId

structure Found.Decides (table : ReferenceTable) (owner : DeclId) (position : Pos) (state : Found) :
    Prop where
  known : (state.lookupValid && state.found) = true ↔ ∃ id, table.Agreeing owner position id
  binding : (state.lookupValid && state.found) = true → ∀ id,
    table.refBindingIds[state.resultIndex]? = some id → table.Agreeing owner position id

section Answers

variable {table : ReferenceTable} {owner : DeclId} {position : Pos}

theorem not_known_supported : table.Supported owner position .unknown :=
  ⟨nofun, nofun, nofun, fun _ => rfl⟩

theorem unknown_correct (disagree : ∀ id, ¬ table.Agreeing owner position id) :
    table.Correct owner position .unknown :=
  ⟨⟨nofun, fun agree => agree.2.elim fun id is => (disagree id is).elim⟩, nofun⟩

theorem parallel_of_asked (asked : table.rejects owner position = false) :
    table.refPos.length = table.refBindingIds.length := by
  simp only [rejects, Bool.or_eq_false_iff, decide_eq_false_iff_not, not_not] at asked
  exact asked.2

theorem agreeing_unique {id other : BindingId} (is : table.Agreeing owner position id)
    (is' : table.Agreeing owner position other) : id = other := by
  obtain ⟨⟨row, refers⟩, all⟩ := is
  exact Option.some.inj ((all row refers).symm.trans (is'.2 row refers))

/-- When all rows that are looked for have been seen, the lookup is decided. -/
theorem Found.Sees.decides {seen : Nat → Prop} {state : Found}
    (sees : state.Sees table owner position seen)
    (all : ∀ row, table.refersAt owner position row = true → seen row) :
    state.Decides table owner position := by
  have agree {id : BindingId} (both : (state.lookupValid && state.found) = true)
      (hasId : table.refBindingIds[state.resultIndex]? = some id) :
      table.Agreeing owner position id := by
    have ⟨valid, found⟩ := Bool.and_eq_true_iff.mp both
    refine ⟨⟨_, (sees.found found).2⟩, fun row refers => ?_⟩
    rw [sees.valid.mp valid row (all row refers) refers found, hasId]
  refine ⟨⟨fun both => ?_, fun ⟨id, ⟨row, refers⟩, same⟩ => ?_⟩, fun both id => agree both⟩
  · have found := (Bool.and_eq_true_iff.mp both).2
    have small := (refersAt_bounds (sees.found found).2).1
    exact ⟨_, agree both (getElem?_eq_getElem small)⟩
  have found : state.found = true := by
    cases is : state.found with
    | true => rfl
    | false =>
      rw [sees.missed is row (all row refers)] at refers
      cases refers
  have valid : state.lookupValid = true :=
    sees.valid.mpr fun other _ refers' found =>
      (same other refers').trans (same _ (sees.found found).2).symm
  rw [valid, found]
  rfl

theorem answer_supported {index : Nat} (asked : table.rejects owner position = false)
    (arrays : table.refOwnerIndexValid = true → table.refOwnerNext.length = table.refPos.length ∧
      owner.value.toNat < table.refOwnerHeads.length)
    (refers : table.refersAt owner position index = true) :
    ∃ result, table.answer owner position index = some result ∧
      table.Supported owner position result ∧ result.known = true ∧
      table.refBindingIds[index]? = some result.bindingId := by
  have ⟨small, small'⟩ := refersAt_bounds refers
  have hasId := getElem?_eq_getElem small
  have hasPos := getElem?_eq_getElem small'
  have same := owner_of_refersAt refers hasId
  have equal :
      ownershipBindingIdsEqual table.refBindingIds[index] table.refBindingIds[index] = true :=
    ownershipBindingIdsEqual_iff.mpr rfl
  have span : spanIs table.refPos[index] position = true := by
    have refers_ := refers
    rw [refersAt_eq hasId hasPos, Bool.and_eq_true] at refers_
    exact refers_.2
  have candidate : table.ownershipLookupCandidateMatches index owner position
      table.refBindingIds[index] = some true := by
    rw [ownershipLookupCandidateMatches, if_neg, hasId, hasPos]
    · simp [same, equal, span]
    · simp only [Bool.or_eq_true, decide_eq_true_eq]
      omega
  have linked : (!table.refOwnerIndexValid ||
      decide (table.refOwnerNext.length = table.refPos.length)) = true := by
    cases valid : table.refOwnerIndexValid with
    | false => rfl
    | true => simp [(arrays valid).1]
  have owned : (!table.refOwnerIndexValid ||
      decide (owner.value.toNat < table.refOwnerHeads.length)) = true := by
    cases valid : table.refOwnerIndexValid with
    | false => rfl
    | true => simp [(arrays valid).2]
  refine ⟨{ known := true, bindingId := table.refBindingIds[index], witnessIndex := index }, ?_,
    ⟨fun _ => asked, fun _ => arrays, fun _ => ⟨refers, hasId⟩, nofun⟩, rfl, hasId⟩
  rw [answer, rowIs_of_refersAt refers, hasId]
  simp [assertThat, asked, linked, owned, small, small', same, candidate]

theorem answer_correct {index : Nat} (asked : table.rejects owner position = false)
    {result : OwnershipBindingLookupResult} (known : result.known = true)
    (hasId : table.refBindingIds[index]? = some result.bindingId)
    (agree : ∀ id, table.refBindingIds[index]? = some id → table.Agreeing owner position id) :
    table.Correct owner position result :=
  ⟨⟨fun _ => ⟨asked, _, agree _ hasId⟩, fun _ => known⟩, fun _ => agree _ hasId⟩

theorem finish_spec {state : Found} (asked : table.rejects owner position = false)
    (sound : state.Sound table owner position)
    (arrays : (state.lookupValid && state.found) = true → table.refOwnerIndexValid = true →
      table.refOwnerNext.length = table.refPos.length ∧
        owner.value.toNat < table.refOwnerHeads.length)
    (several : table.refOwnerIndexValid = true →
      table.isOwnersOnlyRow owner position = some false) :
    ∃ result, table.finish owner position state = some result ∧
      table.Supported owner position result ∧
      (state.Decides table owner position → table.Correct owner position result) := by
  rw [finish]
  split
  next both =>
    have refers := sound (Bool.and_eq_true_iff.mp both).2
    obtain ⟨result, is, supported, known, hasId⟩ := answer_supported asked (arrays both) refers
    exact ⟨result, is, supported, fun decides =>
      answer_correct asked known hasId (decides.binding both)⟩
  rename_i neither
  refine ⟨.unknown, ?_, not_known_supported, fun decides =>
    unknown_correct fun id agree => neither (decides.known.mpr ⟨id, agree⟩)⟩
  rw [asked]
  cases valid : table.refOwnerIndexValid with
  | false => simp [assertThat]
  | true => simp [assertThat, several valid]

end Answers

/-! ## The bucket -/

section Bucket

variable {table : ReferenceTable} {owner : DeclId} {position : Pos}

theorem notValid_sound : notValid.Sound table owner position := nofun

theorem noneFound_sound : noneFound.Sound table owner position := nofun

theorem decides_of_none {state : Found} (unfound : state.found = false)
    (none_ : ∀ row, table.refersAt owner position row = false) :
    state.Decides table owner position := by
  have not_both : (state.lookupValid && state.found) = false := by rw [unfound, Bool.and_false]
  refine ⟨?_, fun both => ?_⟩
  · rw [not_both]
    refine ⟨nofun, fun ⟨_, ⟨row, refers⟩, _⟩ => ?_⟩
    rw [none_ row] at refers
    cases refers
  · rw [not_both] at both
    cases both

theorem ownerAt_of_refersAt {row : Nat} (refers : table.refersAt owner position row = true) :
    table.ownerAt row = owner.value.toNat := by
  have hasId := getElem?_eq_getElem (refersAt_bounds refers).1
  rw [ownerAt_eq hasId, owner_of_refersAt refers hasId]

/-- What a complete index says of the entries of an owner. -/
theorem Complete.entries (complete : table.Complete) {owner observed : Nat}
    {count tail head : UInt32} (hasCount : table.refOwnerCounts[owner]? = some count)
    (hasTail : table.refOwnerTails[owner]? = some tail)
    (hasHead : table.refOwnerHeads[owner]? = some head)
    (hasObserved : table.refOwnerObservedCounts[owner]? = some observed) :
    count.toNat = table.rowsOf owner ∧ observed = table.rowsOf owner ∧
      Last table.ownerAt owner table.refBindingIds.length (toRow head) ∧
      ((table.rowsOf owner = 0 ∧ tail = symbolIndexRowNone) ∨
        First table.ownerAt owner table.refBindingIds.length tail.toNat) := by
  have count_ := complete.counts owner
  have observed_ := complete.observed owner
  have tail_ := complete.tails owner
  have head_ := complete.stacked.head owner
  rw [getD_eq_getElem?_getD, hasCount] at count_
  rw [getD_eq_getElem?_getD, hasObserved] at observed_
  rw [getD_eq_getElem?_getD, hasTail] at tail_
  rw [headOf, getD_eq_getElem?_getD, hasHead] at head_
  exact ⟨count_, observed_, head_, tail_⟩

theorem not_refersAt_of_rowsOf (empty : table.rowsOf owner.value.toNat = 0) (row : Nat) :
    table.refersAt owner position row = false := by
  rw [← Bool.not_eq_true]
  intro refers
  have pos := tally_pos (refersAt_bounds refers).1 (ownerAt_of_refersAt refers)
  rw [rowsOf] at empty
  omega

/-- The walk from the head of an owner ends; with a complete index it ends at the tail and has
decided the lookup. -/
theorem walkFromHead_spec (parallel : table.refPos.length = table.refBindingIds.length)
    (head tail count : UInt32) :
    ∃ walk, table.walkLoop owner position head.toNat count.toNat
        { noneFound with row := head, lastRow := symbolIndexRowNone } = some walk ∧
      walk.toFound.Sound table owner position ∧
      (table.Indexed → table.Complete → count.toNat = table.rowsOf owner.value.toNat →
        0 < count.toNat → Last table.ownerAt owner.value.toNat table.refBindingIds.length
          (toRow head) →
        First table.ownerAt owner.value.toNat table.refBindingIds.length tail.toNat →
        walk.row = symbolIndexRowNone ∧ walk.lastRow = tail ∧
          walk.toFound.Decides table owner position) := by
  have onChain : ({ noneFound with row := head, lastRow := symbolIndexRowNone } :
      Walk).OnChain table head.toNat := ⟨.inr rfl, .inl rfl⟩
  obtain ⟨walk, runs, sound⟩ := @walkLoop_sound table owner position _ _ count.toNat parallel
    noneFound_sound onChain
  refine ⟨walk, runs, sound, fun indexed complete isCount some_ isHead isTail => ?_⟩
  have start : ({ noneFound with row := head, lastRow := symbolIndexRowNone } :
      Walk).toFound.Sees table owner position fun row =>
        table.refBindingIds.length ≤ row ∧ table.ownerAt row = owner.value.toNat ∧
          row < table.refBindingIds.length :=
    sees_none.congr fun row => ⟨False.elim, fun both => by omega⟩
  obtain ⟨walk', runs', sees, ended, -, first⟩ :=
    walkLoop_sees indexed complete start onChain (Nat.le_refl _) isHead isCount.symm
  obtain rfl := Option.some.inj (runs.symm.trans runs')
  exact ⟨ended, UInt32.toNat_inj.mp ((first some_).unique isTail), sees.decides fun row refers =>
    ⟨ownerAt_of_refersAt refers, (refersAt_bounds refers).1⟩⟩

theorem walkBucket_spec (asked : table.rejects owner position = false) :
    ∃ state, table.walkBucket owner position = some state ∧ state.Sound table owner position ∧
      ((state.lookupValid && state.found) = true →
        table.refOwnerNext.length = table.refPos.length ∧
          owner.value.toNat < table.refOwnerHeads.length) ∧
      (table.Indexed → table.Complete → state.Decides table owner position) := by
  have parallel := parallel_of_asked asked
  rw [walkBucket]
  simp only []
  split
  next arrays =>
    simp only [Bool.and_eq_true, decide_eq_true_eq] at arrays
    obtain ⟨⟨⟨⟨next, tails⟩, counts⟩, observed⟩, owned⟩ := arrays
    obtain ⟨count, hasCount⟩ := exists_entry (l := table.refOwnerCounts) (counts ▸ owned)
    obtain ⟨tail, hasTail⟩ := exists_entry (l := table.refOwnerTails) (tails ▸ owned)
    obtain ⟨head, hasHead⟩ := exists_entry owned
    obtain ⟨observed_, hasObserved⟩ :=
      exists_entry (l := table.refOwnerObservedCounts) (observed ▸ owned)
    rw [hasCount, hasTail, hasHead, hasObserved]
    simp only [bind_eq_bind, bind_some]
    split
    next wrong =>
      refine ⟨notValid, rfl, notValid_sound, nofun, fun _ complete => ?_⟩
      obtain ⟨isCount, isObserved, -, -⟩ := complete.entries hasCount hasTail hasHead hasObserved
      have bound : table.rowsOf owner.value.toNat ≤ table.refBindingIds.length := tally_le
      simp only [Bool.or_eq_true, decide_eq_true_eq] at wrong
      omega
    split
    next zero =>
      refine ⟨_, rfl, ?_, ?_, fun _ complete => decides_of_none ?_ (not_refersAt_of_rowsOf ?_)⟩
      · split
        · exact notValid_sound
        · exact noneFound_sound
      · split <;> nofun
      · split <;> rfl
      · exact (complete.entries hasCount hasTail hasHead hasObserved).1.symm.trans zero
    rename_i some_
    split
    next wrong =>
      refine ⟨notValid, rfl, notValid_sound, nofun, fun _ complete => ?_⟩
      obtain ⟨isCount, -, isHead, -⟩ := complete.entries hasCount hasTail hasHead hasObserved
      simp only [Bool.or_eq_true, decide_eq_true_eq] at wrong
      cases reached : toRow head with
      | none =>
        rw [reached] at isHead
        exact (some_ (isCount.trans isHead.tally_none)).elim
      | some r =>
        rw [reached] at isHead
        obtain ⟨is, rfl⟩ := toRow_some reached
        have small := isHead.1
        rcases wrong with (none_ | large) | large
        · exact (is none_).elim
        · omega
        · omega
    obtain ⟨walk, runs, sound, decides⟩ :=
      @walkFromHead_spec table owner position parallel head tail count
    rw [runs]
    refine ⟨_, rfl, ?_, fun _ => ⟨next.trans parallel.symm, owned⟩, fun indexed complete => ?_⟩
    · split
      · exact sound
      · exact sound
    obtain ⟨isCount, -, isHead, isTail⟩ := complete.entries hasCount hasTail hasHead hasObserved
    have isTail_ := isTail.resolve_left fun none_ => some_ (isCount.trans none_.1)
    obtain ⟨ended, same, decided⟩ :=
      decides indexed complete isCount (Nat.pos_of_ne_zero some_) isHead isTail_
    rw [if_neg (by simp [ended, same])]
    exact decided
  rename_i arrays
  refine ⟨notValid, rfl, notValid_sound, nofun, fun indexed complete => decides_of_none rfl ?_⟩
  intro row
  rw [← Bool.not_eq_true]
  intro refers
  have small := complete.owners row (refersAt_bounds refers).1
  rw [ownerAt_of_refersAt refers] at small
  refine arrays ?_
  simp only [Bool.and_eq_true, decide_eq_true_eq]
  exact ⟨⟨⟨⟨indexed.next, indexed.tails.symm⟩, indexed.counts.symm⟩, indexed.observed.symm⟩,
    small⟩

end Bucket

/-! ## Special shapes -/

section Shapes

variable {table : ReferenceTable} {owner : DeclId} {position : Pos}

/-- A check ahead of the rest that answers as is wanted. -/
theorem guarded {β : Type} {c : Prop} [Decidable c] {no : β} {rest : Option β} {P : β → Prop}
    (early : P no) (late : ¬c → ∃ is, rest = some is ∧ P is) :
    ∃ is, (if c then some no else rest) = some is ∧ P is := by
  split
  next => exact ⟨no, rfl, early⟩
  next passed => exact late passed

theorem isFallbackRow_spec (asked : table.rejects owner position = false) :
    ∃ is, table.isFallbackRow owner position = some is ∧ (is = true →
      table.refOwnerIndexValid = false ∧ table.refBindingIds.length = 1 ∧
        table.refersAt owner position 0 = true) := by
  rw [isFallbackRow]
  split
  next => exact ⟨false, rfl, nofun⟩
  rename_i here
  simp only [Bool.or_eq_true, decide_eq_true_eq, not_or, Bool.not_eq_true, not_not] at here
  obtain ⟨⟨⟨unindexed, -⟩, one⟩, one'⟩ := here
  rw [rowIs_of_lt (parallel_of_asked asked) (by omega)]
  exact ⟨_, rfl, fun refers => ⟨unindexed, one', refers⟩⟩

theorem isSelfLinkedRow_spec :
    ∃ is, table.isSelfLinkedRow owner position = some is ∧ (is = true →
      table.refOwnerIndexValid = true ∧ table.refOwnerNext[0]? = some 0 ∧
        table.refersAt owner position 0 = true) := by
  rw [isSelfLinkedRow]
  refine guarded nofun fun here => ?_
  simp only [Bool.or_eq_true, decide_eq_true_eq, not_or, Bool.not_eq_true', not_not,
    Nat.not_le, Bool.not_eq_false] at here
  obtain ⟨⟨⟨⟨⟨⟨⟨-, -⟩, -⟩, one⟩, one'⟩, valid⟩, next⟩, owned⟩ := here
  obtain ⟨head, hasHead⟩ := exists_entry owned
  obtain ⟨link, hasLink⟩ := exists_entry (show 0 < table.refOwnerNext.length by omega)
  rw [hasHead, hasLink, rowIs_of_lt (one.trans one'.symm) (by omega)]
  simp only [bind_eq_bind, bind_some]
  split
  next => exact ⟨false, rfl, nofun⟩
  split
  next => exact ⟨false, rfl, nofun⟩
  next zero => exact ⟨_, rfl, fun refers => ⟨valid, by rw [not_not.mp zero], refers⟩⟩

theorem bucketHead_spec :
    ∃ found, table.bucketHead owner = some found ∧ ∀ head, found = some head →
      table.refOwnerIndexValid = true ∧ table.refOwnerNext.length = table.refPos.length ∧
        table.headOf owner.value.toNat = some head ∧ head < table.refPos.length := by
  rw [bucketHead]
  refine guarded nofun fun here => ?_
  simp only [Bool.or_eq_true, decide_eq_true_eq, not_or, Bool.not_eq_true', not_not,
    Nat.not_le, Bool.not_eq_false] at here
  obtain ⟨⟨⟨⟨valid, -⟩, next⟩, -⟩, owned⟩ := here
  have hasHead := getElem?_eq_getElem owned
  rw [hasHead]
  simp only [bind_eq_bind, bind_some]
  split
  next => exact ⟨none, rfl, nofun⟩
  rename_i inside
  simp only [Bool.or_eq_true, decide_eq_true_eq, not_or, Nat.not_le] at inside
  refine ⟨_, rfl, fun head is => ?_⟩
  obtain rfl := Option.some.inj is
  refine ⟨valid, next, ?_, inside.2⟩
  rw [headOf, getD_eq_getElem?_getD, hasHead, getD_some, toRow, if_neg inside.1]

theorem nextOf_none {row : Nat} (ends : table.refOwnerNext[row]? = some symbolIndexRowNone) :
    table.nextOf row = none := by
  rw [nextOf, getD_eq_getElem?_getD, ends]
  rfl

theorem isOtherSpan_spec (asked : table.rejects owner position = false) :
    ∃ is, table.isOtherSpan owner position = some is ∧ (is = true →
      table.refOwnerIndexValid = true ∧ ∃ head, table.headOf owner.value.toNat = some head ∧
        table.nextOf head = none ∧ table.refersAt owner position head = false) := by
  obtain ⟨found, is, spec⟩ : ∃ found, table.bucketHead owner = some found ∧ _ := bucketHead_spec
  rw [isOtherSpan, is]
  cases found with
  | none => exact ⟨false, rfl, nofun⟩
  | some head =>
    obtain ⟨valid, next, isHead, small⟩ := spec head rfl
    obtain ⟨id, recorded, hasId, hasPos⟩ := exists_row (parallel_of_asked asked) small
    obtain ⟨link, hasLink⟩ := exists_entry (show head < table.refOwnerNext.length by omega)
    simp only [bind_eq_bind, bind_some, hasLink, hasId, hasPos]
    refine guarded nofun fun ends => ?_
    split
    next => exact ⟨false, rfl, nofun⟩
    rename_i sameOwner
    refine ⟨_, rfl, fun other => ⟨valid, head, isHead, ?_, ?_⟩⟩
    · exact nextOf_none (by rw [hasLink, not_not.mp ends])
    · have span : spanIs recorded position = false := by simpa using other
      rw [refersAt_eq hasId hasPos, span, Bool.and_false]

theorem isConflictingPair_spec (asked : table.rejects owner position = false) :
    ∃ is, table.isConflictingPair owner position = some is ∧ (is = true →
      ∀ id, ¬ table.Agreeing owner position id) := by
  obtain ⟨found, is, spec⟩ : ∃ found, table.bucketHead owner = some found ∧ _ := bucketHead_spec
  rw [isConflictingPair, is]
  cases found with
  | none => exact ⟨false, rfl, nofun⟩
  | some head =>
    obtain ⟨-, next, -, small⟩ := spec head rfl
    obtain ⟨id, recorded, hasId, hasPos⟩ := exists_row (parallel_of_asked asked) small
    obtain ⟨link, hasLink⟩ := exists_entry (show head < table.refOwnerNext.length by omega)
    simp only [bind_eq_bind, bind_some, hasLink, hasId, hasPos]
    refine guarded nofun fun inside => ?_
    simp only [Bool.or_eq_true, decide_eq_true_eq, not_or, Nat.not_le] at inside
    obtain ⟨id', recorded', hasId', hasPos'⟩ := exists_row (parallel_of_asked asked) inside.2
    obtain ⟨link', hasLink'⟩ := exists_entry (show link.toNat < table.refOwnerNext.length by omega)
    simp only [hasLink', hasId', hasPos', bind_some]
    refine guarded nofun fun _ => ?_
    refine guarded nofun fun sameOwner => ?_
    refine guarded nofun fun sameOwner' => ?_
    refine guarded nofun fun span => ?_
    refine guarded nofun fun span' => ?_
    refine ⟨_, rfl, fun differ other agree => ?_⟩
    have refers : table.refersAt owner position head = true := by
      rw [refersAt_eq hasId hasPos, decide_eq_true (not_not.mp sameOwner)]
      simpa using span
    have refers' : table.refersAt owner position link.toNat = true := by
      rw [refersAt_eq hasId' hasPos', decide_eq_true (not_not.mp sameOwner')]
      simpa using span'
    have one := Option.some.inj (hasId.symm.trans (agree.2 _ refers))
    have two := Option.some.inj (hasId'.symm.trans (agree.2 _ refers'))
    rw [one, two, ownershipBindingIdsEqual_iff.mpr rfl] at differ
    cases differ

theorem isOwnersOnlyRow_spec :
    ∃ is, table.isOwnersOnlyRow owner position = some is ∧ (is = true →
      table.refOwnerNext.length = table.refPos.length ∧
        owner.value.toNat < table.refOwnerHeads.length ∧
        ∃ head, table.refOwnerHeads[owner.value.toNat]? = some head ∧
          table.headOf owner.value.toNat = some head.toNat ∧ table.nextOf head.toNat = none ∧
          table.refersAt owner position head.toNat = true) := by
  rw [isOwnersOnlyRow]
  refine guarded nofun fun here => ?_
  simp only [Bool.or_eq_true, decide_eq_true_eq, not_or, not_not, Nat.not_le] at here
  obtain ⟨⟨⟨⟨⟨⟨⟨⟨parallel, next⟩, -⟩, -⟩, -⟩, owned⟩, owned₁⟩, owned₂⟩, owned₃⟩ := here
  obtain ⟨head, hasHead⟩ := exists_entry owned
  have hasTail := getElem?_eq_getElem owned₁
  have hasCount := getElem?_eq_getElem owned₂
  have hasObserved := getElem?_eq_getElem owned₃
  simp only [bind_eq_bind, bind_some, hasHead, hasTail, hasCount, hasObserved]
  refine guarded nofun fun inside => ?_
  simp only [Bool.or_eq_true, decide_eq_true_eq, not_or, Nat.not_le] at inside
  obtain ⟨link, hasLink⟩ := exists_entry (show head.toNat < table.refOwnerNext.length by omega)
  simp only [hasLink, bind_some, rowIs_of_lt parallel inside.2]
  refine guarded nofun fun ends => ?_
  refine guarded nofun fun _ => ?_
  refine guarded nofun fun _ => ?_
  refine guarded nofun fun _ => ?_
  refine ⟨_, rfl, fun refers => ⟨next, owned, head, rfl, ?_, ?_, refers⟩⟩
  · rw [headOf, getD_eq_getElem?_getD, hasHead, getD_some, toRow,
      if_neg inside.1]
  · exact nextOf_none (by rw [hasLink, not_not.mp ends])

theorem eq_of_onlyRow (complete : table.Complete) {head row : Nat}
    (isHead : table.headOf owner.value.toNat = some head) (ends : table.nextOf head = none)
    (refers : table.refersAt owner position row = true) : row = head := by
  have last := complete.stacked.head owner.value.toNat
  rw [isHead] at last
  have below := complete.stacked.next head last.1
  rw [ends, last.2.1] at below
  rcases last.earlier (refersAt_bounds refers).1 (ownerAt_of_refersAt refers) with same | before
  · exact same
  · exact (below row before (ownerAt_of_refersAt refers)).elim

end Shapes

/-! ## The lookup -/

section Lookup

variable {table : ReferenceTable} {owner : DeclId} {position : Pos}

/-- The lookup of any table ends with an answer that its witness supports; if the index, where there
is one, is complete, the answer is right. -/
theorem lookup_spec (table : ReferenceTable) (owner : DeclId) (position : Pos) :
    ∃ result, table.ownershipBindingAtPosition owner position = some result ∧
      table.Supported owner position result ∧
      (table.Indexed → table.Correct owner position result) := by
  rw [ownershipBindingAtPosition]
  cases asked : table.rejects owner position with
  | true =>
    refine ⟨.unknown, rfl, not_known_supported, fun _ => ⟨⟨nofun, fun agree => ?_⟩, nofun⟩⟩
    rw [asked] at agree
    cases agree.1
  | false =>
    obtain ⟨isFallback, hasFallback, fallback⟩ :
      ∃ is, table.isFallbackRow owner position = some is ∧ _ := isFallbackRow_spec asked
    obtain ⟨isSelf, hasSelf, self⟩ :
      ∃ is, table.isSelfLinkedRow owner position = some is ∧ _ := isSelfLinkedRow_spec
    obtain ⟨isOther, hasOther, other⟩ :
      ∃ is, table.isOtherSpan owner position = some is ∧ _ := isOtherSpan_spec asked
    obtain ⟨isPair, hasPair, pair⟩ :
      ∃ is, table.isConflictingPair owner position = some is ∧ _ := isConflictingPair_spec asked
    obtain ⟨isOnly, hasOnly, only⟩ :
      ∃ is, table.isOwnersOnlyRow owner position = some is ∧ _ := isOwnersOnlyRow_spec
    simp only [Bool.false_eq_true, if_false, hasFallback, hasSelf, hasOther, hasPair, hasOnly,
      bind_eq_bind, bind_some]
    cases isFallback with
    | true =>
      obtain ⟨unindexed, one, refers⟩ := fallback rfl
      have arrays : table.refOwnerIndexValid = true →
          table.refOwnerNext.length = table.refPos.length ∧
          owner.value.toNat < table.refOwnerHeads.length := by
        rw [unindexed]
        nofun
      obtain ⟨result, is, supported, known, hasId⟩ := answer_supported asked arrays refers
      refine ⟨result, is, supported, fun _ => answer_correct asked known hasId fun id hasId' =>
        ⟨⟨0, refers⟩, fun row refers' => ?_⟩⟩
      have small := (refersAt_bounds refers').1
      obtain rfl : row = 0 := by omega
      exact hasId'
    | false =>
    cases isSelf with
    | true =>
      refine ⟨.unknown, rfl, not_known_supported, fun indexed => ?_⟩
      obtain ⟨valid, loops, refers⟩ := self rfl
      have last := (indexed.complete valid).stacked.next 0 (refersAt_bounds refers).1
      rw [nextOf, getD_eq_getElem?_getD, loops] at last
      exact (Nat.lt_irrefl 0 last.1).elim
    | false =>
    cases isOther with
    | true =>
      refine ⟨.unknown, rfl, not_known_supported, fun indexed => unknown_correct ?_⟩
      obtain ⟨valid, head, isHead, ends, away⟩ := other rfl
      rintro id ⟨⟨row, refers⟩, -⟩
      rw [eq_of_onlyRow (indexed.complete valid) isHead ends refers, away] at refers
      cases refers
    | false =>
    cases isPair with
    | true => exact ⟨.unknown, rfl, not_known_supported, fun _ => unknown_correct (pair rfl)⟩
    | false =>
    simp only [Bool.false_eq_true, if_false]
    cases valid : table.refOwnerIndexValid with
    | true =>
      simp only [if_true]
      cases isOnly with
      | true =>
        obtain ⟨next, owned, head, hasHead, isHead, ends, refers⟩ := only rfl
        obtain ⟨result, is, supported, known, hasId⟩ :=
          answer_supported asked (fun _ => ⟨next, owned⟩) refers
        simp only [if_true, hasHead, bind_some]
        refine ⟨result, is, supported, fun indexed => answer_correct asked known hasId
          fun id hasId' => ⟨⟨_, refers⟩, fun row refers' => ?_⟩⟩
        rwa [eq_of_onlyRow (indexed.complete valid) isHead ends refers']
      | false =>
        obtain ⟨state, hasState, sound, arrays, decides⟩ :
          ∃ state, table.walkBucket owner position = some state ∧ _ := walkBucket_spec asked
        simp only [Bool.false_eq_true, if_false, hasState, bind_some]
        obtain ⟨result, is, supported, correct⟩ :=
          finish_spec asked sound (fun both _ => arrays both) fun _ => hasOnly
        exact ⟨result, is, supported, fun indexed =>
          correct (decides indexed (indexed.complete valid))⟩
    | false =>
      simp only [Bool.false_eq_true, if_false]
      obtain ⟨state, hasState, sees⟩ := scanLoop_sees (parallel_of_asked asked) (Nat.zero_add _)
        (sees_none.congr fun row => ⟨False.elim, fun small => Nat.not_lt_zero row small⟩)
      rw [hasState]
      have unindexed {P : Prop} : table.refOwnerIndexValid = true → P := by
        rw [valid]
        nofun
      obtain ⟨result, is, supported, correct⟩ :=
        finish_spec asked sees.sound (fun _ => unindexed) unindexed
      exact ⟨result, is, supported, fun _ =>
        correct (sees.decides fun row refers => (refersAt_bounds refers).1)⟩

end Lookup

/-! ## Tables that were built -/

inductive Built : ReferenceTable → Prop
  | empty : Built .empty
  | symbol {table : ReferenceTable} (built : Built table) :
    Built { table with symbols := table.symbols + 1 }
  | record {table : ReferenceTable} (built : Built table) (position : Pos) (id : BindingId) :
    Built (table.recordReference position id)

section Building

variable {table : ReferenceTable} {α : Type}

theorem getD_append_replicate (entries : List α) (missing i : Nat) (fallback : α) :
    (entries ++ List.replicate missing fallback).getD i fallback = entries.getD i fallback := by
  rw [getD_eq_getElem?_getD, getD_eq_getElem?_getD, getElem?_append]
  split
  next => rfl
  next outside =>
    rw [getElem?_eq_none (Nat.not_lt.mp outside), getElem?_replicate]
    split <;> rfl

theorem getD_set {entries : List α} {i j : Nat} {value fallback : α} (small : i < entries.length) :
    (entries.set i value).getD j fallback = if i = j then value else entries.getD j fallback := by
  rw [getD_eq_getElem?_getD, getD_eq_getElem?_getD, getElem?_set]
  split
  next => rfl
  next => rfl

theorem lt_grown {entries : List α} {value : α} {owner n : Nat} (length : entries.length = n) :
    owner < (entries ++ List.replicate (owner + 1 - n) value).length := by
  rw [length_append, length_replicate]
  omega

theorem indexed_empty : (empty).Indexed where
  parallel := rfl
  next := rfl
  tails := rfl
  counts := rfl
  observed := rfl
  complete _ :=
    { few := by decide
      owners := nofun
      stacked := ⟨fun _ => nofun, nofun⟩
      tails := fun _ => .inl ⟨rfl, rfl⟩
      counts := fun _ => rfl
      observed := fun _ => rfl }

theorem Indexed.symbol (indexed : table.Indexed) :
    ({ table with symbols := table.symbols + 1 } : ReferenceTable).Indexed :=
  { indexed with complete := fun valid => { indexed.complete valid with } }

theorem Indexed.unindexed (indexed : table.Indexed) :
    ({ table with refOwnerIndexValid := false } : ReferenceTable).Indexed :=
  { indexed with complete := nofun }

/-- The table with one more reference, whose index is not yet about it. -/
def pushed (table : ReferenceTable) (position : Pos) (id : BindingId) : ReferenceTable :=
  { table with
    refPos := table.refPos ++ [position]
    refBindingIds := table.refBindingIds ++ [id]
    refOwnerNext := table.refOwnerNext ++ [symbolIndexRowNone] }

def chained (table : ReferenceTable) (position : Pos) (id : BindingId) : ReferenceTable :=
  chainReference (growOwners (table.pushed position id) id.owner.value.toNat) id.owner.value.toNat
    table.refBindingIds.length

variable {position : Pos} {id : BindingId}

theorem ownerAt_pushed {row : Nat} (small : row < table.refBindingIds.length) :
    (table.chained position id).ownerAt row = table.ownerAt row := by
  have same : (table.refBindingIds ++ [id])[row]? = table.refBindingIds[row]? :=
    getElem?_append_left small
  change ((table.refBindingIds ++ [id])[row]?.map _).getD 0 = _
  rw [same]
  rfl

theorem ownerAt_last :
    (table.chained position id).ownerAt table.refBindingIds.length = id.owner.value.toNat := by
  have last : (table.refBindingIds ++ [id])[table.refBindingIds.length]? = some id :=
    getElem?_concat_length
  exact ownerAt_eq last

theorem head_grown :
    (growOwners (table.pushed position id) id.owner.value.toNat).refOwnerHeads.getD
        id.owner.value.toNat symbolIndexRowNone =
      table.refOwnerHeads.getD id.owner.value.toNat symbolIndexRowNone :=
  getD_append_replicate _ _ _ _

theorem heads_chained (owner : Nat) :
    (table.chained position id).refOwnerHeads.getD owner symbolIndexRowNone =
      if id.owner.value.toNat = owner then table.refBindingIds.length.toUInt32
      else table.refOwnerHeads.getD owner symbolIndexRowNone := by
  rw [← getD_append_replicate table.refOwnerHeads
    (id.owner.value.toNat + 1 - table.refOwnerHeads.length) owner]
  exact getD_set (lt_grown rfl)

theorem tails_chained (indexed : table.Indexed) (owner : Nat) :
    (table.chained position id).refOwnerTails.getD owner symbolIndexRowNone =
      if id.owner.value.toNat = owner ∧
        table.refOwnerHeads.getD id.owner.value.toNat symbolIndexRowNone = symbolIndexRowNone then
        table.refBindingIds.length.toUInt32
      else table.refOwnerTails.getD owner symbolIndexRowNone := by
  rw [chained, chainReference]
  simp only [head_grown]
  rw [← getD_append_replicate table.refOwnerTails
    (id.owner.value.toNat + 1 - table.refOwnerHeads.length) owner]
  cases decEq (table.refOwnerHeads.getD id.owner.value.toNat symbolIndexRowNone)
    symbolIndexRowNone with
  | isTrue none_ =>
    simp only [none_, if_true, and_true]
    exact getD_set (lt_grown indexed.tails)
  | isFalse some_ =>
    simp only [some_, if_false, and_false]
    rfl

theorem counts_chained (indexed : table.Indexed) (owner : Nat) :
    (table.chained position id).refOwnerCounts.getD owner 0 =
      if id.owner.value.toNat = owner then table.refOwnerCounts.getD id.owner.value.toNat 0 + 1
      else table.refOwnerCounts.getD owner 0 := by
  rw [← getD_append_replicate table.refOwnerCounts
    (id.owner.value.toNat + 1 - table.refOwnerHeads.length) owner,
    ← getD_append_replicate table.refOwnerCounts
    (id.owner.value.toNat + 1 - table.refOwnerHeads.length) id.owner.value.toNat]
  exact getD_set (lt_grown indexed.counts)

theorem observed_chained (indexed : table.Indexed) (owner : Nat) :
    (table.chained position id).refOwnerObservedCounts.getD owner 0 =
      if id.owner.value.toNat = owner then
        table.refOwnerObservedCounts.getD id.owner.value.toNat 0 + 1
      else table.refOwnerObservedCounts.getD owner 0 := by
  rw [← getD_append_replicate table.refOwnerObservedCounts
    (id.owner.value.toNat + 1 - table.refOwnerHeads.length) owner,
    ← getD_append_replicate table.refOwnerObservedCounts
    (id.owner.value.toNat + 1 - table.refOwnerHeads.length) id.owner.value.toNat]
  exact getD_set (lt_grown indexed.observed)

theorem next_chained (indexed : table.Indexed) (row : Nat) :
    (table.chained position id).refOwnerNext.getD row symbolIndexRowNone =
      if table.refBindingIds.length = row then
        table.refOwnerHeads.getD id.owner.value.toNat symbolIndexRowNone
      else table.refOwnerNext.getD row symbolIndexRowNone := by
  rw [chained, chainReference]
  simp only [head_grown]
  rw [← getD_append_replicate table.refOwnerNext 1 row]
  refine getD_set ?_
  change table.refBindingIds.length < (table.refOwnerNext ++ [symbolIndexRowNone]).length
  rw [length_append, indexed.next]
  exact Nat.lt_succ_self _

theorem rowsOf_chained (owner : Nat) :
    (table.chained position id).rowsOf owner =
      table.rowsOf owner + if id.owner.value.toNat = owner then 1 else 0 := by
  have length : (table.chained position id).refBindingIds.length =
      table.refBindingIds.length + 1 := by
    change (table.refBindingIds ++ [id]).length = _
    rw [length_append, length_singleton]
  rw [rowsOf, length, tally, ownerAt_last, tally_congr fun row => ownerAt_pushed]
  rfl

theorem rowsOf_of_head (complete : table.Complete) {owner : Nat} :
    table.refOwnerHeads.getD owner symbolIndexRowNone = symbolIndexRowNone ↔
      table.rowsOf owner = 0 := by
  have last := complete.stacked.head owner
  constructor
  · intro none_
    rw [headOf, none_] at last
    exact last.tally_none
  · intro zero
    cases reached : toRow (table.refOwnerHeads.getD owner symbolIndexRowNone) with
    | none => exact toRow_none reached
    | some r =>
      rw [headOf, reached] at last
      have one := last.tally_some
      rw [rowsOf] at zero
      omega

theorem complete_chained (indexed : table.Indexed) (complete : table.Complete)
    (small : table.refBindingIds.length + 1 < 2 ^ 32) : (table.chained position id).Complete := by
  have length : (table.chained position id).refBindingIds.length =
      table.refBindingIds.length + 1 := by
    change (table.refBindingIds ++ [id]).length = _
    rw [length_append, length_singleton]
  have heads : (table.chained position id).refOwnerHeads.length =
      table.refOwnerHeads.length + (id.owner.value.toNat + 1 - table.refOwnerHeads.length) := by
    change ((table.refOwnerHeads ++ List.replicate _ _).set _ _).length = _
    rw [length_set, length_append, length_replicate]
    rfl
  refine ⟨by rw [length]; exact small, fun row inside => ?_, ?_, fun owner => ?_, fun owner => ?_,
    fun owner => ?_⟩
  · rw [length] at inside
    rw [heads]
    rcases Nat.eq_or_lt_of_le (Nat.le_of_lt_succ inside) with rfl | before
    · rw [ownerAt_last]
      omega
    · rw [ownerAt_pushed before]
      have old := complete.owners row before
      omega
  · rw [length]
    refine complete.stacked.push (fun row => ownerAt_pushed) ?_ (fun owner other => ?_)
      (fun row before => ?_) ?_
    · rw [ownerAt_last, headOf, heads_chained, if_pos rfl]
      exact toRow_toUInt32 small
    · rw [ownerAt_last] at other
      rw [headOf, heads_chained, if_neg (Ne.symm other)]
      rfl
    · rw [nextOf, next_chained indexed, if_neg (by omega)]
      rfl
    · rw [nextOf, next_chained indexed, if_pos rfl, ownerAt_last]
      rfl
  · rw [tails_chained indexed, rowsOf_chained, length]
    cases decEq id.owner.value.toNat owner with
    | isFalse other =>
      simp only [other, false_and, if_false, Nat.add_zero]
      exact (complete.tails owner).imp_right fun first =>
        first.grow_congr fun row => ownerAt_pushed
    | isTrue same =>
      subst same
      right
      cases decEq (table.refOwnerHeads.getD id.owner.value.toNat symbolIndexRowNone)
        symbolIndexRowNone with
      | isTrue none_ =>
        have zero := (rowsOf_of_head complete).mp none_
        rw [if_pos ⟨rfl, none_⟩, toNat_toUInt32 (by omega)]
        exact ⟨Nat.lt_succ_self _, ownerAt_last, (tally_congr fun row => ownerAt_pushed).trans zero⟩
      | isFalse some_ =>
        rw [if_neg fun both => some_ both.2]
        have first := (complete.tails _).resolve_left fun none_ =>
          some_ ((rowsOf_of_head complete).mpr none_.1)
        exact first.grow_congr fun row => ownerAt_pushed
  · rw [counts_chained indexed, rowsOf_chained]
    have bound : table.rowsOf id.owner.value.toNat ≤ table.refBindingIds.length := tally_le
    split
    next same =>
      subst same
      rw [UInt32.toNat_add, complete.counts]
      exact Nat.mod_eq_of_lt (by have one : (1 : UInt32).toNat = 1 := rfl; omega)
    next => exact complete.counts owner
  · rw [observed_chained indexed, rowsOf_chained]
    split
    next same =>
      subst same
      rw [complete.observed]
    next => exact complete.observed owner

theorem indexed_pushed (indexed : table.Indexed) :
    ({ table.pushed position id with refOwnerIndexValid := false } : ReferenceTable).Indexed :=
  { indexed with
    parallel := by simp [pushed, indexed.parallel]
    next := by simp [pushed, indexed.next]
    complete := nofun }

theorem indexed_chained (indexed : table.Indexed)
    (small : table.refBindingIds.length + 1 < 2 ^ 32) : (table.chained position id).Indexed where
  parallel := by simp [chained, chainReference, growOwners, pushed, indexed.parallel]
  next := by simp [chained, chainReference, growOwners, pushed, indexed.next]
  tails := by
    have grown : (growOwners (table.pushed position id) id.owner.value.toNat).refOwnerTails.length =
        (growOwners (table.pushed position id) id.owner.value.toNat).refOwnerHeads.length := by
      simp [growOwners, pushed, indexed.tails]
    rw [chained, chainReference]
    dsimp only
    rw [length_set]
    split
    · rw [length_set]
      exact grown
    · exact grown
  counts := by simp [chained, chainReference, growOwners, pushed, indexed.counts]
  observed := by simp [chained, chainReference, growOwners, pushed, indexed.observed]
  complete valid := complete_chained indexed (indexed.complete valid) small

theorem Indexed.record (indexed : table.Indexed) (position : Pos) (id : BindingId) :
    (table.recordReference position id).Indexed := by
  have branches : table.recordReference position id =
      if symbolIndexRowNone.toNat ≤ table.refBindingIds.length then
        { table.pushed position id with refOwnerIndexValid := false }
      else if id.owner.value.toNat < table.symbols then table.chained position id
      else { table.pushed position id with refOwnerIndexValid := false } := rfl
  have last : symbolIndexRowNone.toNat = 2 ^ 32 - 1 := rfl
  rw [branches]
  split
  next => exact indexed_pushed indexed
  rename_i few
  split
  next => exact indexed_chained indexed (by omega)
  next => exact indexed_pushed indexed

/-- The index of a table that was built is complete, where there is one. -/
theorem Built.indexed (built : table.Built) : table.Indexed := by
  induction built with
  | empty => exact indexed_empty
  | symbol _ ih => exact ih.symbol
  | record _ position id ih => exact ih.record position id

end Building

/-! ## The lookup of built tables, and of any table -/

/-- The lookup ends on any table, and a known answer is the binding of a row with the owner and the
span.  On a table that was built it is known exactly when these rows agree, and the scan gives the
same answer. -/
theorem lookup_agrees (table : ReferenceTable) (owner : DeclId) (position : Pos) :
    (∃ result, table.ownershipBindingAtPosition owner position = some result ∧
      table.Supported owner position result) ∧
    (table.Built → ∃ result scanned,
      table.ownershipBindingAtPosition owner position = some result ∧
      ({ table with refOwnerIndexValid := false } : ReferenceTable).ownershipBindingAtPosition owner
        position = some scanned ∧
      table.Correct owner position result ∧ scanned.known = result.known ∧
      scanned.bindingId = result.bindingId) := by
  obtain ⟨result, is, supported, correct⟩ := lookup_spec table owner position
  refine ⟨⟨result, is, supported⟩, fun built => ?_⟩
  obtain ⟨scanned, is', supported', correct'⟩ :=
    lookup_spec { table with refOwnerIndexValid := false } owner position
  have right := correct built.indexed
  have right' : table.Correct owner position scanned :=
    have scans := correct' built.indexed.unindexed
    ⟨scans.known, scans.binding⟩
  have same : scanned.known = result.known :=
    Bool.eq_iff_iff.mpr (right'.known.trans right.known.symm)
  refine ⟨result, scanned, is, is', right, same, ?_⟩
  cases known : result.known with
  | true => exact agreeing_unique (right'.binding (same.trans known)) (right.binding known)
  | false => rw [supported.unknown known, supported'.unknown (same.trans known)]

section Examples

def posAt (offset endOffset : Nat) : Pos :=
  { line := 1, column := 1, offset, endLine := 1, endColumn := 1, endOffset }

def bindingOf (owner : UInt32) (serial : UInt64) : BindingId := ⟨⟨owner⟩, serial⟩

/-- One function with two references to one binding at one place and a reference elsewhere. -/
def sampleTable : ReferenceTable :=
  ((({ empty with symbols := 1 } : ReferenceTable).recordReference (posAt 4 7)
    (bindingOf 0 5)).recordReference (posAt 9 10) (bindingOf 0 6)).recordReference (posAt 4 7)
      (bindingOf 0 5)

theorem sampleTable_agrees : ∃ result scanned,
    sampleTable.ownershipBindingAtPosition ⟨0⟩ (posAt 4 7) = some result ∧
      ({ sampleTable with refOwnerIndexValid := false } : ReferenceTable).ownershipBindingAtPosition
        ⟨0⟩ (posAt 4 7) = some scanned ∧
      sampleTable.Correct ⟨0⟩ (posAt 4 7) result ∧ scanned.known = result.known ∧
      scanned.bindingId = result.bindingId :=
  (lookup_agrees sampleTable ⟨0⟩ (posAt 4 7)).2
    (.record (.record (.record (.symbol .empty) _ _) _ _) _ _)

example : (sampleTable.ownershipBindingAtPosition ⟨0⟩ (posAt 4 7)).map (·.bindingId) =
    some (bindingOf 0 5) := by
  decide +kernel

def emptySpanTable : ReferenceTable :=
  ({ empty with symbols := 1 } : ReferenceTable).recordReference (posAt 4 4) (bindingOf 0 5)

/-- Two rows that disagree, of which the index, which is not that of the rows, has one. -/
def shortIndexTable : ReferenceTable :=
  { symbols := 1, refPos := [posAt 4 7, posAt 4 7], refBindingIds := [bindingOf 0 5, bindingOf 0 6],
    refOwnerHeads := [0], refOwnerTails := [0], refOwnerCounts := [1],
    refOwnerObservedCounts := [1], refOwnerNext := [symbolIndexRowNone, symbolIndexRowNone],
    refOwnerIndexValid := true }

/-- A row whose owner is no declared symbol. -/
def undeclaredTable : ReferenceTable := empty.recordReference (posAt 4 7) (bindingOf 0 5)

theorem agreeing_single {table : ReferenceTable} {owner : DeclId} {position : Pos} {id : BindingId}
    (single : table.refBindingIds = [id]) (refers : table.refersAt owner position 0 = true) :
    table.Agreeing owner position id := by
  refine ⟨⟨0, refers⟩, fun row refers => ?_⟩
  have small := (refersAt_bounds refers).1
  rw [single] at small ⊢
  obtain rfl : row = 0 := by simpa using small
  rfl

/-- A row with an empty span or an undeclared owner is not found, and an index that leaves rows out
hides that they disagree. -/
theorem lookup_refuses_empty_spans :
    (emptySpanTable.Built ∧ emptySpanTable.Agreeing ⟨0⟩ (posAt 4 4) (bindingOf 0 5) ∧
      emptySpanTable.ownershipBindingAtPosition ⟨0⟩ (posAt 4 4) = some .unknown) ∧
    (undeclaredTable.Built ∧ undeclaredTable.Agreeing ⟨0⟩ (posAt 4 7) (bindingOf 0 5) ∧
      undeclaredTable.ownershipBindingAtPosition ⟨0⟩ (posAt 4 7) = some .unknown) ∧
    shortIndexTable.ownershipBindingAtPosition ⟨0⟩ (posAt 4 7) =
        some { known := true, bindingId := bindingOf 0 5, witnessIndex := 0 } ∧
      shortIndexTable.refersAt ⟨0⟩ (posAt 4 7) 1 = true ∧
      shortIndexTable.refBindingIds[1]? = some (bindingOf 0 6) :=
  ⟨⟨.record (.symbol .empty) _ _, agreeing_single rfl (by decide +kernel), by decide +kernel⟩,
    ⟨.record .empty _ _, agreeing_single rfl (by decide +kernel), by decide +kernel⟩,
    by decide +kernel, by decide +kernel, rfl⟩

end Examples

end ReferenceTable

end Elisa.Semantic
