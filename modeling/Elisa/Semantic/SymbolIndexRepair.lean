import Elisa.Semantic.SymbolIndex

/-!
# The symbol index repairs itself

After any call of `indexSymbol` the chains describe all rows (`indexSymbol_spec`), whatever the
order of pushes and calls: the call either fitted the rows that were indexed before it, or it
rebuilt the index.  The exception is a table with more rows than a row number can name, which is
marked.
-/

namespace Elisa.Semantic

open RowChain List

variable {table : SymbolTable} {n : Nat}

/-! ## Row numbers -/

def rowOf (row : UInt32) : Option Nat := if row = symbolIndexRowNone then none else some row.toNat

def rowLimit : Nat := 4294967295

theorem rowOf_ofNat (h : n < rowLimit) : rowOf (UInt32.ofNat n) = some n := by
  have hn : (UInt32.ofNat n).toNat = n := by
    rw [UInt32.toNat_ofNat']
    exact Nat.mod_eq_of_lt (Nat.lt_trans h (by decide))
  unfold rowOf
  rw [if_neg, hn]
  intro he
  have := congrArg UInt32.toNat he
  rw [hn] at this
  exact Nat.ne_of_lt h this

theorem rowOf_eq_none {row : UInt32} : rowOf row = none ↔ row = symbolIndexRowNone := by
  unfold rowOf
  split <;> simp_all

theorem rowOf_eq_some {row : UInt32} {r : Nat} (h : rowOf row = some r) :
    row ≠ symbolIndexRowNone ∧ row.toNat = r := by
  unfold rowOf at h
  split at h
  · cases h
  next hne => exact ⟨hne, Option.some.inj h⟩

def nextRow (column : List UInt32) (i : Nat) : Option Nat :=
  rowOf (column.getD i symbolIndexRowNone)

theorem nextRow_set {column : List UInt32} {i r : Nat} (hi : i < column.length) (hr : r < rowLimit)
    (j : Nat) : nextRow (column.set i (UInt32.ofNat r)) j =
      if j = i then some r else nextRow column j := by
  unfold nextRow
  rw [getD_eq_getElem?_getD, getD_eq_getElem?_getD, getElem?_set]
  by_cases hj : j = i
  · rw [if_pos hj, if_pos hj.symm, if_pos (by omega), Option.getD_some, rowOf_ofNat hr]
  · rw [if_neg hj, if_neg fun h => hj h.symm]

theorem nextRow_append (column : List UInt32) (j : Nat) :
    nextRow (column ++ [symbolIndexRowNone]) j =
      if j = column.length then none else nextRow column j := by
  unfold nextRow
  rw [getD_eq_getElem?_getD, getD_eq_getElem?_getD]
  rcases Nat.lt_trichotomy j column.length with h | h | h
  · rw [getElem?_append_left h, if_neg (by omega)]
  · rw [h, getElem?_concat_length, if_pos rfl]
    rfl
  · rw [getElem?_eq_none (by simp; omega), getElem?_eq_none (by omega),
      if_neg (by omega)]

/-! ## The chains of the first rows -/

def rowHash (symbols : List Bytes) (row : Nat) : UInt64 := nameHash (symbols.getD row [])

def dictRow (dict : Dict UInt32) (hash : UInt64) : Option Nat :=
  rowOf ((dict hash).getD symbolIndexRowNone)

structure IndexedRows (table : SymbolTable) (n : Nat) : Prop where
  le_symbols : n ≤ table.symbols.length
  le_limit : n ≤ rowLimit
  next_length : table.symbolNameNext.length = n
  indexed : table.symbolNameIndexedRows = n
  chained : Chained (rowHash table.symbols) n (dictRow table.symbolNameHead)
    (dictRow table.symbolNameTail) (nextRow table.symbolNameNext)
  count : ∀ hash, ((table.symbolNameCount hash).getD 0).toNat =
    (rowsFrom (fun i => decide (rowHash table.symbols i = hash)) 0 n).length

theorem rowHash_eq {symbols : List Bytes} {row : Nat} {name : Bytes}
    (h : symbols[row]? = some name) : rowHash symbols row = nameHash name := by
  rw [rowHash, getD_eq_getElem?_getD, h, Option.getD_some]

theorem dictRow_put (dict : Dict UInt32) (hash hash' : UInt64) {r : Nat} (hr : r < rowLimit) :
    dictRow (Dict.put dict hash (UInt32.ofNat r)) hash' =
      if hash' = hash then some r else dictRow dict hash' := by
  unfold dictRow Dict.put
  by_cases h : hash' = hash
  · rw [if_pos h, if_pos h, Option.getD_some, rowOf_ofNat hr]
  · rw [if_neg h, if_neg h]

/-- The part of a table that the chains of rows do not touch. -/
structure SameNames (s t : SymbolTable) : Prop where
  symbols : t.symbols = s.symbols
  primary : t.namePrimary = s.namePrimary
  overflow : t.nameOverflow = s.nameOverflow

theorem length_rowsFrom_le (p : Nat → Bool) (n : Nat) : (rowsFrom p 0 n).length ≤ n := by
  rw [rowsFrom_zero]
  exact Nat.le_trans (length_filter_le _ _) (Nat.le_of_eq length_range)

theorem toNat_succ {count : UInt32} (h : count.toNat < rowLimit) :
    (count + 1).toNat = count.toNat + 1 := by
  rw [UInt32.toNat_add]
  exact Nat.mod_eq_of_lt (Nat.lt_of_le_of_lt (Nat.succ_le_of_lt h) (by decide))

theorem IndexedRows.count_put (h : IndexedRows table n) (hlimit : n < rowLimit) (hash : UInt64) :
    ((Dict.put table.symbolNameCount (rowHash table.symbols n)
        ((table.symbolNameCount (rowHash table.symbols n)).getD 0 + 1) hash).getD 0).toNat =
      (rowsFrom (fun i => decide (rowHash table.symbols i = hash)) 0 (n + 1)).length := by
  rw [rowsFrom_succ (Nat.zero_le n), length_append, ← h.count hash]
  unfold Dict.put
  by_cases hh : hash = rowHash table.symbols n
  · have hlt : ((table.symbolNameCount (rowHash table.symbols n)).getD 0).toNat < rowLimit := by
      rw [h.count]
      exact Nat.lt_of_le_of_lt (length_rowsFrom_le _ n) hlimit
    rw [if_pos hh, Option.getD_some, toNat_succ hlt, if_pos (decide_eq_true hh.symm), ← hh]
    rfl
  · rw [if_neg hh, if_neg fun hc => hh (of_decide_eq_true hc).symm]
    rfl

theorem IndexedRows.chain (h : IndexedRows table n) {hash : UInt64} (hn : n < table.symbols.length)
    (hlimit : n < rowLimit) (hhash : rowHash table.symbols n = hash) :
    IndexedRows (chainSymbol table hash n) (n + 1) ∧ SameNames table (chainSymbol table hash n) ∧
      (chainSymbol table hash n).symbolNameIndexValid = table.symbolNameIndexValid := by
  subst hhash
  unfold chainSymbol
  dsimp only
  split
  next hlast =>
    -- the hash has a last row, which gets a successor
    have hne : symbolTailAt table (rowHash table.symbols n) ≠ symbolIndexRowNone := by
      simpa using hlast
    have htail : dictRow table.symbolNameTail (rowHash table.symbols n) =
        some (symbolTailAt table (rowHash table.symbols n)).toNat := if_neg hne
    have hlt := (h.chained.tail_eq_some htail).1
    have hset : (symbolTailAt table (rowHash table.symbols n)).toNat <
        (table.symbolNameNext ++ [symbolIndexRowNone]).length := by
      rw [length_append, h.next_length]
      exact Nat.lt_add_right _ hlt
    refine ⟨⟨hn, hlimit, ?_, ?_, ?_, h.count_put hlimit⟩, ⟨rfl, rfl, rfl⟩, rfl⟩
    · simp [h.next_length]
    · simp [h.indexed]
    refine h.chained.append (fun k => ?_) (fun k => ?_) fun i hi => ?_
    · rw [if_neg]
      rintro ⟨rfl, hnone⟩
      rw [htail] at hnone
      cases hnone
    · exact dictRow_put _ _ _ hlimit
    rw [nextRow_set hset hlimit, nextRow_append, h.next_length, htail]
    by_cases hin : i = n
    · rw [if_neg (by omega), if_pos hin, if_pos hin]
    · rw [if_neg hin, if_neg hin]
      simp only [Option.some.injEq, eq_comm]
  rename_i hlast
  have htail : dictRow table.symbolNameTail (rowHash table.symbols n) = none := by
    refine rowOf_eq_none.mpr ?_
    simpa [symbolTailAt] using hlast
  refine ⟨⟨hn, hlimit, ?_, ?_, ?_, h.count_put hlimit⟩, ⟨rfl, rfl, rfl⟩, rfl⟩
  · simp [h.next_length]
  · simp [h.indexed]
  refine h.chained.append (fun k => ?_) (fun k => ?_) fun i hi => ?_
  · rw [dictRow_put _ _ _ hlimit]
    by_cases hk : k = rowHash table.symbols n
    · rw [if_pos hk, if_pos ⟨hk, hk ▸ htail⟩]
    · rw [if_neg hk, if_neg fun hc => hk hc.1]
  · exact dictRow_put _ _ _ hlimit
  · rw [nextRow_append, h.next_length, htail]
    simp

theorem IndexedRows.mark (h : IndexedRows table n) (valid : Bool) :
    IndexedRows { table with symbolNameIndexValid := valid } n :=
  ⟨h.le_symbols, h.le_limit, h.next_length, h.indexed, h.chained, h.count⟩

theorem SameNames.trans {s t u : SymbolTable} (h : SameNames s t) (h' : SameNames t u) :
    SameNames s u :=
  ⟨h'.symbols.trans h.symbols, h'.primary.trans h.primary, h'.overflow.trans h.overflow⟩

/-! ## The rebuild -/

theorem rebuildRows_spec :
    ∀ (names : List Bytes) (n : Nat) (table : SymbolTable), IndexedRows table n →
      table.symbols.drop n = names →
      SameNames table (rebuildRows names n table).1 ∧
      (table.symbols.length ≤ rowLimit → (rebuildRows names n table).2 = true ∧
        IndexedRows (rebuildRows names n table).1 table.symbols.length) ∧
      (rowLimit < table.symbols.length → (rebuildRows names n table).2 = false) := by
  intro names
  induction names with
  | nil =>
    intro n table h hrest
    have hn : n = table.symbols.length :=
      Nat.le_antisymm h.le_symbols (drop_eq_nil_iff.mp hrest)
    refine ⟨⟨rfl, rfl, rfl⟩, fun _ => ⟨rfl, hn ▸ h⟩, fun hlt => ?_⟩
    have := h.le_limit
    omega
  | cons name names ih =>
    intro n table h hrest
    have hname : table.symbols[n]? = some name := by
      have := congrArg List.head? hrest
      rwa [head?_drop, head?_cons] at this
    have hlt : n < table.symbols.length := (List.getElem?_eq_some_iff.mp hname).1
    unfold rebuildRows
    split
    next hge =>
      refine ⟨⟨rfl, rfl, rfl⟩, fun hle => ?_, fun _ => rfl⟩
      unfold rowLimit at hle
      omega
    rename_i hge
    have hlimit : n < rowLimit := Nat.lt_of_not_ge hge
    obtain ⟨hchain, hsame, -⟩ := h.chain hlt hlimit (rowHash_eq hname)
    have hrest' : (chainSymbol table (nameHash name) n).symbols.drop (n + 1) = names := by
      rw [hsame.symbols, ← drop_drop, hrest]
      rfl
    obtain ⟨hnames, hall, hmany⟩ := ih (n + 1) _ hchain hrest'
    rw [hsame.symbols] at hall hmany
    exact ⟨hsame.trans hnames, hall, hmany⟩

theorem rebuild_spec (table : SymbolTable) :
    SameNames table (rebuildSymbolNameIndex table) ∧
    (table.symbols.length ≤ rowLimit →
      (rebuildSymbolNameIndex table).symbolNameIndexValid = true ∧
        IndexedRows (rebuildSymbolNameIndex table) table.symbols.length) ∧
    (rowLimit < table.symbols.length →
      (rebuildSymbolNameIndex table).symbolNameIndexValid = false) := by
  unfold rebuildSymbolNameIndex
  dsimp only
  generalize hstart : ({ table with
    symbolNameHead := fun _ => none
    symbolNameTail := fun _ => none
    symbolNameCount := fun _ => none
    symbolNameNext := []
    symbolNameIndexedRows := 0
    symbolNameIndexValid := true } : SymbolTable) = start
  have hsame : SameNames table start := by
    rw [← hstart]
    exact ⟨rfl, rfl, rfl⟩
  have hempty : IndexedRows start 0 := by
    rw [← hstart]
    exact ⟨Nat.zero_le _, Nat.zero_le _, rfl, rfl, .nil (fun _ => rfl) fun _ => rfl, fun _ => rfl⟩
  obtain ⟨hnames, hall, hmany⟩ := rebuildRows_spec start.symbols 0 start hempty rfl
  rw [← hsame.symbols]
  generalize rebuildRows start.symbols 0 start = r at hnames hall hmany ⊢
  obtain ⟨t, complete⟩ := r
  cases complete with
  | false =>
    refine ⟨hsame.trans ⟨hnames.symbols, hnames.primary, hnames.overflow⟩, fun hle => ?_,
      fun _ => rfl⟩
    have := (hall hle).1
    cases this
  | true =>
    refine ⟨hsame.trans ⟨hnames.symbols, hnames.primary, hnames.overflow⟩, fun hle => ?_,
      fun hlt => ?_⟩
    · have hindexed := (hall hle).2
      refine ⟨?_, ?_⟩
      · show (t.symbolNameNext.length == t.symbols.length
          && t.symbolNameIndexedRows == t.symbols.length) = true
        rw [hindexed.next_length, hindexed.indexed, hnames.symbols]
        simp
      · exact hindexed.mark _
    · have := hmany hlt
      cases this

/-! ## The calls -/

/-- What holds between the calls: an index that is not marked describes a number of rows. -/
def Consistent (table : SymbolTable) : Prop :=
  table.symbolNameIndexValid = true → IndexedRows table table.symbolNameIndexedRows

theorem indexSymbol_spec (h : Consistent table) (name : Bytes) (index : Nat) :
    SameNames table (indexSymbol table name index) ∧
    (table.symbols.length ≤ rowLimit → (indexSymbol table name index).symbolNameIndexValid = true ∧
      IndexedRows (indexSymbol table name index) table.symbols.length) ∧
    (rowLimit < table.symbols.length →
      (indexSymbol table name index).symbolNameIndexValid = false) := by
  unfold indexSymbol
  split
  next => exact rebuild_spec table
  rename_i hfits
  simp only [Bool.or_eq_true, Bool.not_eq_true', bne_iff_ne, decide_eq_true_eq, not_or, not_not,
    Bool.not_eq_false, Nat.not_le] at hfits
  obtain ⟨⟨⟨⟨⟨hvalid, hrows⟩, -⟩, hlt⟩, hlimit⟩, hname⟩ := hfits
  have hindexed := h hvalid
  rw [← hrows] at hindexed
  have hhash : rowHash table.symbols index = nameHash name := by rw [rowHash, hname]
  obtain ⟨hchain, hsame, hflag⟩ := hindexed.chain hlt hlimit hhash
  dsimp only
  split
  next =>
    obtain ⟨hsame', hall, hmany⟩ := rebuild_spec (chainSymbol table (nameHash name) index)
    rw [hsame.symbols] at hall hmany
    exact ⟨hsame.trans hsame', hall, hmany⟩
  rename_i hfull
  simp only [Bool.or_eq_true, bne_iff_ne, not_or, not_not] at hfull
  have hlen : index + 1 = table.symbols.length := by
    rw [← hchain.indexed, hfull.2, hsame.symbols]
  refine ⟨hsame, fun _ => ⟨hflag.trans hvalid, hlen ▸ hchain⟩, fun hmany => ?_⟩
  unfold rowLimit at hmany
  omega

/-! ## Readers -/

theorem symbolChainRows_eq (table : SymbolTable) :
    ∀ fuel row, symbolChainRows table fuel row =
      visits (nextRow table.symbolNameNext) fuel (rowOf row) := by
  intro fuel
  induction fuel with
  | zero => exact fun _ => rfl
  | succ fuel ih =>
    intro row
    unfold symbolChainRows
    cases hrow : rowOf row with
    | none =>
      rw [rowOf_eq_none.mp hrow]
      rfl
    | some r =>
      obtain ⟨hne, hr⟩ := rowOf_eq_some hrow
      rw [if_pos (by simpa using hne), ih, visits, hr]
      rfl

/-- A walk from the head of a name visits the rows of its hash. -/
theorem IndexedRows.walk (h : IndexedRows table n) (key : Bytes) (extra : Nat) :
    symbolChainRows table (n + 1 + extra) (symbolChainHead table key) =
      rowsFrom (fun i => decide (rowHash table.symbols i = nameHash key)) 0 n := by
  rw [symbolChainRows_eq]
  have hhead : rowOf (symbolChainHead table key) =
      (rowsFrom (fun i => decide (rowHash table.symbols i = nameHash key)) 0 n).head? :=
    h.chained.head (nameHash key)
  rw [hhead]
  refine visits_eq (fun r hr hp => ?_) _ 0 (by omega)
  rw [h.chained.next r hr, of_decide_eq_true hp]

theorem filter_rowsFrom (symbols : List Bytes) (key : Bytes) :
    (rowsFrom (fun i => decide (rowHash symbols i = nameHash key)) 0 symbols.length).filter
        (fun row => decide (symbols[row]? = some key)) =
      (List.range symbols.length).filter fun row => decide (symbols[row]? = some key) := by
  rw [rowsFrom_zero, filter_filter]
  refine filter_congr fun row _ => ?_
  rw [Bool.and_eq_left_iff_imp]
  intro hrow
  exact decide_eq_true (rowHash_eq (of_decide_eq_true hrow))

/-! ## Names -/

/-- The index of names holds the recorded ones: each as the name of its hash, or in the
list behind another name of its hash. -/
structure NamesIndexed (table : SymbolTable) (names : List Bytes) : Prop where
  primary : ∀ hash name, table.namePrimary hash = some name → nameHash name = hash ∧ name ∈ names
  overflow : ∀ name ∈ table.nameOverflow, name ∈ names
  recorded : ∀ name ∈ names, table.namePrimary (nameHash name) = some name ∨
    (name ∈ table.nameOverflow ∧ (table.namePrimary (nameHash name)).isSome)

theorem NamesIndexed.nameIndexed_iff {names : List Bytes} (h : NamesIndexed table names)
    (name : Bytes) : nameIndexed table name = true ↔ name ∈ names := by
  unfold nameIndexed
  cases hp : table.namePrimary (nameHash name) with
  | none =>
    refine ⟨nofun, fun hmem => ?_⟩
    rcases h.recorded name hmem with hr | ⟨-, hr⟩ <;> rw [hp] at hr <;> cases hr
  | some primary =>
    dsimp only
    split
    next heq =>
      rw [← eq_of_beq heq]
      exact ⟨fun _ => (h.primary _ _ hp).2, fun _ => rfl⟩
    rename_i hne
    rw [any_eq_true]
    constructor
    · rintro ⟨other, hmem, heq⟩
      rw [← eq_of_beq heq]
      exact h.overflow other hmem
    · intro hmem
      rcases h.recorded name hmem with hr | ⟨hr, -⟩
      · rw [hp] at hr
        exact absurd (beq_iff_eq.mpr (Option.some.inj hr)) hne
      · exact ⟨name, hr, beq_self_eq_true name⟩

/-- A name is recorded once, whatever the names of its hash are. -/
theorem NamesIndexed.indexName {names : List Bytes} (h : NamesIndexed table names) (name : Bytes) :
    NamesIndexed (indexName table name) (names ++ [name]) := by
  have hmore : ∀ {other}, other ∈ names → other ∈ names ++ [name] := fun hm =>
    mem_append_left _ hm
  have hself : name ∈ names ++ [name] := mem_append_right _ (mem_singleton_self name)
  unfold Semantic.indexName
  split
  next hin =>
    have hmem := (h.nameIndexed_iff name).mp hin
    refine ⟨fun hash other ho => ?_, fun other ho =>
      hmore (h.overflow other ho), fun other ho => ?_⟩
    · exact ⟨(h.primary hash other ho).1, hmore (h.primary hash other ho).2⟩
    · rcases mem_append.mp ho with ho | ho
      · exact h.recorded other ho
      · rw [mem_singleton.mp ho]
        exact h.recorded name hmem
  dsimp only
  cases hocc : hashOccupied table (nameHash name) with
  | true =>
    -- the hash has another name: the new one goes to the list
    have hocc' : (table.namePrimary (nameHash name)).isSome = true := hocc
    simp only [if_true, hashOccupied, hocc']
    refine ⟨fun hash other ho => ?_, fun other ho => ?_, fun other ho => ?_⟩
    · exact ⟨(h.primary hash other ho).1, hmore (h.primary hash other ho).2⟩
    · rcases mem_append.mp ho with ho | ho
      · exact hmore (h.overflow other ho)
      · rw [mem_singleton.mp ho]
        exact hself
    · rcases mem_append.mp ho with ho | ho
      · exact (h.recorded other ho).imp id fun hr => ⟨mem_append_left _ hr.1, hr.2⟩
      · rw [mem_singleton.mp ho]
        exact .inr ⟨mem_append_right _ (mem_singleton_self name), hocc'⟩
  | false =>
    have hfree : table.namePrimary (nameHash name) = none := by
      simpa [hashOccupied] using hocc
    rw [if_neg Bool.false_ne_true, hocc, Bool.not_false, if_pos rfl]
    refine ⟨fun hash other ho => ?_, fun other ho => hmore (h.overflow other ho),
      fun other ho => ?_⟩
    · dsimp only [Dict.put] at ho
      split at ho
      next hh =>
        rw [← Option.some.inj ho]
        exact ⟨hh.symm, hself⟩
      next => exact ⟨(h.primary hash other ho).1, hmore (h.primary hash other ho).2⟩
    · dsimp only [Dict.put]
      rcases mem_append.mp ho with ho | ho
      · split
        next hh =>
          rcases h.recorded other ho with hr | ⟨-, hr⟩ <;> rw [hh, hfree] at hr <;> cases hr
        next => exact h.recorded other ho
      · rw [mem_singleton.mp ho, if_pos rfl]
        exact .inl rfl

/-! ## Tables in use -/

/-- What happens to a table: a symbol is pushed, a row is reported, a name is recorded. -/
inductive SymbolStep where
  | push (name : Bytes)
  | indexSymbol (name : Bytes) (index : Nat)
  | indexName (name : Bytes)

def SymbolStep.run (table : SymbolTable) : SymbolStep → SymbolTable
  | .push name => { table with symbols := table.symbols ++ [name] }
  | .indexSymbol name index => Semantic.indexSymbol table name index
  | .indexName name => Semantic.indexName table name

def tableAfter (steps : List SymbolStep) : SymbolTable := steps.foldl SymbolStep.run .empty

def pushedNames (steps : List SymbolStep) : List Bytes :=
  steps.filterMap fun | .push name => some name | _ => none

def recordedNames (steps : List SymbolStep) : List Bytes :=
  steps.filterMap fun | .indexName name => some name | _ => none

/-- The invariant of a table in use. -/
structure Kept (table : SymbolTable) (pushed recorded : List Bytes) : Prop where
  consistent : Consistent table
  symbols : table.symbols = pushed
  names : NamesIndexed table recorded

theorem NamesIndexed.same {s t : SymbolTable} {names : List Bytes} (h : NamesIndexed s names)
    (hprimary : t.namePrimary = s.namePrimary) (hoverflow : t.nameOverflow = s.nameOverflow) :
    NamesIndexed t names where
  primary := by
    rw [hprimary]
    exact h.primary
  overflow := by
    rw [hoverflow]
    exact h.overflow
  recorded := by
    rw [hprimary, hoverflow]
    exact h.recorded

/-- The index of the rows does not depend on the names that are recorded. -/
theorem Consistent.indexName (h : Consistent table) (name : Bytes) :
    Consistent (indexName table name) ∧ (indexName table name).symbols = table.symbols := by
  unfold Semantic.indexName
  split
  next => exact ⟨h, rfl⟩
  dsimp only
  have hframe : ∀ (primary : Dict Bytes) (overflow : List Bytes),
      Consistent { table with namePrimary := primary, nameOverflow := overflow } :=
    fun _ _ hvalid => by
      obtain ⟨h1, h2, h3, h4, h5, h6⟩ := h hvalid
      exact ⟨h1, h2, h3, h4, h5, h6⟩
  split <;> split <;> exact ⟨hframe _ _, rfl⟩

theorem Kept.step {pushed recorded : List Bytes} (h : Kept table pushed recorded)
    (step : SymbolStep) :
    Kept (step.run table) (pushed ++ pushedNames [step]) (recorded ++ recordedNames [step]) := by
  cases step with
  | push name =>
    refine ⟨fun hvalid => ?_, ?_, ?_⟩
    · obtain ⟨hle, hlimit, hnext, hindexed, hchained, hcount⟩ := h.consistent hvalid
      have hsame : ∀ i < table.symbolNameIndexedRows,
          rowHash (table.symbols ++ [name]) i = rowHash table.symbols i := fun i hi => by
        rw [rowHash, rowHash, getD_eq_getElem?_getD, getD_eq_getElem?_getD,
          getElem?_append_left (Nat.lt_of_lt_of_le hi hle)]
      refine ⟨?_, hlimit, hnext, hindexed, hchained.congr hsame, fun hash => ?_⟩
      · dsimp only [SymbolStep.run]
        rw [length_append]
        exact Nat.le_add_right_of_le hle
      · exact (hcount hash).trans
          (congrArg List.length (rowsFrom_congr fun i _ hi => by rw [← hsame i hi]; rfl))
    · dsimp only [SymbolStep.run]
      rw [h.symbols]
      rfl
    · rw [recordedNames, filterMap_cons_none rfl, filterMap_nil, append_nil]
      exact h.names.same rfl rfl
  | indexSymbol name index =>
    rw [pushedNames, recordedNames, filterMap_cons_none rfl, filterMap_cons_none rfl,
      filterMap_nil, filterMap_nil, append_nil, append_nil]
    obtain ⟨hsame, hall, hmany⟩ := indexSymbol_spec h.consistent name index
    refine ⟨fun hvalid => ?_, hsame.symbols.trans h.symbols,
      h.names.same hsame.primary hsame.overflow⟩
    rcases Nat.lt_or_ge rowLimit table.symbols.length with hlt | hle
    · have hnot := hmany hlt
      rw [SymbolStep.run, hnot] at hvalid
      cases hvalid
    · have hindexed := (hall hle).2
      rw [SymbolStep.run, hindexed.indexed]
      exact hindexed
  | indexName name =>
    rw [pushedNames, filterMap_cons_none rfl, filterMap_nil, append_nil]
    obtain ⟨hconsistent, hsymbols⟩ := h.consistent.indexName name
    exact ⟨hconsistent, hsymbols.trans h.symbols, h.names.indexName name⟩

theorem kept_tableAfter (steps : List SymbolStep) :
    Kept (tableAfter steps) (pushedNames steps) (recordedNames steps) := by
  have hrun : ∀ (steps : List SymbolStep) (table : SymbolTable) (pushed recorded : List Bytes),
      Kept table pushed recorded → Kept (steps.foldl SymbolStep.run table)
        (pushed ++ pushedNames steps) (recorded ++ recordedNames steps) := by
    intro steps
    induction steps with
    | nil =>
      intro table pushed recorded h
      simpa [pushedNames, recordedNames] using h
    | cons step steps ih =>
      intro table pushed recorded h
      have := ih _ _ _ (h.step step)
      simpa only [foldl_cons, append_assoc, pushedNames, recordedNames, ← filterMap_append,
        singleton_append] using this
  exact hrun steps .empty [] [] ⟨fun _ => ⟨Nat.le_refl _, Nat.zero_le _, rfl, rfl,
    .nil (fun _ => rfl) fun _ => rfl, fun _ => rfl⟩, rfl, ⟨nofun, nofun, nofun⟩⟩

/-- After any call of `indexSymbol`, a table with no more rows than row numbers has an index that is
not marked, a walk from the head of a name, filtered by the name, lists its rows in ascending order,
and the count of its hash is the number of rows of the hash; a table with more rows is marked.  A
name is indexed when it was recorded, and only then. -/
theorem symbol_index_repairs_itself (steps : List SymbolStep) (name : Bytes) (index : Nat) :
    let table := indexSymbol (tableAfter steps) name index
    let rows := fun p : Nat → Bool => (List.range (pushedNames steps).length).filter p
    ((pushedNames steps).length ≤ rowLimit →
      table.symbolNameIndexValid = true ∧ ∀ key extra,
        (symbolChainRows table ((pushedNames steps).length + 1 + extra)
            (symbolChainHead table key)).filter
          (fun row => decide ((pushedNames steps)[row]? = some key)) =
            rows (fun row => decide ((pushedNames steps)[row]? = some key)) ∧
        ((table.symbolNameCount (nameHash key)).getD 0).toNat =
          (rows fun row => decide (rowHash (pushedNames steps) row = nameHash key)).length) ∧
    (rowLimit < (pushedNames steps).length → table.symbolNameIndexValid = false) ∧
    ∀ key, (nameIndexed table key = true ↔ key ∈ recordedNames steps) ∧
      ∀ other, nameIndexed (indexName table key) other = true ↔
        other = key ∨ other ∈ recordedNames steps := by
  intro table rows
  have hkept := kept_tableAfter steps
  obtain ⟨hsame, hall, hmany⟩ := indexSymbol_spec hkept.consistent name index
  rw [hkept.symbols] at hall hmany
  have hsymbols : table.symbols = pushedNames steps := hsame.symbols.trans hkept.symbols
  have hnames : NamesIndexed table (recordedNames steps) :=
    hkept.names.same hsame.primary hsame.overflow
  refine ⟨fun hle => ⟨(hall hle).1, fun key extra => ?_⟩, hmany, fun key =>
    ⟨hnames.nameIndexed_iff key, fun other => ?_⟩⟩
  · have hindexed : IndexedRows table (pushedNames steps).length := (hall hle).2
    constructor
    · rw [hindexed.walk key extra, hsymbols]
      exact filter_rowsFrom _ key
    · rw [hindexed.count, hsymbols, rowsFrom_zero]
  · rw [(hnames.indexName key).nameIndexed_iff other, mem_append, mem_singleton, or_comm]

/-- A late call and one that names an old row: the index is complete after them. -/
theorem symbol_index_repairs_late_calls :
    let steps := [.push (ascii "main"), .push (ascii "size"), .indexSymbol (ascii "size") 1,
      .push (ascii "main")]
    let table := indexSymbol (tableAfter steps) (ascii "main") 0
    (pushedNames steps).length ≤ rowLimit ∧ table.symbolNameIndexValid = true ∧
      (symbolChainRows table 4 (symbolChainHead table (ascii "main"))).filter
        (fun row => decide ((pushedNames steps)[row]? = some (ascii "main"))) = [0, 2] := by
  intro steps table
  have hlen : (pushedNames steps).length ≤ rowLimit := by decide +kernel
  have h := (symbol_index_repairs_itself steps (ascii "main") 0).1 hlen
  exact ⟨hlen, h.1, (h.2 (ascii "main") 0).1.trans (by decide +kernel)⟩

/-- Two names with one hash: the count of the hash is not the number of rows of a name. -/
theorem symbol_count_of_colliding_names :
    let first := ascii "gMPflVXtwGDXbIhP73TX"
    let second := ascii "LtHf1prlU1bCeYZEdqWf"
    let table := indexSymbol (tableAfter [.push first, .indexSymbol first 0, .push second]) second 1
    table.symbolNameIndexValid = true ∧ (table.symbolNameCount (nameHash first)).getD 0 = 2 ∧
      (List.range table.symbols.length).filter
        (fun row => decide (table.symbols[row]? = some first)) =
        [0] := by
  decide +kernel

end Elisa.Semantic
