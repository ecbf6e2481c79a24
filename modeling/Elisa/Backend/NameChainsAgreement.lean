import Elisa.Backend.NameChains

/-!
# Name chains answer the scan

The chains of an index describe the rows of its prefix (`Indexed`), whatever the order of pushes and
extensions was and whatever buckets collide.  So a walk along a chain, followed by the scan behind
the prefix, finds what a scan of the column finds, and visits all rows of the key in ascending
order.
-/

namespace Elisa.Backend

open RowChain List

variable {κ : Type} {bucketOf : κ → Nat → Nat} {index : ChainIndex} {keys : List κ}

/-! ## Columns as functions -/

def row? (entry : Int) : Option Nat := if 0 ≤ entry then some entry.toNat else none

@[simp] theorem row?_natCast (n : Nat) : row? (n : Int) = some n := by simp [row?]

@[simp] theorem row?_none : row? nameChainNone = none := rfl

variable {r : Nat}

theorem row?_eq_some {entry : Int} : row? entry = some r ↔ entry = r := by
  unfold row?
  split
  next h =>
    rw [Option.some.injEq]
    omega
  rename_i h
  constructor
  · nofun
  · omega

theorem row?_eq_none {entry : Int} : row? entry = none ↔ entry < 0 := by
  unfold row?
  split <;> simp_all

def rowAt (column : List Int) (i : Nat) : Option Nat := row? (column.getD i nameChainNone)

theorem rowAt_set {column : List Int} {i : Nat} (hi : i < column.length) (r j : Nat) :
    rowAt (column.set i r) j = if j = i then some r else rowAt column j := by
  unfold rowAt
  rw [getD_eq_getElem?_getD, getD_eq_getElem?_getD, getElem?_set]
  by_cases hj : j = i
  · rw [if_pos hj, if_pos hj.symm, if_pos (by omega), Option.getD_some, row?_natCast]
  · rw [if_neg hj, if_neg fun h => hj h.symm]

theorem rowAt_append (column : List Int) (j : Nat) :
    rowAt (column ++ [nameChainNone]) j = if j = column.length then none else rowAt column j := by
  unfold rowAt
  rw [getD_eq_getElem?_getD, getD_eq_getElem?_getD]
  rcases Nat.lt_trichotomy j column.length with h | h | h
  · rw [getElem?_append_left h, if_neg (by omega)]
  · rw [h, getElem?_concat_length, if_pos rfl, Option.getD_some, row?_none]
  · rw [getElem?_eq_none (by simp; omega), getElem?_eq_none (by omega),
      if_neg (by omega)]

theorem rowAt_replicate (n j : Nat) : rowAt (List.replicate n nameChainNone) j = none := by
  unfold rowAt
  rw [getD_eq_getElem?_getD, getElem?_replicate]
  split <;> rfl

/-! ## The invariant -/

def rowBucket (bucketOf : κ → Nat → Nat) (keys : List κ) (count row : Nat) : Nat :=
  match keys[row]? with
  | none => 0
  | some key => bucketOf key count

/-- The chains describe the rows of their prefix. -/
structure Indexed (bucketOf : κ → Nat → Nat) (index : ChainIndex) (keys : List κ) : Prop where
  tails_length : index.tails.length = index.buckets.length
  next_le : index.next.length ≤ keys.length
  chained : Chained (rowBucket bucketOf keys index.buckets.length) index.next.length
    (rowAt index.buckets) (rowAt index.tails) (rowAt index.next)

theorem indexed_cleared (bucketOf : κ → Nat → Nat) (keys : List κ) (count : Nat) :
    Indexed bucketOf (.cleared count) keys where
  tails_length := by simp [ChainIndex.cleared]
  next_le := Nat.zero_le _
  chained := .nil (rowAt_replicate count) (rowAt_replicate count)

/-- A row that is pushed to the column stays outside the index. -/
theorem Indexed.pushed (h : Indexed bucketOf index keys) (key : κ) :
    Indexed bucketOf index (keys ++ [key]) where
  tails_length := h.tails_length
  next_le := by
    rw [length_append]
    exact Nat.le_add_right_of_le h.next_le
  chained := by
    have hsame : ∀ i < index.next.length,
        rowBucket bucketOf (keys ++ [key]) index.buckets.length i =
          rowBucket bucketOf keys index.buckets.length i := fun i hi => by
      rw [rowBucket, rowBucket, getElem?_append_left (Nat.lt_of_lt_of_le hi h.next_le)]
    exact h.chained.congr hsame

theorem Indexed.push (h : Indexed bucketOf index keys) {key : κ}
    (hkey : keys[index.next.length]? = some key)
    (hbucket : bucketOf key index.buckets.length < index.buckets.length) :
    Indexed bucketOf (index.push (bucketOf key index.buckets.length)) keys ∧
      (index.push (bucketOf key index.buckets.length)).buckets.length = index.buckets.length ∧
      (index.push (bucketOf key index.buckets.length)).next.length = index.next.length + 1 := by
  generalize hb : bucketOf key index.buckets.length = bucket at hbucket ⊢
  have hrow : rowBucket bucketOf keys index.buckets.length index.next.length = bucket := by
    rw [rowBucket, hkey, ← hb]
  have hlt : index.next.length < keys.length := (List.getElem?_eq_some_iff.mp hkey).1
  have htails : bucket < index.tails.length := by
    rw [h.tails_length]
    exact hbucket
  unfold ChainIndex.push
  dsimp only
  split
  next hlast =>
    -- the bucket has a last row, which gets a successor
    obtain ⟨r, hr⟩ : ∃ r : Nat, index.tails.getD bucket nameChainNone = r :=
      ⟨_, (Int.toNat_of_nonneg hlast).symm⟩
    have htail : rowAt index.tails bucket = some r := row?_eq_some.mpr hr
    have hrn : r < index.next.length := (h.chained.tail_eq_some htail).1
    have hset : r < (index.next ++ [nameChainNone]).length := by
      rw [length_append]
      exact Nat.lt_add_right _ hrn
    refine ⟨⟨?_, ?_, ?_⟩, rfl, ?_⟩
    · rw [length_set]
      exact h.tails_length
    · simp only [length_set, length_append, length_singleton]
      exact hlt
    · have hlen : ((index.next ++ [nameChainNone]).set
          (index.tails.getD bucket nameChainNone).toNat index.next.length).length =
          index.next.length + 1 := by simp
      rw [hlen]
      refine h.chained.append (fun k => ?_) (fun k => ?_) fun i hi => ?_
      · rw [hrow, if_neg]
        rintro ⟨rfl, hnone⟩
        rw [htail] at hnone
        cases hnone
      · rw [hrow, rowAt_set htails]
      rw [hrow, htail, hr, Int.toNat_natCast, rowAt_set hset, rowAt_append]
      by_cases hi' : i = index.next.length
      · rw [if_neg (by omega), if_pos hi', if_pos hi']
      · rw [if_neg hi', if_neg hi']
        simp only [Option.some.injEq, eq_comm]
    · simp
  rename_i hlast
  have htail : rowAt index.tails bucket = none := row?_eq_none.mpr (Int.not_le.mp hlast)
  refine ⟨⟨?_, ?_, ?_⟩, ?_, ?_⟩
  · rw [length_set, length_set]
    exact h.tails_length
  · simp only [length_append, length_singleton]
    exact hlt
  · rw [length_append, length_singleton, length_set]
    refine h.chained.append (fun k => ?_) (fun k => ?_) fun i hi => ?_
    · rw [hrow, rowAt_set hbucket]
      by_cases hk : k = bucket
      · rw [if_pos hk, if_pos ⟨hk, hk ▸ htail⟩]
      · rw [if_neg hk, if_neg fun hc => hk hc.1]
    · rw [hrow, rowAt_set htails]
    · rw [hrow, htail, rowAt_append]
      simp
  · rw [length_set]
  · simp

variable {count : Nat}

theorem Indexed.rows (hbucket : ∀ key : κ, bucketOf key count < count) :
    ∀ (rounds : Nat) (index : ChainIndex), Indexed bucketOf index keys →
      index.buckets.length = count →
        Indexed bucketOf (chainRows bucketOf keys rounds index) keys := by
  intro rounds
  induction rounds with
  | zero => exact fun index h _ => h
  | succ rounds ih =>
    intro index h hcount
    unfold chainRows
    cases hkey : keys[index.next.length]? with
    | none => exact h
    | some key =>
      obtain ⟨hpush, hsame, -⟩ := h.push hkey (by rw [hcount]; exact hbucket key)
      exact ih _ hpush (hsame.trans hcount)

theorem nameChainGrow_pos (targetRows : Nat) :
    ∀ rounds count, 0 < count → 0 < nameChainGrow targetRows rounds count := by
  intro rounds
  induction rounds with
  | zero => exact fun count h => h
  | succ rounds ih =>
    intro count h
    unfold nameChainGrow
    split
    · exact ih _ (Nat.mul_pos h Nat.two_pos)
    · exact h

theorem nameChainBucketCount_pos {currentCount rowCount indexedCount : Nat} (h : 0 < rowCount) :
    0 < nameChainBucketCount currentCount rowCount indexedCount := by
  unfold nameChainBucketCount
  rw [if_neg (by simpa using Nat.ne_of_gt h)]
  dsimp only
  generalize (if (currentCount == 0 || decide (indexedCount > rowCount)) = true then
    nameChainMinBucketCount else currentCount) = count
  refine nameChainGrow_pos _ _ _ ?_
  split
  · exact Nat.succ_pos _
  next hcount =>
    simp only [Bool.or_eq_true, decide_eq_true_eq, not_or, Nat.not_lt] at hcount
    exact Nat.lt_of_lt_of_le (Nat.succ_pos _) hcount.1

theorem chainRows_nil (rounds : Nat) : chainRows bucketOf [] rounds index = index := by
  cases rounds <;> rfl

theorem Indexed.resized (h : Indexed bucketOf index keys)
    (hbucket : keys ≠ [] → ∀ key : κ, bucketOf key count < count) :
    let resized := if index.buckets.length != count || index.tails.length != count
        || decide (index.next.length > keys.length) then .cleared count else index
    Indexed bucketOf
      (chainRows bucketOf keys (keys.length - resized.next.length) resized) keys := by
  intro resized
  have hresized : Indexed bucketOf resized keys ∧ resized.buckets.length = count := by
    dsimp only [resized]
    split
    next => exact ⟨indexed_cleared bucketOf keys count, by simp [ChainIndex.cleared]⟩
    next hsame =>
      simp only [Bool.or_eq_true, bne_iff_ne, not_or, not_not] at hsame
      exact ⟨h, hsame.1.1⟩
  cases keys with
  | nil =>
    rw [chainRows_nil]
    exact hresized.1
  | cons key keys =>
    exact Indexed.rows (hbucket (cons_ne_nil key keys)) _ _ hresized.1 hresized.2

theorem Indexed.extend (hbucket : ∀ (key : κ) count, 0 < count → bucketOf key count < count)
    (h : Indexed bucketOf index keys) :
      Indexed bucketOf (chainExtend bucketOf index keys) keys := by
  unfold chainExtend
  split
  next => exact h
  next =>
    exact h.resized fun hne key =>
      hbucket key _ (nameChainBucketCount_pos (length_pos_iff.mpr hne))

/-! ## Lookup -/

def accepted (accepts : κ → Bool) (keys : List κ) (row : Nat) : Bool := (keys[row]?).any accepts

theorem chainTail_eq (accepts : κ → Bool) (keys : List κ) :
    ∀ remaining start, keys.length - start = remaining →
      row? (chainTail accepts keys start) =
        (rowsFrom (accepted accepts keys) start keys.length).head? := by
  intro remaining
  induction remaining with
  | zero =>
    intro start hstart
    have hle : keys.length ≤ start := by omega
    rw [rowsFrom_of_le hle, chainTail, drop_eq_nil_of_le hle]
    rfl
  | succ remaining ih =>
    intro start hstart
    have hlt : start < keys.length := by omega
    have hrest := ih (start + 1) (by omega)
    have hkey : accepted accepts keys start = accepts keys[start] := by
      simp [accepted, getElem?_eq_getElem hlt]
    rw [rowsFrom_of_lt hlt, hkey]
    rw [chainTail, drop_eq_getElem_cons hlt, findIdx?_cons]
    cases haccept : accepts keys[start] with
    | true => exact row?_eq_some.mpr (by simp)
    | false =>
      rw [chainTail] at hrest
      cases hfound : (keys.drop (start + 1)).findIdx? accepts with
      | none =>
        rw [hfound] at hrest
        simpa using hrest
      | some offset =>
        rw [hfound] at hrest
        rw [if_neg Bool.false_ne_true, Option.map_some]
        refine Eq.trans ?_ hrest
        dsimp only
        congr 1
        push_cast
        omega

theorem chainTail_spec (accepts : κ → Bool) (keys : List κ) (start : Nat) :
    row? (chainTail accepts keys start) =
      (rowsFrom (accepted accepts keys) start keys.length).head? :=
  chainTail_eq accepts keys _ start rfl

/-- A walk along the chain of a bucket, with the scan behind the prefix, finds the first
row that the test accepts, when only keys of that bucket can pass. -/
theorem chainFrom_spec (h : Indexed bucketOf index keys) {accepts : κ → Bool} {k : Nat}
    (haccepts : ∀ key, accepts key → bucketOf key index.buckets.length = k) :
    ∀ steps start cursor, index.next.length - start < steps → start ≤ index.next.length →
      row? cursor = (rowsFrom
        (fun i => decide (rowBucket bucketOf keys index.buckets.length i = k)) start
        index.next.length).head? →
      row? (chainFrom accepts index keys index.next.length steps cursor) =
        (rowsFrom (accepted accepts keys) start keys.length).head? := by
  have hsub : ∀ i < index.next.length, accepted accepts keys i →
      decide (rowBucket bucketOf keys index.buckets.length i = k) := fun i hi hacc => by
    have hlt := Nat.lt_of_lt_of_le hi h.next_le
    rw [accepted, getElem?_eq_getElem hlt, Option.any_some] at hacc
    rw [rowBucket, getElem?_eq_getElem hlt]
    exact decide_eq_true (haccepts _ hacc)
  intro steps
  induction steps with
  | zero => exact fun start cursor hsteps => absurd hsteps (Nat.not_lt_zero _)
  | succ steps ih =>
    intro start cursor hsteps hstart hcursor
    have hhead := @head_of_bucket _ _ start _ hsub
    rw [rowsFrom_append hstart h.next_le, head?_append, hhead, ← hcursor]
    unfold chainFrom
    cases hrow : row? cursor with
    | none =>
      rw [if_neg (Int.not_le.mpr (row?_eq_none.mp hrow)), chainTail_spec]
      rfl
    | some r =>
      have hr : cursor = r := row?_eq_some.mp hrow
      rw [hrow] at hcursor
      obtain ⟨rest, hrows⟩ : ∃ rest, rowsFrom
          (fun i => decide (rowBucket bucketOf keys index.buckets.length i = k)) start
          index.next.length = r :: rest := by
        rw [head?_eq_some_iff.mp hcursor.symm |>.choose_spec]
        exact ⟨_, rfl⟩
      obtain ⟨hlt, hb, -, -⟩ := rowsFrom_eq_cons hrows
      have hge : cursor ≥ 0 := by omega
      rw [if_pos hge, hr, Int.toNat_natCast, Option.bind_some]
      change row? (if accepted accepts keys r = true then _ else _) = _
      cases hacc : accepted accepts keys r with
      | true => rw [if_pos rfl, if_pos rfl, row?_natCast, Option.some_or]
      | false =>
        rw [if_neg Bool.false_ne_true, if_neg Bool.false_ne_true]
        have hnext := h.chained.next r hlt.2
        rw [of_decide_eq_true hb] at hnext
        rw [ih (r + 1) _ (by omega) hlt.2 hnext, rowsFrom_append hlt.2 h.next_le,
          head?_append]

section Keys

variable [BEq κ] [LawfulBEq κ]

theorem chainFirst_spec (h : Indexed bucketOf index keys) {prefixCount : Nat}
    (hcount : prefixCount = 0 ∨ prefixCount = index.next.length) (key : κ) :
    row? (chainFirst bucketOf index keys prefixCount key) =
      (rowsFrom (accepted (· == key) keys) 0 keys.length).head? := by
  unfold chainFirst
  split
  next => exact chainTail_spec _ keys 0
  rename_i hne
  rw [hcount.resolve_left (by simpa using hne)]
  refine chainFrom_spec h (k := bucketOf key index.buckets.length)
    (fun key' hkey => by rw [eq_of_beq hkey]) _ 0 _ ?_ (Nat.zero_le _) (h.chained.head _)
  exact Nat.lt_succ_of_le h.next_le

theorem chainNext_spec (h : Indexed bucketOf index keys) {prefixCount : Nat}
    (hcount : prefixCount = 0 ∨ prefixCount = index.next.length) (key : κ)
    (hr : accepted (· == key) keys r = true) :
    row? (chainNext index keys prefixCount key r) =
      (rowsFrom (accepted (· == key) keys) (r + 1) keys.length).head? := by
  unfold chainNext
  rw [if_neg (by omega), Int.toNat_natCast]
  split
  next hlt =>
    rcases hcount with h0 | hn
    · omega
    rw [hn] at hlt ⊢
    have hkey : rowBucket bucketOf keys index.buckets.length r =
        bucketOf key index.buckets.length := by
      unfold accepted at hr
      unfold rowBucket
      cases hk : keys[r]? with
      | none =>
        rw [hk] at hr
        cases hr
      | some key' =>
        rw [hk, Option.any_some] at hr
        rw [eq_of_beq hr]
    have hnext := h.chained.next r hlt
    rw [hkey] at hnext
    refine chainFrom_spec h (fun key' hkey => by rw [eq_of_beq hkey]) _ (r + 1) _ ?_ hlt hnext
    exact Nat.lt_succ_of_le (Nat.le_trans (Nat.sub_le _ _) h.next_le)
  next => exact chainTail_spec _ keys (r + 1)

end Keys

/-! ## Ranges of bytes -/

theorem nameChainSliceTail_eq (names : List Bytes) (name : Bytes) (start stop rowStart : Nat) :
    nameChainSliceTail names name start stop rowStart =
      chainTail (nameChainMatchesSlice name start stop) names rowStart := by
  unfold nameChainSliceTail
  split
  next h =>
    rw [chainTail, drop_eq_nil_of_le (Nat.le_of_lt h)]
    rfl
  next => rfl

variable {names : List Bytes}

theorem nameChainSliceFrom_eq (h : Indexed nameChainBucket index names) (name : Bytes)
    (start stop prefixCount : Nat) :
    ∀ steps cursor, (∀ r, row? cursor = some r → r < index.next.length) →
      nameChainSliceFrom index names name start stop prefixCount steps cursor =
        chainFrom (nameChainMatchesSlice name start stop) index names prefixCount steps cursor := by
  intro steps
  induction steps with
  | zero => exact fun _ _ => rfl
  | succ steps ih =>
    intro cursor hcursor
    unfold nameChainSliceFrom chainFrom
    split
    next hge =>
      have hlt : cursor.toNat < index.next.length :=
        hcursor _ (row?_eq_some.mpr (Int.toNat_of_nonneg hge).symm)
      have hlt' : cursor.toNat < names.length := Nat.lt_of_lt_of_le hlt h.next_le
      have htest : (decide (cursor.toNat < names.length) &&
          nameChainMatchesSlice name start stop (names.getD cursor.toNat [])) =
          (names[cursor.toNat]?).any (nameChainMatchesSlice name start stop) := by
        rw [getD_eq_getElem?_getD, getElem?_eq_getElem hlt', decide_eq_true hlt']
        rfl
      rw [htest, if_neg (Nat.not_le.mpr hlt)]
      split
      next => rfl
      refine ih _ fun r hr => ?_
      have hnext := h.chained.next _ hlt
      rw [rowAt, hr] at hnext
      obtain ⟨rest, hrows⟩ := head?_eq_some_iff.mp hnext.symm
      exact (rowsFrom_eq_cons hrows).1.2
    next => exact nameChainSliceTail_eq names name start stop prefixCount

variable {name : Bytes} {start stop : Nat}

theorem nameChainMatchesSlice_eq (hstart : start ≤ stop) (hstop : stop ≤ name.length)
    (candidate : Bytes) :
    nameChainMatchesSlice name start stop candidate = (candidate == viewSlice name start stop) := by
  have hlen : (viewSlice name start stop).length = stop - start := by
    rw [viewSlice, length_drop, length_take, Nat.min_eq_left hstop]
  have hget : ∀ offset < stop - start, (viewSlice name start stop)[offset]? =
      some (name.getD (start + offset) 0) := fun offset hoff => by
    rw [viewSlice, getElem?_drop, getElem?_take_of_lt (by omega),
      getD_eq_getElem?_getD, getElem?_eq_getElem (by omega), Option.getD_some]
  unfold nameChainMatchesSlice
  rw [if_neg (by simpa using ⟨hstart, hstop⟩)]
  rw [Bool.eq_iff_iff, beq_iff_eq]
  split
  next hne =>
    refine ⟨nofun, fun heq => ?_⟩
    rw [heq, hlen] at hne
    simp at hne
  rename_i heq
  have heq' : candidate.length = stop - start := by simpa using heq
  rw [all_eq_true]
  constructor
  · intro hall
    refine ext_getElem? fun offset => ?_
    by_cases hoff : offset < stop - start
    · have hbyte := hall offset (mem_range.mpr hoff)
      rw [hget offset hoff, ← eq_of_beq hbyte, getD_eq_getElem?_getD,
        getElem?_eq_getElem (by omega), Option.getD_some]
    · rw [getElem?_eq_none (by omega), getElem?_eq_none (by omega)]
  · rintro rfl offset hoff
    rw [mem_range] at hoff
    rw [getD_eq_getElem?_getD, hget offset hoff, Option.getD_some, beq_self_eq_true]

theorem nameChainSliceFirst_eq (h : Indexed nameChainBucket index names) (hstart : start ≤ stop)
    (hstop : stop ≤ name.length) :
    nameChainSliceFirst index names name start stop =
      nameChainFirst index names (viewSlice name start stop) := by
  have htest : nameChainMatchesSlice name start stop = (· == viewSlice name start stop) :=
    funext (nameChainMatchesSlice_eq hstart hstop)
  unfold nameChainSliceFirst nameChainFirst chainFirst
  rw [if_neg (by simpa using ⟨hstart, hstop⟩)]
  dsimp only
  split
  next => rw [nameChainSliceTail_eq, htest]
  rw [nameChainSliceFrom_eq h, htest]
  · rfl
  intro r hr
  have hhead := h.chained.head (nameChainBucketSlice name start stop index.buckets.length)
  rw [rowAt, hr] at hhead
  obtain ⟨rest, hrows⟩ := head?_eq_some_iff.mp hhead.symm
  exact (rowsFrom_eq_cons hrows).1.2

theorem nameChainSliceNext_eq (h : Indexed nameChainBucket index names) (hstart : start ≤ stop)
    (hstop : stop ≤ name.length) (hr : r < names.length) :
    nameChainSliceNext index names name start stop r =
      nameChainNext index names (viewSlice name start stop) r := by
  have htest : nameChainMatchesSlice name start stop = (· == viewSlice name start stop) :=
    funext (nameChainMatchesSlice_eq hstart hstop)
  unfold nameChainSliceNext nameChainNext chainNext
  have hpos : ¬ (r : Int) < 0 := by omega
  rw [if_neg (by simpa using ⟨⟨hr, hstart⟩, hstop⟩), if_neg hpos, Int.toNat_natCast]
  dsimp only
  split
  next hlt =>
    have hn : r < index.next.length := by
      unfold nameChainPrefix chainPrefix at hlt
      split at hlt
      · exact absurd hlt (Nat.not_lt_zero _)
      · exact hlt
    rw [nameChainSliceFrom_eq h, htest]
    intro r' hr'
    have hnext := h.chained.next r hn
    rw [rowAt, hr'] at hnext
    obtain ⟨rest, hrows⟩ := head?_eq_some_iff.mp hnext.symm
    exact (rowsFrom_eq_cons hrows).1.2
  next => rw [nameChainSliceTail_eq, htest]

/-! ## Columns in use -/

/-- What happens to a column: a row is pushed, or the chains are extended. -/
inductive ColumnStep (κ : Type) where
  | push (key : κ)
  | extend

def ColumnStep.run (extend : ChainIndex → List κ → ChainIndex) (column : List κ × ChainIndex) :
    ColumnStep κ → List κ × ChainIndex
  | .push key => (column.1 ++ [key], column.2)
  | .extend => (column.1, extend column.2 column.1)

def columnAfter (extend : ChainIndex → List κ → ChainIndex) (steps : List (ColumnStep κ)) :
    List κ × ChainIndex :=
  steps.foldl (ColumnStep.run extend) ([], .empty)

/-- The rows a reader visits that takes the first row and goes on to the next one until
there is none. -/
def chainWalk (next : Int → Int) : Nat → Int → List Nat
  | 0, _ => []
  | fuel + 1, row => if row ≥ 0 then row.toNat :: chainWalk next fuel (next row) else []

theorem chainWalk_eq (next : Int → Int) :
    ∀ fuel row, chainWalk next fuel row = visits (fun r => row? (next r)) fuel (row? row) := by
  intro fuel
  induction fuel with
  | zero => exact fun _ => rfl
  | succ fuel ih =>
    intro row
    unfold chainWalk
    cases hrow : row? row with
    | none =>
      rw [if_neg (Int.not_le.mpr (row?_eq_none.mp hrow))]
      rfl
    | some r =>
      have hr : row = r := row?_eq_some.mp hrow
      rw [if_pos (by omega), ih, visits, hr, Int.toNat_natCast]

theorem chainWalk_spec {p : Nat → Bool} {n : Nat} {next : Int → Int} {first : Int}
    (hfirst : row? first = (rowsFrom p 0 n).head?)
    (hnext : ∀ r : Nat, r < n → p r → row? (next r) = (rowsFrom p (r + 1) n).head?) (extra : Nat) :
    chainWalk next (n + 1 + extra) first = (List.range n).filter p := by
  rw [chainWalk_eq, hfirst, visits_eq hnext _ 0 (by omega), rowsFrom_zero]

theorem indexed_columnAfter {extend : ChainIndex → List κ → ChainIndex}
    (hextend : ∀ index keys, Indexed bucketOf index keys →
      Indexed bucketOf (extend index keys) keys)
    (steps : List (ColumnStep κ)) :
    Indexed bucketOf (columnAfter extend steps).2 (columnAfter extend steps).1 := by
  have hrun : ∀ (steps : List (ColumnStep κ)) (column : List κ × ChainIndex),
      Indexed bucketOf column.2 column.1 →
      Indexed bucketOf (steps.foldl (ColumnStep.run extend) column).2
        (steps.foldl (ColumnStep.run extend) column).1 := by
    intro steps
    induction steps with
    | nil => exact fun _ h => h
    | cons step steps ih =>
      intro column h
      refine ih _ ?_
      cases step with
      | push key => exact h.pushed key
      | extend => exact hextend _ _ h
  exact hrun steps _ (indexed_cleared bucketOf [] 0)

theorem accepted_eq [BEq κ] [LawfulBEq κ] [DecidableEq κ] (keys : List κ) (key : κ) :
    accepted (· == key) keys = fun row => decide (keys[row]? = some key) := by
  funext row
  unfold accepted
  cases keys[row]? with
  | none => simp
  | some key' =>
    rw [Option.any_some, Bool.eq_iff_iff, beq_iff_eq, decide_eq_true_eq, Option.some.injEq]

theorem chainWalk_chain [BEq κ] [LawfulBEq κ] [DecidableEq κ] (h : Indexed bucketOf index keys)
    {prefixCount : Nat} (hcount : prefixCount = 0 ∨ prefixCount = index.next.length) (key : κ)
    (extra : Nat) :
    chainWalk (chainNext index keys prefixCount key) (keys.length + 1 + extra)
        (chainFirst bucketOf index keys prefixCount key) =
      (List.range keys.length).filter fun row => decide (keys[row]? = some key) := by
  rw [← accepted_eq]
  exact chainWalk_spec (chainFirst_spec h hcount key)
    (fun r _ hr => chainNext_spec h hcount key hr) extra

theorem chainPrefix_cases (index : ChainIndex) (keys : List κ) :
    chainPrefix index keys = 0 ∨ chainPrefix index keys = index.next.length := by
  unfold chainPrefix
  split
  · exact .inl rfl
  · exact .inr rfl

theorem functionNamePrefixCount_cases (index : ChainIndex) (names : List Bytes) :
    functionNamePrefixCount index names = 0 ∨
      functionNamePrefixCount index names = index.next.length := by
  unfold functionNamePrefixCount
  split
  · exact .inl rfl
  · exact .inr rfl

theorem masked_lt (hash : UInt64) (h : 0 < count) :
    (hash &&& (UInt64.ofNat count - 1)).toNat < count := by
  have hand : (hash &&& (UInt64.ofNat count - 1)).toNat ≤ (UInt64.ofNat count - 1).toNat := by
    rw [UInt64.toNat_and]
    exact Nat.and_le_right
  refine Nat.lt_of_le_of_lt hand ?_
  rw [UInt64.toNat_sub, UInt64.toNat_ofNat']
  have : (1 : UInt64).toNat = 1 := rfl
  rw [this]
  omega

theorem nameChainBucket_lt (name : Bytes) (count : Nat) (h : 0 < count) :
    nameChainBucket name count < count := by
  rw [nameChainBucket, if_neg (by simpa using Nat.ne_of_gt h)]
  exact masked_lt _ h

theorem lineChainBucket_lt (key : UInt32) (count : Nat) (h : 0 < count) :
    lineChainBucket key count < count := by
  rw [lineChainBucket, if_neg (by simpa using Nat.ne_of_gt h)]
  exact masked_lt _ h

theorem functionNameBucket_lt (name : Bytes) :
    functionNameBucket name functionNameBucketCount < functionNameBucketCount := by
  rw [functionNameBucket, UInt64.toNat_mod]
  exact Nat.mod_lt _ (by decide)

/-- For every order of pushes and extensions, the chains over names, over ranges of bytes, over
lines and over the function table visit all rows of a key, each once, in ascending order, and no
others. -/
theorem chains_answer_the_scan :
    (∀ (steps : List (ColumnStep Bytes)) (name : Bytes) (extra : Nat),
      let column := columnAfter nameChainExtend steps
      chainWalk (nameChainNext column.2 column.1 name) (column.1.length + 1 + extra)
          (nameChainFirst column.2 column.1 name) =
        (List.range column.1.length).filter fun row => decide (column.1[row]? = some name)) ∧
    (∀ (steps : List (ColumnStep Bytes)) (name : Bytes) (start stop extra : Nat),
      let column := columnAfter nameChainExtend steps
      chainWalk (nameChainSliceNext column.2 column.1 name start stop)
          (column.1.length + 1 + extra) (nameChainSliceFirst column.2 column.1 name start stop) =
        (List.range column.1.length).filter fun row => decide (start ≤ stop ∧ stop ≤ name.length ∧
          column.1[row]? = some (viewSlice name start stop))) ∧
    (∀ (steps : List (ColumnStep UInt32)) (key : UInt32) (extra : Nat),
      let column := columnAfter lineChainExtend steps
      chainWalk (lineChainNext column.2 column.1 key) (column.1.length + 1 + extra)
          (lineChainFirst column.2 column.1 key) =
        (List.range column.1.length).filter fun row => decide (column.1[row]? = some key)) ∧
    ∀ (steps : List (ColumnStep Bytes)) (name : Bytes) (extra : Nat),
      let column := columnAfter indexAppendedFunctionNames steps
      chainWalk (nextFunctionNamed column.2 column.1 name) (column.1.length + 1 + extra)
          (firstFunctionNamed column.2 column.1 name) =
        (List.range column.1.length).filter fun row => decide (column.1[row]? = some name) := by
  have hnames : ∀ steps, Indexed nameChainBucket (columnAfter nameChainExtend steps).2
      (columnAfter nameChainExtend steps).1 :=
    indexed_columnAfter fun _ _ h => h.extend nameChainBucket_lt
  refine ⟨fun steps name extra => ?_, fun steps name start stop extra => ?_,
    fun steps key extra => ?_, fun steps name extra => ?_⟩
  · exact chainWalk_chain (hnames steps) (chainPrefix_cases _ _) name extra
  · intro column
    by_cases hrange : start ≤ stop ∧ stop ≤ name.length
    · have h : Indexed nameChainBucket column.2 column.1 := hnames steps
      have hcount := chainPrefix_cases column.2 column.1
      simp only [hrange, true_and]
      rw [← accepted_eq, nameChainSliceFirst_eq h hrange.1 hrange.2]
      refine chainWalk_spec (chainFirst_spec h hcount _) (fun r hr hacc => ?_) extra
      rw [nameChainSliceNext_eq h hrange.1 hrange.2 hr]
      exact chainNext_spec h hcount _ hacc
    · have hnone : nameChainSliceFirst column.2 column.1 name start stop = nameChainNone := by
        rw [nameChainSliceFirst, if_pos]
        simp only [Bool.or_eq_true, decide_eq_true_eq]
        omega
      rw [hnone, chainWalk_eq, row?_none, Nat.add_right_comm, visits, eq_comm,
        filter_eq_nil_iff]
      intro row _ hrow
      have := of_decide_eq_true hrow
      exact hrange ⟨this.1, this.2.1⟩
  · exact chainWalk_chain (indexed_columnAfter (fun _ _ h => h.extend lineChainBucket_lt) steps)
      (chainPrefix_cases _ _) key extra
  · exact chainWalk_chain
      (indexed_columnAfter (fun _ _ h => h.resized fun _ => functionNameBucket_lt) steps)
      (functionNamePrefixCount_cases _ _) name extra

end Elisa.Backend
