import Mathlib.Data.List.Range

/-!
# Chains of rows

The rows of a table are put into buckets by a function `b`.  A chain index keeps for every bucket
its first and its last row and for every row the next one of its bucket: `Chained b n head tail
next` says so of the first `n` rows (`Chained.nil`, `Chained.append`).

When only rows of one bucket can satisfy a test, what the chain offers is what a scan of all rows
finds (`Chained.head_of_bucket`), so a reader visits all of them in ascending order (`visits_eq`).
-/

namespace Elisa.RowChain

open List

/-! ## Rows that satisfy a test -/

/-- The rows from `start` up to `n` that satisfy a test, in order. -/
def rowsFrom (p : Nat → Bool) (start n : Nat) : List Nat := (List.range' start (n - start)).filter p

variable {p q : Nat → Bool} {start n : Nat}

theorem rowsFrom_zero (p : Nat → Bool) (n : Nat) : rowsFrom p 0 n = (List.range n).filter p := by
  rw [rowsFrom, Nat.sub_zero, range_eq_range']

@[simp] theorem mem_rowsFrom {r : Nat} : r ∈ rowsFrom p start n ↔ (start ≤ r ∧ r < n) ∧ p r := by
  simp only [rowsFrom, mem_filter, mem_range'_1, and_congr_left_iff]
  omega

theorem rowsFrom_of_le (h : n ≤ start) : rowsFrom p start n = [] := by
  rw [rowsFrom, Nat.sub_eq_zero_of_le h]
  rfl

theorem rowsFrom_of_lt (h : start < n) :
    rowsFrom p start n = if p start then start :: rowsFrom p (start + 1) n
      else rowsFrom p (start + 1) n := by
  obtain ⟨k, hk⟩ : ∃ k, n - start = k + 1 := ⟨n - start - 1, by omega⟩
  have hk' : n - (start + 1) = k := by omega
  rw [rowsFrom, rowsFrom, hk, hk', range'_succ, filter_cons]

theorem rowsFrom_append {mid : Nat} (h : start ≤ mid) (h' : mid ≤ n) :
    rowsFrom p start n = rowsFrom p start mid ++ rowsFrom p mid n := by
  have hsplit : n - start = (mid - start) + (n - mid) := by omega
  have hmid : start + (mid - start) = mid := by omega
  rw [rowsFrom, rowsFrom, rowsFrom, hsplit, ← range'_append_1, filter_append, hmid]

theorem rowsFrom_succ (h : start ≤ n) :
    rowsFrom p start (n + 1) = rowsFrom p start n ++ if p n then [n] else [] := by
  rw [rowsFrom_append h (Nat.le_succ n), rowsFrom_of_lt (Nat.lt_succ_self n),
    rowsFrom_of_le (Nat.le_refl _)]

theorem rowsFrom_congr (h : ∀ r, start ≤ r → r < n → p r = q r) :
    rowsFrom p start n = rowsFrom q start n := by
  refine filter_congr fun r hr => ?_
  rw [mem_range'_1] at hr
  exact h r hr.1 (by omega)

theorem rowsFrom_eq_cons {r : Nat} {rest : List Nat} (h : rowsFrom p start n = r :: rest) :
    (start ≤ r ∧ r < n) ∧ p r = true ∧ rest = rowsFrom p (r + 1) n ∧
      ∀ i, start ≤ i → i < r → p i = false := by
  have hmem : (start ≤ r ∧ r < n) ∧ p r = true :=
    mem_rowsFrom.mp (by rw [h]; exact mem_cons_self)
  have hsplit := rowsFrom_append (p := p) hmem.1.1 (Nat.le_of_lt hmem.1.2)
  rw [rowsFrom_of_lt hmem.1.2, if_pos hmem.2, h] at hsplit
  have hnone : rowsFrom p start r = [] := by
    cases hrows : rowsFrom p start r with
    | nil => rfl
    | cons i is =>
      have hi : i ∈ rowsFrom p start r := by
        rw [hrows]
        exact mem_cons_self
      rw [hrows, cons_append, List.cons.injEq] at hsplit
      rw [← hsplit.1] at hi
      exact absurd (mem_rowsFrom.mp hi).1.2 (Nat.lt_irrefl r)
  rw [hnone, nil_append, List.cons.injEq] at hsplit
  refine ⟨hmem.1, hmem.2, hsplit.2, fun i hs hi => ?_⟩
  rw [← Bool.not_eq_true]
  intro hp
  have : i ∈ rowsFrom p start r := mem_rowsFrom.mpr ⟨⟨hs, hi⟩, hp⟩
  rw [hnone] at this
  cases this

theorem head_of_bucket (h : ∀ i < n, p i → q i) :
    (rowsFrom p start n).head? = (rowsFrom q start n).head?.bind fun r =>
      if p r then some r else (rowsFrom p (r + 1) n).head? := by
  cases hq : rowsFrom q start n with
  | nil =>
    have hp : rowsFrom p start n = [] := by
      rw [eq_nil_iff_forall_not_mem]
      intro i hi
      obtain ⟨hlt, hpi⟩ := mem_rowsFrom.mp hi
      have : i ∈ rowsFrom q start n := mem_rowsFrom.mpr ⟨hlt, h i hlt.2 hpi⟩
      rw [hq] at this
      cases this
    rw [hp]
    rfl
  | cons r rest =>
    obtain ⟨hlt, -, -, hbefore⟩ := rowsFrom_eq_cons hq
    have hnone : rowsFrom p start r = [] := by
      rw [eq_nil_iff_forall_not_mem]
      intro i hi
      obtain ⟨hir, hpi⟩ := mem_rowsFrom.mp hi
      have hqi := h i (Nat.lt_trans hir.2 hlt.2) hpi
      rw [hbefore i hir.1 hir.2] at hqi
      cases hqi
    rw [rowsFrom_append hlt.1 (Nat.le_of_lt hlt.2), hnone, rowsFrom_of_lt hlt.2, nil_append,
      head?_cons, Option.bind_some]
    split <;> rfl

/-! ## Visits -/

/-- The rows a reader visits that asks for the next row until there is none. -/
def visits (next : Nat → Option Nat) : Nat → Option Nat → List Nat
  | 0, _ => []
  | _ + 1, none => []
  | fuel + 1, some row => row :: visits next fuel (next row)

/-- A reader whose questions are answered like those of a scan visits the rows of the
scan. -/
theorem visits_eq {next : Nat → Option Nat}
    (hnext : ∀ r < n, p r → next r = (rowsFrom p (r + 1) n).head?) :
    ∀ fuel start, n - start < fuel →
      visits next fuel (rowsFrom p start n).head? = rowsFrom p start n := by
  intro fuel
  induction fuel with
  | zero => exact fun start h => absurd h (Nat.not_lt_zero _)
  | succ fuel ih =>
    intro start hfuel
    cases hrows : rowsFrom p start n with
    | nil => rfl
    | cons r rest =>
      obtain ⟨hlt, hp, hrest, -⟩ := rowsFrom_eq_cons hrows
      rw [head?_cons, visits, hnext r hlt.2 hp, ih (r + 1) (by omega), ← hrest]

/-! ## The index -/

variable {β : Type*} [DecidableEq β] {b : Nat → β} {head tail head' tail' : β → Option Nat}
  {next next' : Nat → Option Nat}

/-- The chains of the first `n` rows. -/
structure Chained (b : Nat → β) (n : Nat) (head tail : β → Option Nat) (next : Nat → Option Nat) :
    Prop where
  head : ∀ k, head k = (rowsFrom (fun i => decide (b i = k)) 0 n).head?
  tail : ∀ k, tail k = (rowsFrom (fun i => decide (b i = k)) 0 n).getLast?
  next : ∀ i < n, next i = (rowsFrom (fun j => decide (b j = b i)) (i + 1) n).head?

theorem Chained.nil (hhead : ∀ k, head k = none) (htail : ∀ k, tail k = none) :
    Chained b 0 head tail next where
  head := hhead
  tail := htail
  next := fun i hi => absurd hi (Nat.not_lt_zero i)

theorem Chained.congr {b' : Nat → β} (h : Chained b n head tail next) (hb : ∀ i < n, b' i = b i) :
    Chained b' n head tail next where
  head := fun k => by
    rw [h.head]
    exact congrArg List.head? (rowsFrom_congr fun i _ hi => by rw [hb i hi])
  tail := fun k => by
    rw [h.tail]
    exact congrArg List.getLast? (rowsFrom_congr fun i _ hi => by rw [hb i hi])
  next := fun i hi => by
    rw [h.next i hi]
    exact congrArg List.head? (rowsFrom_congr fun j _ hj => by rw [hb i hi, hb j hj])

/-- The last row of a bucket is the last one before `n` of its bucket. -/
theorem Chained.tail_eq_some (h : Chained b n head tail next) {k : β} {r : Nat}
    (hr : tail k = some r) : r < n ∧ b r = k ∧ ∀ i, r < i → i < n → b i ≠ k := by
  rw [h.tail, getLast?_eq_some_iff] at hr
  obtain ⟨front, hr⟩ := hr
  have hmem : r ∈ rowsFrom (fun i => decide (b i = k)) 0 n := by
    rw [hr]
    exact mem_append_right front (mem_singleton_self r)
  obtain ⟨⟨-, hlt⟩, hb⟩ := mem_rowsFrom.mp hmem
  refine ⟨hlt, of_decide_eq_true hb, fun i hri hin hi => ?_⟩
  -- a later row of the bucket would stand behind the last one
  have hsplit := rowsFrom_append (p := fun i => decide (b i = k)) (Nat.zero_le (r + 1))
    (Nat.succ_le_of_lt hlt)
  have hlast : i ∈ rowsFrom (fun i => decide (b i = k)) (r + 1) n :=
    mem_rowsFrom.mpr ⟨⟨hri, hin⟩, decide_eq_true hi⟩
  obtain ⟨more, last, hmore⟩ := eq_nil_or_concat _ |>.resolve_left (List.ne_nil_of_mem hlast)
  rw [concat_eq_append] at hmore
  rw [hmore, ← append_assoc, hr] at hsplit
  have hlast' : last = r := by
    have := congrArg List.getLast? hsplit
    simpa using this.symm
  have hin' : last ∈ rowsFrom (fun i => decide (b i = k)) (r + 1) n := by
    rw [hmore]
    exact mem_append_right more (mem_singleton_self last)
  rw [hlast'] at hin'
  exact absurd (mem_rowsFrom.mp hin').1.1 (Nat.not_succ_le_self r)

/-- The next row enters the index: it goes behind the last row of its bucket, or starts
it. -/
theorem Chained.append (h : Chained b n head tail next)
    (hhead : ∀ k, head' k = if k = b n ∧ tail k = none then some n else head k)
    (htail : ∀ k, tail' k = if k = b n then some n else tail k)
    (hnext : ∀ i ≤ n, next' i = if i = n then none
      else if tail (b n) = some i then some n else next i) :
    Chained b (n + 1) head' tail' next' where
  head := fun k => by
    rw [hhead, rowsFrom_succ (Nat.zero_le n)]
    by_cases hk : k = b n
    · cases hrows : rowsFrom (fun i => decide (b i = k)) 0 n with
      | nil =>
        have htail : tail k = none := by rw [h.tail, hrows]; rfl
        rw [if_pos ⟨hk, htail⟩, if_pos (decide_eq_true hk.symm)]
        rfl
      | cons r rest =>
        have htail : tail k ≠ none := by rw [h.tail, hrows]; simp
        rw [if_neg fun hc => htail hc.2, h.head, hrows]
        rfl
    · rw [if_neg fun hc => hk hc.1, h.head, if_neg fun hc => hk (of_decide_eq_true hc).symm,
        append_nil]
  tail := fun k => by
    rw [htail, rowsFrom_succ (Nat.zero_le n)]
    by_cases hk : k = b n
    · rw [if_pos hk, if_pos (decide_eq_true hk.symm), getLast?_concat]
    · rw [if_neg hk, h.tail, if_neg fun hc => hk (of_decide_eq_true hc).symm, append_nil]
  next := fun i hi => by
    rw [hnext i (Nat.le_of_lt_succ hi)]
    by_cases hin : i = n
    · rw [if_pos hin, hin, rowsFrom_of_le (Nat.le_refl _)]
      rfl
    have hlt : i < n := by omega
    rw [if_neg hin, rowsFrom_succ (by omega)]
    by_cases htl : tail (b n) = some i
    · obtain ⟨-, hb, hlast⟩ := h.tail_eq_some htl
      have hnone : rowsFrom (fun j => decide (b j = b i)) (i + 1) n = [] := by
        rw [eq_nil_iff_forall_not_mem]
        intro j hj
        obtain ⟨hlt, hbj⟩ := mem_rowsFrom.mp hj
        exact hlast j hlt.1 hlt.2 ((of_decide_eq_true hbj).trans hb)
      rw [if_pos htl, hnone, if_pos (decide_eq_true hb.symm)]
      rfl
    · rw [if_neg htl, h.next i hlt]
      by_cases hb : b n = b i
      · -- another row of the bucket stands between `i` and `n`
        cases hrows : rowsFrom (fun j => decide (b j = b i)) (i + 1) n with
        | cons r rest => rfl
        | nil =>
          refine absurd ?_ htl
          have hsplit := rowsFrom_append (p := fun j => decide (b j = b n)) (Nat.zero_le (i + 1))
            (Nat.succ_le_of_lt hlt)
          rw [h.tail, hsplit, rowsFrom_succ (Nat.zero_le i), hb, hrows, if_pos (by simp),
            append_nil, getLast?_concat]
      · rw [if_neg fun hc => hb (of_decide_eq_true hc), append_nil]

end Elisa.RowChain
