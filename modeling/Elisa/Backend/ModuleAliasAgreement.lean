import Mathlib.Data.List.TakeWhile
import Elisa.Backend.ModuleAlias
import Elisa.Lib.Walk

/-!
# Agreement of the module alias resolvers

The in-place matcher is the path builder read backwards: it accepts an owner exactly when the
builder builds that owner (`moduleAliasPathMatchesOwner_iff`).

The chain follower stops at the first target that has more than one segment, even when its first
segment is an alias again, which the builder expands.  Both agree on an alias exactly when the first
segment of the module the chain settles at stands for itself there, within the builder's depth
limit.
-/

namespace Elisa.Backend

open Walk List

/-! ## Paths -/

theorem pathRoot_append_pathRest (path : Bytes) : pathRoot path ++ pathRest path = path :=
  takeWhile_append_dropWhile

variable {name : Bytes}

theorem IsIdentifier.pathRoot_eq (h : IsIdentifier name) : pathRoot name = name := by
  refine takeWhile_eq_self_iff.2 ?_
  intro c hc
  have hdot : c ≠ dot := fun e => h.2.1 (e ▸ hc)
  have hcolon : c ≠ colon := fun e => h.2.2 (e ▸ hc)
  simp [hdot, hcolon]

theorem IsIdentifier.pathRest_eq (h : IsIdentifier name) : pathRest name = [] := by
  have happ := pathRoot_append_pathRest name
  rw [h.pathRoot_eq] at happ
  exact append_right_eq_self.1 happ

theorem separator_notMem_pathRoot (path : Bytes) : dot ∉ pathRoot path ∧ colon ∉ pathRoot path := by
  constructor
  · intro h
    simpa using mem_takeWhile_imp h
  · intro h
    simpa using mem_takeWhile_imp h

theorem IsIdentifier.isCanonicalPath (h : IsIdentifier name) : IsCanonicalPath name :=
  ⟨h.2.1, by rw [h.pathRoot_eq]; exact h.1⟩

variable {path : Bytes}

theorem IsCanonicalPath.isIdentifier_pathRoot (h : IsCanonicalPath path) :
    IsIdentifier (pathRoot path) :=
  ⟨h.2, separator_notMem_pathRoot path⟩

theorem IsCanonicalPath.isIdentifier_or (h : IsCanonicalPath path) :
    IsIdentifier path ∨ ∃ c rest, pathRest path = c :: rest ∧ c = colon := by
  cases hrest : pathRest path with
  | nil =>
    left
    have happ := pathRoot_append_pathRest path
    rw [hrest, append_nil] at happ
    rw [← happ]
    exact h.isIdentifier_pathRoot
  | cons c rest =>
    right
    refine ⟨c, rest, rfl, ?_⟩
    have hc := head?_dropWhile_not (fun c => c != dot && c != colon) path
    rw [show path.dropWhile (fun c => c != dot && c != colon) = c :: rest from hrest] at hc
    have hmem : c ∈ path := by
      rw [← pathRoot_append_pathRest path, hrest]
      simp
    have hdot : c ≠ dot := fun e => h.1 (e ▸ hmem)
    simpa [hdot] using hc

theorem canonicalTail_of_notMem : ∀ {path : Bytes}, dot ∉ path → canonicalTail path = path
  | [], _ => rfl
  | [c], h => by
      have hc : c ≠ dot := fun e => h (by simp [e])
      simp [canonicalTail, hc]
  | c :: d :: path, h => by
      have hc : c ≠ dot := fun e => h (by simp [e])
      have hd : dot ∉ d :: path := fun hm => h (mem_cons_of_mem c hm)
      have hp : dot ∉ path := fun hm => hd (mem_cons_of_mem d hm)
      simp only [canonicalTail, if_neg hc]
      split
      · next hcolon =>
          rw [canonicalTail_of_notMem hp, hcolon.1, hcolon.2]
      · rw [canonicalTail_of_notMem hd]

theorem IsCanonicalPath.canonicalTail_pathRest (h : IsCanonicalPath path) :
    canonicalTail (pathRest path) = pathRest path := by
  refine canonicalTail_of_notMem ?_
  intro hm
  exact h.1 (dropWhile_sublist _ |>.subset hm)

/-! ## Matching a prefix -/

theorem dropSeparator_eq_some {owner rest : Bytes} :
    dropSeparator owner = some rest ↔ owner = colon :: colon :: rest := by
  match owner with
  | [] => simp [dropSeparator]
  | [c] => simp [dropSeparator]
  | c :: d :: owner =>
    simp only [dropSeparator, Option.ite_none_right_eq_some, Option.some.injEq, List.cons.injEq,
      and_assoc]

theorem separator_step {index e : Nat} (tail owner : Bytes) (andThen : Bytes → Bool × Nat)
    (h : ∀ rest, andThen rest = (true, e) ↔ tail <+: rest ∧ e = index + 2 + tail.length) :
    (match dropSeparator owner with
      | none => (false, index)
      | some rest => andThen rest) = (true, e) ↔
      colon :: colon :: tail <+: owner ∧ e = index + (colon :: colon :: tail).length := by
  cases hdrop : dropSeparator owner with
  | none =>
    have hno : ¬ colon :: colon :: tail <+: owner := by
      rintro ⟨rest, rfl⟩
      simp [dropSeparator] at hdrop
    simp [hno]
  | some rest =>
    rw [dropSeparator_eq_some] at hdrop
    subst hdrop
    simp only [h, prefix_cons_inj, length_cons]
    exact and_congr_right fun _ => by omega

theorem comparePrefixLoop_eq_true : ∀ (path owner : Bytes) (index e : Nat),
    comparePrefixLoop path owner index = (true, e) ↔
      canonicalTail path <+: owner ∧ e = index + (canonicalTail path).length
  | [], owner, index, e => by
      simp [comparePrefixLoop, canonicalTail, eq_comm]
  | [c], owner, index, e => by
      by_cases hdot : c = dot
      · simp only [comparePrefixLoop, canonicalTail, if_pos hdot]
        exact separator_step [] owner (fun _ => (true, index + 2)) (fun rest => by simp [eq_comm])
      simp only [comparePrefixLoop, canonicalTail, if_neg hdot]
      cases owner with
      | nil => simp
      | cons a owner =>
        by_cases ha : a = c
        · subst ha
          simp [eq_comm]
        · simp [ha, Ne.symm ha]
  | c :: d :: path, owner, index, e => by
      by_cases hdot : c = dot
      · simp only [comparePrefixLoop, canonicalTail, if_pos hdot]
        exact separator_step (canonicalTail (d :: path)) owner _
          (fun rest => comparePrefixLoop_eq_true (d :: path) rest (index + 2) e)
      by_cases hcolon : c = colon ∧ d = colon
      · simp only [comparePrefixLoop, canonicalTail, if_neg hdot, if_pos hcolon]
        exact separator_step (canonicalTail path) owner _
          (fun rest => comparePrefixLoop_eq_true path rest (index + 2) e)
      simp only [comparePrefixLoop, canonicalTail, if_neg hdot, if_neg hcolon]
      cases owner with
      | nil => simp
      | cons a owner =>
        by_cases ha : a = c
        · subst ha
          simp only [head?_cons, if_true, tail_cons, prefix_cons_inj,
            length_cons]
          rw [comparePrefixLoop_eq_true (d :: path) owner (index + 1) e]
          exact and_congr_right fun _ => by omega
        · simp [ha, Ne.symm ha]

theorem canonicalTail_cons {c : UInt8} (hdot : c ≠ dot) (hcolon : c ≠ colon) (path : Bytes) :
    canonicalTail (c :: path) = c :: canonicalTail path := by
  cases path with
  | nil => simp [canonicalTail, hdot]
  | cons d path => simp [canonicalTail, hdot, hcolon]

theorem canonicalTail_append : ∀ {root : Bytes} (rest : Bytes), dot ∉ root → colon ∉ root →
    canonicalTail (root ++ rest) = root ++ canonicalTail rest
  | [], _, _, _ => rfl
  | c :: root, rest, hdot, hcolon => by
      simp only [mem_cons, not_or] at hdot hcolon
      rw [cons_append, canonicalTail_cons (Ne.symm hdot.1) (Ne.symm hcolon.1),
        canonicalTail_append rest hdot.2 hcolon.2, cons_append]

theorem canonicalTail_eq (path : Bytes) :
    canonicalTail path = pathRoot path ++ canonicalTail (pathRest path) := by
  obtain ⟨hdot, hcolon⟩ := separator_notMem_pathRoot path
  rw [← canonicalTail_append _ hdot hcolon, pathRoot_append_pathRest]

theorem moduleAliasPathComparePrefix_eq_true {head suffix owner : Bytes} {e : Nat}
    (hhead : head <+: owner) :
    moduleAliasPathComparePrefix suffix owner head.length = (true, e) ↔
      head ++ canonicalTail suffix <+: owner ∧ e = (head ++ canonicalTail suffix).length := by
  obtain ⟨rest, rfl⟩ := hhead
  rw [moduleAliasPathComparePrefix, comparePrefixLoop_eq_true, drop_left,
    prefix_append_right_inj, length_append]

/-! ## The matcher and the builder -/

variable {t : AliasTable}

theorem moduleAliasPathPrefixEnd_eq_true (owner : Bytes) : ∀ (levels : Nat) (l : Lookup) (e : Nat),
    moduleAliasPathPrefixEnd t owner levels l = (true, e) ↔
      ∃ built, appendModuleAliasPathFrom t levels l = some built ∧ built <+: owner ∧
        e = built.length
  | 0, l, e => by simp [moduleAliasPathPrefixEnd, appendModuleAliasPathFrom]
  | levels + 1, l, e => by
      simp only [moduleAliasPathPrefixEnd, appendModuleAliasPathFrom]
      by_cases hroot : pathRoot l.name = []
      · simp [hroot]
      simp only [if_neg hroot]
      generalize moduleAliasRowTarget t { l with name := pathRoot l.name } = selected
      cases hamb : selected.ambiguous with
      | true => simp
      | false =>
        cases hfound : selected.found with
        | false =>
          have hcmp := @moduleAliasPathComparePrefix_eq_true [] l.name owner e
            ( nil_prefix)
          rw [nil_append, canonicalTail_eq] at hcmp
          simpa using hcmp
        | true =>
          have ih := moduleAliasPathPrefixEnd_eq_true owner levels selected.lookup
          simp only [Bool.false_eq_true, if_false, if_true, Bool.not_true]
          cases hres : moduleAliasPathPrefixEnd t owner levels selected.lookup with
          | mk matched targetEnd =>
            cases matched with
            | false =>
              simp only [Bool.not_false, if_true, Prod.mk.injEq, Bool.false_eq_true,
                false_and, Option.map_eq_some_iff, false_iff]
              rintro ⟨_, ⟨head, hhead, rfl⟩, howner, -⟩
              have hmatch := (ih _).2
                ⟨head, hhead, (prefix_append _ _).trans howner, rfl⟩
              rw [hres] at hmatch
              cases hmatch
            | true =>
              obtain ⟨head, hhead, howner, rfl⟩ := (ih targetEnd).1 hres
              simp only [Bool.not_true, Bool.false_eq_true, if_false, hhead,
                Option.map_some, Option.some.injEq, exists_eq_left']
              exact moduleAliasPathComparePrefix_eq_true howner

theorem moduleAliasPathMatchesOwner_eq_true (l : Lookup) (owner : Bytes) :
    moduleAliasPathMatchesOwner t l owner = true ↔ appendModuleAliasPath t l = some owner := by
  have hend := moduleAliasPathPrefixEnd_eq_true (t := t) owner aliasDepthLimit l
  unfold moduleAliasPathMatchesOwner appendModuleAliasPath
  constructor
  · intro h
    cases hres : moduleAliasPathPrefixEnd t owner aliasDepthLimit l with
    | mk matched e =>
      simp only [hres, Bool.and_eq_true, decide_eq_true_eq] at h
      obtain ⟨rfl, rfl⟩ := h
      obtain ⟨built, hbuilt, hpre, hlen⟩ := (hend _).1 hres
      rw [hbuilt, hpre.eq_of_length hlen.symm]
  · intro h
    have hres := (hend owner.length).2 ⟨owner, h, prefix_rfl, rfl⟩
    simp [hres]

/-! ## Hops from alias to alias -/

/-- A selection made from the given rows: either empty, or holding the data of
one of them that has the looked-up name. -/
def AliasSelection.MadeFrom (rows : List AliasRow) (l : Lookup) (s : AliasSelection) : Prop :=
  (s.found = false ∧ s.ambiguous = false) ∨
    (s.found = true ∧ ∃ row ∈ rows, row.name = l.name ∧
      s.lookup = ⟨row.target, row.scope, row.offset⟩)

variable {l : Lookup}

theorem AliasSelection.MadeFrom.consider {rows : List AliasRow} {s : AliasSelection}
    (h : s.MadeFrom rows l) {row : AliasRow} (hrow : row ∈ rows) :
    (s.consider l row).MadeFrom rows l := by
  unfold AliasSelection.consider
  split
  · exact h
  rename_i hvisible
  have hname : row.name = l.name := by
    simp only [AliasRow.visible, Bool.not_eq_true', Bool.not_eq_false, Bool.and_eq_true,
      decide_eq_true_eq] at hvisible
    exact hvisible.1.1
  split
  · exact Or.inr ⟨rfl, row, hrow, hname, rfl⟩
  rename_i hkeep
  split
  · rcases h with ⟨hfound, -⟩ | ⟨hfound, old, hold, hname', heq⟩
    · simp [hfound] at hkeep
    · exact Or.inr ⟨hfound, old, hold, hname', heq⟩
  · exact h

theorem moduleAliasRowTarget_madeFrom (l : Lookup) :
    (moduleAliasRowTarget t l).MadeFrom t.rows l := by
  refine List.foldlRecOn t.rows (AliasSelection.consider l) (Or.inl ⟨rfl, rfl⟩) ?_
  intro s hs row hrow
  exact hs.consider hrow

theorem AliasTable.name_mem_of_mem_rows {row : AliasRow} (h : row ∈ t.rows) :
    row.name ∈ t.names ∧ row.target ∈ t.targets := by
  obtain ⟨r, hr, rfl⟩ := mem_map.1 h
  have hnt : (r.1.1, r.1.2) ∈ t.names.zip t.targets := (of_mem_zip hr).1
  exact of_mem_zip hnt

/-- Where an alias lookup goes next: the selected row's target, seen from that
row.  A lookup that finds nothing, or two different targets, goes nowhere. -/
def Lookup.hop (t : AliasTable) (l : Lookup) : Option Lookup :=
  let selected := moduleAliasRowTarget t l
  if selected.found && !selected.ambiguous then some selected.lookup else none

/-- The chain of whole-name lookups from `l` ends after `k` hops at `l'`, where
nothing is found any more. -/
def Settles (t : AliasTable) (k : Nat) (l l' : Lookup) : Prop :=
  HaltsAt (Lookup.hop t) k l l' ∧ (moduleAliasRowTarget t l').found = false

variable {l' : Lookup}

theorem Lookup.found_of_hop (h : l.hop t = some l') :
    (moduleAliasRowTarget t l).found = true ∧ (moduleAliasRowTarget t l).ambiguous = false ∧
      (moduleAliasRowTarget t l).lookup = l' := by
  simp only [Lookup.hop] at h
  split at h
  · next hsel =>
      simp only [Bool.and_eq_true, Bool.not_eq_true'] at hsel
      exact ⟨hsel.1, hsel.2, Option.some.inj h⟩
  · cases h

theorem isIdentifier_of_found (h : (moduleAliasRowTarget t l).found = true) :
    IsIdentifier l.name ∧ IsCanonicalPath (moduleAliasRowTarget t l).target := by
  rcases moduleAliasRowTarget_madeFrom (t := t) l with ⟨hno, -⟩ | ⟨-, row, hrow, hname, hlookup⟩
  · rw [h] at hno
    cases hno
  · obtain ⟨hn, ht⟩ := AliasTable.name_mem_of_mem_rows hrow
    have htarget : (moduleAliasRowTarget t l).target = row.target := congrArg Lookup.name hlookup
    exact ⟨hname ▸ t.names_identifier _ hn, htarget ▸ t.targets_canonical _ ht⟩

theorem Lookup.hop_of_not_found (h : (moduleAliasRowTarget t l).found = false) :
    l.hop t = none := by
  simp [Lookup.hop, h]

theorem settles_zero (h : (moduleAliasRowTarget t l).found = false) : Settles t 0 l l :=
  ⟨haltsAt_zero.2 ⟨rfl, Lookup.hop_of_not_found h⟩, h⟩

variable {k : Nat}

theorem settles_succ {m : Lookup} (h : l.hop t = some m) :
    Settles t (k + 1) l l' ↔ Settles t k m l' := by
  unfold Settles
  rw [haltsAt_succ h]

theorem Lookup.hop_cases (t : AliasTable) (l : Lookup) :
    ((moduleAliasRowTarget t l).found = false ∧ (moduleAliasRowTarget t l).ambiguous = false) ∨
    ((moduleAliasRowTarget t l).ambiguous = true ∧ ∀ k l', ¬ Settles t k l l') ∨
    ((moduleAliasRowTarget t l).found = true ∧ (moduleAliasRowTarget t l).ambiguous = false ∧
      l.hop t = some (moduleAliasRowTarget t l).lookup) := by
  rcases moduleAliasRowTarget_madeFrom (t := t) l with hno | ⟨hfound, -⟩
  · exact Or.inl hno
  right
  cases hamb : (moduleAliasRowTarget t l).ambiguous with
  | false => exact Or.inr ⟨hfound, rfl, by simp [Lookup.hop, hfound, hamb]⟩
  | true =>
    refine Or.inl ⟨rfl, ?_⟩
    rintro k l' ⟨hhalt, hend⟩
    have hnone : l.hop t = none := by simp [Lookup.hop, hamb]
    obtain ⟨-, rfl⟩ := (haltsAt_zero.2 ⟨rfl, hnone⟩).unique hhalt
    rw [hfound] at hend
    cases hend

theorem Settles.of_not_found (h : Settles t k l l')
    (hno : (moduleAliasRowTarget t l).found = false) : k = 0 ∧ l = l' :=
  let ⟨hk, hl⟩ := (settles_zero hno).1.unique h.1
  ⟨hk.symm, hl⟩

theorem Settles.of_hop {m : Lookup} (h : Settles t k l l') (hhop : l.hop t = some m) :
    ∃ j, k = j + 1 ∧ Settles t j m l' := by
  cases k with
  | zero =>
    obtain ⟨rfl, hno⟩ := haltsAt_zero.1 h.1
    rw [hhop] at hno
    cases hno
  | succ j => exact ⟨j, rfl, (settles_succ hhop).1 h⟩

theorem Settles.le_names (h : Settles t k l l') : k ≤ t.names.length := by
  have hle : k ≤ (t.rows.map fun row => (⟨row.target, row.scope, row.offset⟩ : Lookup)).length := by
    refine h.1.hops_le ?_
    intro a b hab
    obtain ⟨hfound, -, rfl⟩ := Lookup.found_of_hop hab
    rcases moduleAliasRowTarget_madeFrom (t := t) a with ⟨hno, -⟩ | ⟨-, row, hrow, -, hlookup⟩
    · rw [hfound] at hno
      cases hno
    · rw [hlookup]
      exact mem_map_of_mem hrow
  have hrows : t.rows.length ≤ t.names.length := by
    simp only [AliasTable.rows, length_map, length_zip]
    omega
  rw [length_map] at hle
  exact hle.trans hrows

/-! ## The chain follower -/

theorem moduleAliasChainLoop_of_settles {l' : Lookup} :
    ∀ {k steps : Nat} {l : Lookup} (hopped : Bool) (target : Bytes), Settles t k l l' → k < steps →
      moduleAliasChainLoop t steps l hopped target =
        if k = 0 then ⟨hopped, target⟩ else ⟨true, l'.name⟩
  | _, 0, _, _, _, _, hlt => by omega
  | k, steps + 1, l, hopped, target, h, hlt => by
      rcases Lookup.hop_cases t l with ⟨hno, hamb⟩ | ⟨-, hnever⟩ | ⟨hfound, hamb, hhop⟩
      · obtain ⟨rfl, rfl⟩ := h.of_not_found hno
        simp [moduleAliasChainLoop, hno, hamb]
      · exact absurd h (hnever k l')
      obtain ⟨j, rfl, h'⟩ := h.of_hop hhop
      simp only [moduleAliasChainLoop, hfound, hamb, Bool.false_eq_true, if_false, Bool.not_true]
      rw [moduleAliasChainLoop_of_settles true _ h' (by omega), if_neg (Nat.succ_ne_zero j)]
      split
      · next hj =>
          subst hj
          obtain ⟨rfl, -⟩ := haltsAt_zero.1 h'.1
          rfl
      · rfl

theorem moduleAliasChainLoop_of_not_settles :
    ∀ {steps : Nat} {l : Lookup} {hopped : Bool} (target : Bytes),
      (∀ k l', ¬ Settles t k l l') → 0 < steps ∨ hopped = true →
      moduleAliasChainLoop t steps l hopped target = ⟨true, []⟩
  | 0, _, _, _, _, hsteps => by
      rcases hsteps with hpos | rfl
      · omega
      · rfl
  | steps + 1, l, hopped, target, hnever, _ => by
      rcases Lookup.hop_cases t l with ⟨hno, -⟩ | ⟨hamb, -⟩ | ⟨hfound, hamb, hhop⟩
      · exact absurd (settles_zero hno) (hnever 0 l)
      · simp [moduleAliasChainLoop, hamb]
      · simp only [moduleAliasChainLoop, hfound, hamb, Bool.false_eq_true, if_false, Bool.not_true]
        refine moduleAliasChainLoop_of_not_settles _ ?_ (Or.inr rfl)
        intro k l' h
        exact hnever (k + 1) l' ((settles_succ hhop).2 h)

/-! ## The builder on an alias -/

theorem appendModuleAliasPathFrom_eq_root (levels : Nat) (l : Lookup) :
    appendModuleAliasPathFrom t levels l =
      (appendModuleAliasPathFrom t levels { l with name := pathRoot l.name }).map
        (· ++ canonicalTail (pathRest l.name)) := by
  cases levels with
  | zero => rfl
  | succ levels =>
    by_cases hroot : pathRoot l.name = []
    · have hnil : pathRoot [] = [] := rfl
      simp only [appendModuleAliasPathFrom, hroot, hnil, if_true, Option.map_none]
    have hid : IsIdentifier (pathRoot l.name) := ⟨hroot, separator_notMem_pathRoot l.name⟩
    simp only [appendModuleAliasPathFrom, hid.pathRoot_eq, hid.pathRest_eq, if_neg hroot]
    split
    · rfl
    · split
      · simp [canonicalTail]
      · simp [canonicalTail]

theorem appendModuleAliasPathFrom_identifier (hid : IsIdentifier l.name) (levels : Nat) :
    appendModuleAliasPathFrom t (levels + 1) l =
      if (moduleAliasRowTarget t l).ambiguous then none
      else if (moduleAliasRowTarget t l).found then
        appendModuleAliasPathFrom t levels (moduleAliasRowTarget t l).lookup
      else some l.name := by
  simp only [appendModuleAliasPathFrom, hid.pathRoot_eq, hid.pathRest_eq, if_neg hid.1]
  simp [canonicalTail]

theorem not_found_of_not_identifier (h : ¬ IsIdentifier l.name) :
    (moduleAliasRowTarget t l).found = false := by
  cases hfound : (moduleAliasRowTarget t l).found with
  | false => rfl
  | true => exact absurd (isIdentifier_of_found hfound).1 h

theorem appendModuleAliasPathFrom_of_settles {l' : Lookup} :
    ∀ {k levels : Nat} {l : Lookup}, Settles t k l l' →
      appendModuleAliasPathFrom t levels l =
        if k ≤ levels then appendModuleAliasPathFrom t (levels - k) l' else none
  | 0, levels, l, h => by
      obtain ⟨rfl, -⟩ := haltsAt_zero.1 h.1
      simp
  | k + 1, 0, l, h => rfl
  | k + 1, levels + 1, l, h => by
      obtain ⟨m, hhop, -⟩ := h.1.exists_next
      obtain ⟨hfound, hamb, rfl⟩ := Lookup.found_of_hop hhop
      have h' := (settles_succ hhop).1 h
      rw [appendModuleAliasPathFrom_identifier (isIdentifier_of_found hfound).1, hfound, hamb]
      simp only [Bool.false_eq_true, if_false, if_true]
      rw [appendModuleAliasPathFrom_of_settles h']
      simp only [Nat.add_le_add_iff_right, Nat.add_sub_add_right]

theorem exists_settles_of_append : ∀ {levels : Nat} {l : Lookup} {built : Bytes},
    IsIdentifier l.name → appendModuleAliasPathFrom t levels l = some built →
      ∃ k l', Settles t k l l'
  | 0, _, _, _, h => by cases h
  | levels + 1, l, built, hid, h => by
      rcases Lookup.hop_cases t l with ⟨hno, -⟩ | ⟨hamb, -⟩ | ⟨hfound, hamb, hhop⟩
      · exact ⟨0, l, settles_zero hno⟩
      · rw [appendModuleAliasPathFrom_identifier hid, hamb] at h
        cases h
      rw [appendModuleAliasPathFrom_identifier hid, hfound, hamb] at h
      by_cases hid' : IsIdentifier (moduleAliasRowTarget t l).lookup.name
      · obtain ⟨k, l', hset⟩ := exists_settles_of_append hid' h
        exact ⟨k + 1, l', (settles_succ hhop).2 hset⟩
      · exact ⟨1, _, (settles_succ hhop).2 (settles_zero (not_found_of_not_identifier hid'))⟩

theorem append_not_identifier {levels : Nat} {built : Bytes} (hpath : IsCanonicalPath l.name)
    (hno : ¬ IsIdentifier l.name) (h : appendModuleAliasPathFrom t levels l = some built) :
    ¬ IsIdentifier built := by
  rw [appendModuleAliasPathFrom_eq_root, Option.map_eq_some_iff] at h
  obtain ⟨head, -, rfl⟩ := h
  rw [hpath.canonicalTail_pathRest]
  rcases hpath.isIdentifier_or with hid | ⟨c, rest, hrest, rfl⟩
  · exact absurd hid hno
  · intro hid
    exact hid.2.2 (by simp [hrest])

theorem Settles.isCanonicalPath {l' : Lookup} : ∀ {k : Nat} {l : Lookup}, Settles t k l l' →
    IsCanonicalPath l.name → IsCanonicalPath l'.name
  | 0, l, h, hl => by
      obtain ⟨rfl, -⟩ := haltsAt_zero.1 h.1
      exact hl
  | k + 1, l, h, hl => by
      obtain ⟨m, hhop, -⟩ := h.1.exists_next
      obtain ⟨hfound, -, rfl⟩ := Lookup.found_of_hop hhop
      exact ((settles_succ hhop).1 h).isCanonicalPath (isIdentifier_of_found hfound).2

theorem append_of_not_found (hid : IsIdentifier l.name)
    (hno : (moduleAliasRowTarget t l).found = false) (levels : Nat) :
    appendModuleAliasPathFrom t (levels + 1) l = some l.name := by
  rcases Lookup.hop_cases t l with ⟨-, hamb⟩ | ⟨-, hnever⟩ | ⟨hfound, -, -⟩
  · rw [appendModuleAliasPathFrom_identifier hid, hno, hamb]
    rfl
  · exact absurd (settles_zero hno) (hnever 0 l)
  · rw [hno] at hfound
    cases hfound

theorem append_eq_identifier (hname : IsIdentifier name) {levels : Nat}
    (hid : IsIdentifier l.name) :
    appendModuleAliasPathFrom t levels l = some name ↔
      ∃ k l', Settles t k l l' ∧ l'.name = name ∧ k < levels := by
  constructor
  · intro h
    obtain ⟨k, l', hset⟩ := exists_settles_of_append hid h
    rw [appendModuleAliasPathFrom_of_settles hset] at h
    split at h
    · next hk =>
        by_cases hid' : IsIdentifier l'.name
        · cases hlev : levels - k with
          | zero =>
            rw [hlev] at h
            cases h
          | succ j =>
            rw [hlev, append_of_not_found hid' hset.2] at h
            exact ⟨k, l', hset, Option.some.inj h, by omega⟩
        · have hpath := hset.isCanonicalPath hid.isCanonicalPath
          exact absurd hname (append_not_identifier hpath hid' h)
    · cases h
  · rintro ⟨k, l', hset, rfl, hlt⟩
    obtain ⟨j, hj⟩ : ∃ j, levels - k = j + 1 := ⟨levels - k - 1, by omega⟩
    rw [appendModuleAliasPathFrom_of_settles hset, if_pos (by omega), hj]
    exact append_of_not_found hname hset.2 j

/-! ## The chain follower and the builder -/

def ChainResult.module (r : ChainResult) : Option Bytes :=
  if r.target = [] then none else some r.target

/-- The chain follower and the builder resolve the alias `l.name` alike: either
both find the same module or neither finds one. -/
def ChainAgrees (t : AliasTable) (l : Lookup) : Prop :=
  (moduleAliasChainTarget t l).isAlias = true →
    appendModuleAliasPath t l = (moduleAliasChainTarget t l).module

/-- Wherever the alias chain of `l` settles, the first segment of the module it
settles at stands for itself there, and both chains together stay below the
depth limit. -/
def TargetRootStandsForItself (t : AliasTable) (l : Lookup) : Prop :=
  ∀ k l', 0 < k → Settles t k l l' →
    ∃ j r, Settles t j { l' with name := pathRoot l'.name } r ∧ r.name = pathRoot l'.name ∧
      k + j < aliasDepthLimit

theorem appendModuleAliasPath_eq_settled (hpath : IsCanonicalPath l'.name)
    (hset : Settles t k l l') :
    appendModuleAliasPath t l = some l'.name ↔
      ∃ j r, Settles t j { l' with name := pathRoot l'.name } r ∧ r.name = pathRoot l'.name ∧
        k + j < aliasDepthLimit := by
  have hroot := hpath.isIdentifier_pathRoot
  have happ := pathRoot_append_pathRest l'.name
  unfold appendModuleAliasPath
  rw [appendModuleAliasPathFrom_of_settles hset]
  split
  · next hk =>
      rw [appendModuleAliasPathFrom_eq_root, hpath.canonicalTail_pathRest,
        Option.map_eq_some_iff]
      have hcancel : ∀ head : Bytes, head ++ pathRest l'.name = l'.name ↔
        head = pathRoot l'.name := by
        intro head
        nth_rewrite 2 [← happ]
        exact append_left_inj _
      simp only [hcancel, exists_eq_right]
      rw [append_eq_identifier hroot hroot]
      exact exists_congr fun j => exists_congr fun r => and_congr_right fun _ =>
        and_congr_right fun _ => by omega
  · next hk =>
      constructor
      · intro h
        cases h
      · rintro ⟨j, r, -, -, hlt⟩
        omega

theorem Settles.isCanonicalPath_of_pos (h : Settles t k l l') (hk : 0 < k) :
    IsCanonicalPath l'.name := by
  obtain ⟨j, rfl⟩ : ∃ j, k = j + 1 := ⟨k - 1, by omega⟩
  obtain ⟨m, hhop, -⟩ := h.1.exists_next
  obtain ⟨hfound, -, rfl⟩ := Lookup.found_of_hop hhop
  exact ((settles_succ hhop).1 h).isCanonicalPath (isIdentifier_of_found hfound).2

variable {target : Bytes}

theorem IsCanonicalPath.module_eq {isAlias : Bool} (h : IsCanonicalPath target) :
    ChainResult.module ⟨isAlias, target⟩ = some target := by
  have hne : target ≠ [] := by
    rintro rfl
    exact h.2 rfl
  simp [ChainResult.module, hne]

theorem appendModuleAliasPath_of_not_settles (hid : IsIdentifier l.name)
    (hnever : ∀ k l', ¬ Settles t k l l') : appendModuleAliasPath t l = none := by
  cases happ : appendModuleAliasPath t l with
  | none => rfl
  | some built =>
    obtain ⟨k, l', hset⟩ := exists_settles_of_append hid happ
    exact absurd hset (hnever k l')

/-- From a source position, the chain follower agrees with the builder exactly
where the first segment of the module it settles at stands for itself. -/
theorem chainAgrees_iff (hpos : l.beforeOffset ≠ 0) :
    ChainAgrees t l ↔ TargetRootStandsForItself t l := by
  unfold ChainAgrees TargetRootStandsForItself moduleAliasChainTarget
  simp only [if_pos hpos]
  by_cases hsettles : ∃ k l', Settles t k l l'
  · obtain ⟨k, l', hset⟩ := hsettles
    rw [moduleAliasChainLoop_of_settles false [] hset (by have := hset.le_names; omega)]
    have hsame : ∀ k₂ l₂, Settles t k₂ l l₂ → k = k₂ ∧ l' = l₂ := fun k₂ l₂ h₂ =>
      hset.1.unique h₂.1
    cases k with
    | zero =>
      simp only [if_true, Bool.false_eq_true, false_implies, true_iff]
      intro k₂ l₂ hpos₂ h₂
      have := (hsame k₂ l₂ h₂).1
      omega
    | succ k =>
      have hpath := hset.isCanonicalPath_of_pos (Nat.succ_pos k)
      rw [if_neg (Nat.succ_ne_zero k)]
      simp only [true_implies, hpath.module_eq]
      rw [appendModuleAliasPath_eq_settled hpath hset]
      constructor
      · intro h k₂ l₂ _ h₂
        obtain ⟨rfl, rfl⟩ := hsame k₂ l₂ h₂
        exact h
      · intro h
        exact h (k + 1) l' (Nat.succ_pos k) hset
  · have hnever : ∀ k l', ¬ Settles t k l l' := fun k l' h => hsettles ⟨k, l', h⟩
    have hid : IsIdentifier l.name := by
      cases hfound : (moduleAliasRowTarget t l).found with
      | false => exact absurd (settles_zero hfound) (hnever 0 l)
      | true => exact (isIdentifier_of_found hfound).1
    rw [moduleAliasChainLoop_of_not_settles [] hnever (Or.inl (Nat.succ_pos _)),
      appendModuleAliasPath_of_not_settles hid hnever]
    simp only [ChainResult.module, if_true, true_implies, true_iff]
    intro k l' _ h
    exact absurd h (hnever k l')

/-! ## Callers without a source offset -/

def FirstMatchFollowsScopes (t : AliasTable) (l : Lookup) : Prop :=
  ∀ target, (∃ k, HaltsAt (firstAliasTarget t) k l.name target) ↔
    ∃ k l', Settles t k l l' ∧ l'.name = target

theorem firstAliasTarget_eq_some (h : firstAliasTarget t name = some target) :
    IsIdentifier name ∧ IsCanonicalPath target ∧ target ∈ (t.names.zip t.targets).map (·.2) := by
  obtain ⟨row, hrow, rfl⟩ := Option.map_eq_some_iff.1 h
  have hname : row.1 = name := by simpa using find?_some hrow
  have hmem : (row.1, row.2) ∈ t.names.zip t.targets := mem_of_find?_eq_some hrow
  obtain ⟨hn, ht⟩ := of_mem_zip hmem
  exact ⟨hname ▸ t.names_identifier _ hn, t.targets_canonical _ ht, mem_map_of_mem hmem⟩

theorem firstMatch_hops_le (h : HaltsAt (firstAliasTarget t) k name target) :
    k ≤ t.names.length := by
  have hle := h.hops_le fun a b hab => (firstAliasTarget_eq_some hab).2.2
  rw [length_map, length_zip] at hle
  omega

theorem moduleAliasFirstMatchLoop_of_halts {last : Bytes} :
    ∀ {k steps : Nat} {name : Bytes} (hopped : Bool) (target : Bytes),
      HaltsAt (firstAliasTarget t) k name last → k < steps →
      moduleAliasFirstMatchLoop t steps name hopped target =
        if k = 0 then ⟨hopped, target⟩ else ⟨true, last⟩
  | _, 0, _, _, _, _, hlt => by omega
  | 0, steps + 1, name, hopped, target, h, _ => by
      obtain ⟨rfl, hno⟩ := haltsAt_zero.1 h
      simp [moduleAliasFirstMatchLoop, hno]
  | k + 1, steps + 1, name, hopped, target, h, hlt => by
      obtain ⟨next, hnext, h'⟩ := h.exists_next
      simp only [moduleAliasFirstMatchLoop, hnext]
      rw [moduleAliasFirstMatchLoop_of_halts true next h' (by omega), if_neg (Nat.succ_ne_zero k)]
      split
      · next hk =>
          subst hk
          obtain ⟨rfl, -⟩ := haltsAt_zero.1 h'
          rfl
      · rfl

theorem moduleAliasFirstMatchLoop_of_not_halts :
    ∀ {steps : Nat} {name : Bytes} {hopped : Bool} (target : Bytes),
      (∀ k last, ¬ HaltsAt (firstAliasTarget t) k name last) → 0 < steps ∨ hopped = true →
      moduleAliasFirstMatchLoop t steps name hopped target = ⟨true, []⟩
  | 0, _, _, _, _, hsteps => by
      rcases hsteps with hpos | rfl
      · omega
      · rfl
  | steps + 1, name, hopped, target, hnever, _ => by
      cases hnext : firstAliasTarget t name with
      | none => exact absurd (haltsAt_zero.2 ⟨rfl, hnext⟩) (hnever 0 name)
      | some next =>
        simp only [moduleAliasFirstMatchLoop, hnext]
        refine moduleAliasFirstMatchLoop_of_not_halts _ ?_ (Or.inr rfl)
        intro k last h
        exact hnever (k + 1) last ((haltsAt_succ hnext).2 h)

/-- Without a source offset the first matching row decides.  Where that is the
row the scopes select, the chain follower still agrees with the builder. -/
theorem chainAgrees_of_firstMatch (hpos : l.beforeOffset = 0)
    (hfollow : FirstMatchFollowsScopes t l) (hself : TargetRootStandsForItself t l) :
    ChainAgrees t l := by
  unfold ChainAgrees moduleAliasChainTarget
  simp only [hpos, ne_eq, not_true_eq_false, if_false]
  by_cases hhalts : ∃ k last, HaltsAt (firstAliasTarget t) k l.name last
  · obtain ⟨k, last, hhalt⟩ := hhalts
    rw [moduleAliasFirstMatchLoop_of_halts false [] hhalt
      (by have := firstMatch_hops_le hhalt; omega)]
    split
    · simp
    rename_i hk
    intro _
    obtain ⟨j, l', hset, rfl⟩ := (hfollow last).1 ⟨k, hhalt⟩
    cases j with
    | zero =>
      obtain ⟨rfl, -⟩ := haltsAt_zero.1 hset.1
      have hid : IsIdentifier l.name := by
        obtain ⟨i, rfl⟩ : ∃ i, k = i + 1 := ⟨k - 1, by omega⟩
        obtain ⟨next, hnext, -⟩ := hhalt.exists_next
        exact (firstAliasTarget_eq_some hnext).1
      rw [hid.isCanonicalPath.module_eq]
      exact append_of_not_found hid hset.2 15
    | succ j =>
      have hpath := hset.isCanonicalPath_of_pos (Nat.succ_pos j)
      rw [hpath.module_eq, appendModuleAliasPath_eq_settled hpath hset]
      exact hself _ l' (Nat.succ_pos j) hset
  · have hnever : ∀ k last, ¬ HaltsAt (firstAliasTarget t) k l.name last :=
      fun k last h => hhalts ⟨k, last, h⟩
    have hid : IsIdentifier l.name := by
      cases hnext : firstAliasTarget t l.name with
      | none => exact absurd (haltsAt_zero.2 ⟨rfl, hnext⟩) (hnever 0 l.name)
      | some next => exact (firstAliasTarget_eq_some hnext).1
    have hnever' : ∀ k l', ¬ Settles t k l l' := by
      intro k l' h
      obtain ⟨j, hj⟩ := (hfollow l'.name).2 ⟨k, l', h, rfl⟩
      exact hnever j _ hj
    rw [moduleAliasFirstMatchLoop_of_not_halts [] hnever (Or.inl (Nat.succ_pos _)),
      appendModuleAliasPath_of_not_settles hid hnever']
    simp [ChainResult.module]

/-! ## Agreement -/

/-- The matcher and the builder agree everywhere.  The chain follower agrees with them, from a
source position, exactly where the first segment of the module it settles at stands for itself;
without one that is enough where the first matching rows are the ones the scopes select. -/
theorem module_alias_resolvers_agree (t : AliasTable) (l : Lookup) :
    (∀ owner, moduleAliasPathMatchesOwner t l owner = true ↔
      appendModuleAliasPath t l = some owner) ∧
    (l.beforeOffset ≠ 0 → (ChainAgrees t l ↔ TargetRootStandsForItself t l)) ∧
    (l.beforeOffset = 0 → FirstMatchFollowsScopes t l → TargetRootStandsForItself t l →
      ChainAgrees t l) :=
  ⟨moduleAliasPathMatchesOwner_eq_true l, chainAgrees_iff, chainAgrees_of_firstMatch⟩

/-- `using Foo as Root` and, after it, `using Root::Nested as N`. -/
def nestedAliasTable : AliasTable where
  names := [ascii "Root", ascii "N"]
  targets := [ascii "Foo", ascii "Root::Nested"]
  scopes := [[], []]
  offsets := [13, 35]
  names_identifier := by decide
  targets_canonical := by decide

/-- Asked for `N`, the chain follower answers `Root::Nested` and the builder
`Foo::Nested`. -/
theorem nested_alias_target_differs :
    moduleAliasChainTarget nestedAliasTable ⟨ascii "N", [], 60⟩ = ⟨true, ascii "Root::Nested"⟩ ∧
    appendModuleAliasPath nestedAliasTable ⟨ascii "N", [], 60⟩ = some (ascii "Foo::Nested") ∧
    ¬ ChainAgrees nestedAliasTable ⟨ascii "N", [], 60⟩ := by
  refine ⟨by decide, by decide, ?_⟩
  intro h
  exact absurd (h (by decide)) (by decide)

/-- Asked for `Root`, both answer `Foo`. -/
theorem module_alias_resolvers_agree_root :
    TargetRootStandsForItself nestedAliasTable ⟨ascii "Root", [], 60⟩ ∧
      ChainAgrees nestedAliasTable ⟨ascii "Root", [], 60⟩ := by
  have hset : Settles nestedAliasTable 1 ⟨ascii "Root", [], 60⟩ ⟨ascii "Foo", [], 13⟩ :=
    ⟨⟨by decide, by decide⟩, by decide⟩
  have hself : TargetRootStandsForItself nestedAliasTable ⟨ascii "Root", [], 60⟩ := by
    intro k l' _ h
    obtain ⟨rfl, rfl⟩ := hset.1.unique h.1
    exact ⟨0, _, settles_zero (by decide), by decide, by decide⟩
  exact ⟨hself, ((module_alias_resolvers_agree _ _).2.1 (by decide)).2 hself⟩

end Elisa.Backend
