import Mathlib.Data.List.Perm.Basic
import Mathlib.Tactic.Ring

/-!
# Bottom-up merge sort

The sort goes over a list in rounds: a round merges the runs of one width in pairs, into a scratch
list, and copies that back; the next round has runs of twice the width.  All reads and writes are
checked, and the comparison may fail.

After a round each block of the width at hand is a stable sort of the block that stood there at the
start (`mergeBlocks`, `Sorts`).  When the width has reached the length there is one block left.
-/

namespace Elisa.Lib.BottomUpMerge

open List

variable {α : Type}

/-! ## The loops -/

def store (list : List α) (index : Nat) (value : α) : Option (List α) :=
  if index < list.length then some (list.set index value) else none

/-- The right run goes first if the left one is empty, or if its head is less. -/
def takeRight (less : α → α → Option Bool) (order : List α) (middle stop left right : Nat) :
    Option Bool :=
  if right < stop then
    if middle ≤ left then some true
    else do
      let own ← order[right]?
      let other ← order[left]?
      less own other
  else some false

/-- The runs up to `middle` and up to `stop` are merged into the scratch list. -/
def mergeLoop (less : α → α → Option Bool) (order : List α) (middle stop left right target : Nat)
    (scratch : List α) : Option (List α) :=
  if target < stop then do
    let fromRight ← takeRight less order middle stop left right
    if fromRight then
      let value ← order[right]?
      let scratch ← store scratch target value
      mergeLoop less order middle stop left (right + 1) (target + 1) scratch
    else
      let value ← order[left]?
      let scratch ← store scratch target value
      mergeLoop less order middle stop (left + 1) right (target + 1) scratch
  else some scratch
termination_by stop - target

def mergePass (less : α → α → Option Bool) (order : List α) (count width : Nat)
    (positive : 0 < width) (start : Nat) (scratch : List α) : Option (List α) :=
  if start < count then do
    let middle := if start + width < count then start + width else count
    let stop := if start + 2 * width < count then start + 2 * width else count
    let scratch ← mergeLoop less order middle stop start middle start scratch
    mergePass less order count width positive stop scratch
  else some scratch
termination_by count - start
decreasing_by split <;> omega

def copyBack (count : Nat) (order scratch : List α) : Option (List α) :=
  (List.range count).foldlM (fun order index => do
    let value ← scratch[index]?
    store order index value) order

/-- The rounds, with runs that double their width. -/
def mergeRounds (less : α → α → Option Bool) (count width : Nat) (positive : 0 < width)
    (order scratch : List α) : Option (List α) :=
  if width < count then do
    let scratch ← mergePass less order count width positive 0 scratch
    let order ← copyBack count order scratch
    mergeRounds less count (width * 2) (by omega) order scratch
  else some order
termination_by count - width

/-! ## Merging two runs -/

section Merging

variable {less : α → α → Option Bool} {le : α → α → Bool} {order scratch : List α} {list : List α}
  {index : Nat}

theorem store_eq (h : index < list.length) (value : α) :
    store list index value = some (list.set index value) := if_pos h

variable {stop : Nat}

theorem drop_take_cons (h : index < stop) (hstop : stop ≤ list.length) :
    (list.take stop).drop index = list[index] :: (list.take stop).drop (index + 1) := by
  rw [drop_eq_getElem_cons (by rw [length_take]; omega), getElem_take]

theorem drop_take_nil (h : stop ≤ index) : (list.take stop).drop index = [] := by
  rw [drop_eq_nil_iff, length_take]
  omega

theorem take_set_append (h : index < scratch.length) (value : α) :
    (scratch.set index value).take (index + 1) = scratch.take index ++ [value] := by
  rw [take_add_one, take_set_of_le (Nat.le_refl index),
    getElem?_set_self h]
  rfl

theorem takeRight_eq (compares : ∀ a ∈ order, ∀ b ∈ order, less a b = some (!le b a))
    {middle left right : Nat} (hmiddle : middle ≤ order.length) (horder : stop ≤ order.length) :
    takeRight less order middle stop left right =
      match (order.take middle).drop left, (order.take stop).drop right with
      | _, [] => some false
      | [], _ :: _ => some true
      | a :: _, b :: _ => some (!le a b) := by
  rw [takeRight]
  rcases Nat.lt_or_ge right stop with hright | hright
  · rw [if_pos hright, drop_take_cons hright horder]
    rcases Nat.lt_or_ge left middle with hleft | hleft
    · rw [if_neg (Nat.not_le.mpr hleft), drop_take_cons hleft hmiddle,
        getElem?_eq_getElem (by omega), getElem?_eq_getElem (by omega)]
      exact compares _ (getElem_mem _) _ (getElem_mem _)
    · rw [if_pos hleft, drop_take_nil hleft]
  · rw [if_neg (Nat.not_lt.mpr hright), drop_take_nil hright]

/-- The loop writes the merge of the two runs between `target` and `stop`. -/
theorem mergeLoop_spec (compares : ∀ a ∈ order, ∀ b ∈ order, less a b = some (!le b a))
    {middle left right target : Nat} (hleft : left ≤ middle) (hright : middle ≤ right)
    (hstop : right ≤ stop) (horder : stop ≤ order.length) (hscratch : stop ≤ scratch.length)
    (htarget : target + middle = left + right) :
    mergeLoop less order middle stop left right target scratch =
      some (scratch.take target ++
        List.merge ((order.take middle).drop left) ((order.take stop).drop right) le ++
        scratch.drop stop) := by
  induction h : stop - target generalizing left right target scratch with
  | zero =>
    have hl : left = middle := by omega
    have hr : right = stop := by omega
    subst hl hr
    rw [mergeLoop, if_neg (by omega), drop_take_nil (Nat.le_refl _),
      drop_take_nil (Nat.le_refl _), show target = right by omega, merge_right, append_nil,
      take_append_drop]
  | succ rest ih =>
    have going : target < stop := by omega
    have room : target < scratch.length := by omega
    rw [mergeLoop, if_pos going, takeRight_eq compares (by omega) horder]
    -- What is written, and the runs that remain.
    have stepLeft (hmiddle : left < middle) :
        (do
          let value ← order[left]?
          let scratch ← store scratch target value
          mergeLoop less order middle stop (left + 1) right (target + 1) scratch) =
        some (scratch.take target ++ order[left] ::
          List.merge ((order.take middle).drop (left + 1)) ((order.take stop).drop right) le ++
          scratch.drop stop) := by
      rw [getElem?_eq_getElem (by omega)]
      simp only [Option.bind_eq_bind, Option.bind_some, store_eq room]
      rw [ih (by omega) hright hstop (by simpa using hscratch) (by omega) (by omega),
        take_set_append room, drop_set_of_lt (by omega)]
      simp
    have stepRight (hopen : right < stop) :
        (do
          let value ← order[right]?
          let scratch ← store scratch target value
          mergeLoop less order middle stop left (right + 1) (target + 1) scratch) =
        some (scratch.take target ++ order[right] ::
          List.merge ((order.take middle).drop left) ((order.take stop).drop (right + 1)) le ++
          scratch.drop stop) := by
      rw [getElem?_eq_getElem (by omega)]
      simp only [Option.bind_eq_bind, Option.bind_some, store_eq room]
      rw [ih hleft (by omega) (by omega) (by simpa using hscratch) (by omega) (by omega),
        take_set_append room, drop_set_of_lt (by omega)]
      simp
    rcases Nat.lt_or_ge left middle with hmiddle | hmiddle
    · rcases Nat.lt_or_ge right stop with hopen | hopen
      · rw [drop_take_cons hmiddle (by omega), drop_take_cons hopen horder, cons_merge_cons]
        cases hle : le order[left] order[right] with
        | true =>
          have := stepLeft hmiddle
          rw [drop_take_cons hopen horder] at this
          simpa [hle] using this
        | false =>
          have := stepRight hopen
          rw [drop_take_cons hmiddle (by omega)] at this
          simpa [hle] using this
      · have := stepLeft hmiddle
        rw [drop_take_nil hopen, merge_right] at this
        rw [drop_take_cons hmiddle (by omega), drop_take_nil hopen, merge_right]
        simpa using this
    · have hopen : right < stop := by omega
      have := stepRight hopen
      rw [drop_take_nil hmiddle, nil_merge] at this
      rw [drop_take_nil hmiddle, drop_take_cons hopen horder, nil_merge]
      simpa using this

end Merging

/-! ## A round -/

section Rounds

variable {less : α → α → Option Bool} {le : α → α → Bool}

/-- The runs of a width, merged in pairs. -/
def mergeBlocks (le : α → α → Bool) (width : Nat) (positive : 0 < width) : List α → List α
  | [] => []
  | a :: rest =>
    List.merge ((a :: rest).take width) (((a :: rest).drop width).take width) le ++
      mergeBlocks le width positive ((a :: rest).drop (2 * width))
termination_by list => list.length
decreasing_by simp; omega

variable {width : Nat}

theorem mergeBlocks_eq (positive : 0 < width) (list : List α) :
    mergeBlocks le width positive list =
      List.merge (list.take width) ((list.drop width).take width) le ++
        mergeBlocks le width positive (list.drop (2 * width)) := by
  cases list with
  | nil => simp [mergeBlocks]
  | cons a rest => rw [mergeBlocks]

@[simp] theorem length_mergeBlocks (positive : 0 < width) (list : List α) :
    (mergeBlocks le width positive list).length = list.length := by
  fun_induction mergeBlocks le width positive list with
  | case1 => rfl
  | case2 a rest ih =>
    rw [length_append, ih, length_merge]
    simp only [length_take, length_drop]
    omega

theorem mergeBlocks_perm (positive : 0 < width) (list : List α) :
    (mergeBlocks le width positive list).Perm list := by
  fun_induction mergeBlocks le width positive list with
  | case1 => exact .refl _
  | case2 a rest ih =>
    refine ((merge_perm_append ..).append ih).trans ?_
    rw [Nat.two_mul, ← drop_drop, append_assoc, take_append_drop,
      take_append_drop]

theorem run_first (list : List α) (start width : Nat) :
    (list.take (min (start + width) list.length)).drop start = (list.drop start).take width := by
  rw [← take_eq_take_min, drop_take, Nat.add_sub_cancel_left]

theorem run_second (list : List α) (start width : Nat) :
    (list.take (min (start + 2 * width) list.length)).drop (min (start + width) list.length) =
      ((list.drop start).drop width).take width := by
  rw [← take_eq_take_min, drop_take, drop_drop]
  rcases Nat.le_total (start + width) list.length with h | h
  · rw [Nat.min_eq_left h, show start + 2 * width - (start + width) = width by omega]
  · rw [Nat.min_eq_right h, drop_length, drop_eq_nil_of_le h, take_nil,
      take_nil]

theorem drop_min (list : List α) (index : Nat) :
    list.drop (min index list.length) = list.drop index := by
  rcases Nat.le_total index list.length with h | h
  · rw [Nat.min_eq_left h]
  · rw [Nat.min_eq_right h, drop_length, drop_eq_nil_of_le h]

/-- A round leaves the runs merged in pairs in the scratch list. -/
theorem mergePass_spec {order scratch : List α} {start : Nat} (positive : 0 < width)
    (compares : ∀ a ∈ order, ∀ b ∈ order, less a b = some (!le b a))
    (same : scratch.length = order.length) (hstart : start ≤ order.length) :
    mergePass less order order.length width positive start scratch =
      some (scratch.take start ++ mergeBlocks le width positive (order.drop start)) := by
  induction h : order.length - start using Nat.strongRecOn generalizing start scratch with
  | ind rest ih =>
    rw [mergePass]
    rcases Nat.lt_or_ge start order.length with going | ended
    · rw [if_pos going]
      have hmiddle : (if start + width < order.length then start + width else order.length) =
          min (start + width) order.length := by
        rw [Nat.min_def]
        split <;> split <;> omega
      have hstop : (if start + 2 * width < order.length then start + 2 * width
          else order.length) = min (start + 2 * width) order.length := by
        rw [Nat.min_def]
        split <;> split <;> omega
      rw [hmiddle, hstop]
      dsimp only
      rw [mergeLoop_spec compares (by omega) (Nat.le_refl _) (by omega) (by omega) (by omega)
        (by omega)]
      simp only [Option.bind_eq_bind, Option.bind_some]
      have hlength : (scratch.take start ++ List.merge ((order.drop start).take width)
          (((order.drop start).drop width).take width) le).length =
          min (start + 2 * width) order.length := by
        rw [length_append, length_merge]
        simp only [length_take, length_drop]
        omega
      rw [run_first, run_second, ih (order.length - min (start + 2 * width) order.length)
        (by omega) (by rw [length_append, hlength, length_drop]; omega) (by omega) rfl,
        mergeBlocks_eq positive (order.drop start), drop_min,
        take_left' hlength, append_assoc,
        show order.drop (start + 2 * width) = (order.drop start).drop (2 * width) from
          drop_drop.symm]
    · rw [if_neg (Nat.not_lt.mpr ended), drop_eq_nil_of_le ended,
        show start = scratch.length by omega, take_length, mergeBlocks, append_nil]

theorem copyBack_spec {order scratch : List α} (same : scratch.length = order.length) :
    copyBack order.length order scratch = some scratch := by
  have steps : ∀ count ≤ order.length,
      copyBack count order scratch = some (scratch.take count ++ order.drop count) := by
    intro count hcount
    induction count with
    | zero => simp [copyBack]
    | succ count ih =>
      have hread : scratch[count]? = some scratch[count] := getElem?_eq_getElem (by omega)
      have hroom : count < (scratch.take count ++ order.drop count).length := by simp; omega
      have ih := ih (by omega)
      rw [copyBack] at ih ⊢
      rw [range_succ, foldlM_append, ih]
      simp only [Option.bind_eq_bind, Option.bind_some, foldlM_cons, foldlM_nil, hread,
        store_eq hroom, Option.pure_def]
      rw [set_append_right _ _ (by simp), length_take, Nat.min_eq_left (by omega),
        Nat.sub_self, drop_eq_getElem_cons (by omega), set_cons_zero,
        take_add_one, hread, append_assoc]
      rfl
  rw [steps order.length (Nat.le_refl _), drop_length, append_nil, ← same,
    take_length]

end Rounds

/-! ## Stable sorts -/

section Stability

variable {less : α → α → Option Bool} {le : α → α → Bool}

/-- The second list is a stable sort of the first: a sorted permutation, with the values of one
class in their order. -/
structure Sorts (le : α → α → Bool) (list sorted : List α) : Prop where
  perm : sorted.Perm list
  pairwise : sorted.Pairwise fun a b => le a b
  stable (class' : α → Bool) : (∀ a b, class' a → class' b → le a b) →
    sorted.filter class' = list.filter class'

theorem Sorts.of_length_le {list : List α} (h : list.length ≤ 1) : Sorts le list list := by
  refine ⟨.refl _, ?_, fun _ _ => rfl⟩
  match list, h with
  | [], _ => exact .nil
  | [a], _ => exact pairwise_singleton _ _

/-- Merging keeps the values of a class in their order, those of the left run first. -/
theorem filter_merge (trans : ∀ a b c, le a b → le b c → le a c) {class' : α → Bool}
    (one : ∀ a b, class' a → class' b → le a b) :
    ∀ (left right : List α), left.Pairwise (fun a b => le a b) →
      (List.merge left right le).filter class' = left.filter class' ++ right.filter class'
  | [], right, _ => by simp
  | left, [], _ => by simp
  | a :: left, b :: right, sorted => by
      rw [cons_merge_cons]
      cases h : le a b with
      | true =>
        rw [if_pos rfl, filter_cons, filter_cons,
          filter_merge trans one left (b :: right) (pairwise_cons.mp sorted).2]
        split <;> simp
      | false =>
        rw [if_neg (by simp), filter_cons, filter_cons (x := b),
          filter_merge trans one (a :: left) right sorted]
        cases hb : class' b with
        | false => simp
        | true =>
          -- No value of the left run is in the class of `b`.
          have none : (a :: left).filter class' = [] := by
            rw [filter_eq_nil_iff]
            intro z hz hclass
            have hzb := one z b hclass hb
            rw [mem_cons] at hz
            rcases hz with rfl | hz
            · simp [h] at hzb
            · have := trans a z b ((pairwise_cons.mp sorted).1 z hz) hzb
              simp [h] at this
          simp [none]

theorem Sorts.merge (trans : ∀ a b c, le a b → le b c → le a c) (total : ∀ a b, le a b || le b a)
    {first second left right : List α} (hleft : Sorts le first left)
    (hright : Sorts le second right) :
    Sorts le (first ++ second) (List.merge left right le) where
  perm := (merge_perm_append ..).trans (hleft.perm.append hright.perm)
  pairwise := pairwise_merge trans total left right hleft.pairwise hright.pairwise
  stable class' one := by
    rw [filter_merge trans one left right hleft.pairwise, hleft.stable class' one,
      hright.stable class' one, filter_append]

/-- A stable sort of the sources is one of what is read off them. -/
theorem Sorts.filterMap {β : Type} {le' : β → β → Bool} {list sorted : List α}
    (h : Sorts le list sorted) (read : α → Option β)
    (agrees : ∀ a b x y, read a = some x → read b = some y → le' x y = le a b) :
    Sorts le' (list.filterMap read) (sorted.filterMap read) where
  perm := h.perm.filterMap read
  pairwise := by
    rw [pairwise_filterMap]
    refine h.pairwise.imp fun {a b} hab x hx y hy => ?_
    rw [agrees a b x y hx hy, hab]
  stable class' one := by
    have hsame (l : List α) : (l.filterMap read).filter class' =
        (l.filter fun a => (read a).any class').filterMap read := by
      induction l with
      | nil => rfl
      | cons a l ih =>
        cases hread : read a with
        | none => simp [hread, ih]
        | some x => cases hx : class' x <;> simp [hread, hx, ih]
    rw [hsame, hsame, h.stable]
    intro a b ha hb
    rw [Option.any_eq_true] at ha hb
    obtain ⟨x, hx, hxclass⟩ := ha
    obtain ⟨y, hy, hyclass⟩ := hb
    rw [← agrees a b x y hx hy]
    exact one x y hxclass hyclass

/-! ## Blocks -/

def block (width number : Nat) (list : List α) : List α := (list.drop (number * width)).take width

theorem block_double (width number : Nat) (list : List α) :
    block (2 * width) number list =
      block width (2 * number) list ++ block width (2 * number + 1) list := by
  simp only [block]
  rw [show 2 * width = width + width by omega, take_add, drop_drop]
  congr 3
  · ring
  · ring

/-- A block of a round is the merge of two blocks. -/
theorem block_mergeBlocks {width : Nat} (positive : 0 < width) (number : Nat) (list : List α) :
    block (2 * width) number (mergeBlocks le width positive list) =
      List.merge (block width (2 * number) list) (block width (2 * number + 1) list) le := by
  induction number generalizing list with
  | zero =>
    rw [mergeBlocks_eq]
    simp only [block, Nat.zero_mul, drop_zero, Nat.mul_zero, Nat.zero_add, Nat.one_mul]
    rcases Nat.le_total (2 * width) list.length with h | h
    · rw [take_append_of_le_length, take_of_length_le]
      · simp; omega
      · simp; omega
    · rw [drop_eq_nil_of_le h, mergeBlocks, append_nil, take_of_length_le]
      simp
      omega
  | succ number ih =>
    have hdrop : (mergeBlocks le width positive list).drop (2 * width) =
        mergeBlocks le width positive (list.drop (2 * width)) := by
      rw [mergeBlocks_eq]
      rcases Nat.le_total (2 * width) list.length with h | h
      · rw [drop_append_of_le_length, drop_of_length_le, nil_append]
        · simp; omega
        · simp; omega
      · rw [drop_eq_nil_of_le h, mergeBlocks, append_nil, drop_eq_nil_of_le]
        simp
        omega
    have hblock : ∀ (w k : Nat) (l : List α), block w (k + 1) l = block w k (l.drop w) := by
      intro w k l
      rw [block, block, drop_drop, Nat.succ_mul, Nat.add_comm]
    rw [hblock, hdrop, ih, show 2 * (number + 1) = 2 * number + 1 + 1 by omega]
    congr 1
    · rw [hblock width (2 * number + 1) list, hblock width (2 * number) (list.drop width),
        drop_drop, ← Nat.two_mul]
    · rw [hblock width (2 * number + 1 + 1) list, hblock width (2 * number + 1) (list.drop width),
        drop_drop, ← Nat.two_mul]

theorem mergeRounds_blocks (trans : ∀ a b c, le a b → le b c → le a c)
    (total : ∀ a b, le a b || le b a) {original order scratch : List α} {count width : Nat}
    (positive : 0 < width)
    (compares : ∀ a ∈ original, ∀ b ∈ original, less a b = some (!le b a))
    (perm : order.Perm original) (hcount : order.length = count)
    (same : scratch.length = order.length)
    (blocks : ∀ number, Sorts le (block width number original) (block width number order)) :
    ∃ sorted, mergeRounds less count width positive order scratch = some sorted ∧
      Sorts le original sorted := by
  induction h : count - width using Nat.strongRecOn generalizing width order scratch with
  | ind rest ih =>
    subst hcount
    rw [mergeRounds]
    rcases Nat.lt_or_ge width order.length with going | ended
    · have hcompares : ∀ a ∈ order, ∀ b ∈ order, less a b = some (!le b a) :=
        fun a ha b hb => compares a (perm.mem_iff.mp ha) b (perm.mem_iff.mp hb)
      have hround : ∀ number, Sorts le (block (width * 2) number original)
          (block (width * 2) number (mergeBlocks le width positive order)) := by
        intro number
        rw [Nat.mul_comm width 2, block_mergeBlocks, block_double]
        exact (blocks _).merge trans total (blocks _)
      rw [if_pos going, mergePass_spec positive hcompares same (Nat.zero_le _)]
      simp only [Option.bind_eq_bind, Option.bind_some, take_zero, drop_zero,
        nil_append]
      rw [copyBack_spec (by simp)]
      exact ih _ (by omega) (by omega) ((mergeBlocks_perm positive order).trans perm) (by simp)
        rfl hround rfl
    · rw [if_neg (Nat.not_lt.mpr ended)]
      refine ⟨order, rfl, ?_⟩
      have := blocks 0
      rw [block, block, Nat.zero_mul, drop_zero, drop_zero, take_of_length_le ended,
        take_of_length_le (perm.length_eq ▸ ended)] at this
      exact this

theorem mergeRounds_sorts (trans : ∀ a b c, le a b → le b c → le a c)
    (total : ∀ a b, le a b || le b a) {order scratch : List α}
    (compares : ∀ a ∈ order, ∀ b ∈ order, less a b = some (!le b a))
    (same : scratch.length = order.length) :
    ∃ sorted, mergeRounds less order.length 1 Nat.one_pos order scratch = some sorted ∧
      Sorts le order sorted :=
  mergeRounds_blocks trans total Nat.one_pos compares (.refl _) rfl same fun number =>
    .of_length_le (by rw [block, length_take]; omega)

end Stability

end Elisa.Lib.BottomUpMerge
