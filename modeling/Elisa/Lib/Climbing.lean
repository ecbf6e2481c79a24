import Mathlib.Data.List.Chain

/-!
# Precedence climbing

A sequence of operands and binary operators is grouped by a table of precedences.  In the
*well-grouped* tree every operator's left operand has only operators that bind at least as tightly
and its right operand only operators that bind more tightly; there is at most one
(`WellGrouped.unique`).

`climb` is a loop over the operators of a level, which descends into a tighter level for a right
operand. The decision looks one operator ahead, with a precedence `probe` that may be lower than the
one the operator is given when its turn comes.  The tree is well grouped exactly when the probe
misleads at no pair of neighbours (`climb_wellGrouped_iff`).
-/

namespace Elisa.Climbing

open List

variable {O A : Type*}

/-! ## Trees -/

inductive Tree (O A : Type*) where
  | leaf (a : A)
  | node (left : Tree O A) (op : O) (right : Tree O A)

namespace Tree

def first : Tree O A → A
  | leaf a => a
  | node left _ _ => left.first

/-- The operators of a tree, in order, each with the operand after it. -/
def pairs : Tree O A → List (O × A)
  | leaf _ => []
  | node left op right => left.pairs ++ (op, right.first) :: right.pairs

def ops (t : Tree O A) : List O := t.pairs.map Prod.fst

@[simp] theorem ops_leaf (a : A) : (leaf a : Tree O A).ops = [] := rfl

@[simp] theorem ops_node (left : Tree O A) (op : O) (right : Tree O A) :
    (node left op right).ops = left.ops ++ op :: right.ops := by
  simp [ops, pairs]

end Tree

/-- Every operator binds its operands by the table. -/
def WellGrouped (prec : O → Nat) : Tree O A → Prop
  | .leaf _ => True
  | .node left op right => WellGrouped prec left ∧ WellGrouped prec right ∧
      (∀ o ∈ left.ops, prec op ≤ prec o) ∧ ∀ o ∈ right.ops, prec op < prec o

variable {prec probe : O → Nat}

/-- The root of a well-grouped tree is the last of the loosest operators. -/
theorem split_unique {l l' r r' : List (O × A)} {x x' : O × A}
    (h : l ++ x :: r = l' ++ x' :: r') (hl : ∀ y ∈ l, prec x.1 ≤ prec y.1)
    (hr : ∀ y ∈ r, prec x.1 < prec y.1) (hl' : ∀ y ∈ l', prec x'.1 ≤ prec y.1)
    (hr' : ∀ y ∈ r', prec x'.1 < prec y.1) : l = l' ∧ x = x' ∧ r = r' := by
  rcases append_eq_append_iff.mp h with ⟨m, rfl, hm⟩ | ⟨m, rfl, hm⟩
  · cases m with
    | nil =>
      rw [nil_append, List.cons.injEq] at hm
      exact ⟨(append_nil l).symm, hm.1, hm.2⟩
    | cons y m =>
      rw [cons_append, List.cons.injEq] at hm
      obtain ⟨rfl, rfl⟩ := hm
      have h1 := hl' x (mem_append_right l mem_cons_self)
      have h2 := hr x' (mem_append_right m mem_cons_self)
      omega
  · cases m with
    | nil =>
      rw [nil_append, List.cons.injEq] at hm
      exact ⟨append_nil l', hm.1.symm, hm.2.symm⟩
    | cons y m =>
      rw [cons_append, List.cons.injEq] at hm
      obtain ⟨rfl, rfl⟩ := hm
      have h1 := hl x' (mem_append_right l' mem_cons_self)
      have h2 := hr' x (mem_append_right m mem_cons_self)
      omega

theorem forall_ops {p : O → Prop} {t : Tree O A} :
    (∀ o ∈ t.ops, p o) ↔ ∀ y ∈ t.pairs, p y.1 := by
  simp only [Tree.ops, forall_mem_map]

theorem WellGrouped.unique : ∀ {t t' : Tree O A}, WellGrouped prec t → WellGrouped prec t' →
    t.first = t'.first → t.pairs = t'.pairs → t = t'
  | .leaf a, .leaf a', _, _, hfirst, _ => congrArg Tree.leaf hfirst
  | .leaf a, .node l' op' r', _, _, _, hpairs => by
      have := congrArg List.length hpairs
      simp [Tree.pairs] at this
  | .node l op r, .leaf a', _, _, _, hpairs => by
      have := congrArg List.length hpairs
      simp [Tree.pairs] at this
  | .node l op r, .node l' op' r', h, h', hfirst, hpairs => by
      obtain ⟨hl, hr, hlo, hro⟩ := h
      obtain ⟨hl', hr', hlo', hro'⟩ := h'
      rw [forall_ops] at hlo hro hlo' hro'
      obtain ⟨hleft, hroot, hright⟩ := split_unique hpairs hlo hro hlo' hro'
      rw [Prod.mk.injEq] at hroot
      rw [hl.unique hl' hfirst hleft, hr.unique hr' hroot.2 hright, hroot.1]

/-! ## The algorithm -/

/-- Whether a right operand is continued: the next operator looks tighter. -/
def descends (prec probe : O → Nat) (op : O) : List (O × A) → Bool
  | [] => false
  | (next, _) :: _ => decide (prec op < probe next)

/-- The operators of a level, from the left operand so far.  A round takes at least one
operator, so the number of operators bounds the rounds. -/
def climb (prec probe : O → Nat) : Nat → Tree O A → Nat → List (O × A) → Tree O A × List (O × A)
  | 0, left, _, rest => (left, rest)
  | _ + 1, left, _, [] => (left, [])
  | fuel + 1, left, minimum, (op, a) :: rest =>
    if prec op < minimum then (left, (op, a) :: rest)
    else
      let right := if descends prec probe op rest then
        climb prec probe fuel (.leaf a) (prec op + 1) rest else (.leaf a, rest)
      climb prec probe fuel (.node left op right.1) minimum right.2

/-- What a level takes: operators of its own precedences, up to one that is looser, all
of them in order. -/
theorem climb_spec : ∀ (fuel : Nat) (left : Tree O A) (minimum : Nat) (rest : List (O × A)),
    rest.length ≤ fuel → ∃ used, rest = used ++ (climb prec probe fuel left minimum rest).2 ∧
      (climb prec probe fuel left minimum rest).1.first = left.first ∧
      (climb prec probe fuel left minimum rest).1.pairs = left.pairs ++ used ∧
      (∀ x ∈ used, minimum ≤ prec x.1) ∧
      ∀ x ∈ (climb prec probe fuel left minimum rest).2.head?, prec x.1 < minimum := by
  intro fuel
  induction fuel with
  | zero =>
    intro left minimum rest hlen
    rw [length_eq_zero_iff.mp (Nat.le_zero.mp hlen)]
    exact ⟨[], rfl, rfl, (append_nil _).symm, nofun, nofun⟩
  | succ fuel ih =>
    intro left minimum rest hlen
    cases rest with
    | nil => exact ⟨[], rfl, rfl, (append_nil _).symm, nofun, nofun⟩
    | cons x rest =>
      obtain ⟨op, a⟩ := x
      unfold climb
      split
      next hlt =>
        refine ⟨[], rfl, rfl, (append_nil _).symm, nofun, fun x hx => ?_⟩
        rw [head?_cons, Option.mem_some_iff] at hx
        rw [← hx]
        exact hlt
      rename_i hge
      have hlen' : rest.length ≤ fuel := by
        rw [length_cons] at hlen
        omega
      -- the right operand
      generalize hright : (if descends prec probe op rest = true then
        climb prec probe fuel (.leaf a) (prec op + 1) rest else (.leaf a, rest)) = right
      have hr : ∃ used, rest = used ++ right.2 ∧ right.1.first = a ∧ right.1.pairs = used ∧
          ∀ x ∈ used, prec op < prec x.1 := by
        rw [← hright]
        split
        · obtain ⟨used, h1, h2, h3, h4, -⟩ := ih (.leaf a) (prec op + 1) rest hlen'
          exact ⟨used, h1, h2, h3, h4⟩
        · exact ⟨[], rfl, rfl, rfl, nofun⟩
      obtain ⟨used, hrest, hfirst, hpairs, hused⟩ := hr
      have hlen'' : right.2.length ≤ fuel := by
        rw [hrest, length_append] at hlen'
        omega
      obtain ⟨more, h1, h2, h3, h4, h5⟩ := ih (.node left op right.1) minimum right.2 hlen''
      refine ⟨(op, a) :: used ++ more, ?_, h2, ?_, fun x hx => ?_, h5⟩
      · rw [cons_append, cons_append, append_assoc, ← h1, ← hrest]
      · rw [h3, Tree.pairs, hfirst, hpairs, append_assoc]
      rcases mem_append.mp hx with hx | hx
      · rcases mem_cons.mp hx with rfl | hx
        · exact Nat.le_of_not_lt hge
        · exact Nat.le_trans (Nat.le_of_not_lt hge) (Nat.le_of_lt (hused x hx))
      · exact h4 x hx

theorem climb_left : ∀ (fuel : Nat) (left : Tree O A) (minimum : Nat) (rest : List (O × A)),
    WellGrouped prec (climb prec probe fuel left minimum rest).1 → WellGrouped prec left := by
  intro fuel
  induction fuel with
  | zero => exact fun _ _ _ h => h
  | succ fuel ih =>
    intro left minimum rest h
    cases rest with
    | nil => exact h
    | cons x rest =>
      unfold climb at h
      split at h
      · exact h
      · exact (ih _ _ _ h).1

/-- Neighbours at which the probe does not mislead. -/
def Honest (prec probe : O → Nat) (op next : O) : Prop := prec op < prec next → prec op < probe next

variable {fuel minimum : Nat} {left : Tree O A} {op : O} {rest : List (O × A)}

/-- An operator that binds more tightly than one on its left and was not foreseen takes
the looser one as its operand. -/
theorem climb_misled {next : O} {a b : A} (hmin : minimum ≤ prec op) (hlt : prec op < prec next) :
    ¬ WellGrouped prec (climb prec probe (fuel + 1) (.node left op (.leaf a)) minimum
      ((next, b) :: rest)).1 := by
  intro h
  unfold climb at h
  rw [if_neg (by omega)] at h
  have hnode := climb_left _ _ _ _ h
  have hop := hnode.2.2.1 op (by simp)
  omega

theorem isChain_honest {front back : List O} (hfront : ∀ o ∈ front, prec op < prec o)
    (hhead : ∀ o ∈ front.head?, prec op < probe o) (hback : ∀ o ∈ back.head?, prec o ≤ prec op) :
    (op :: front ++ back).IsChain (Honest prec probe) ↔
      front.IsChain (Honest prec probe) ∧ back.IsChain (Honest prec probe) := by
  rw [isChain_append, isChain_cons]
  constructor
  · exact fun h => ⟨h.1.2, h.2.1⟩
  · intro h
    refine ⟨⟨fun y hy _ => hhead y hy, h.1⟩, h.2, fun x hx y hy hlt => ?_⟩
    have hy' := hback y hy
    rcases mem_cons.mp (mem_of_mem_getLast? hx) with rfl | hx
    · omega
    · have hx' := hfront x hx
      omega

theorem descends_head (h : descends prec probe op rest = true) :
    ∀ x ∈ rest.head?, prec op < probe x.1 := by
  intro x hx
  cases rest with
  | nil => cases h
  | cons y rest =>
    cases hx
    exact of_decide_eq_true h

theorem climb_takes {x y : O × A} {used : List (O × A)} (hmin : minimum ≤ prec y.1)
    (hlen : (y :: rest).length ≤ fuel)
    (hused : x :: y :: rest = used ++ (climb prec probe fuel left minimum (y :: rest)).2) :
    ∃ more, used = x :: y :: more := by
  obtain ⟨front, h1, -, -, -, h5⟩ := @climb_spec _ _ prec probe fuel left minimum (y :: rest) hlen
  have hfront : used = x :: front := by
    refine append_cancel_right (hused.symm.trans ?_)
    rw [cons_append, ← h1]
  cases front with
  | nil =>
    rw [nil_append] at h1
    rw [← h1] at h5
    exact absurd (h5 y rfl) (Nat.not_lt.mpr hmin)
  | cons z front =>
    rw [cons_append, List.cons.injEq] at h1
    exact ⟨front, by rw [hfront, h1.1]⟩

/-- One round behind a right operand after which no tighter operator stands. -/
theorem climb_continue {fuel minimum : Nat} {left right : Tree O A} {op : O} {a : A}
    {front back rest : List (O × A)} (hleft : WellGrouped prec left)
    (hlo : ∀ o ∈ left.ops, prec op ≤ prec o) (hpairs : right.pairs = front)
    (hfront : ∀ o ∈ front.map Prod.fst, prec op < prec o)
    (hhead : ∀ o ∈ (front.map Prod.fst).head?, prec op < probe o)
    (hnext : ∀ o ∈ (back.map Prod.fst).head?, prec o ≤ prec op)
    (hright : WellGrouped prec right ↔ (front.map Prod.fst).IsChain (Honest prec probe))
    (ih : WellGrouped prec (.node left op right) →
      (WellGrouped prec (climb prec probe fuel (.node left op right) minimum rest).1 ↔
        (back.map Prod.fst).IsChain (Honest prec probe))) :
    WellGrouped prec (climb prec probe fuel (.node left op right) minimum rest).1 ↔
      (((op, a) :: front ++ back).map Prod.fst).IsChain (Honest prec probe) := by
  rw [map_append, map_cons, isChain_honest hfront hhead hnext, ← hright]
  have hops : ∀ o ∈ right.ops, prec op < prec o := by
    rw [Tree.ops, hpairs]
    exact hfront
  constructor
  · intro h
    have hnode := climb_left _ _ _ _ h
    exact ⟨hnode.2.1, (ih hnode).mp h⟩
  · rintro ⟨hr, hb⟩
    exact (ih ⟨hleft, hr, hlo, hops⟩).mpr hb

theorem head_map_fst {p : O → Prop} {l : List (O × A)} :
    (∀ o ∈ (l.map Prod.fst).head?, p o) ↔ ∀ x ∈ l.head?, p x.1 := by
  cases l <;> simp

/-- The tree of a level is well grouped exactly when the probe does not mislead at any
neighbours that the level takes. -/
theorem climb_wellGrouped_iff :
    ∀ (fuel : Nat) (left : Tree O A) (minimum : Nat) (rest used : List (O × A)),
      rest.length ≤ fuel → rest = used ++ (climb prec probe fuel left minimum rest).2 →
      WellGrouped prec left → (∀ x ∈ rest.head?, ∀ o ∈ left.ops, prec x.1 ≤ prec o) →
      (WellGrouped prec (climb prec probe fuel left minimum rest).1 ↔
        (used.map Prod.fst).IsChain (Honest prec probe)) := by
  intro fuel
  induction fuel with
  | zero =>
    intro left minimum rest used hlen hused hleft _
    have hrest := length_eq_zero_iff.mp (Nat.le_zero.mp hlen)
    have hnil : used = [] := (append_eq_nil_iff.mp (hused.symm.trans hrest)).1
    rw [hnil]
    exact ⟨fun _ => .nil, fun _ => hleft⟩
  | succ fuel ih =>
    intro left minimum rest used hlen hused hleft hloose
    cases rest with
    | nil =>
      rw [(append_eq_nil_iff.mp hused.symm).1]
      exact ⟨fun _ => .nil, fun _ => hleft⟩
    | cons x rest =>
      obtain ⟨op, a⟩ := x
      unfold climb at hused ⊢
      split at hused
      next hlt =>
        rw [if_pos hlt, self_eq_append_left.mp hused]
        exact ⟨fun _ => .nil, fun _ => hleft⟩
      rename_i hge
      rw [if_neg hge]
      have hlen' : rest.length ≤ fuel := by
        rw [length_cons] at hlen
        omega
      have hlo : ∀ o ∈ left.ops, prec op ≤ prec o := hloose (op, a) rfl
      -- the level goes on behind a right operand after which no tighter operator stands
      have hround : ∀ (right : Tree O A) (front after : List (O × A)),
          rest = front ++ after → right.pairs = front →
          (∀ x ∈ front, prec op < prec x.1) → (∀ x ∈ front.head?, prec op < probe x.1) →
          (∀ x ∈ after.head?, prec x.1 ≤ prec op) →
          (WellGrouped prec right ↔ (front.map Prod.fst).IsChain (Honest prec probe)) →
          (op, a) :: rest =
            used ++ (climb prec probe fuel (.node left op right) minimum after).2 →
          (WellGrouped prec (climb prec probe fuel (.node left op right) minimum after).1 ↔
            (used.map Prod.fst).IsChain (Honest prec probe)) := by
        intro right front after hrest hpairs hfront hhead hnext hright hused
        have hlen'' : after.length ≤ fuel := by
          rw [hrest, length_append] at hlen'
          omega
        obtain ⟨back, hback, -⟩ := @climb_spec _ _ prec probe fuel
          (.node left op right) minimum after hlen''
        have hsplit : used = (op, a) :: front ++ back := by
          refine append_cancel_right (hused.symm.trans ?_)
          rw [append_assoc, ← hback, cons_append, ← hrest]
        rw [hsplit]
        refine climb_continue hleft hlo hpairs (forall_mem_map.mpr hfront)
          (head_map_fst.mpr hhead) (head_map_fst.mpr fun x hx => hnext x ?_) hright
          fun hnode => ih _ minimum after back hlen'' hback hnode fun x hx o ho => ?_
        · rw [hback, head?_append, Option.mem_def.mp hx]
          rfl
        have hx' := hnext x hx
        rw [Tree.ops_node] at ho
        rcases mem_append.mp ho with ho | ho
        · exact Nat.le_trans hx' (hlo o ho)
        · rcases mem_cons.mp ho with rfl | ho
          · exact hx'
          · exact Nat.le_trans hx' (Nat.le_of_lt (hnode.2.2.2 o ho))
      cases hdesc : descends prec probe op rest with
      | true =>
        simp only [hdesc, if_true] at hused ⊢
        obtain ⟨front, h1, -, h3, h4, h5⟩ := @climb_spec _ _ prec probe fuel
          (.leaf a) (prec op + 1) rest hlen'
        refine hround _ front _ h1 h3 (fun x hx => h4 x hx) ?_ (fun x hx => ?_) ?_ hused
        · intro x hx
          have hx' : x ∈ rest.head? := by
            rw [h1, head?_append, Option.mem_def.mp hx]
            rfl
          exact descends_head hdesc x hx'
        · exact Nat.le_of_lt_succ (h5 x hx)
        · exact ih (.leaf a) (prec op + 1) rest front hlen' h1 trivial nofun
      | false =>
        simp only [hdesc, Bool.false_eq_true, if_false] at hused ⊢
        cases rest with
        | nil =>
          exact hround (.leaf a) [] [] rfl rfl nofun nofun nofun
            ⟨fun _ => .nil, fun _ => trivial⟩ hused
        | cons y rest =>
          obtain ⟨next, b⟩ := y
          rcases Nat.lt_or_ge (prec op) (prec next) with hlt | hle
          · -- the tighter operator was not foreseen
            obtain ⟨fuel, rfl⟩ : ∃ n, fuel = n + 1 :=
              ⟨fuel - 1, by rw [length_cons] at hlen'; omega⟩
            have hmin : minimum ≤ prec op := Nat.le_of_not_lt hge
            refine ⟨fun h => absurd h (climb_misled hmin hlt), fun h => ?_⟩
            obtain ⟨more, rfl⟩ :=
              climb_takes (Nat.le_trans hmin (Nat.le_of_lt hlt)) hlen' hused
            have hhonest := (isChain_cons_cons.mp h).1 hlt
            exact absurd hhonest (of_decide_eq_false hdesc)
          · exact hround (.leaf a) [] _ rfl rfl nofun nofun
              (fun x hx => by cases hx; exact hle) ⟨fun _ => .nil, fun _ => trivial⟩ hused

theorem exists_wellGrouped (prec : O → Nat) (a : A) (rest : List (O × A)) :
    ∃ t : Tree O A, WellGrouped prec t ∧ t.first = a ∧ t.pairs = rest := by
  obtain ⟨used, h1, h2, h3, -, h5⟩ :=
    @climb_spec _ _ prec prec rest.length (.leaf a) 0 rest (Nat.le_refl _)
  have hhonest : (used.map Prod.fst).IsChain (Honest prec prec) :=
    List.Pairwise.isChain (pairwise_iff_getElem.mpr fun _ _ _ _ _ => id)
  have hgrouped := (climb_wellGrouped_iff _ (.leaf a) 0 rest used (Nat.le_refl _) h1 trivial
    nofun).mpr hhonest
  -- no operator binds below level zero
  have hall : (climb prec prec rest.length (.leaf a) 0 rest).2 = [] := by
    cases hout : (climb prec prec rest.length (.leaf a) 0 rest).2 with
    | nil => rfl
    | cons x out => exact absurd (h5 x (by rw [hout]; rfl)) (Nat.not_lt_zero _)
  refine ⟨_, hgrouped, h2, ?_⟩
  rw [hall, append_nil] at h1
  rw [h3, h1]
  rfl

end Elisa.Climbing
