import Mathlib.Algebra.Order.BigOperators.Group.List
import Mathlib.Algebra.Order.Group.Nat
import Mathlib.Algebra.Ring.Nat

/-!
# Dataflow analysis in rounds

An analysis has a state for every line that is reached.  A round goes over the lines in order, and
meets the transfer of a line's state into each of its successors.  Rounds are made until one changes
nothing.

A state is made of components that do not depend on one another, and each can only go down.  When no
edge back changes a component in a round, then nothing changes it in the next one
(`Component.stable_of_quiet`); each change along an edge back uses up some height at its target
(`Component.Grows.measure_lt`).  So the rounds settle once there are more of them than the heights
of the targets of edges back add up to (`settles`).  Then every state is the greatest lower bound of
what its edges bring (`Sound.solution`).
-/

namespace Elisa.Lib.Dataflow

open List

/-- A forward analysis of the lines below `count`. -/
structure Analysis (S : Type*) where
  count : Nat
  successors : Nat → List Nat
  transfer : Nat → S → S
  meet : S → S → S
  /-- What holds of every state that comes up. -/
  good : S → Prop
  inside : ∀ {u v}, v ∈ successors u → u < count ∧ v < count
  good_transfer : ∀ {u s}, good s → good (transfer u s)
  good_meet : ∀ {s t}, good s → good t → good (meet s t)

/-- The states of the lines that are reached. -/
abbrev Table (S : Type*) := Nat → Option S

/-- Within a number of rounds one changes nothing. -/
def Settles {α : Type*} (round : α → α × Bool) : Nat → α → Prop
  | 0, _ => False
  | rounds + 1, table => (round table).2 = false ∨ Settles round rounds (round table).1

/-- Rounds of one procedure settle as those of another that it follows step by step. -/
theorem settles_of_simulation {α β : Type*} {round : α → α × Bool} {round' : β → β × Bool}
    {P : α → Prop} (f : α → β) (keep : ∀ x, P x → P (round x).1)
    (simulate : ∀ x, P x → f (round x).1 = (round' (f x)).1 ∧ (round x).2 = (round' (f x)).2)
    {rounds : Nat} {x : α} (holds : P x) (h : Settles round' rounds (f x)) :
    Settles round rounds x := by
  induction rounds generalizing x with
  | zero => exact h
  | succ rounds ih =>
    obtain ⟨same, flag⟩ := simulate x holds
    rcases h with settled | h
    · exact Or.inl (flag.trans settled)
    · exact Or.inr (ih (keep x holds) (same ▸ h))

section
variable {S : Type*} [DecidableEq S] (a : Analysis S)

/-- A state arrives at a line; whether the table has changed is carried along. -/
def arrive (incoming : S) (table : Table S × Bool) (target : Nat) : Table S × Bool :=
  match table.1 target with
  | none => (Function.update table.1 target (some incoming), true)
  | some current =>
    (Function.update table.1 target (some (a.meet current incoming)),
      decide (current ≠ a.meet current incoming) || table.2)

def line (table : Table S × Bool) (u : Nat) : Table S × Bool :=
  match table.1 u with
  | none => table
  | some state => (a.successors u).foldl (arrive a (a.transfer u state)) table

/-- The first lines of a round. -/
def linesUpTo (table : Table S) (count : Nat) : Table S × Bool :=
  (range count).foldl (line a) (table, false)

def round (table : Table S) : Table S × Bool := linesUpTo a table a.count

def GoodTable (table : Table S) : Prop := ∀ v s, table v = some s → a.good s

end

variable {S : Type*} {a : Analysis S} {incoming s t : S} {table : Table S × Bool}
  {start : Table S} {u v target count rounds : Nat}

/-! ## Components -/

/-- A part of the states that depends on nothing else in them.  It goes down whenever it changes,
and a state that has been met with another takes it in for good. -/
structure Component (a : Analysis S) where
  same : S → S → Prop
  height : S → Nat
  refl : ∀ s, same s s
  symm : ∀ {s t}, same s t → same t s
  trans : ∀ {s t r}, same s t → same t r → same s r
  height_eq : ∀ {s t}, same s t → height s = height t
  transfer_congr : ∀ {u s t}, same s t → same (a.transfer u s) (a.transfer u t)
  meet_congr : ∀ {s s' t t'}, same s s' → same t t' → same (a.meet s t) s → same (a.meet s' t') s'
  meet_lt : ∀ {s t}, a.good s → a.good t →
    same (a.meet s t) s ∨ height (a.meet s t) < height s
  meet_idem : ∀ {s}, a.good s → same (a.meet s s) s
  meet_again : ∀ {s t}, a.good s → a.good t → same (a.meet (a.meet s t) t) (a.meet s t)
  meet_later : ∀ {s t r}, a.good s → a.good t → a.good r → same (a.meet s t) s →
    same (a.meet (a.meet s r) t) (a.meet s r)

/-- A value that is kept while all agree on it, and lost to a bottom otherwise. -/
def Component.ofFlat {V : Type*} [DecidableEq V] (value : S → V) (bottom : V)
    (meet : ∀ {s t}, value (a.meet s t) = if value s = value t then value s else bottom)
    (transfer : ∀ {u s t}, value s = value t → value (a.transfer u s) = value (a.transfer u t)) :
    Component a where
  same s t := value s = value t
  height s := if value s = bottom then 0 else 1
  refl _ := rfl
  symm := Eq.symm
  trans := Eq.trans
  height_eq h := by rw [h]
  transfer_congr := transfer
  meet_congr := by
    intro s s' t t' hs ht taken
    rw [meet] at taken ⊢
    rwa [← hs, ← ht]
  meet_lt := by
    intro s t _ _
    rw [meet]
    by_cases agree : value s = value t
    · exact Or.inl (if_pos agree)
    rw [if_neg agree]
    by_cases low : value s = bottom
    · exact Or.inl low.symm
    · right
      rw [if_pos rfl, if_neg low]
      exact Nat.zero_lt_one
  meet_idem := by
    intro s _
    rw [meet, if_pos rfl]
  meet_again := by
    intro s t _ _
    rw [meet, meet]
    by_cases agree : value s = value t <;> simp [agree]
  meet_later := by
    intro s t r _ _ _ taken
    rw [meet] at taken
    rw [meet, meet]
    split
    next => exact taken
    next => split <;> rfl

namespace Component

variable (c : Component a)

/-- The same component, or no state in either table. -/
def SameAt : Option S → Option S → Prop
  | none, none => True
  | some s, some t => c.same s t
  | _, _ => False

/-- The state of a line takes another in already. -/
def Takes (state : Option S) (incoming : S) : Prop :=
  ∃ s, state = some s ∧ c.same (a.meet s incoming) s

/-- No edge brings anything new. -/
def Stable (table : Table S) : Prop :=
  ∀ u s, table u = some s → ∀ v ∈ a.successors u, c.Takes (table v) (a.transfer u s)

/-- A table after arrivals: the states are there still, they take in what they took in, and have
gone down if they have changed. -/
def Grows (table table' : Table S) : Prop :=
  ∀ v s, table v = some s → ∃ s', table' v = some s' ∧
    (c.same s' s ∨ c.height s' < c.height s) ∧
    ∀ t, a.good t → c.same (a.meet s t) s → c.same (a.meet s' t) s'

variable {c} {table' table'' : Table S}

theorem sameAt_refl (s : Option S) : c.SameAt s s := by
  cases s with
  | none => trivial
  | some s => exact c.refl s

theorem SameAt.trans {s t r : Option S} (h : c.SameAt s t) (h' : c.SameAt t r) : c.SameAt s r := by
  cases s with
  | none =>
    cases t with
    | none => exact h'
    | some t => exact h.elim
  | some s =>
    cases t with
    | none => exact h.elim
    | some t =>
      cases r with
      | none => exact h'.elim
      | some r => exact c.trans h h'

theorem sameAt_some_left {s : S} {t : Option S} (h : c.SameAt (some s) t) :
    ∃ t', t = some t' ∧ c.same s t' := by
  cases t with
  | none => exact h.elim
  | some t => exact ⟨t, rfl, h⟩

theorem Grows.refl (table : Table S) : c.Grows table table :=
  fun _ s found => ⟨s, found, Or.inl (c.refl s), fun _ _ => id⟩

theorem Grows.trans {first : Table S} (h : c.Grows first table') (h' : c.Grows table' table'') :
    c.Grows first table'' := by
  intro v s found
  obtain ⟨s', found', lower, takes⟩ := h v s found
  obtain ⟨s'', found'', lower', takes'⟩ := h' v s' found'
  refine ⟨s'', found'', ?_, fun t good taken => takes' t good (takes t good taken)⟩
  rcases lower with same | less
  · rcases lower' with same' | less'
    · exact Or.inl (c.trans same' same)
    · exact Or.inr (c.height_eq same ▸ less')
  · rcases lower' with same' | less'
    · exact Or.inr (c.height_eq same' ▸ less)
    · exact Or.inr (Nat.lt_trans less' less)

theorem Grows.takes {first : Table S} (h : c.Grows first table') (good : a.good incoming)
    (takes : c.Takes (first v) incoming) : c.Takes (table' v) incoming := by
  obtain ⟨s, found, taken⟩ := takes
  obtain ⟨s', found', -, later⟩ := h v s found
  exact ⟨s', found', later incoming good taken⟩

end Component

/-! ## Edges back -/

/-- The targets of the edges that lead back. -/
def backTargets (a : Analysis S) : List Nat :=
  (range a.count).filter fun v =>
    (range a.count).any fun u => decide (v ≤ u) && decide (v ∈ a.successors u)

theorem mem_backTargets (mem : v ∈ a.successors u) (back : v ≤ u) : v ∈ backTargets a := by
  obtain ⟨u_lt, v_lt⟩ := a.inside mem
  simp only [backTargets, mem_filter, mem_range, any_eq_true, Bool.and_eq_true,
    decide_eq_true_iff]
  exact ⟨v_lt, u, u_lt, back, mem⟩

/-- What is left of a component at one line, where no state is higher than a bound. -/
def Component.left (c : Component a) (bound : Nat) : Option S → Nat
  | none => bound + 1
  | some s => c.height s

/-- What is left at the targets of edges back. -/
def Component.measure (c : Component a) (bound : Nat) (table : Table S) : Nat :=
  ((backTargets a).map fun v => c.left bound (table v)).sum

section
variable {c : Component a} {bound : Nat} (bounded : ∀ s, a.good s → c.height s ≤ bound)
  {table' : Table S}
include bounded

section Growth

variable (h : c.Grows start table') (good : GoodTable a table')
include h good

theorem Component.Grows.left_le (v : Nat) : c.left bound (table' v) ≤ c.left bound (start v) := by
  cases found : start v with
  | none =>
    cases found' : table' v with
    | none => exact Nat.le_refl _
    | some s => exact Nat.le_succ_of_le (bounded s (good v s found'))
  | some s =>
    obtain ⟨s', found', lower, -⟩ := h v s found
    rw [found']
    rcases lower with same | less
    · exact Nat.le_of_eq (c.height_eq same)
    · exact Nat.le_of_lt less

theorem Component.Grows.left_lt {v : Nat} (changed : ¬ c.SameAt (table' v) (start v)) :
    c.left bound (table' v) < c.left bound (start v) := by
  cases found : start v with
  | none =>
    cases found' : table' v with
    | none => simp [found, found', Component.SameAt] at changed
    | some s => exact Nat.lt_succ_of_le (bounded s (good v s found'))
  | some s =>
    obtain ⟨s', found', lower, -⟩ := h v s found
    rw [found', found] at changed
    rw [found']
    exact lower.resolve_left changed

theorem Component.Grows.measure_le : c.measure bound table' ≤ c.measure bound start :=
  sum_le_sum fun v _ => h.left_le bounded good v

theorem Component.Grows.measure_lt (mem : v ∈ backTargets a)
    (changed : ¬ c.SameAt (table' v) (start v)) : c.measure bound table' < c.measure bound start :=
  sum_lt_sum _ _ (fun v _ => h.left_le bounded good v)
    ⟨v, mem, h.left_lt bounded good changed⟩

end Growth

end

/-! ## What an arrival does -/

variable [DecidableEq S]


theorem arrive_of_ne (different : v ≠ target) :
    (arrive a incoming table target).1 v = table.1 v := by
  unfold arrive
  split <;> simp [Function.update_of_ne different]

theorem arrive_self_of_none (fresh : table.1 target = none) :
    (arrive a incoming table target).1 target = some incoming := by
  simp [arrive, fresh]

theorem arrive_self_of_some (found : table.1 target = some s) :
    (arrive a incoming table target).1 target = some (a.meet s incoming) := by
  simp [arrive, found]

theorem good_arrive (good : GoodTable a table.1) (goodIncoming : a.good incoming) (target : Nat) :
    GoodTable a (arrive a incoming table target).1 := by
  intro v s found
  by_cases here : v = target
  · subst here
    cases old : table.1 v with
    | none =>
      rw [arrive_self_of_none old] at found
      exact Option.some.inj found ▸ goodIncoming
    | some t =>
      rw [arrive_self_of_some old] at found
      exact Option.some.inj found ▸ a.good_meet (good v t old) goodIncoming
  · rw [arrive_of_ne here] at found
    exact good v s found

/-- A property of tables that arrivals of a good state keep holds after all of them. -/
theorem foldl_arrive {P : Table S × Bool → Prop} (goodIncoming : a.good incoming)
    (targets : List Nat)
    (keep : ∀ table target, target ∈ targets → GoodTable a table.1 → P table →
      P (arrive a incoming table target))
    (good : GoodTable a table.1) (holds : P table) :
    GoodTable a (targets.foldl (arrive a incoming) table).1 ∧
      P (targets.foldl (arrive a incoming) table) := by
  induction targets generalizing table with
  | nil => exact ⟨good, holds⟩
  | cons target targets ih =>
    exact ih (fun table other mem => keep table other (.tail _ mem))
      (good_arrive good goodIncoming target) (keep table target (.head _) good holds)

theorem linesUpTo_succ (a : Analysis S) (start : Table S) (count : Nat) :
    linesUpTo a start (count + 1) = line a (linesUpTo a start count) count := by
  rw [linesUpTo, range_succ, foldl_append]
  rfl

theorem good_line (good : GoodTable a table.1) (u : Nat) : GoodTable a (line a table u).1 := by
  unfold line
  cases found : table.1 u with
  | none => exact good
  | some state =>
    exact (foldl_arrive (P := fun _ => True) (a.good_transfer (good u state found)) _
      (fun _ _ _ _ _ => trivial) good trivial).1

theorem good_linesUpTo (good : GoodTable a start) (count : Nat) :
    GoodTable a (linesUpTo a start count).1 := by
  induction count with
  | zero => exact good
  | succ count ih =>
    rw [linesUpTo_succ]
    exact good_line ih count

theorem line_of_not_mem (fresh : v ∉ a.successors u) : (line a table u).1 v = table.1 v := by
  unfold line
  cases table.1 u with
  | none => rfl
  | some state =>
    dsimp only
    generalize a.transfer u state = incoming
    generalize a.successors u = targets at fresh
    induction targets generalizing table with
    | nil => rfl
    | cons target targets ih =>
      rw [mem_cons, not_or] at fresh
      exact (ih fresh.2).trans (arrive_of_ne fresh.1)

namespace Component

variable {c : Component a}

theorem grows_arrive (good : GoodTable a table.1) (goodIncoming : a.good incoming) (target : Nat) :
    c.Grows table.1 (arrive a incoming table target).1 := by
  intro v s found
  by_cases here : v = target
  · subst here
    have goodState := good v s found
    exact ⟨_, arrive_self_of_some found, c.meet_lt goodState goodIncoming,
      fun t goodOther taken => c.meet_later goodState goodOther goodIncoming taken⟩
  · exact ⟨s, (arrive_of_ne here).trans found, Or.inl (c.refl s), fun _ _ => id⟩

theorem takes_arrive (good : GoodTable a table.1) (goodIncoming : a.good incoming) (target : Nat) :
    c.Takes ((arrive a incoming table target).1 target) incoming := by
  cases old : table.1 target with
  | none => exact ⟨incoming, arrive_self_of_none old, c.meet_idem goodIncoming⟩
  | some s => exact ⟨_, arrive_self_of_some old, c.meet_again (good _ s old) goodIncoming⟩

theorem grows_line (good : GoodTable a table.1) (u : Nat) : c.Grows table.1 (line a table u).1 := by
  unfold line
  cases found : table.1 u with
  | none => exact Grows.refl _
  | some state =>
    have goodIncoming := a.good_transfer (u := u) (good u state found)
    exact (foldl_arrive (P := fun now => c.Grows table.1 now.1) goodIncoming _
      (fun now target _ goodNow grows => grows.trans (grows_arrive goodNow goodIncoming target))
      good (Grows.refl _)).2

theorem takes_line (good : GoodTable a table.1) (found : table.1 u = some s)
    (mem : v ∈ a.successors u) : c.Takes ((line a table u).1 v) (a.transfer u s) := by
  simp only [line, found]
  have goodIncoming := a.good_transfer (u := u) (good u s found)
  generalize a.transfer u s = incoming at goodIncoming
  generalize a.successors u = targets at mem
  clear found
  induction targets generalizing table with
  | nil => cases mem
  | cons target targets ih =>
    have goodNow : GoodTable a (arrive a incoming table target).1 :=
      good_arrive good goodIncoming target
    rw [foldl_cons]
    by_cases later : v ∈ targets
    · exact ih goodNow later
    obtain rfl : v = target := (mem_cons.1 mem).resolve_right later
    exact (foldl_arrive (P := fun now => c.Takes (now.1 v) incoming) goodIncoming targets
      (fun now other _ goodNow takes =>
        (grows_arrive goodNow goodIncoming other).takes goodIncoming takes)
      goodNow (takes_arrive good goodIncoming v)).2

theorem grows_linesUpTo (good : GoodTable a start) {count count' : Nat} (le : count ≤ count') :
    c.Grows (linesUpTo a start count).1 (linesUpTo a start count').1 := by
  induction count' with
  | zero =>
    obtain rfl := Nat.le_zero.1 le
    exact Grows.refl _
  | succ count' ih =>
    rcases Nat.lt_or_eq_of_le le with less | rfl
    · rw [linesUpTo_succ]
      exact (ih (Nat.le_of_lt_succ less)).trans (grows_line (good_linesUpTo good count') count')
    · exact Grows.refl _

/-! ## Rounds in which no edge back changes anything -/

/-- In a round no line changes the component at a line that is not behind it. -/
def Quiet (c : Component a) (start : Table S) : Prop :=
  ∀ u < a.count, ∀ v ≤ u,
    c.SameAt ((linesUpTo a start (u + 1)).1 v) ((linesUpTo a start u).1 v)

/-- Without changes along edges back a round leaves nothing to be taken in. -/
theorem stable_of_quiet (good : GoodTable a start) (quiet : c.Quiet start) :
    c.Stable (round a start).1 := by
  intro u s found v mem
  have u_lt := (a.inside mem).1
  -- The line keeps the component from where the round comes to it.
  have kept : ∀ later, u ≤ later → later ≤ a.count →
      c.SameAt ((linesUpTo a start later).1 u) ((linesUpTo a start u).1 u) := by
    intro later le
    induction later, le using Nat.le_induction with
    | base => exact fun _ => sameAt_refl _
    | succ later le ih => exact fun within => (quiet later within u le).trans (ih (by omega))
  have atEnd := kept a.count (Nat.le_of_lt u_lt) (Nat.le_refl _)
  have goodThen := good_linesUpTo (a := a) good u
  rw [show (linesUpTo a start a.count).1 u = some s from found] at atEnd
  obtain ⟨s', found', same⟩ := sameAt_some_left atEnd
  have takes := takes_line (c := c) goodThen found' mem
  rw [← linesUpTo_succ] at takes
  obtain ⟨t, foundT, taken⟩ :=
    (grows_linesUpTo (c := c) good (Nat.succ_le_of_lt u_lt)).takes
      (a.good_transfer (goodThen u s' found')) takes
  exact ⟨t, foundT, c.meet_congr (c.refl t) (c.transfer_congr (c.symm same)) taken⟩

theorem sameAt_of_stable (good : GoodTable a start) (stable : c.Stable start) (count : Nat)
    (v : Nat) : c.SameAt ((linesUpTo a start count).1 v) (start v) := by
  induction count generalizing v with
  | zero => exact sameAt_refl _
  | succ count ih =>
    rw [linesUpTo_succ]
    have goodNow := good_linesUpTo (a := a) good count
    generalize linesUpTo a start count = now at ih goodNow
    unfold line
    cases found : now.1 count with
    | none => exact ih v
    | some s =>
      have here := ih count
      rw [found] at here
      obtain ⟨s', found', same⟩ := sameAt_some_left here
      refine (foldl_arrive (P := fun now => ∀ v, c.SameAt (now.1 v) (start v))
        (a.good_transfer (goodNow count s found)) _ ?_ goodNow ih).2 v
      intro table target mem _ sameAll w
      by_cases at_ : w = target
      · subst at_
        obtain ⟨t, foundT, taken⟩ := stable count s' found' w mem
        have now := sameAll w
        rw [foundT] at now ⊢
        cases current : table.1 w with
        | none =>
          rw [current] at now
          exact now.elim
        | some t' =>
          rw [current] at now
          rw [arrive_self_of_some current]
          have again : c.same (a.meet t' (a.transfer count s)) t' :=
            c.meet_congr (c.symm now) (c.transfer_congr (c.symm same)) taken
          exact c.trans again now
      · rw [arrive_of_ne at_]
        exact sameAll w

theorem Stable.round (good : GoodTable a start) (stable : c.Stable start) :
    c.Stable (round a start).1 := by
  intro u s found v mem
  have here := sameAt_of_stable good stable a.count u
  rw [show (linesUpTo a start a.count).1 u = some s from found] at here
  obtain ⟨s', found', same⟩ := sameAt_some_left here
  obtain ⟨t, foundT, taken⟩ := stable u s' found' v mem
  have there := sameAt_of_stable good stable a.count v
  rw [foundT] at there
  cases current : (linesUpTo a start a.count).1 v with
  | none =>
    rw [current] at there
    exact there.elim
  | some t' =>
    rw [current] at there
    exact ⟨t', current, c.meet_congr (c.symm there) (c.transfer_congr (c.symm same)) taken⟩

end Component

/-! ## How many rounds it takes -/

section
variable {c : Component a} {bound : Nat} (bounded : ∀ s, a.good s → c.height s ≤ bound)
  {table' : Table S}
include bounded

/-- A round that is not quiet uses up some of what is left. -/
theorem Component.measure_round (good : GoodTable a start) (loud : ¬ c.Quiet start) :
    c.measure bound (round a start).1 < c.measure bound start := by
  simp only [Component.Quiet, not_forall] at loud
  obtain ⟨u, u_lt, v, back, changed⟩ := loud
  have mem : v ∈ a.successors u := by
    by_contra fresh
    rw [linesUpTo_succ, line_of_not_mem fresh] at changed
    exact changed (Component.sameAt_refl _)
  have before : c.Grows start (linesUpTo a start u).1 :=
    Component.grows_linesUpTo good (Nat.zero_le u)
  have step : c.Grows (linesUpTo a start u).1 (linesUpTo a start (u + 1)).1 :=
    Component.grows_linesUpTo good (Nat.le_succ u)
  have after : c.Grows (linesUpTo a start (u + 1)).1 (round a start).1 :=
    Component.grows_linesUpTo good (Nat.succ_le_of_lt u_lt)
  calc c.measure bound (round a start).1
      ≤ c.measure bound (linesUpTo a start (u + 1)).1 :=
        after.measure_le bounded (good_linesUpTo good a.count)
    _ < c.measure bound (linesUpTo a start u).1 :=
        step.measure_lt bounded (good_linesUpTo good (u + 1)) (mem_backTargets mem back) changed
    _ ≤ c.measure bound start := before.measure_le bounded (good_linesUpTo good u)

end

section
variable {ι : Type*} [Nonempty ι] {components : ι → Component a} {bound : ι → Nat}
  (separate : ∀ {s t}, a.good s → a.good t → (∀ i, (components i).same s t) → s = t)
  (bounded : ∀ i s, a.good s → (components i).height s ≤ bound i)

include separate in
theorem round_of_stable (good : GoodTable a start) (stable : ∀ i, (components i).Stable start) :
    round a start = (start, false) := by
  have lines : ∀ count, linesUpTo a start count = (start, false) := by
    intro count
    induction count with
    | zero => rfl
    | succ count ih =>
      rw [linesUpTo_succ, ih]
      cases found : start count with
      | none => simp only [line, found]
      | some s =>
        simp only [line, found]
        have goodIncoming := a.good_transfer (u := count) (good count s found)
        have settled : ∀ target ∈ a.successors count,
            arrive a (a.transfer count s) (start, false) target = (start, false) := by
          intro target mem
          cases current : start target with
          | none =>
            obtain ⟨i⟩ := ‹Nonempty ι›
            obtain ⟨t, foundT, -⟩ := stable i count s found target mem
            cases current.symm.trans foundT
          | some t =>
            have taken : a.meet t (a.transfer count s) = t := by
              apply separate (a.good_meet (good target t current) goodIncoming)
                (good target t current)
              intro i
              obtain ⟨t', foundT, taken⟩ := stable i count s found target mem
              obtain rfl := Option.some.inj (current.symm.trans foundT)
              exact taken
            simp [arrive, current, taken, Function.update_eq_self_iff]
        clear found
        generalize a.successors count = targets at settled
        induction targets with
        | nil => rfl
        | cons target targets ih' =>
          rw [foldl_cons, settled target (.head _)]
          exact ih' fun other mem => settled other (.tail _ mem)
  exact lines a.count

include separate bounded in
/-- Rounds settle when for each component there are more of them than its heights at the targets
of edges back add up to. -/
theorem settles (good : GoodTable a start)
    (enough : ∀ i, (components i).measure (bound i) start + 2 ≤ rounds) :
    Settles (round a) rounds start := by
  have within : ∀ i, (components i).Stable start ∨
      (components i).measure (bound i) start + 2 ≤ rounds := fun i => Or.inr (enough i)
  have some : 1 ≤ rounds := by
    obtain ⟨i⟩ := ‹Nonempty ι›
    exact Nat.le_of_succ_le (Nat.le_trans (Nat.le_add_left 2 _) (enough i))
  clear enough
  induction rounds generalizing start with
  | zero => cases some
  | succ rounds ih =>
    by_cases settled : (round a start).2 = false
    · exact Or.inl settled
    refine Or.inr (ih (good_linesUpTo good a.count) (fun i => ?_) ?_)
    · rcases within i with stable | enough
      · exact Or.inl (stable.round good)
      · by_cases quiet : (components i).Quiet start
        · exact Or.inl (Component.stable_of_quiet good quiet)
        · have less := Component.measure_round (bounded i) good quiet
          exact Or.inr (by omega)
    · -- With no round left every component would be stable by now.
      by_contra none
      have stable : ∀ i, (components i).Stable start := by
        intro i
        rcases within i with stable | enough
        · exact stable
        · omega
      exact settled (by rw [round_of_stable separate good stable])

end

/-! ## What the rounds find -/

/-- An order in which the meet is the greatest lower bound, and which the transfer keeps. -/
structure Order (a : Analysis S) where
  le : S → S → Prop
  refl : ∀ s, le s s
  trans : ∀ {s t r}, le s t → le t r → le s r
  meet_left : ∀ {s t}, a.good s → a.good t → le (a.meet s t) s
  meet_right : ∀ {s t}, a.good s → a.good t → le (a.meet s t) t
  le_meet : ∀ {s t r}, a.good s → a.good t → le r s → le r t → le r (a.meet s t)
  transfer : ∀ {u s t}, a.good s → a.good t → le s t → le (a.transfer u s) (a.transfer u t)

/-- The states of the reached lines have taken in all that their edges bring, and are the greatest
lower bounds of it and of the state they start with. -/
structure Solution (a : Analysis S) (o : Order a) (start table : Table S) : Prop where
  reached : ∀ v, (table v).isSome ↔ ∃ u, (start u).isSome ∧
    Relation.ReflTransGen (fun u v => v ∈ a.successors u) u v
  takes : ∀ u s, table u = some s → ∀ v ∈ a.successors u, ∀ t, table v = some t →
    a.meet t (a.transfer u s) = t
  le_edge : ∀ u s, table u = some s → ∀ v ∈ a.successors u, ∀ t, table v = some t →
    o.le t (a.transfer u s)
  le_start : ∀ v s, start v = some s → ∀ t, table v = some t → o.le t s
  greatest : ∀ v t, table v = some t → ∀ x,
    (∀ u s, table u = some s → v ∈ a.successors u → o.le x (a.transfer u s)) →
    (∀ s, start v = some s → o.le x s) → o.le x t

section
variable {o : Order a} {table' : Table S}

/-- What a table that comes up in a run has in common with the solution. -/
structure Sound (a : Analysis S) (o : Order a) (start table : Table S) : Prop where
  good : GoodTable a table
  reached : ∀ v s, table v = some s → ∃ u, (start u).isSome ∧
    Relation.ReflTransGen (fun u v => v ∈ a.successors u) u v
  le_start : ∀ v s, start v = some s → ∃ t, table v = some t ∧ o.le t s
  greatest : ∀ v t, table v = some t → ∀ x,
    (∀ u s, table u = some s → v ∈ a.successors u → o.le x (a.transfer u s)) →
    (∀ s, start v = some s → o.le x s) → o.le x t

omit [DecidableEq S] in
theorem Sound.initial (good : GoodTable a start) : Sound a o start start where
  good := good
  reached v s found := ⟨v, by rw [found]; rfl, .refl⟩
  le_start v s found := ⟨s, found, o.refl s⟩
  greatest v t found x _ below := below t found

/-- An arrival from a line whose state has only gone down since it was read. -/
theorem Sound.arrive (h : Sound a o start table.1) {s now : S} (goodThen : a.good s)
    (current : table.1 u = some now) (lower : o.le now s) (mem : target ∈ a.successors u) :
    Sound a o start (arrive a (a.transfer u s) table target).1 ∧
      ∃ later, (Dataflow.arrive a (a.transfer u s) table target).1 u =
        some later ∧ o.le later s := by
  have goodIncoming := a.good_transfer (u := u) goodThen
  -- The states of all lines go down.
  have down : ∀ v t, table.1 v = some t →
      ∃ t', (Dataflow.arrive a (a.transfer u s) table target).1 v = some t' ∧ o.le t' t := by
    intro v t found
    by_cases here : v = target
    · subst here
      exact ⟨_, arrive_self_of_some found, o.meet_left (h.good v t found) goodIncoming⟩
    · exact ⟨t, (arrive_of_ne here).trans found, o.refl t⟩
  refine ⟨⟨good_arrive h.good goodIncoming target, ?_, ?_, ?_⟩, ?_⟩
  · intro v t found
    by_cases here : v = target
    · subst here
      obtain ⟨root, isStart, path⟩ := h.reached u now current
      exact ⟨root, isStart, path.tail mem⟩
    · rw [arrive_of_ne here] at found
      exact h.reached v t found
  · intro v t found
    obtain ⟨t', found', le⟩ := h.le_start v t found
    obtain ⟨t'', found'', le'⟩ := down v t' found'
    exact ⟨t'', found'', o.trans le' le⟩
  · intro v t found x edges starts
    -- A bound of what the edges bring now is one of what they brought before.
    have earlier : ∀ w r, table.1 w = some r → v ∈ a.successors w → o.le x (a.transfer w r) := by
      intro w r foundR memR
      obtain ⟨r', foundR', le⟩ := down w r foundR
      have goodR' := good_arrive h.good goodIncoming target w r' foundR'
      exact o.trans (edges w r' foundR' memR) (o.transfer goodR' (h.good w r foundR) le)
    by_cases here : v = target
    · subst here
      have incoming : o.le x (a.transfer u s) :=
        o.trans (earlier u now current mem) (o.transfer (h.good u now current) goodThen lower)
      cases old : table.1 v with
      | none =>
        rw [arrive_self_of_none old] at found
        exact Option.some.inj found ▸ incoming
      | some r =>
        rw [arrive_self_of_some old] at found
        exact Option.some.inj found ▸
          o.le_meet (h.good v r old) goodIncoming (h.greatest v r old x earlier starts) incoming
    · rw [arrive_of_ne here] at found
      exact h.greatest v t found x earlier starts
  · obtain ⟨later, found, le⟩ := down u now current
    exact ⟨later, found, o.trans le lower⟩

theorem Sound.line (h : Sound a o start table.1) (u : Nat) :
    Sound a o start (line a table u).1 := by
  unfold Dataflow.line
  cases found : table.1 u with
  | none => exact h
  | some s =>
    have goodThen := h.good u s found
    refine (foldl_arrive (P := fun now => Sound a o start now.1 ∧
        ∃ later, now.1 u = some later ∧ o.le later s)
      (a.good_transfer goodThen) _ ?_ h.good ⟨h, s, found, o.refl s⟩).2.1
    intro now target mem _ sound
    obtain ⟨sound, later, current, lower⟩ := sound
    exact sound.arrive goodThen current lower mem

theorem Sound.round (h : Sound a o start table') : Sound a o start (round a table').1 := by
  have lines : ∀ count, Sound a o start (linesUpTo a table' count).1 := by
    intro count
    induction count with
    | zero => exact h
    | succ count ih =>
      rw [linesUpTo_succ]
      exact ih.line count
  exact lines a.count

/-! ### A round that changes nothing -/

theorem arrive_unchanged (unchanged : (arrive a incoming table target).2 = false) :
    table.2 = false ∧ ∃ t, table.1 target = some t ∧ a.meet t incoming = t ∧
      arrive a incoming table target = table := by
  obtain ⟨now, changed⟩ := table
  cases current : now target with
  | none => simp [arrive, current] at unchanged
  | some t =>
    simp only [arrive, current, Bool.or_eq_false_iff, decide_eq_false_iff_not, not_not] at unchanged
    obtain ⟨taken, flag⟩ := unchanged
    refine ⟨flag, t, current, taken.symm, ?_⟩
    simp [arrive, current, ← taken, flag, Function.update_eq_self_iff]

theorem foldl_arrive_unchanged {targets : List Nat}
    (unchanged : (targets.foldl (arrive a incoming) table).2 = false) :
    table.2 = false ∧ targets.foldl (arrive a incoming) table = table ∧
      ∀ target ∈ targets, ∃ t, table.1 target = some t ∧ a.meet t incoming = t := by
  induction targets generalizing table with
  | nil => exact ⟨unchanged, rfl, fun _ mem => by cases mem⟩
  | cons target targets ih =>
    obtain ⟨first, rest, all⟩ := ih unchanged
    obtain ⟨flag, t, current, taken, same⟩ := arrive_unchanged first
    rw [same] at rest all
    refine ⟨flag, ?_, fun other mem => ?_⟩
    · rw [foldl_cons, same, rest]
    · rcases mem_cons.1 mem with rfl | mem
      · exact ⟨t, current, taken⟩
      · exact all other mem

theorem linesUpTo_unchanged {count : Nat} (unchanged : (linesUpTo a start count).2 = false) :
    linesUpTo a start count = (start, false) ∧ ∀ u < count, ∀ s, start u = some s →
      ∀ v ∈ a.successors u, ∃ t, start v = some t ∧ a.meet t (a.transfer u s) = t := by
  induction count with
  | zero => exact ⟨rfl, fun u u_lt => absurd u_lt (Nat.not_lt_zero u)⟩
  | succ count ih =>
    rw [linesUpTo_succ] at unchanged ⊢
    have before : (linesUpTo a start count).2 = false ∧
        line a (linesUpTo a start count) count = linesUpTo a start count ∧
        ∀ s, (linesUpTo a start count).1 count = some s → ∀ v ∈ a.successors count,
          ∃ t, (linesUpTo a start count).1 v = some t ∧ a.meet t (a.transfer count s) = t := by
      unfold line at unchanged ⊢
      cases found : (linesUpTo a start count).1 count with
      | none =>
        simp only [found] at unchanged ⊢
        exact ⟨unchanged, trivial, fun s h => by cases h⟩
      | some s =>
        simp only [found] at unchanged ⊢
        obtain ⟨flag, same, all⟩ := foldl_arrive_unchanged unchanged
        refine ⟨flag, same, fun s' h => ?_⟩
        obtain rfl := Option.some.inj h
        exact all
    obtain ⟨flag, same, all⟩ := before
    obtain ⟨eq, earlier⟩ := ih flag
    rw [eq] at same all
    refine ⟨eq ▸ same, fun u u_lt s found v mem => ?_⟩
    rcases Nat.lt_succ_iff_lt_or_eq.1 u_lt with less | rfl
    · exact earlier u less s found v mem
    · exact all s found v mem

/-- A table that a round does not change is the solution. -/
theorem Sound.solution (h : Sound a o start table')
    (settled : (Dataflow.round a table').2 = false) :
    (Dataflow.round a table').1 = table' ∧ Solution a o start table' := by
  obtain ⟨same, edges⟩ := linesUpTo_unchanged settled
  have takes : ∀ u s, table' u = some s → ∀ v ∈ a.successors u, ∀ t, table' v = some t →
      a.meet t (a.transfer u s) = t := by
    intro u s found v mem t foundT
    obtain ⟨t', foundT', taken⟩ := edges u (a.inside mem).1 s found v mem
    obtain rfl := Option.some.inj (foundT.symm.trans foundT')
    exact taken
  refine ⟨congrArg Prod.fst same, ?_, takes, ?_, ?_, h.greatest⟩
  · intro v
    constructor
    · intro isSome
      obtain ⟨s, found⟩ := Option.isSome_iff_exists.1 isSome
      exact h.reached v s found
    · rintro ⟨u, isStart, path⟩
      induction path with
      | refl =>
        obtain ⟨s, found⟩ := Option.isSome_iff_exists.1 isStart
        obtain ⟨t, foundT, -⟩ := h.le_start u s found
        rw [foundT]
        rfl
      | tail _ mem ih =>
        obtain ⟨s, found⟩ := Option.isSome_iff_exists.1 ih
        obtain ⟨t, foundT, -⟩ := edges _ (a.inside mem).1 s found _ mem
        rw [foundT]
        rfl
  · intro u s found v mem t foundT
    have taken := takes u s found v mem t foundT
    have le := o.meet_right (h.good v t foundT) (a.good_transfer (u := u) (h.good u s found))
    rwa [taken] at le
  · intro v s found t foundT
    obtain ⟨t', foundT', le⟩ := h.le_start v s found
    obtain rfl := Option.some.inj (foundT.symm.trans foundT')
    exact le

end

/-! ## Procedures that follow the rounds -/

section
variable {T : Type*} {states : T → Table S} {P : T → Prop} {table : T}

/-- A procedure whose steps are arrivals hands a state to its targets like a line. -/
theorem foldl_follows {arriveAt : T × Bool → Nat → T × Bool} {targets : List Nat}
    (follows : ∀ {table}, P table → ∀ flag, ∀ target ∈ targets,
      P (arriveAt (table, flag) target).1 ∧
        ((arriveAt (table, flag) target).map states id) =
          arrive a incoming (states table, flag) target)
    (holds : P table) (flag : Bool) :
    P (targets.foldl arriveAt (table, flag)).1 ∧
      (targets.foldl arriveAt (table, flag)).map states id =
        targets.foldl (arrive a incoming) (states table, flag) := by
  induction targets generalizing table flag with
  | nil => exact ⟨holds, rfl⟩
  | cons target targets ih =>
    obtain ⟨next, same⟩ := follows holds flag target (.head _)
    rw [foldl_cons, foldl_cons, ← same]
    exact ih (fun holds flag other mem => follows holds flag other (.tail _ mem)) next _

/-- A procedure whose steps are lines goes over the table like a round. -/
theorem linesUpTo_follows {lineAt : T × Bool → Nat → T × Bool}
    (follows : ∀ {table}, P table → GoodTable a (states table) → ∀ flag u,
      P (lineAt (table, flag) u).1 ∧
        (lineAt (table, flag) u).map states id = line a (states table, flag) u)
    (holds : P table) (good : GoodTable a (states table)) (count : Nat) :
    P ((range count).foldl lineAt (table, false)).1 ∧
      ((range count).foldl lineAt (table, false)).map states id =
        linesUpTo a (states table) count := by
  induction count with
  | zero => exact ⟨holds, rfl⟩
  | succ count ih =>
    obtain ⟨now, same⟩ := ih
    have goodNow := good_linesUpTo good count
    rw [← same] at goodNow
    rw [range_succ, foldl_append, linesUpTo_succ, ← same]
    exact follows now goodNow _ count

end

end Elisa.Lib.Dataflow
