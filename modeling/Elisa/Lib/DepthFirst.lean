import Mathlib.Data.List.Chain
import Mathlib.Algebra.Order.BigOperators.Group.List
import Mathlib.Algebra.Order.Group.Nat
import Mathlib.Algebra.Ring.Nat
import Elisa.Lib.Steps

/-!
# Depth-first search with a stack

A search keeps the vertices that it is in on a stack, each with the number of its edges that it has
followed.  A step follows the next edge of the topmost vertex, and enters the vertex behind it if it
has not been seen; where no edge is left, it leaves the vertex, which is then the last one in the
order.

What a step keeps is `Underway`: the stack is a path, and a vertex that has been left has all its
edges in the order before it, but for edges to vertices that lead to it.  So the order of a search
that has ended is a `PostOrder` of what its roots reach (`Underway.postOrder`).
-/

namespace Elisa.Lib.DepthFirst

open Relation List

/-- A finite graph that lists the edges of its vertices.  Some of them may lead nowhere. -/
structure Graph (α : Type*) where
  vertices : List α
  degree : α → Nat
  child : α → Nat → Option α
  inside : ∀ {v i w}, child v i = some w → w ∈ vertices

/-- A vertex with the number of its edges that have been followed. -/
abbrev Frame (α : Type*) := α × Nat

/-- The order so far, the vertices that have been seen, and those that the search is in. -/
structure Search (α : Type*) where
  order : List α
  seen : α → Bool
  stack : List (Frame α)

variable {α : Type*} {g : Graph α} {roots : α → Prop} {search next : Search α} {u v w : α}

def Graph.Edge (g : Graph α) (v w : α) : Prop := ∃ i < g.degree v, g.child v i = some w

abbrev Graph.Leads (g : Graph α) : α → α → Prop := ReflTransGen g.Edge

section
variable [DecidableEq α]

def Search.enter (search : Search α) (v : α) : Search α :=
  { search with seen := Function.update search.seen v true, stack := (v, 0) :: search.stack }

/-- One step, while there is a vertex on the stack. -/
def step (g : Graph α) (search : Search α) : Option (Search α) :=
  match search.stack with
  | [] => none
  | (v, i) :: rest =>
    if g.degree v ≤ i then some { search with order := search.order ++ [v], stack := rest }
    else
      let followed := { search with stack := (v, i + 1) :: rest }
      match g.child v i with
      | none => some followed
      | some w => some (if search.seen w then followed else followed.enter w)

end

/-- Every vertex comes behind those that its edges lead to, unless these lead back to it. -/
structure PostOrder (g : Graph α) (roots : α → Prop) (order : List α) : Prop where
  nodup : order.Nodup
  mem_iff : ∀ v, v ∈ order ↔ ∃ root, roots root ∧ g.Leads root v
  before : ∀ {pre v post}, order = pre ++ v :: post → ∀ w, g.Edge v w → w ∈ pre ∨ g.Leads w v

/-- What holds at every step of a search. -/
structure Underway (g : Graph α) (roots : α → Prop) (search : Search α) : Prop where
  seen_iff : ∀ v, search.seen v = true ↔ v ∈ search.order ∨ v ∈ search.stack.map Prod.fst
  nodup : (search.order ++ search.stack.map Prod.fst).Nodup
  path : (search.stack.map Prod.fst).IsChain fun w v => g.Edge v w
  reached : ∀ v, search.seen v = true → ∃ root, roots root ∧ g.Leads root v
  followed : ∀ v i, (v, i) ∈ search.stack → ∀ j < i, ∀ w, g.child v j =
    some w → search.seen w = true
  closed : ∀ v ∈ search.order, ∀ w, g.Edge v w → search.seen w = true
  before : ∀ {pre v post}, search.order = pre ++ v :: post → ∀ w, g.Edge v w →
    w ∈ pre ∨ g.Leads w v

theorem leads_of_path {stack : List α} (path : (v :: stack).IsChain fun w v => g.Edge v w)
    (mem : w ∈ v :: stack) : g.Leads w v := by
  induction stack generalizing v with
  | nil =>
    obtain rfl := mem_singleton.1 mem
    exact .refl
  | cons u stack ih =>
    rw [isChain_cons_cons] at path
    rcases mem_cons.1 mem with rfl | mem
    · exact .refl
    · exact (ih path.2 mem).tail path.1

/-! ## Steps -/

namespace Underway

theorem start : Underway g roots ⟨[], fun _ => false, []⟩ where
  seen_iff v := by simp
  nodup := nodup_nil
  path := .nil
  reached v h := by cases h
  followed v i h := by cases h
  closed v h := by cases h
  before h := by simp at h

theorem leave {rest : List (Frame α)} {i : Nat} (h : Underway g roots search)
    (top : search.stack = (v, i) :: rest) (done : g.degree v ≤ i) :
    Underway g roots { search with order := search.order ++ [v], stack := rest } := by
  have seenTop : ∀ j < g.degree v, ∀ w, g.child v j = some w → search.seen w = true :=
    fun j lt => h.followed v i (top ▸ .head _) j (Nat.lt_of_lt_of_le lt done)
  have path := h.path
  have nodup := h.nodup
  rw [top, map_cons] at path nodup
  refine ⟨fun w => ?_, by simpa using nodup, path.tail, h.reached,
    fun w j mem => h.followed w j (top ▸ .tail _ mem), ?_, ?_⟩
  · rw [h.seen_iff, top]
    simp only [map_cons, mem_cons, mem_append, not_mem_nil, or_false, or_assoc]
  · intro u mem w edge
    rcases mem_append.1 mem with mem | mem
    · exact h.closed u mem w edge
    · obtain rfl := mem_singleton.1 mem
      obtain ⟨j, lt, child⟩ := edge
      exact seenTop j lt w child
  · intro pre u post split w edge
    cases post using List.reverseRecOn with
    | nil =>
      -- The vertex that is left: what its edges lead to is in the order or on the stack above.
      obtain ⟨rfl, same⟩ := append_inj' split rfl
      obtain rfl : v = u := by simpa using same
      obtain ⟨j, lt, child⟩ := edge
      rcases (h.seen_iff w).1 (seenTop j lt w child) with mem | mem
      · exact Or.inl mem
      · rw [top, map_cons] at mem
        exact Or.inr (leads_of_path path mem)
    | append_singleton post last =>
      have split : search.order ++ [v] = (pre ++ u :: post) ++ [last] := by simpa using split
      exact h.before (append_inj_left' split rfl) w edge

theorem follow {rest : List (Frame α)} {i : Nat} (above : List (Frame α))
    (h : Underway g roots search)
    (stack : search.stack = above ++ (v, i) :: rest)
    (known : ∀ w, g.child v i = some w → search.seen w = true) :
    Underway g roots { search with stack := above ++ (v, i + 1) :: rest } := by
  have nodes : (above ++ (v, i + 1) :: rest).map Prod.fst = search.stack.map Prod.fst := by
    simp [stack]
  refine ⟨fun w => ?_, ?_, ?_, h.reached, ?_, h.closed, h.before⟩
  · rw [nodes]
    exact h.seen_iff w
  · rw [nodes]
    exact h.nodup
  · rw [nodes]
    exact h.path
  intro u k mem j lt w child
  by_cases here : (u, k) = (v, i + 1)
  · obtain ⟨rfl, rfl⟩ := Prod.mk.inj here
    rcases Nat.lt_succ_iff_lt_or_eq.1 lt with lt | rfl
    · exact h.followed u i (by simp [stack]) j lt w child
    · exact known w child
  have mem : (u, k) ∈ search.stack := by
    rw [stack]
    simp only [mem_append, mem_cons, here, false_or] at mem ⊢
    exact mem.imp_right Or.inr
  exact h.followed u k mem j lt w child

variable [DecidableEq α]

theorem enter (h : Underway g roots search) (fresh : search.seen v = false)
    (from_ : ∀ u ∈ (search.stack.map Prod.fst).head?, g.Edge u v)
    (leads : ∃ root, roots root ∧ g.Leads root v) : Underway g roots (search.enter v) := by
  have apart : v ∉ search.order ++ search.stack.map Prod.fst := by
    rw [mem_append, ← h.seen_iff, fresh]
    exact Bool.false_ne_true
  have seen : ∀ w, (search.enter v).seen w = true ↔ w = v ∨ search.seen w = true := by
    intro w
    by_cases here : w = v <;> simp [Search.enter, here]
  have grown : ∀ w, search.seen w = true → (search.enter v).seen w = true :=
    fun w h => (seen w).2 (Or.inr h)
  refine ⟨fun w => ?_, ?_, ?_, fun w here => ?_, ?_, fun u mem w edge =>
    grown w (h.closed u mem w edge), h.before⟩
  · rw [seen, h.seen_iff]
    simp only [Search.enter, map_cons, mem_cons]
    tauto
  · exact (perm_middle.nodup_iff).2 (nodup_cons.2 ⟨apart, h.nodup⟩)
  · simp only [Search.enter, map_cons]
    exact h.path.cons from_
  · rcases (seen w).1 here with rfl | here
    · exact leads
    · exact h.reached w here
  intro u k mem j lt w child
  rcases mem_cons.1 mem with here | mem
  · obtain ⟨-, rfl⟩ := Prod.mk.inj here
    cases lt
  · exact grown w (h.followed u k mem j lt w child)

theorem enter_root (h : Underway g roots search) (fresh : search.seen v = false)
    (empty : search.stack = []) (root : roots v) : Underway g roots (search.enter v) :=
  h.enter fresh (by simp [empty]) ⟨v, root, .refl⟩

theorem step (h : Underway g roots search) (taken : DepthFirst.step g search = some next) :
    Underway g roots next := by
  unfold DepthFirst.step at taken
  cases top : search.stack with
  | nil =>
    rw [top] at taken
    cases taken
  | cons frame rest =>
    obtain ⟨v, i⟩ := frame
    simp only [top] at taken
    split at taken
    next done =>
      cases taken
      exact h.leave top done
    rename_i going
    cases child : g.child v i with
    | none =>
      simp only [child] at taken
      cases taken
      exact h.follow [] top fun w found => by cases child.symm.trans found
    | some w =>
      simp only [child] at taken
      cases seen : search.seen w with
      | true =>
        simp only [seen, if_true] at taken
        cases taken
        refine h.follow [] top fun w' found => ?_
        obtain rfl := Option.some.inj (child.symm.trans found)
        exact seen
      | false =>
        simp only [seen, Bool.false_eq_true, if_false] at taken
        cases taken
        have edge : g.Edge v w := ⟨i, Nat.lt_of_not_le going, child⟩
        have seenTop : search.seen v = true := (h.seen_iff v).2 (Or.inr (by simp [top]))
        obtain ⟨root, isRoot, leads⟩ := h.reached v seenTop
        have entered : Underway g roots (search.enter w) :=
          h.enter seen (by simp [top, edge]) ⟨root, isRoot, leads.tail edge⟩
        refine entered.follow [(w, 0)] (by simp [Search.enter, top]) fun w' found => ?_
        obtain rfl := Option.some.inj (child.symm.trans found)
        exact Function.update_self ..

theorem seen_step (taken : DepthFirst.step g search = some next) (h : search.seen v = true) :
    next.seen v = true := by
  unfold DepthFirst.step at taken
  split at taken
  next => cases taken
  split at taken
  next =>
    cases taken
    exact h
  split at taken
  next =>
    cases taken
    exact h
  cases taken
  split
  next => exact h
  unfold Search.enter
  dsimp only
  rw [Function.update_apply]
  split
  · rfl
  · exact h

omit [DecidableEq α] in
/-- The order of a search that has ended, after its roots have all been seen. -/
theorem postOrder (h : Underway g roots search) (ended : search.stack = [])
    (all : ∀ root, roots root → search.seen root = true) : PostOrder g roots search.order := by
  have seen_iff : ∀ v, search.seen v = true ↔ v ∈ search.order := by
    intro v
    simp [h.seen_iff, ended]
  refine ⟨by simpa [ended] using h.nodup, fun v => ⟨fun mem => ?_, ?_⟩, h.before⟩
  · exact h.reached v ((seen_iff v).2 mem)
  · rintro ⟨root, isRoot, leads⟩
    induction leads with
    | refl => exact (seen_iff _).1 (all _ isRoot)
    | tail _ edge ih => exact (seen_iff _).1 (h.closed _ ih _ edge)

end Underway

/-! ## How many steps there are -/

section
variable [DecidableEq α]

/-- What is left: the edges of the vertices that have not been seen, and those that have not been
followed yet. -/
def Search.left (g : Graph α) (search : Search α) : Nat :=
  ((g.vertices.filter fun v => !search.seen v).map fun v => g.degree v + 2).sum +
    (search.stack.map fun frame => g.degree frame.1 - frame.2 + 1).sum

/-- The steps that a graph takes at most. -/
def Graph.budget (g : Graph α) : Nat := (g.vertices.map fun v => g.degree v + 2).sum

theorem unseen_enter (search : Search α) (mem : v ∈ g.vertices) (fresh : search.seen v = false) :
    ((g.vertices.filter fun w => !(search.enter v).seen w).map fun w => g.degree w + 2).sum +
        (g.degree v + 2) ≤
      ((g.vertices.filter fun w => !search.seen w).map fun w => g.degree w + 2).sum := by
  generalize g.vertices = vertices at mem
  have less : ∀ vertices : List α,
      ((vertices.filter fun w => !(search.enter v).seen w).map fun w => g.degree w + 2).sum ≤
        ((vertices.filter fun w => !search.seen w).map fun w => g.degree w + 2).sum := by
    intro vertices
    refine List.Sublist.sum_le_sum (List.Sublist.map _ (monotone_filter_right _ ?_))
      fun _ _ => Nat.zero_le _
    intro w
    by_cases here : w = v
    · simp [Search.enter, here]
    · simp [Search.enter, Function.update_of_ne here]
  induction vertices with
  | nil => cases mem
  | cons w vertices ih =>
    by_cases here : w = v
    · subst here
      simpa [Search.enter, fresh, Nat.add_comm] using less vertices
    have same : (search.enter v).seen w = search.seen w := by
      simp [Search.enter, Function.update_of_ne here]
    have rest := ih ((mem_cons.1 mem).resolve_left (Ne.symm here))
    rw [filter_cons, filter_cons, same]
    split
    · simp only [map_cons, sum_cons]
      omega
    · exact rest

theorem left_step (taken : step g search = some next) : next.left g < search.left g := by
  unfold step at taken
  cases top : search.stack with
  | nil =>
    rw [top] at taken
    cases taken
  | cons frame rest =>
    obtain ⟨v, i⟩ := frame
    simp only [top] at taken
    split at taken
    next =>
      cases taken
      simp [Search.left, top]
    rename_i going
    have followed : ({ search with stack := (v, i + 1) :: rest } : Search α).left g <
        search.left g := by
      simp only [Search.left, top, map_cons, sum_cons]
      omega
    cases child : g.child v i with
    | none =>
      simp only [child] at taken
      cases taken
      exact followed
    | some w =>
      simp only [child] at taken
      cases taken
      cases seen : search.seen w with
      | true => simpa [seen] using followed
      | false =>
        have entered := unseen_enter search (g.inside child) seen
        simp only [Bool.false_eq_true, if_false]
        simp only [Search.left, Search.enter, top, map_cons, sum_cons] at entered ⊢
        omega

theorem left_enter (mem : v ∈ g.vertices) (fresh : search.seen v = false) :
    (search.enter v).left g < search.left g := by
  have entered := unseen_enter search mem fresh
  simp only [Search.left, Search.enter, map_cons, sum_cons] at entered ⊢
  omega

omit [DecidableEq α] in
theorem left_start : (⟨[], fun _ => false, []⟩ : Search α).left g = g.budget := by
  simp [Search.left, Graph.budget]

/-! ## Whole searches -/

def searchFrom (g : Graph α) (fuel : Nat) (search : Search α) (root : α) : Search α :=
  if search.seen root then search else runSteps (step g) fuel (search.enter root)

theorem left_searchFrom (search : Search α) (fuel : Nat) (mem : v ∈ g.vertices) :
    (searchFrom g fuel search v).left g ≤ search.left g := by
  unfold searchFrom
  split
  next => exact Nat.le_refl _
  rename_i fresh
  refine Nat.le_trans ?_ (Nat.le_of_lt (left_enter mem (Bool.eq_false_iff.2 fresh)))
  exact runSteps_related (fun a b : Search α => b.left g ≤ a.left g) (fun _ => Nat.le_refl _)
    (fun h h' => Nat.le_trans h' h) fun _ _ taken => Nat.le_of_lt (left_step taken)

theorem step_runSteps {fuel : Nat} (mem : v ∈ g.vertices) (fresh : search.seen v = false)
    (enough : search.left g ≤ fuel) : step g (runSteps (step g) fuel (search.enter v)) = none :=
  runSteps_halts (Search.left g) (fun _ _ => left_step)
    (Nat.le_trans (Nat.le_of_lt (left_enter mem fresh)) enough)

theorem foldl_searchFrom_of_le {fuel more : Nat} {rootList : List α}
    (inside : ∀ root ∈ rootList, root ∈ g.vertices) (enough : search.left g ≤ fuel)
    (le : fuel ≤ more) :
    rootList.foldl (searchFrom g more) search = rootList.foldl (searchFrom g fuel) search := by
  induction rootList generalizing search with
  | nil => rfl
  | cons root rootList ih =>
    have mem := inside root (.head _)
    have same : searchFrom g more search root = searchFrom g fuel search root := by
      unfold searchFrom
      split
      next => rfl
      next fresh =>
        exact runSteps_of_le (step_runSteps mem (Bool.eq_false_iff.2 fresh) enough) le
    rw [foldl_cons, foldl_cons, same]
    exact ih (fun other mem => inside other (.tail _ mem))
      (Nat.le_trans (left_searchFrom _ _ mem) enough)

theorem searchFrom_spec {fuel : Nat} (h : Underway g roots search) (ended : search.stack = [])
    (isRoot : roots v) (mem : v ∈ g.vertices) (enough : search.left g ≤ fuel) :
    Underway g roots (searchFrom g fuel search v) ∧ (searchFrom g fuel search v).stack = [] ∧
      (searchFrom g fuel search v).seen v = true ∧
      ∀ w, search.seen w = true → (searchFrom g fuel search v).seen w = true := by
  unfold searchFrom
  cases fresh : search.seen v with
  | true => exact ⟨h, ended, fresh, fun _ => id⟩
  | false =>
    rw [if_neg Bool.false_ne_true]
    have halts := step_runSteps mem fresh enough
    have keeps : ∀ w, (search.enter v).seen w = true →
        (runSteps (step g) fuel (search.enter v)).seen w = true := fun w =>
      runSteps_keeps (fun s => s.seen w = true) fun _ _ seen taken => Underway.seen_step taken seen
    refine ⟨runSteps_keeps (Underway g roots) (fun _ _ h taken => h.step taken)
      (h.enter_root fresh ended isRoot), ?_, keeps v ?_, fun w seen => keeps w ?_⟩
    · unfold step at halts
      split at halts
      next empty => exact empty
      split at halts
      · cases halts
      · split at halts <;> cases halts
    · exact Function.update_self ..
    unfold Search.enter
    dsimp only
    rw [Function.update_apply]
    split
    · rfl
    · exact seen

/-- A vertex that comes before another one has the smaller index. -/
theorem PostOrder.idxOf_lt {order : List α} (h : PostOrder g roots order) (mem : v ∈ order)
    (edge : g.Edge v w) : order.idxOf w < order.idxOf v ∨ g.Leads w v := by
  obtain ⟨pre, post, split⟩ := append_of_mem mem
  refine (h.before split w edge).imp_left fun earlier => ?_
  have fresh : v ∉ pre := by
    intro twice
    have nodup := h.nodup
    rw [split] at nodup
    exact (nodup_append.1 nodup).2.2 v twice v (.head _) rfl
  rw [split, idxOf_append_of_mem earlier, idxOf_append_of_notMem fresh]
  exact Nat.lt_of_lt_of_le (idxOf_lt_length_of_mem earlier) (Nat.le_add_right ..)

/-- The roots are searched one after the other, and the order that this gives is complete. -/
theorem postOrder_foldl {fuel : Nat} {rootList : List α}
    (inside : ∀ root ∈ rootList, root ∈ g.vertices)
    (enough : g.budget ≤ fuel) :
    (rootList.foldl (searchFrom g fuel) ⟨[], fun _ => false, []⟩).stack = [] ∧
    PostOrder g (· ∈ rootList)
      (rootList.foldl (searchFrom g fuel) ⟨[], fun _ => false, []⟩).order := by
  have all : ∀ (rest : List α) (search : Search α), (∀ root ∈ rest, root ∈ rootList) →
      Underway g (· ∈ rootList) search → search.stack = [] → search.left g ≤ fuel →
      Underway g (· ∈ rootList) (rest.foldl (searchFrom g fuel) search) ∧
        (rest.foldl (searchFrom g fuel) search).stack = [] ∧
        (∀ w, search.seen w = true → (rest.foldl (searchFrom g fuel) search).seen w = true) ∧
        ∀ root ∈ rest, (rest.foldl (searchFrom g fuel) search).seen root = true := by
    intro rest
    induction rest with
    | nil => exact fun search _ h ended _ => ⟨h, ended, fun _ => id, fun _ mem => by cases mem⟩
    | cons root rest ih =>
      intro search among h ended left
      have mem := inside root (among root (.head _))
      obtain ⟨h', ended', here, kept⟩ := searchFrom_spec h ended (among root (.head _)) mem left
      obtain ⟨last, done, later, seen⟩ := ih (searchFrom g fuel search root)
        (fun other mem => among other (.tail _ mem)) h' ended'
          (Nat.le_trans (left_searchFrom _ _ mem) left)
      refine ⟨last, done, fun w seen => later w (kept w seen), fun other mem => ?_⟩
      rcases mem_cons.1 mem with rfl | mem
      · exact later other here
      · exact seen other mem
  obtain ⟨last, done, -, seen⟩ :=
    all rootList ⟨[], fun _ => false, []⟩ (fun _ => id) .start rfl (left_start.trans_le enough)
  exact ⟨done, last.postOrder done seen⟩

end

end Elisa.Lib.DepthFirst
