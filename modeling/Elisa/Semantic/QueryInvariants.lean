import Elisa.Semantic.QueryRuns

/-!
# The query graph in every session

Nothing that a session is asked to do breaks the links of its graph or closes a cycle in it
(`reachable_graph_is_linked`).  A query that is marked takes the green status from the queries above
it, however far, and from no other one; or the mark fails, and nothing has changed
(`marking_is_exact`).
-/

namespace Elisa.Semantic

open QuerySession Worklist Relation

variable {R : QueryRelation} {s t : QuerySession} {n q : Nat}

/-- The lists of the pool are those of one acyclic relation, with the results that were seen, and
the texts of the nodes lie in their buffers. -/
theorem reachable_graph_is_linked (h : Reachable R s) :
    (∃ out inc, Linked s s.heads out inc) ∧
    (∀ n, ¬ TransGen (DependsOn s) n n) ∧
    (∀ n d g, Depends s n d g → d < s.queryNodes.length ∧ (s.node d).hasCommittedValue = true ∧
      g ≠ 0 ∧ g ≤ (s.node d).resultGeneration) ∧
    ∀ n < s.queryNodes.length,
      (s.node n).keyStart + (s.node n).keyLength ≤ s.queryKeyBytes.length ∧
        ifqQueryNodeValueStateIsValid s (s.node n) = true := by
  obtain ⟨⟨out, inc, hL⟩, hc⟩ := h.sound
  refine ⟨⟨out, inc, hL⟩, hc.acyclic, fun n d g hd => ?_,
    fun n hn => ⟨hc.keys n hn, hc.values n hn⟩⟩
  obtain ⟨hcommitted, hg⟩ := hc.seen n d g hd
  obtain ⟨hn, e, he, hdepender, rfl, rfl⟩ := hd
  obtain ⟨-, hlt, -, hne⟩ := hL.live he (by rw [hdepender]; exact hL.ne_none_of_node hn)
  exact ⟨hlt, hcommitted, hne, hg⟩

theorem GreenClosed.below (h : GreenClosed t) (hpath : ReflTransGen (DependsOn t) n q)
    (hn : (t.node n).status = .green) : (t.node q).status = .green := by
  induction hpath with
  | refl => exact hn
  | tail _ hdep ih => exact h _ _ hdep ih

/-- A walk that does not get through has changed no status, and poisons the graph. -/
theorem markReverseClosure_refused {rootStatus : QueryStatus} {out inc : Nat → List Nat}
    (hL : Linked s s.heads out inc) (hs : Stamped s)
    (hno : (ifqMarkReverseClosure s q rootStatus).2 = false) :
    SameStatus s (ifqMarkReverseClosure s q rootStatus).1 ∧
      (ifqMarkReverseClosure s q rootStatus).1.queryGraphPoisoned = true := by
  unfold ifqMarkReverseClosure at hno ⊢
  split at hno
  next hvalid =>
    rw [if_pos hvalid]
    exact ⟨fun _ => rfl, rfl⟩
  rename_i hvalid
  rw [if_neg hvalid]
  have hq : q < s.queryNodes.length := by
    simp only [ifqQueryIdIsValid, Bool.not_eq_true', Bool.not_eq_false, Bool.and_eq_true,
      decide_eq_true_eq] at hvalid
    exact hvalid.2
  dsimp only at hno ⊢
  split at hno
  next => cases hno
  rename_i hslow
  rw [if_neg hslow]
  unfold ifqMarkFullWalk at hno ⊢
  obtain ⟨marks, hm⟩ := countMark_eq (s := s.truncateWorklist) (·.fullWalks)
    fun m n => { m with fullWalks := n }
  have hcount : s.truncateWorklist.countFullWalk =
    { s.truncateWorklist with reverseMarks := marks } :=
    hm
  have hstart : Walking s (ifqNextWalk s.truncateWorklist.countFullWalk) [] := by
    rw [hcount]
    exact (Walking.start (s := { s.truncateWorklist with reverseMarks := marks }) rfl hs).rebase
      ⟨rfl, rfl, rfl, rfl, fun _ => rfl⟩ ⟨rfl, rfl, fun _ => rfl, fun _ => rfl⟩ (fun _ => rfl) rfl
  dsimp only at hno ⊢
  cases hp : ifqWalkPush (ifqNextWalk s.truncateWorklist.countFullWalk) q with
  | none => exact ⟨hstart.status, rfl⟩
  | some p =>
    rw [hp] at hno
    have hpush := hstart.push hq hp
    obtain ⟨visited, hwalk, -⟩ := markRounds_spec hL p.queryNodes.length p 0 _ hpush
      (Explored.start _ q) (by rw [hpush.values.length]; omega)
    dsimp only at hno ⊢
    generalize ifqMarkRounds p.queryNodes.length p 0 = r at hwalk hno ⊢
    obtain ⟨v, walk⟩ := r
    dsimp only at hwalk hno ⊢
    split at hno
    next hbad =>
      rw [if_pos hbad]
      exact ⟨hwalk.status, rfl⟩
    next => cases hno

/-- In every session that is reached, a mark is all or nothing. It keeps values and links. Where it
succeeds, no query above the marked one is green and the status of every other is as it was; else no
status has changed, and the graph is poisoned. -/
theorem marking_is_exact (h : Reachable R s) (q : Nat) {rootStatus : QueryStatus}
    (hr : rootStatus ≠ .green) :
    let marked := ifqMarkReverseClosure s q rootStatus
    SameValues s marked.1 ∧ SameLinks s marked.1 ∧
      (marked.2 = true → ∀ n,
        (ReflTransGen (DependsOn s) n q → (marked.1.node n).status ≠ .green) ∧
        (¬ ReflTransGen (DependsOn s) n q → (marked.1.node n).status = (s.node n).status)) ∧
      (marked.2 = false → SameStatus s marked.1 ∧ marked.1.queryGraphPoisoned = true) := by
  obtain ⟨⟨out, inc, hL⟩, hc⟩ := h.sound
  obtain ⟨hm, hroot⟩ := markReverseClosure_spec hL hc.stamps hc.greenClosed q hr
  refine ⟨hm.values, hm.links, fun hok n => ⟨fun hn hgreen => ?_,
    fun hn => not_not.mp (mt (hm.above n) hn)⟩, markReverseClosure_refused hL hc.stamps⟩
  rw [← hm.links.dependsOn hm.values.length] at hn
  exact hroot hok (hm.closed.below hn hgreen)

/-! ## A session with two results -/

/-- Any results may be passed. -/
abbrev QueryRelation.any : QueryRelation := fun _ _ _ _ _ => True

theorem Reachable.foldl {ops : List QueryOp} (h : Reachable .any s) :
    Reachable .any (ops.foldl QueryOp.run s) := by
  induction ops generalizing s with
  | nil => exact h
  | cons op ops ih =>
    obtain ⟨cookie, enabled, hrun⟩ := h
    refine ih ⟨cookie, enabled, hrun.tail ⟨op, ?_, rfl⟩⟩
    cases op with
    | commit => exact fun _ _ => trivial
    | _ => trivial

theorem reachable_afterCommits (count : Nat) : Reachable .any (afterCommits count) :=
  Reachable.foldl ⟨7, true, .refl⟩

theorem reachable_graph_is_linked_after_commits :
    Depends (afterCommits 7) 1 0 1 ∧ ∀ n, ¬ TransGen (DependsOn (afterCommits 7)) n n := by
  refine ⟨⟨by decide +kernel, 0, by decide +kernel⟩, ?_⟩
  exact (reachable_graph_is_linked (reachable_afterCommits 7)).2.1

/-- The query that read the marked one is not green any more either. -/
theorem marking_is_exact_after_commits :
    ((afterCommits 7).node 1).status = .green ∧
      ((ifqQueryMarkStale (afterCommits 7) 0).1.node 1).status ≠ .green := by
  have hread : DependsOn (afterCommits 7) 1 0 := ⟨1, by decide +kernel, 0, by decide +kernel⟩
  have hroot : QueryStatus.dirty ≠ .green := QueryStatus.noConfusion
  refine ⟨by decide +kernel, ?_⟩
  exact ((marking_is_exact (reachable_afterCommits 7) 0 hroot).2.2.1 (by decide +kernel) 1).1
    (.single hread)

end Elisa.Semantic
