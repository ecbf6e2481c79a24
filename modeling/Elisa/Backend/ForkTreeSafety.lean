import Elisa.Backend.ForkTree
import Mathlib.Data.List.Nodup

/-!
# Parts are emitted once, or failure is reported

Whatever is forked, fails or dies, no two workers hold the same part (`Division.disjoint`), and a
part that no worker holds was lost behind the marker of a failed fork (`Division.covered`).  A
worker that exited with status zero wrote its part and waited for kids that did the same
(`Settled`).  So the status of the root is that of the whole tree.
-/

namespace Elisa.Backend.ForkTree

open List World

variable {jobs : Nat} {w w' : World}

/-! ## The division of the parts -/

/-- The parts of a worker's range; a range is never empty, since the loop ends with one
part. -/
def Worker.Holds (worker : Worker) (x : Nat) : Prop :=
  worker.low ≤ x ∧ x < max worker.high (worker.low + 1)

/-- The workers share the parts out between them. -/
structure Division (jobs : Nat) (w : World) : Prop where
  disjoint : ∀ p q x, p < w.count → q < w.count → (w.worker p).Holds x → (w.worker q).Holds x →
    p = q
  covered : 0 < w.count → ∀ x < jobs, (∃ p < w.count, (w.worker p).Holds x) ∨
    ∃ p < w.count, none ∈ (w.worker p).kids
  /-- Every worker but the root is a kid of an earlier one. -/
  parent : ∀ q < w.count, q ≠ 0 → ∃ p < q, some q ∈ (w.worker p).kids
  kids : ∀ p < w.count, ∀ q, some q ∈ (w.worker p).kids → q < w.count
  launching : w.driver = .launching → w.count = 0
  awaiting : w.driver = .awaiting → 0 < w.count

/-- What the division depends on. -/
structure SameRanges (w w' : World) : Prop where
  count : w'.count = w.count
  low : ∀ p, (w'.worker p).low = (w.worker p).low
  high : ∀ p, (w'.worker p).high = (w.worker p).high
  kids : ∀ p, (w'.worker p).kids = (w.worker p).kids

theorem SameRanges.holds (h : SameRanges w w') (p x : Nat) :
    (w'.worker p).Holds x ↔ (w.worker p).Holds x := by
  rw [Worker.Holds, Worker.Holds, h.low, h.high]

theorem Division.congr (h : Division jobs w) (hsame : SameRanges w w')
    (hdriver : ∀ d, d = .launching ∨ d = .awaiting → w'.driver = d → w.driver = d) :
    Division jobs w' where
  disjoint := by
    intro p q x hp hq hpx hqx
    rw [hsame.count] at hp hq
    exact h.disjoint p q x hp hq ((hsame.holds p x).mp hpx) ((hsame.holds q x).mp hqx)
  covered := by
    intro hcount x hx
    rw [hsame.count] at hcount ⊢
    rcases h.covered hcount x hx with ⟨p, hp, hpx⟩ | ⟨p, hp, hnone⟩
    · exact .inl ⟨p, hp, (hsame.holds p x).mpr hpx⟩
    · exact .inr ⟨p, hp, by rwa [hsame.kids]⟩
  parent := by
    intro q hq hne
    rw [hsame.count] at hq
    obtain ⟨p, hp, hmem⟩ := h.parent q hq hne
    exact ⟨p, hp, by rwa [hsame.kids]⟩
  kids := by
    intro p hp q hmem
    rw [hsame.count] at hp ⊢
    rw [hsame.kids] at hmem
    exact h.kids p hp q hmem
  launching := fun hl => hsame.count.trans (h.launching (hdriver _ (.inl rfl) hl))
  awaiting := fun ha => by
    rw [hsame.count]
    exact h.awaiting (hdriver _ (.inr rfl) ha)

theorem World.set_worker (w : World) (p q : Nat) (worker : Worker) :
    (w.set p worker).worker q = if q = p then worker else w.worker q :=
  Function.update_apply w.worker p worker q

@[simp] theorem World.set_worker_self (w : World) (p : Nat) (worker : Worker) :
    (w.set p worker).worker p = worker := by
  rw [set_worker, if_pos rfl]

variable {q : Nat}

theorem World.set_worker_ne (w : World) {p : Nat} (worker : Worker) (h : q ≠ p) :
    (w.set p worker).worker q = w.worker q := by
  rw [set_worker, if_neg h]

theorem World.setPhase_worker (w : World) (p q : Nat) (phase : Phase) :
    (w.setPhase p phase).worker q =
      if q = p then { w.worker p with phase := phase } else w.worker q :=
  w.set_worker p q _

theorem sameRanges_setPhase (w : World) (p : Nat) (phase : Phase) :
    SameRanges w (w.setPhase p phase) where
  count := rfl
  low := fun q => by rw [setPhase_worker]; split <;> simp_all
  high := fun q => by rw [setPhase_worker]; split <;> simp_all
  kids := fun q => by rw [setPhase_worker]; split <;> simp_all

/-! ## Splitting a range -/

variable {worker : Worker}

theorem Worker.middle_bounds (h : worker.Splits) :
    worker.low < worker.middle ∧ worker.middle < worker.high := by
  have := h.2
  unfold Worker.middle
  omega

variable {x : Nat}

theorem Worker.keepLower_holds (h : worker.Splits) {kid : Option Nat} :
    (worker.keepLower kid).Holds x ↔ worker.Holds x ∧ x < worker.middle := by
  have := Worker.middle_bounds h
  simp only [Worker.Holds, Worker.keepLower]
  omega

theorem Worker.takeUpper_holds (h : worker.Splits) :
    worker.takeUpper.Holds x ↔ worker.Holds x ∧ worker.middle ≤ x := by
  have := Worker.middle_bounds h
  simp only [Worker.Holds, Worker.takeUpper]
  omega

theorem Worker.holds_low (worker : Worker) : worker.Holds worker.low :=
  ⟨Nat.le_refl _, Nat.lt_of_lt_of_le (Nat.lt_succ_self _) (Nat.le_max_right _ _)⟩

theorem division_launch (w : World) :
    Division jobs { w.set 0 (.start 0 jobs) with driver := .awaiting, count := 1 } where
  disjoint := by
    intro p q x hp hq _ _
    simp only at hp hq
    omega
  covered := by
    intro _ x hx
    refine .inl ⟨0, Nat.zero_lt_one, ?_⟩
    simp only [set_worker_self, Worker.Holds, Worker.start]
    omega
  parent := fun q hq hne => absurd (Nat.lt_one_iff.mp hq) hne
  kids := by
    intro p hp q hmem
    simp only [Nat.lt_one_iff.mp hp, set_worker_self, Worker.start] at hmem
    cases hmem
  launching := nofun
  awaiting := fun _ => Nat.zero_lt_one

theorem Division.forkFails (h : Division jobs w) {p : Nat} (hp : p < w.count)
    (hsplit : (w.worker p).Splits) :
    Division jobs (w.set p ((w.worker p).keepLower none)) where
  disjoint := by
    have hshrinks : ∀ q x, ((w.set p ((w.worker p).keepLower none)).worker q).Holds x →
        (w.worker q).Holds x := by
      intro q x hx
      rw [set_worker] at hx
      split at hx
      next heq =>
        rw [heq]
        exact ((Worker.keepLower_holds hsplit).mp hx).1
      next => exact hx
    exact fun q r x hq hr hqx hrx => h.disjoint q r x hq hr (hshrinks q x hqx) (hshrinks r x hrx)
  covered := by
    intro _ x hx
    exact .inr ⟨p, hp, by simp [Worker.keepLower]⟩
  parent := by
    intro q hq hne
    obtain ⟨r, hr, hmem⟩ := h.parent q hq hne
    refine ⟨r, hr, ?_⟩
    rw [set_worker]
    split
    next heq =>
      rw [heq] at hmem
      exact mem_append_left _ hmem
    next => exact hmem
  kids := by
    intro q hq r hmem
    rw [set_worker] at hmem
    split at hmem
    next heq =>
      simp only [Worker.keepLower, mem_append, mem_singleton, reduceCtorEq, or_false] at hmem
      exact h.kids p hp r hmem
    next => exact h.kids q hq r hmem
  launching := h.launching
  awaiting := h.awaiting

abbrev World.forked (w : World) (p : Nat) : World :=
  { (w.set p ((w.worker p).keepLower (some w.count))).set w.count
      (w.worker p).takeUpper with count := w.count + 1 }

theorem World.forked_worker (w : World) (p q : Nat) :
    (w.forked p).worker q = if q = w.count then (w.worker p).takeUpper
      else if q = p then (w.worker p).keepLower (some w.count) else w.worker q := by
  show ((w.set p _).set w.count _).worker q = _
  rw [set_worker, set_worker]

theorem Division.fork (h : Division jobs w) {p : Nat} (hp : p < w.count)
    (hsplit : (w.worker p).Splits) : Division jobs (w.forked p) where
  disjoint := by
    -- the owner of a part before the fork, and on which side of the fork it is
    have howner : ∀ q x, q < w.count + 1 → ((w.forked p).worker q).Holds x →
        (q = w.count ∧ (w.worker p).Holds x ∧ (w.worker p).middle ≤ x) ∨
        (q = p ∧ (w.worker p).Holds x ∧ x < (w.worker p).middle) ∨
        (q < w.count ∧ q ≠ p ∧ (w.worker q).Holds x) := by
      intro q x hq hx
      rw [forked_worker] at hx
      split at hx
      next heq => exact .inl ⟨heq, (Worker.takeUpper_holds hsplit).mp hx⟩
      rename_i hne
      split at hx
      next heq => exact .inr (.inl ⟨heq, (Worker.keepLower_holds hsplit).mp hx⟩)
      next hne' => exact .inr (.inr ⟨by omega, hne', hx⟩)
    intro q r x hq hr hqx hrx
    rcases howner q x hq hqx with ⟨rfl, hq', hmq⟩ | ⟨rfl, hq', hmq⟩ | ⟨hq', hneq, hqx'⟩ <;>
      rcases howner r x hr hrx with ⟨rfl, hr', hmr⟩ | ⟨rfl, hr', hmr⟩ | ⟨hr', hner, hrx'⟩
    · rfl
    · omega
    · exact absurd (h.disjoint p r x hp hr' hq' hrx').symm hner
    · omega
    · rfl
    · exact absurd (h.disjoint _ r x hp hr' hq' hrx').symm hner
    · exact absurd (h.disjoint p q x hp hq' hr' hqx').symm hneq
    · exact absurd (h.disjoint _ q x hp hq' hr' hqx').symm hneq
    · exact h.disjoint q r x hq' hr' hqx' hrx'
  covered := by
    intro _ x hx
    show (∃ q < w.count + 1, ((w.forked p).worker q).Holds x) ∨
      ∃ q < w.count + 1, none ∈ ((w.forked p).worker q).kids
    rcases h.covered (by omega) x hx with ⟨q, hq, hqx⟩ | ⟨q, hq, hnone⟩
    · left
      by_cases heq : q = p
      · subst heq
        rcases Nat.lt_or_ge x (w.worker q).middle with hlt | hge
        · refine ⟨q, by omega, ?_⟩
          rw [forked_worker, if_neg (by omega), if_pos rfl]
          exact (Worker.keepLower_holds hsplit).mpr ⟨hqx, hlt⟩
        · refine ⟨w.count, by omega, ?_⟩
          rw [forked_worker, if_pos rfl]
          exact (Worker.takeUpper_holds hsplit).mpr ⟨hqx, hge⟩
      · refine ⟨q, by omega, ?_⟩
        rw [forked_worker, if_neg (by omega), if_neg heq]
        exact hqx
    · right
      refine ⟨q, by omega, ?_⟩
      rw [forked_worker, if_neg (by omega)]
      split
      next heq =>
        rw [heq] at hnone
        exact mem_append_left _ hnone
      next => exact hnone
  parent := by
    intro q hq hne
    rcases Nat.lt_or_ge q w.count with hlt | hge
    · obtain ⟨r, hr, hmem⟩ := h.parent q hlt hne
      refine ⟨r, hr, ?_⟩
      rw [forked_worker, if_neg (by omega)]
      split
      next heq =>
        rw [heq] at hmem
        exact mem_append_left _ hmem
      next => exact hmem
    · have hq' : q = w.count := by simp only at hq; omega
      refine ⟨p, by omega, ?_⟩
      rw [forked_worker, if_neg (by omega), if_pos rfl, hq']
      exact mem_append_right _ (mem_singleton_self _)
  kids := by
    intro q hq r hmem
    show r < w.count + 1
    rw [forked_worker] at hmem
    split at hmem
    next => cases hmem
    split at hmem
    next =>
      simp only [Worker.keepLower, mem_append, mem_singleton, Option.some.injEq] at hmem
      rcases hmem with hmem | rfl
      · exact Nat.lt_succ_of_lt (h.kids p hp r hmem)
      · exact Nat.lt_succ_self _
    next hne' => exact Nat.lt_succ_of_lt (h.kids q (by simp only at hq; omega) r hmem)
  launching := by
    intro hl
    have := h.launching hl
    omega
  awaiting := fun _ => Nat.succ_pos _

/-! ## What a worker has done -/

/-- A kid that reported success and was waited for. -/
def Done (w : World) (kid : Option Nat) : Prop :=
  ∃ q < w.count, kid = some q ∧ (w.worker q).phase = .exited 0 ∧ q ∈ w.reaped

/-- A worker wrote the only part of its range, and these kids of it are done. -/
structure Served (w : World) (p : Nat) (kids : List (Option Nat)) : Prop where
  narrow : (w.worker p).high ≤ (w.worker p).low + 1
  written : (p, (w.worker p).low) ∈ w.written
  done : ∀ kid ∈ kids, Done w kid

/-- What the phase of a worker says about it. -/
def PhaseOk (w : World) (p : Nat) : Prop :=
  match (w.worker p).phase with
  | .splitting => ∀ x, (p, x) ∉ w.begun
  | .emitting => (w.worker p).high ≤ (w.worker p).low + 1 ∧ (p, (w.worker p).low) ∈ w.begun ∧
      ∀ x, (p, x) ∉ w.written
  | .waiting ok kids => ∃ before, (w.worker p).kids = before ++ kids ∧
      (ok = true → Served w p before)
  | .exited status => status = 0 → Served w p (w.worker p).kids

/-- The logs and the phases agree. -/
structure Settled (w : World) : Prop where
  phase : ∀ p < w.count, PhaseOk w p
  begun : ∀ p x, (p, x) ∈ w.begun → p < w.count ∧ x = (w.worker p).low
  begunOnce : (w.begun.map Prod.fst).Nodup
  written : ∀ p x, (p, x) ∈ w.written → (p, x) ∈ w.begun
  writtenOnce : (w.written.map Prod.fst).Nodup
  finished : w.driver = .finished true → 0 < w.count ∧ Done w (some 0)

/-- Workers that exited stay as they are, and the logs only grow. -/
structure Grows (w w' : World) : Prop where
  count : w.count ≤ w'.count
  exited : ∀ q < w.count, (w.worker q).phase = .exited 0 → (w'.worker q).phase = .exited 0
  reaped : w.reaped ⊆ w'.reaped
  begun : w.begun ⊆ w'.begun
  written : w.written ⊆ w'.written

theorem Done.grow {kid : Option Nat} (h : Done w kid) (hgrows : Grows w w') : Done w' kid := by
  obtain ⟨q, hq, rfl, hphase, hreaped⟩ := h
  exact ⟨q, Nat.lt_of_lt_of_le hq hgrows.count, rfl, hgrows.exited q hq hphase,
    hgrows.reaped hreaped⟩

variable {kids : List (Option Nat)}

theorem Served.grow {p : Nat} (h : Served w p kids) (hgrows : Grows w w')
    (hsame : w'.worker p = w.worker p) : Served w' p kids where
  narrow := by rw [hsame]; exact h.narrow
  written := by rw [hsame]; exact hgrows.written h.written
  done := fun kid hkid => (h.done kid hkid).grow hgrows

theorem PhaseOk.grow {p : Nat} (h : PhaseOk w p) (hgrows : Grows w w')
    (hsame : w'.worker p = w.worker p) (hbegun : ∀ x, (p, x) ∈ w'.begun → (p, x) ∈ w.begun)
    (hwritten : ∀ x, (p, x) ∈ w'.written → (p, x) ∈ w.written) : PhaseOk w' p := by
  unfold PhaseOk at h ⊢
  rw [hsame]
  cases hphase : (w.worker p).phase with
  | splitting =>
    rw [hphase] at h
    exact fun x hx => h x (hbegun x hx)
  | emitting =>
    rw [hphase] at h
    exact ⟨h.1, hgrows.begun h.2.1, fun x hx => h.2.2 x (hwritten x hx)⟩
  | waiting ok kids =>
    rw [hphase] at h
    obtain ⟨before, hkids, hserved⟩ := h
    exact ⟨before, hkids, fun hok => (hserved hok).grow hgrows hsame⟩
  | exited status =>
    rw [hphase] at h
    exact fun hstatus => (h hstatus).grow hgrows hsame

/-! ## One step of a worker -/

/-- A log that one worker may have written one row to. -/
structure Logs (p low : Nat) (log log' : List (Nat × Nat)) : Prop where
  sub : log ⊆ log'
  mem : ∀ q x, (q, x) ∈ log' → (q, x) ∈ log ∨ (q = p ∧ x = low)
  once : (log.map Prod.fst).Nodup → (log'.map Prod.fst).Nodup

theorem Logs.same (p low : Nat) (log : List (Nat × Nat)) : Logs p low log log :=
  ⟨fun _ h => h, fun _ _ h => .inl h, id⟩

theorem Logs.push {p low : Nat} {log : List (Nat × Nat)} (h : ∀ x, (p, x) ∉ log) :
    Logs p low log (log ++ [(p, low)]) where
  sub := subset_append_left _ _
  mem := by
    intro q x hmem
    rcases mem_append.mp hmem with hmem | hmem
    · exact .inl hmem
    · cases mem_singleton.mp hmem
      exact .inr ⟨rfl, rfl⟩
  once := by
    intro hnodup
    rw [map_append, nodup_append]
    refine ⟨hnodup, nodup_singleton _, fun q hq r hr heq => ?_⟩
    obtain ⟨⟨q', x⟩, hmem, rfl⟩ := mem_map.mp hq
    have hp : q' = p := heq.trans (mem_singleton.mp hr)
    exact h x (hp ▸ hmem)

abbrev World.passed (w : World) (p : Nat) (phase : Phase) (reaped : List Nat)
    (begun written : List (Nat × Nat)) : World :=
  { w.setPhase p phase with reaped := reaped, begun := begun, written := written }

section Passed

variable {p : Nat} {phase : Phase} {reaped : List Nat} {begun written : List (Nat × Nat)}

theorem World.passed_self : (w.passed p phase reaped begun written).worker p =
    { w.worker p with phase := phase } := by
  show (w.setPhase p phase).worker p = _
  rw [setPhase_worker, if_pos rfl]

theorem World.passed_other (h : q ≠ p) :
    (w.passed p phase reaped begun written).worker q = w.worker q := by
  show (w.setPhase p phase).worker q = _
  rw [setPhase_worker, if_neg h]

theorem grows_passed (halive : ∀ code, (w.worker p).phase ≠ .exited code)
    (hreaped : w.reaped ⊆ reaped) (hbegun : w.begun ⊆ begun) (hwritten : w.written ⊆ written) :
    Grows w (w.passed p phase reaped begun written) := by
  refine ⟨Nat.le_refl _, fun q _ hexited => ?_, hreaped, hbegun, hwritten⟩
  have hne : q ≠ p := by
    rintro rfl
    exact halive 0 hexited
  rw [passed_other hne]
  exact hexited

/-- A worker that has not exited changes its phase, with what it adds to the logs. -/
theorem Settled.passed (h : Settled w) (hp : p < w.count)
    (halive : ∀ code, (w.worker p).phase ≠ .exited code) (hreaped : w.reaped ⊆ reaped)
    (hbegun : Logs p (w.worker p).low w.begun begun)
    (hwritten : Logs p (w.worker p).low w.written written)
    (hsub : ∀ x, (p, x) ∈ written → (p, x) ∈ begun)
    (hphase : PhaseOk (w.passed p phase reaped begun written) p) :
    Settled (w.passed p phase reaped begun written) := by
  have hlow : ∀ q, ((w.passed p phase reaped begun written).worker q).low = (w.worker q).low :=
    fun q => (sameRanges_setPhase w p phase).low q
  have hgrows : Grows w (w.passed p phase reaped begun written) :=
    grows_passed halive hreaped hbegun.sub hwritten.sub
  constructor
  · intro q hq
    by_cases hne : q = p
    · rw [hne]
      exact hphase
    · refine (h.phase q hq).grow hgrows (passed_other hne) (fun x hx => ?_) fun x hx => ?_
      · exact (hbegun.mem q x hx).resolve_right fun heq => hne heq.1
      · exact (hwritten.mem q x hx).resolve_right fun heq => hne heq.1
  · intro q x hx
    rw [hlow]
    rcases hbegun.mem q x hx with hx | ⟨rfl, rfl⟩
    · exact h.begun q x hx
    · exact ⟨hp, rfl⟩
  · exact hbegun.once h.begunOnce
  · intro q x hx
    by_cases hne : q = p
    · rw [hne] at hx ⊢
      exact hsub x hx
    · exact hbegun.sub (h.written q x ((hwritten.mem q x hx).resolve_right fun heq => hne heq.1))
  · exact hwritten.once h.writtenOnce
  · intro hfinished
    obtain ⟨hpos, hdone⟩ := h.finished hfinished
    exact ⟨hpos, hdone.grow hgrows⟩

theorem served_passed (hnarrow : (w.worker p).high ≤ (w.worker p).low + 1)
    (hwritten : (p, (w.worker p).low) ∈ written)
    (hdone : ∀ kid ∈ kids, Done (w.passed p phase reaped begun written) kid) :
    Served (w.passed p phase reaped begun written) p kids := by
  refine ⟨?_, ?_, hdone⟩
  · rw [passed_self]
    exact hnarrow
  · rw [passed_self]
    exact hwritten

theorem phaseOk_waiting {ok : Bool} {before : List (Option Nat)}
    (hkids : (w.worker p).kids = before ++ kids)
    (hserved : ok = true → Served (w.passed p (.waiting ok kids) reaped begun written) p before) :
    PhaseOk (w.passed p (.waiting ok kids) reaped begun written) p := by
  unfold PhaseOk
  rw [passed_self]
  exact ⟨before, hkids, hserved⟩

theorem Settled.waiting (h : Settled w) (hp : p < w.count) {ok : Bool}
    (hphase : (w.worker p).phase = .waiting ok kids) :
    (∀ code, (w.worker p).phase ≠ .exited code) ∧
      ∃ before, (w.worker p).kids = before ++ kids ∧ (ok = true → Served w p before) := by
  refine ⟨fun code hcode => ?_, ?_⟩
  · rw [hphase] at hcode
    cases hcode
  · have hok := h.phase p hp
    unfold PhaseOk at hok
    rw [hphase] at hok
    exact hok

end Passed

theorem Settled.resize (h : Settled w) {p : Nat} (hp : p < w.count)
    (hsplit : (w.worker p).phase = .splitting)
    (hsame : ∀ q < w.count, q ≠ p → w'.worker q = w.worker q)
    (hphase : (w'.worker p).phase = .splitting) (hlow : (w'.worker p).low = (w.worker p).low)
    (hcount : w.count ≤ w'.count)
    (hnew : ∀ q < w'.count, w.count ≤ q → (w'.worker q).phase = .splitting)
    (hdriver : w'.driver = w.driver) (hreaped : w'.reaped = w.reaped)
    (hbegun : w'.begun = w.begun) (hwritten : w'.written = w.written) : Settled w' := by
  have hgrows : Grows w w' := by
    refine ⟨hcount, fun q hq hexited => ?_, hreaped ▸ List.Subset.refl _,
      hbegun ▸ List.Subset.refl _, hwritten ▸ List.Subset.refl _⟩
    have hne : q ≠ p := by
      rintro rfl
      rw [hsplit] at hexited
      cases hexited
    rw [hsame q hq hne]
    exact hexited
  constructor
  · intro q hq
    rcases Nat.lt_or_ge q w.count with hold | hfresh
    · by_cases hne : q = p
      · have hok := h.phase p hp
        rw [hne]
        unfold PhaseOk at hok ⊢
        rw [hsplit] at hok
        rw [hphase, hbegun]
        exact hok
      · exact (h.phase q hold).grow hgrows (hsame q hold hne) (fun x hx => hbegun ▸ hx)
          fun x hx => hwritten ▸ hx
    · unfold PhaseOk
      rw [hnew q hq hfresh, hbegun]
      exact fun x hx => absurd (h.begun q x hx).1 (Nat.not_lt.mpr hfresh)
  · intro q x hx
    rw [hbegun] at hx
    obtain ⟨hq, rfl⟩ := h.begun q x hx
    refine ⟨Nat.lt_of_lt_of_le hq hcount, ?_⟩
    by_cases hne : q = p
    · rw [hne, hlow]
    · rw [hsame q hq hne]
  · rw [hbegun]
    exact h.begunOnce
  · intro q x hx
    rw [hbegun]
    rw [hwritten] at hx
    exact h.written q x hx
  · rw [hwritten]
    exact h.writtenOnce
  · intro hfinished
    rw [hdriver] at hfinished
    obtain ⟨hpos, hdone⟩ := h.finished hfinished
    exact ⟨Nat.lt_of_lt_of_le hpos hcount, hdone.grow hgrows⟩

/-! ## Every interleaving -/

/-- What every interleaving keeps. -/
structure Invariant (jobs : Nat) (w : World) : Prop where
  division : Division jobs w
  settled : Settled w

theorem invariant_init (jobs : Nat) : Invariant jobs World.init where
  division := ⟨nofun, fun h => absurd h (Nat.lt_irrefl 0), nofun, nofun, fun _ => rfl, nofun⟩
  settled := ⟨nofun, nofun, nodup_nil, nofun, nodup_nil, nofun⟩

theorem Invariant.passed (h : Invariant jobs w) {p : Nat} {phase : Phase} {reaped : List Nat}
    {begun written : List (Nat × Nat)} (hp : p < w.count)
    (halive : ∀ code, (w.worker p).phase ≠ .exited code) (hreaped : w.reaped ⊆ reaped)
    (hbegun : Logs p (w.worker p).low w.begun begun)
    (hwritten : Logs p (w.worker p).low w.written written)
    (hsub : ∀ x, (p, x) ∈ written → (p, x) ∈ begun)
    (hphase : PhaseOk (w.passed p phase reaped begun written) p) :
    Invariant jobs (w.passed p phase reaped begun written) := by
  have hranges := sameRanges_setPhase w p phase
  exact ⟨h.division.congr ⟨hranges.count, hranges.low, hranges.high, hranges.kids⟩ fun _ _ => id,
    h.settled.passed hp halive hreaped hbegun hwritten hsub hphase⟩

theorem Invariant.setPhase (h : Invariant jobs w) {p : Nat} {phase : Phase} (hp : p < w.count)
    (halive : ∀ code, (w.worker p).phase ≠ .exited code)
    (hphase : PhaseOk (w.passed p phase w.reaped w.begun w.written) p) :
    Invariant jobs (w.setPhase p phase) :=
  h.passed hp halive (List.Subset.refl _) (.same _ _ _) (.same _ _ _) (h.settled.written p) hphase

theorem Invariant.drive (h : Invariant jobs w) {ok : Bool} {reaped : List Nat}
    (hreaped : w.reaped ⊆ reaped)
    (hdone : ok = true → 0 < w.count ∧ (w.worker 0).phase = .exited 0 ∧ 0 ∈ reaped) :
    Invariant jobs { w with driver := .finished ok, reaped := reaped } := by
  have hgrows : Grows w { w with driver := .finished ok, reaped := reaped } :=
    ⟨Nat.le_refl _, fun _ _ h => h, hreaped, List.Subset.refl _, List.Subset.refl _⟩
  refine ⟨h.division.congr ⟨rfl, fun _ => rfl, fun _ => rfl, fun _ => rfl⟩ ?_, ?_, h.settled.begun,
    h.settled.begunOnce, h.settled.written, h.settled.writtenOnce, fun hfinished => ?_⟩
  · rintro d (rfl | rfl) hd <;> cases hd
  · exact fun p hp => (h.settled.phase p hp).grow hgrows rfl (fun _ hx => hx) fun _ hx => hx
  · cases hfinished
    obtain ⟨hpos, hroot, hmem⟩ := hdone rfl
    exact ⟨hpos, 0, hpos, rfl, hroot, hmem⟩

theorem Invariant.step (h : Invariant jobs w) (hstep : Step jobs w w') : Invariant jobs w' := by
  cases hstep with
  | launch hdriver =>
    have hcount := h.division.launching hdriver
    have hnone : ∀ p x, (p, x) ∉ w.begun := fun p x hx => by
      have := (h.settled.begun p x hx).1
      omega
    refine ⟨division_launch w, fun p hp => ?_, fun p x hx => absurd hx (hnone p x),
      h.settled.begunOnce, h.settled.written, h.settled.writtenOnce, nofun⟩
    unfold PhaseOk
    rw [Nat.lt_one_iff.mp hp, set_worker_self]
    exact hnone 0
  | launchFails hdriver =>
    exact h.drive (List.Subset.refl _) nofun
  | @fork p hp hsplit =>
    refine ⟨h.division.fork hp hsplit, h.settled.resize hp hsplit.1 (fun q hq hne => ?_) ?_ ?_
      (Nat.le_succ _) (fun q hq hge => ?_) rfl rfl rfl rfl⟩
    · rw [forked_worker, if_neg (Nat.ne_of_lt hq), if_neg hne]
    · rw [forked_worker, if_neg (Nat.ne_of_lt hp), if_pos rfl]
      exact hsplit.1
    · rw [forked_worker, if_neg (Nat.ne_of_lt hp), if_pos rfl]
      rfl
    · rw [forked_worker, if_pos (Nat.le_antisymm (Nat.le_of_lt_succ hq) hge)]
      exact hsplit.1
  | @forkFails p hp hsplit =>
    refine ⟨h.division.forkFails hp hsplit, h.settled.resize hp hsplit.1 (fun q hq hne => ?_) ?_ ?_
      (Nat.le_refl _) (fun q hq hge => ?_) rfl rfl rfl rfl⟩
    · exact w.set_worker_ne _ hne
    · rw [set_worker_self]
      exact hsplit.1
    · rw [set_worker_self]
      rfl
    · exact absurd hq (Nat.not_lt.mpr hge)
  | @emit p hp hready =>
    have hok := h.settled.phase p hp
    unfold PhaseOk at hok
    rw [hready.1] at hok
    refine h.passed hp (by rw [hready.1]; nofun) (List.Subset.refl _) (.push hok) (.same _ _ _)
      (fun x hx => mem_append_left _ (h.settled.written p x hx)) ?_
    unfold PhaseOk
    rw [passed_self]
    have hnarrow := hready.2
    exact ⟨by dsimp only; omega, mem_append_right _ (mem_singleton_self _),
      fun x hx => hok x (h.settled.written p x hx)⟩
  | @emitted p hp hphase =>
    have hok := h.settled.phase p hp
    unfold PhaseOk at hok
    rw [hphase] at hok
    obtain ⟨hnarrow, hbegun, hunwritten⟩ := hok
    refine h.passed hp (by rw [hphase]; nofun) (List.Subset.refl _) (.same _ _ _)
      (.push hunwritten) (fun x hx => ?_) (phaseOk_waiting (nil_append _).symm fun _ => ?_)
    · rcases mem_append.mp hx with hx | hx
      · exact h.settled.written p x hx
      · cases mem_singleton.mp hx
        exact hbegun
    · exact served_passed hnarrow (mem_append_right _ (mem_singleton_self _)) nofun
  | @emissionFails p hp hphase =>
    exact h.setPhase hp (by rw [hphase]; nofun) (phaseOk_waiting (nil_append _).symm nofun)
  | @waitMarker p ok kids hp hphase =>
    obtain ⟨halive, before, hkids, -⟩ := h.settled.waiting hp hphase
    exact h.setPhase hp halive (phaseOk_waiting (hkids.trans (append_cons _ _ _)) nofun)
  | @wait p kid status ok kids hp hphase hkid =>
    obtain ⟨halive, before, hkids, hserved⟩ := h.settled.waiting hp hphase
    have hgrows : Grows w (w.passed p (.waiting (ok && status == 0) kids) (w.reaped ++ [kid])
        w.begun w.written) := grows_passed halive (subset_append_left _ _)
      (List.Subset.refl _) (List.Subset.refl _)
    refine h.passed hp halive (subset_append_left _ _) (.same _ _ _) (.same _ _ _)
      (h.settled.written p) (phaseOk_waiting (hkids.trans (append_cons _ _ _)) fun hok => ?_)
    rw [Bool.and_eq_true, beq_iff_eq] at hok
    have hbefore := hserved hok.1
    have hmem : some kid ∈ (w.worker p).kids := by
      rw [hkids]
      exact mem_append_right _ mem_cons_self
    refine served_passed hbefore.narrow hbefore.written fun other hother => ?_
    rcases mem_append.mp hother with hother | hother
    · exact (hbefore.done other hother).grow hgrows
    · rw [mem_singleton.mp hother]
      have hlt := h.division.kids p hp kid hmem
      exact ⟨kid, hlt, rfl, hgrows.exited kid hlt (hok.2 ▸ hkid),
        mem_append_right _ (mem_singleton_self _)⟩
  | @waitFails p kid ok kids hp hphase =>
    obtain ⟨halive, before, hkids, -⟩ := h.settled.waiting hp hphase
    exact h.setPhase hp halive (phaseOk_waiting (hkids.trans (append_cons _ _ _)) nofun)
  | @exit p ok hp hphase =>
    obtain ⟨halive, before, hkids, hserved⟩ := h.settled.waiting hp hphase
    refine h.setPhase hp halive ?_
    unfold PhaseOk
    rw [passed_self]
    intro hzero
    cases ok with
    | false => cases hzero
    | true =>
      have hall := hserved rfl
      rw [append_nil] at hkids
      refine served_passed hall.narrow hall.written fun kid hkid => ?_
      have hbefore : kid ∈ before := hkids ▸ hkid
      exact (hall.done kid hbefore).grow
        (grows_passed halive (List.Subset.refl _) (List.Subset.refl _) (List.Subset.refl _))
  | @dies p status hp halive hstatus =>
    refine h.setPhase hp halive ?_
    unfold PhaseOk
    rw [passed_self]
    exact fun hzero => absurd hzero hstatus
  | @driverWaits status hdriver hroot =>
    refine h.drive (subset_append_left _ _) fun hfinished => ?_
    have hzero : status = 0 := by simpa using hfinished
    exact ⟨h.division.awaiting hdriver, hzero ▸ hroot,
      mem_append_right _ (mem_singleton_self _)⟩
  | driverWaitFails hdriver =>
    exact h.drive (List.Subset.refl _) nofun

theorem Reachable.invariant (h : Reachable jobs w) : Invariant jobs w := by
  induction h with
  | init => exact invariant_init jobs
  | step _ hstep ih => exact ih.step hstep

/-! ## The whole tree -/

theorem Invariant.all_done (h : Invariant jobs w) (hroot : (w.worker 0).phase = .exited 0) :
    ∀ p < w.count, (w.worker p).phase = .exited 0 ∧ (p ≠ 0 → p ∈ w.reaped) := by
  intro p
  induction p using Nat.strongRecOn with
  | ind p ih =>
    intro hp
    by_cases hzero : p = 0
    · rw [hzero]
      exact ⟨hroot, fun hne => absurd rfl hne⟩
    obtain ⟨r, hr, hmem⟩ := h.division.parent p hp hzero
    have hr' := Nat.lt_trans hr hp
    have hok := h.settled.phase r hr'
    unfold PhaseOk at hok
    rw [(ih r hr hr').1] at hok
    obtain ⟨q, -, hq, hphase, hreaped⟩ := (hok rfl).done _ hmem
    cases hq
    exact ⟨hphase, fun _ => hreaped⟩

theorem Invariant.served (h : Invariant jobs w) (hroot : (w.worker 0).phase = .exited 0) {p : Nat}
    (hp : p < w.count) : Served w p (w.worker p).kids := by
  have hok := h.settled.phase p hp
  unfold PhaseOk at hok
  rw [(h.all_done hroot p hp).1] at hok
  exact hok rfl

theorem Invariant.begun_unique (h : Invariant jobs w) {p : Nat} (hp : (p, x) ∈ w.begun)
    (hq : (q, x) ∈ w.begun) : p = q := by
  obtain ⟨hp', hpx⟩ := h.settled.begun p x hp
  obtain ⟨hq', hqx⟩ := h.settled.begun q x hq
  refine h.division.disjoint p q x hp' hq' ?_ ?_
  · rw [hpx]
    exact Worker.holds_low _
  · rw [hqx]
    exact Worker.holds_low _

theorem Invariant.written_nodup (h : Invariant jobs w) : (w.written.map Prod.snd).Nodup := by
  refine List.Nodup.map_on ?_ h.settled.writtenOnce.of_map
  rintro ⟨p, x⟩ hp ⟨q, y⟩ hq heq
  cases heq
  rw [h.begun_unique (h.settled.written p x hp) (h.settled.written q x hq)]

theorem Invariant.written_all (h : Invariant jobs w) (hcount : 0 < w.count)
    (hroot : (w.worker 0).phase = .exited 0) (hx : x < jobs) : x ∈ w.written.map Prod.snd := by
  rcases h.division.covered hcount x hx with ⟨p, hp, hlow, hhigh⟩ | ⟨p, hp, hnone⟩
  · have hserved := h.served hroot hp
    have hnarrow := hserved.narrow
    have heq : x = (w.worker p).low := by omega
    rw [heq]
    exact mem_map_of_mem hserved.written
  · obtain ⟨q, -, hq, -⟩ := (h.served hroot hp).done none hnone
    cases hq

/-- In every interleaving no part is emitted by two workers; a root that exited with status zero
means that every part was written exactly once and every worker below it was waited for, and a
driver that goes on to the link has waited for the root too. -/
theorem fork_tree_emits_every_part (jobs : Nat) (w : World) (h : Reachable jobs w) :
    (∀ p q x, (p, x) ∈ w.begun → (q, x) ∈ w.begun → p = q) ∧
    (0 < w.count → (w.worker 0).phase = .exited 0 →
      (∀ x < jobs, (w.written.map Prod.snd).count x = 1) ∧
        ∀ p < w.count, p ≠ 0 → p ∈ w.reaped) ∧
    (w.driver = .finished true → 0 < w.count ∧ (w.worker 0).phase = .exited 0 ∧
      ∀ p < w.count, p ∈ w.reaped) := by
  have hinv := h.invariant
  refine ⟨fun p q x => hinv.begun_unique, fun hcount hroot => ⟨fun x hx => ?_, fun p hp hne => ?_⟩,
    fun hfinished => ?_⟩
  · exact count_eq_one_of_mem hinv.written_nodup (hinv.written_all hcount hroot hx)
  · exact (hinv.all_done hroot p hp).2 hne
  obtain ⟨hpos, q, hq, heq, hroot, hreaped⟩ := hinv.settled.finished hfinished
  cases heq
  refine ⟨hpos, hroot, fun p hp => ?_⟩
  by_cases hzero : p = 0
  · rw [hzero]
    exact hreaped
  · exact (hinv.all_done hroot p hp).2 hzero

/-- Two parts: the root forks a worker, both write, the root waits for it and the driver
for the root. -/
theorem fork_tree_emits_two_parts : ∃ w, Reachable 2 w ∧ w.driver = .finished true ∧
    (∀ x < 2, (w.written.map Prod.snd).count x = 1) ∧ ∀ p < w.count, p ∈ w.reaped := by
  have h1 := Reachable.step (@Reachable.init 2) (.launch rfl)
  have h2 := h1.step (.fork (p := 0) (by decide) ⟨rfl, by decide⟩)
  have h3 := h2.step (.emit (p := 1) (by decide) ⟨rfl, by decide⟩)
  have h4 := h3.step (.emitted (p := 1) (by decide) rfl)
  have h5 := h4.step (.exit (p := 1) (by decide) rfl)
  have h6 := h5.step (.emit (p := 0) (by decide) ⟨rfl, by decide⟩)
  have h7 := h6.step (.emitted (p := 0) (by decide) rfl)
  have h8 := h7.step (.wait (p := 0) (by decide) rfl rfl)
  have h9 := h8.step (.exit (p := 0) (by decide) rfl)
  have h10 := h9.step (.driverWaits rfl rfl)
  obtain ⟨-, hroot, hdriver⟩ := fork_tree_emits_every_part 2 _ h10
  exact ⟨_, h10, rfl, (hroot (by decide) rfl).1, (hdriver rfl).2.2⟩

end Elisa.Backend.ForkTree
