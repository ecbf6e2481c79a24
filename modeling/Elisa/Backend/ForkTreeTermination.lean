import Mathlib.Algebra.GroupWithZero.Nat
import Mathlib.Logic.Relation
import Elisa.Backend.ForkTreeSafety

/-!
# The fork tree ends

Whatever the processes do, there are at most five actions for each part: what is left to do
(`World.left`) gets less with every step.  And no process waits in vain: a worker waits for later
ones only, so that the last worker that is still there can go on (`someMoves`).  So where nothing
fails the driver comes to the link (`fork_tree_succeeds`).
-/

namespace Elisa.Backend.ForkTree

open List World Relation

variable {jobs : Nat} {w w' : World} {p : Nat}

/-! ## What is left to do -/

/-- A bound on the actions that a worker and those that it has yet to fork have before them. -/
def Worker.left (worker : Worker) : Nat :=
  match worker.phase with
  | .splitting => 5 * max (worker.high - worker.low) 1 + worker.kids.length - 2
  | .emitting => worker.kids.length + 2
  | .waiting _ kids => kids.length + 1
  | .exited _ => 0

def Driver.left (jobs : Nat) : Driver → Nat
  | .launching => 5 * max jobs 1
  | .awaiting => 1
  | .finished _ => 0

def leftOf (workers : Nat → Worker) (count : Nat) : Nat :=
  ((range count).map fun p => (workers p).left).sum

def World.left (jobs : Nat) (w : World) : Nat := w.driver.left jobs + leftOf w.worker w.count

theorem leftOf_succ (workers : Nat → Worker) (count : Nat) :
    leftOf workers (count + 1) = leftOf workers count + (workers count).left := by
  simp [leftOf, range_succ]

theorem leftOf_congr {workers workers' : Nat → Worker} {count : Nat}
    (same : ∀ q < count, workers' q = workers q) :
    leftOf workers' count = leftOf workers count := by
  unfold leftOf
  rw [map_congr_left fun q mem => by rw [same q (mem_range.mp mem)]]

theorem leftOf_update (workers : Nat → Worker) (worker : Worker) {count : Nat} (hp : p < count) :
    leftOf (Function.update workers p worker) count + (workers p).left =
      leftOf workers count + worker.left := by
  induction count with
  | zero => exact absurd hp (Nat.not_lt_zero p)
  | succ count ih =>
    rw [leftOf_succ, leftOf_succ]
    rcases Nat.lt_succ_iff_lt_or_eq.mp hp with hlt | rfl
    · have := ih hlt
      rw [Function.update_of_ne (Nat.ne_of_gt hlt)]
      omega
    · rw [Function.update_self, leftOf_congr fun q hq => Function.update_of_ne (Nat.ne_of_lt hq) ..]
      omega

theorem left_set {worker : Worker} (hp : p < w.count) (less : worker.left < (w.worker p).left) :
    (w.set p worker).left jobs < w.left jobs := by
  have := leftOf_update w.worker worker hp
  show w.driver.left jobs + leftOf (Function.update w.worker p worker) w.count <
    w.driver.left jobs + leftOf w.worker w.count
  omega

theorem left_setPhase {phase : Phase} (hp : p < w.count)
    (less : { w.worker p with phase := phase : Worker }.left < (w.worker p).left) :
    (w.setPhase p phase).left jobs < w.left jobs := left_set hp less

theorem Worker.left_pos {worker : Worker} (alive : ∀ code, worker.phase ≠ .exited code) :
    0 < worker.left := by
  unfold Worker.left
  split
  · omega
  · omega
  · omega
  next code gone => exact absurd gone (alive code)

theorem left_keepLower {worker : Worker} (splits : worker.Splits) (kid : Option Nat) :
    (worker.keepLower kid).left + worker.takeUpper.left < worker.left ∧
      (worker.keepLower kid).left < worker.left := by
  obtain ⟨phase, wide⟩ := splits
  simp only [Worker.left, Worker.keepLower, Worker.takeUpper, Worker.middle, phase, length_append,
    length_cons, length_nil]
  omega

theorem left_step (h : Step jobs w w') : w'.left jobs < w.left jobs := by
  cases h with
  | launch driver =>
    have root : leftOf (Function.update w.worker 0 (.start 0 jobs)) 1 = 5 * max jobs 1 - 2 := by
      simp [leftOf, Worker.left, Worker.start]
    simp only [World.left, World.set, driver, Driver.left, root]
    omega
  | launchFails driver =>
    simp only [World.left, driver, Driver.left]
    omega
  | @fork p hp splits =>
    have kept := leftOf_update w.worker ((w.worker p).keepLower (some w.count)) hp
    have less := (left_keepLower splits (some w.count)).1
    have below : leftOf (Function.update (Function.update w.worker p
        ((w.worker p).keepLower (some w.count))) w.count (w.worker p).takeUpper) w.count = _ :=
      leftOf_congr fun q hq => Function.update_of_ne (Nat.ne_of_lt hq) ..
    simp only [World.left, World.set, leftOf_succ, Function.update_self, below]
    omega
  | forkFails hp splits => exact left_set hp (left_keepLower splits none).2
  | @emit p hp ready =>
    show (w.setPhase p .emitting).left jobs < w.left jobs
    refine left_setPhase hp ?_
    simp only [Worker.left, ready.1]
    omega
  | @emitted p hp phase =>
    show (w.setPhase p (.waiting true (w.worker p).kids)).left jobs < w.left jobs
    exact left_setPhase hp (by simp [Worker.left, phase])
  | emissionFails hp phase => exact left_setPhase hp (by simp [Worker.left, phase])
  | waitMarker hp phase => exact left_setPhase hp (by simp [Worker.left, phase])
  | @wait p _ status ok kids hp phase =>
    show (w.setPhase p (.waiting (ok && status == 0) kids)).left jobs < w.left jobs
    exact left_setPhase hp (by simp [Worker.left, phase])
  | waitFails hp phase => exact left_setPhase hp (by simp [Worker.left, phase])
  | exit hp phase => exact left_setPhase hp (by simp [Worker.left, phase])
  | dies hp alive => exact left_setPhase hp (Worker.left_pos alive)
  | driverWaits driver =>
    simp only [World.left, driver, Driver.left]
    omega
  | driverWaitFails driver =>
    simp only [World.left, driver, Driver.left]
    omega

theorem length_le_left {worlds : List World} (run : (w :: worlds).IsChain (Step jobs)) :
    worlds.length ≤ w.left jobs := by
  induction worlds generalizing w with
  | nil => exact Nat.zero_le _
  | cons w' worlds ih =>
    rw [isChain_cons_cons] at run
    exact Nat.lt_of_le_of_lt (ih run.2) (left_step run.1)

/-! ## Nobody waits in vain -/

/-- A worker waits for workers that were forked behind it. -/
def KidsLater (w : World) : Prop := ∀ p < w.count, ∀ kid, some kid ∈ (w.worker p).kids → p < kid

theorem KidsLater.set (h : KidsLater w) {worker : Worker}
    (kids : ∀ kid, some kid ∈ worker.kids → p < kid) : KidsLater (w.set p worker) := by
  intro q hq kid mem
  rw [set_worker] at mem
  split at mem
  next here => exact here ▸ kids kid mem
  next => exact h q hq kid mem

theorem KidsLater.setPhase (h : KidsLater w) {phase : Phase} (hp : p < w.count) :
    KidsLater (w.setPhase p phase) := h.set (h p hp)

theorem KidsLater.step (h : KidsLater w) (hstep : Step jobs w w') : KidsLater w' := by
  cases hstep with
  | launch =>
    intro q hq kid mem
    rw [Nat.lt_one_iff.mp hq] at mem
    simp [World.set, Worker.start] at mem
  | launchFails => exact h
  | @fork p hp splits =>
    intro q hq kid mem
    rw [forked_worker] at mem
    split_ifs at mem with last here
    · simp [Worker.takeUpper] at mem
    · rcases mem_append.mp mem with mem | mem
      · exact here ▸ h p hp kid mem
      · cases mem_singleton.mp mem
        exact here ▸ hp
    · exact h q (Nat.lt_of_le_of_ne (Nat.le_of_lt_succ hq) last) kid mem
  | forkFails hp =>
    refine h.set fun kid mem => h _ hp kid ?_
    simpa [Worker.keepLower] using mem
  | emit hp => exact h.setPhase hp
  | emitted hp => exact h.setPhase hp
  | emissionFails hp => exact h.setPhase hp
  | waitMarker hp => exact h.setPhase hp
  | wait hp => exact h.setPhase hp
  | waitFails hp => exact h.setPhase hp
  | exit hp => exact h.setPhase hp
  | dies hp => exact h.setPhase hp
  | driverWaits => exact h
  | driverWaitFails => exact h

theorem Reachable.kidsLater (h : Reachable jobs w) : KidsLater w := by
  induction h with
  | init => exact fun p hp => absurd hp (Nat.not_lt_zero p)
  | step _ hstep ih => exact ih.step hstep

/-- A worker that has something to do, and need not wait for anybody before it. -/
def World.Moves (w : World) (p : Nat) : Prop :=
  (w.worker p).phase = .splitting ∨ (w.worker p).phase = .emitting ∨
    ∃ ok kids, (w.worker p).phase = .waiting ok kids ∧
      ∀ kid, kids.head? = some (some kid) → ∃ status, (w.worker kid).phase = .exited status

/-- The workers that a worker has forked, with those that they have forked in turn, and itself. -/
abbrev World.Below (w : World) : Nat → Nat → Prop :=
  ReflTransGen fun p kid => some kid ∈ (w.worker p).kids

theorem someMoves (h : Reachable jobs w) (hp : p < w.count)
    (alive : ∀ code, (w.worker p).phase ≠ .exited code) :
    ∃ q, w.Below p q ∧ q < w.count ∧ w.Moves q := by
  obtain ⟨rest, hrest⟩ : ∃ rest, w.count - p = rest := ⟨_, rfl⟩
  induction rest using Nat.strongRecOn generalizing p with
  | ind rest ih =>
    cases phase : (w.worker p).phase with
    | splitting => exact ⟨p, .refl, hp, .inl phase⟩
    | emitting => exact ⟨p, .refl, hp, .inr (.inl phase)⟩
    | exited status => exact absurd phase (alive status)
    | waiting ok kids =>
      by_cases gone : ∀ kid, kids.head? = some (some kid) →
          ∃ status, (w.worker kid).phase = .exited status
      · exact ⟨p, .refl, hp, .inr (.inr ⟨ok, kids, phase, gone⟩)⟩
      -- The kid it waits for is a later worker, which is still there.
      push Not at gone
      obtain ⟨kid, head, alive'⟩ := gone
      have account := h.invariant.settled.phase p hp
      rw [PhaseOk, phase] at account
      obtain ⟨before, all, -⟩ := account
      have mem : some kid ∈ (w.worker p).kids := all ▸ mem_append_right _ (mem_of_mem_head? head)
      have later := h.kidsLater p hp kid mem
      have below := h.invariant.division.kids p hp kid mem
      obtain ⟨q, path, hq, moves⟩ := ih (w.count - kid) (by omega) below alive' rfl
      exact ⟨q, .head mem path, hq, moves⟩

/-- In every interleaving there are at most five actions for each part, and below every worker that
is still there some worker can go on without waiting. -/
theorem fork_tree_ends (jobs : Nat) :
    (∀ worlds, (World.init :: worlds).IsChain (Step jobs) → worlds.length ≤ 5 * max jobs 1) ∧
    ∀ w, Reachable jobs w → ∀ p < w.count, (∀ code, (w.worker p).phase ≠ .exited code) →
      ∃ q, w.Below p q ∧ q < w.count ∧ w.Moves q :=
  ⟨fun _ run => length_le_left run, fun _ h _ hp alive => someMoves h hp alive⟩

/-! ## Where nothing fails -/

/-- No fork and no emission of a worker has failed, none of its waits, and it did not die. -/
structure Worker.Fine (worker : Worker) : Prop where
  kids : none ∉ worker.kids
  waits : ∀ kids, worker.phase ≠ .waiting false kids
  exits : ∀ code, worker.phase = .exited code → code = 0

/-- Nothing has failed. -/
structure World.Fine (w : World) : Prop where
  workers : ∀ p < w.count, (w.worker p).Fine
  driver : w.driver ≠ .finished false

/-- A worker goes on without a failure. -/
theorem World.Fine.moved (h : w.Fine) (hp : p < w.count) {phase : Phase}
    (waits : ∀ kids, phase ≠ .waiting false kids) (exits : ∀ code, phase = .exited code → code = 0)
    (reaped : List Nat) (begun written : List (Nat × Nat)) :
    { w.setPhase p phase with
      reaped := reaped, begun := begun, written := written : World }.Fine := by
  refine ⟨fun q hq => ?_, h.driver⟩
  show ((w.setPhase p phase).worker q).Fine
  rw [setPhase_worker]
  split
  · exact ⟨(h.workers p hp).kids, waits, exits⟩
  · exact h.workers q hq

/-- The driver goes on to the link only where nothing has failed. -/
theorem Reachable.fine (h : Reachable jobs w) (finished : w.driver = .finished true) : w.Fine := by
  obtain ⟨-, q, -, same, root, -⟩ := h.invariant.settled.finished finished
  cases same
  refine ⟨fun p hp => ?_, by simp [finished]⟩
  have gone := (h.invariant.all_done root p hp).1
  have account := h.invariant.settled.phase p hp
  rw [PhaseOk, gone] at account
  refine ⟨fun marker => ?_, fun kids => by simp [gone], fun code => ?_⟩
  · obtain ⟨kid, -, same, -⟩ := (account rfl).done _ marker
    cases same
  · rw [gone]
    exact fun same => (Phase.exited.inj same).symm

/-- Some process can go on without a failure, until the driver goes on to the link. -/
theorem World.Fine.progress (h : w.Fine) (reached : Reachable jobs w) :
    w.driver = .finished true ∨ ∃ w', Step jobs w w' ∧ w'.Fine := by
  cases driver : w.driver with
  | launching =>
    refine .inr ⟨_, .launch driver, fun p hp => ?_, by simp⟩
    rw [Nat.lt_one_iff.mp hp, set_worker_self]
    exact ⟨by simp [Worker.start], by simp [Worker.start], by simp [Worker.start]⟩
  | finished ok =>
    cases ok with
    | true => exact .inl rfl
    | false => exact absurd driver h.driver
  | awaiting =>
    have root := reached.invariant.division.awaiting driver
    by_cases gone : ∃ code, (w.worker 0).phase = .exited code
    · obtain ⟨code, gone⟩ := gone
      refine .inr ⟨_, .driverWaits driver gone, h.workers, ?_⟩
      simp [(h.workers 0 root).exits code gone]
    push Not at gone
    obtain ⟨p, -, hp, moves⟩ := someMoves reached root gone
    have fine := h.workers p hp
    right
    rcases moves with phase | phase | ⟨ok, kids, phase, waited⟩
    · by_cases wide : (w.worker p).high - (w.worker p).low > 1
      · refine ⟨_, .fork hp ⟨phase, wide⟩, fun q hq => ?_, h.driver⟩
        rw [forked_worker]
        split_ifs with last here
        · exact ⟨not_mem_nil, by simp [Worker.takeUpper, phase], by simp [Worker.takeUpper, phase]⟩
        · refine ⟨?_, by simp [Worker.keepLower, phase], by simp [Worker.keepLower, phase]⟩
          simpa [Worker.keepLower] using fine.kids
        · exact h.workers q (Nat.lt_of_le_of_ne (Nat.le_of_lt_succ hq) last)
      · exact ⟨_, .emit hp ⟨phase, wide⟩, h.moved hp (by simp) (by simp) ..⟩
    · exact ⟨_, .emitted hp phase, h.moved hp (by simp) (by simp) ..⟩
    · have ok : ok = true := by
        by_contra not
        exact fine.waits kids (by rw [phase, Bool.eq_false_iff.mpr not])
      rw [ok] at phase
      cases kids with
      | nil => exact ⟨_, .exit hp phase, h.moved hp (by simp) (by simp) ..⟩
      | cons kid kids =>
        have account := reached.invariant.settled.phase p hp
        rw [PhaseOk, phase] at account
        obtain ⟨before, all, -⟩ := account
        have mem : kid ∈ (w.worker p).kids := all ▸ mem_append_right _ (.head _)
        cases kid with
        | none => exact absurd mem fine.kids
        | some kid =>
          obtain ⟨status, gone⟩ := waited kid rfl
          have later := reached.invariant.division.kids p hp kid mem
          have zero := (h.workers kid later).exits status gone
          exact ⟨_, .wait hp phase gone, h.moved hp (by simp [zero]) (by simp) ..⟩

/-- The driver goes on to the link only where nothing has failed; and as long as nothing has, the
processes can bring it there without a failure. -/
theorem fork_tree_succeeds (h : Reachable jobs w) :
    (w.driver = .finished true → w.Fine) ∧
      (w.Fine → ∃ w', ReflTransGen (fun w w' => Step jobs w w' ∧ w'.Fine) w w' ∧
        w'.driver = .finished true) := by
  refine ⟨h.fine, ?_⟩
  obtain ⟨left, hleft⟩ : ∃ left, w.left jobs = left := ⟨_, rfl⟩
  induction left using Nat.strongRecOn generalizing w with
  | ind left ih =>
    intro fine
    rcases fine.progress h with linked | ⟨next, step, fine'⟩
    · exact ⟨w, .refl, linked⟩
    · obtain ⟨last, run, linked⟩ := ih _ (hleft ▸ left_step step) (h.step step) rfl fine'
      exact ⟨last, .head ⟨step, fine'⟩ run, linked⟩

theorem fork_tree_succeeds_with_three_parts :
    ∃ w, ReflTransGen (fun w w' => Step 3 w w' ∧ w'.Fine) World.init w ∧
      w.driver = .finished true :=
  (fork_tree_succeeds .init).2 ⟨fun p hp => absurd hp (Nat.not_lt_zero p), by simp [World.init]⟩

end Elisa.Backend.ForkTree
