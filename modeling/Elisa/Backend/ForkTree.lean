import Mathlib.Logic.Function.Basic

/-!
# The fork tree of parallel emission

`part_fork_range` runs in a forked worker and serves a range of parts: while more than one is left
it forks a worker for the upper half and keeps the lower one, then it emits its part and waits for
its workers.  The driver forks the root, waits for it, and links when its status is zero.

A `World` has the workers that were ever forked, in the order of the forks, and what the outside has
seen.  A `Step` is one action of any process; a fork, an emission and a wait may fail, and a worker
may die at any time.  The command that stops the workers after a failure is no step of its own: its
deaths are among these.
-/

namespace Elisa.Backend.ForkTree

/-! ## Workers -/

/-- Where a worker is in `part_fork_range`. -/
inductive Phase where
  /-- In the loop that halves the range. -/
  | splitting
  /-- Writing the part's object file. -/
  | emitting
  /-- Waiting for the workers it forked, with the outcome so far. -/
  | waiting (ok : Bool) (kids : List (Option Nat))
  /-- Gone, with its wait status: zero for `_exit(0)`. -/
  | exited (status : Nat)
deriving DecidableEq

/-- The local variables of a worker.  A kid is a worker, or nothing where the fork failed. -/
structure Worker where
  low : Nat
  high : Nat
  kids : List (Option Nat)
  phase : Phase
deriving DecidableEq

def Worker.start (first stop : Nat) : Worker := ⟨first, stop, [], .splitting⟩

def Worker.middle (worker : Worker) : Nat := worker.low + (worker.high - worker.low) / 2

/-- More than one part is left. -/
def Worker.Splits (worker : Worker) : Prop :=
  worker.phase = .splitting ∧ worker.high - worker.low > 1

/-- One part is left. -/
def Worker.Ready (worker : Worker) : Prop :=
  worker.phase = .splitting ∧ ¬ worker.high - worker.low > 1

def Worker.keepLower (worker : Worker) (kid : Option Nat) : Worker :=
  { worker with high := worker.middle, kids := worker.kids ++ [kid] }

/-- The forked side takes the upper half and forgets the inherited kids. -/
def Worker.takeUpper (worker : Worker) : Worker :=
  { worker with low := worker.middle, kids := [] }

/-! ## The processes together -/

/-- Where the driver is in `emit_object_parallel_status`. -/
inductive Driver where
  | launching
  | awaiting
  /-- Behind the wait; it goes on to the link when all is well. -/
  | finished (allOk : Bool)
deriving DecidableEq

structure World where
  driver : Driver
  /-- The number of workers forked so far. -/
  count : Nat
  worker : Nat → Worker
  /-- The workers that were waited for. -/
  reaped : List Nat
  /-- The emissions that were begun: worker and part. -/
  begun : List (Nat × Nat)
  /-- The emissions that succeeded: worker and part. -/
  written : List (Nat × Nat)

def World.set (world : World) (p : Nat) (worker : Worker) : World :=
  { world with worker := Function.update world.worker p worker }

def World.setPhase (world : World) (p : Nat) (phase : Phase) : World :=
  world.set p { world.worker p with phase := phase }

def World.init : World := ⟨.launching, 0, fun _ => .start 0 0, [], [], []⟩

/-- One action of one process; `jobs` is the number of parts. -/
inductive Step (jobs : Nat) : World → World → Prop where
  /-- The driver forks the root worker. -/
  | launch {w : World} : w.driver = .launching →
      Step jobs w { w.set 0 (.start 0 jobs) with driver := .awaiting, count := 1 }
  | launchFails {w : World} : w.driver = .launching →
      Step jobs w { w with driver := .finished false }
  /-- A worker forks one for the upper half of its range. -/
  | fork {w : World} {p : Nat} : p < w.count → (w.worker p).Splits →
      Step jobs w { (w.set p ((w.worker p).keepLower (some w.count))).set w.count
        (w.worker p).takeUpper with count := w.count + 1 }
  | forkFails {w : World} {p : Nat} : p < w.count → (w.worker p).Splits →
      Step jobs w (w.set p ((w.worker p).keepLower none))
  | emit {w : World} {p : Nat} : p < w.count → (w.worker p).Ready →
      Step jobs w { w.setPhase p .emitting with begun := w.begun ++ [(p, (w.worker p).low)] }
  | emitted {w : World} {p : Nat} : p < w.count → (w.worker p).phase = .emitting →
      Step jobs w { w.setPhase p (.waiting true (w.worker p).kids) with
        written := w.written ++ [(p, (w.worker p).low)] }
  | emissionFails {w : World} {p : Nat} : p < w.count → (w.worker p).phase = .emitting →
      Step jobs w (w.setPhase p (.waiting false (w.worker p).kids))
  /-- A marker of a failed fork. -/
  | waitMarker {w : World} {p : Nat} {ok : Bool} {kids : List (Option Nat)} : p < w.count →
      (w.worker p).phase = .waiting ok (none :: kids) →
      Step jobs w (w.setPhase p (.waiting false kids))
  | wait {w : World} {p kid status : Nat} {ok : Bool} {kids : List (Option Nat)} : p < w.count →
      (w.worker p).phase = .waiting ok (some kid :: kids) →
      (w.worker kid).phase = .exited status →
      Step jobs w { w.setPhase p (.waiting (ok && status == 0) kids) with
        reaped := w.reaped ++ [kid] }
  | waitFails {w : World} {p kid : Nat} {ok : Bool} {kids : List (Option Nat)} : p < w.count →
      (w.worker p).phase = .waiting ok (some kid :: kids) →
      Step jobs w (w.setPhase p (.waiting false kids))
  | exit {w : World} {p : Nat} {ok : Bool} : p < w.count → (w.worker p).phase = .waiting ok [] →
      Step jobs w (w.setPhase p (.exited (if ok then 0 else 1)))
  /-- A worker dies of something else than its own exit. -/
  | dies {w : World} {p status : Nat} : p < w.count →
      (∀ code, (w.worker p).phase ≠ .exited code) → status ≠ 0 →
      Step jobs w (w.setPhase p (.exited status))
  | driverWaits {w : World} {status : Nat} : w.driver = .awaiting →
      (w.worker 0).phase = .exited status →
      Step jobs w { w with driver := .finished (status == 0), reaped := w.reaped ++ [0] }
  | driverWaitFails {w : World} : w.driver = .awaiting →
      Step jobs w { w with driver := .finished false }

inductive Reachable (jobs : Nat) : World → Prop where
  | init : Reachable jobs World.init
  | step {w w' : World} : Reachable jobs w → Step jobs w w' → Reachable jobs w'

end Elisa.Backend.ForkTree
