import Elisa.Backend.PartModulePartition

/-!
# The parts are of one size

The owners of the functions are cut from the running total of their weights, so that the weight of a
part is off an even share by at most that of the heaviest function (`parts_balanced`).
`partEffectiveJobs` asks for no more parts than have work for a process.
-/

namespace Elisa.Backend

open List

/-- `PART_MIN_WEIGHT_PER_JOB` -/
def partMinWeightPerJob : Int := 20000

def partEffectiveJobs (total jobs : Int) : Int :=
  let useful := total.tdiv partMinWeightPerJob
  if useful < 1 then 1 else if useful < jobs then useful else jobs

def ownedWeight (owned : Int → Bool) : List Int → List Int → Int
  | weight :: weights, owner :: owners =>
    (if owned owner then weight else 0) + ownedWeight owned weights owners
  | _, _ => 0

def PartModule.load (m : PartModule) (jobs part : Int) : Int :=
  ownedWeight (· == part) (partFunctionWeights m) (m.owners jobs)

/-- Both ways, the weight of a part is off an even share by at most `heaviest`. -/
def Balanced (total jobs heaviest load : Int) : Prop :=
  total - jobs * heaviest ≤ jobs * load ∧ jobs * load ≤ total + jobs * heaviest

variable {total jobs part heaviest before : Int} {weights : List Int}

/-! ## Running totals -/

/-- What `partTotalWeight` adds up. -/
def positiveWeight (weights : List Int) : Int := (weights.map fun weight => max weight 0).sum

theorem partTotalWeight_eq (weights : List Int) :
    partTotalWeight weights = positiveWeight weights := by
  have loop : ∀ start : Int, weights.foldl (fun total weight =>
      if weight > 0 then total + weight else total) start = start + positiveWeight weights := by
    induction weights with
    | nil => exact fun start => (Int.add_zero start).symm
    | cons weight weights ih =>
      intro start
      rw [foldl_cons, ih]
      simp only [positiveWeight, map_cons, sum_cons]
      split <;> omega
  exact (loop 0).trans (Int.zero_add _)

theorem positiveWeight_nonneg (weights : List Int) : 0 ≤ positiveWeight weights := by
  induction weights with
  | nil => exact le_refl _
  | cons weight weights ih =>
    simp only [positiveWeight, map_cons, sum_cons] at ih ⊢
    omega

theorem positiveWeight_of_light (light : ∀ weight ∈ weights, weight ≤ 0) :
    positiveWeight weights = 0 := by
  induction weights with
  | nil => rfl
  | cons weight weights ih =>
    have rest := ih fun w mem => light w (.tail _ mem)
    have := light weight (.head _)
    simp only [positiveWeight, map_cons, sum_cons] at rest ⊢
    omega

/-- The owner of a function is the share that the weight before it falls into. -/
theorem ownerAt_share (positive : 0 < jobs) (h : 0 ≤ before) (within : before ≤ total) :
    ownerAt total jobs before * total ≤ before * jobs ∧
      before * jobs ≤ (ownerAt total jobs before + 1) * total := by
  unfold ownerAt
  by_cases weighty : total > 0
  · simp only [weighty, if_true]
    have low := Int.ediv_mul_le (before * jobs) (Int.ne_of_gt weighty)
    have high := Int.lt_ediv_add_one_mul_self (before * jobs) weighty
    split
    next clamped =>
      have whole : jobs * total ≤ before * jobs :=
        (Int.mul_le_mul_of_nonneg_right clamped weighty.le).trans low
      have most : before * jobs ≤ total * jobs := Int.mul_le_mul_of_nonneg_right within positive.le
      rw [Int.sub_add_cancel, Int.mul_comm jobs]
      exact ⟨by rw [Int.sub_mul]; omega, most⟩
    next => exact ⟨low, high.le⟩
  · obtain rfl : before = 0 := by omega
    obtain rfl : total = 0 := by omega
    simp

/-! ## The loop over the functions -/

/-- A run of the loop: the weights that are left fill up the total. -/
structure Filling (total jobs before heaviest : Int) (weights : List Int) : Prop where
  jobs_pos : 0 < jobs
  before_nonneg : 0 ≤ before
  fills : before + positiveWeight weights = total
  bounded : ∀ weight ∈ weights, weight ≤ heaviest

section
variable {weight : Int}

theorem Filling.skip (h : Filling total jobs before heaviest (weight :: weights))
    (alone : weight < 0) : Filling total jobs before heaviest weights := by
  refine ⟨h.jobs_pos, h.before_nonneg, ?_, fun w mem => h.bounded w (.tail _ mem)⟩
  have := h.fills
  simp only [positiveWeight, map_cons, sum_cons] at this ⊢
  omega

theorem Filling.take (h : Filling total jobs before heaviest (weight :: weights))
    (owned : ¬ weight < 0) : Filling total jobs (before + weight) heaviest weights := by
  refine ⟨h.jobs_pos, by have := h.before_nonneg; omega, ?_,
    fun w mem => h.bounded w (.tail _ mem)⟩
  have := h.fills
  simp only [positiveWeight, map_cons, sum_cons] at this ⊢
  omega

theorem Filling.before_le (h : Filling total jobs before heaviest weights) : before ≤ total := by
  have := h.fills
  have := positiveWeight_nonneg weights
  omega

end

/-- The weight of the parts before one, in what is left of the loop. -/
abbrev weightBelow (total jobs part before : Int) (weights : List Int) : Int :=
  ownedWeight (fun owner => decide (0 ≤ owner ∧ owner < part)) weights
    (partFunctionOwnersFrom total jobs before weights)

theorem weightBelow_skip {weight : Int} (alone : weight < 0) :
    weightBelow total jobs part before (weight :: weights) =
      weightBelow total jobs part before weights := by
  rw [weightBelow, partFunctionOwnersFrom, if_pos alone, ownedWeight, if_neg (by simp),
    Int.zero_add]

theorem weightBelow_take {weight : Int} (h : Filling total jobs before heaviest (weight :: weights))
    (owned : ¬ weight < 0) :
    weightBelow total jobs part before (weight :: weights) =
      (if ownerAt total jobs before < part then weight else 0) +
        weightBelow total jobs part (before + weight) weights := by
  have low := (@ownerAt_range total _ _ h.jobs_pos h.before_nonneg).1
  rw [weightBelow, partFunctionOwnersFrom, if_neg owned, ownedWeight]
  simp only [decide_eq_true_eq]
  congr 2
  exact propext (and_iff_right low)

theorem weightBelow_nonneg (h : Filling total jobs before heaviest weights) :
    0 ≤ weightBelow total jobs part before weights := by
  induction weights generalizing before with
  | nil => exact le_refl _
  | cons weight weights ih =>
    by_cases alone : weight < 0
    · rw [weightBelow_skip alone]
      exact ih (h.skip alone)
    · have := ih (h.take alone)
      rw [weightBelow_take h alone]
      split <;> omega

/-- The parts before one have their even shares. -/
theorem share_le_weightBelow (h : Filling total jobs before heaviest weights) (le : part ≤ jobs) :
    part * total ≤ jobs * (before + weightBelow total jobs part before weights) := by
  have total_nonneg := h.before_nonneg.trans h.before_le
  induction weights generalizing before with
  | nil =>
    have full : before = total := by simpa [positiveWeight] using h.fills
    show _ ≤ jobs * (before + 0)
    rw [Int.add_zero, full]
    exact Int.mul_le_mul_of_nonneg_right le total_nonneg
  | cons weight weights ih =>
    by_cases alone : weight < 0
    · rw [weightBelow_skip alone]
      exact ih (h.skip alone)
    rw [weightBelow_take h alone, ← Int.add_assoc]
    split
    next => exact ih (h.take alone)
    next reached =>
      -- The weight before here is that of the shares before this part, or more.
      have share := (ownerAt_share h.jobs_pos h.before_nonneg h.before_le).1
      have before_share : part * total ≤ jobs * before := Int.mul_comm before jobs ▸
        (Int.mul_le_mul_of_nonneg_right (Int.not_lt.mp reached) total_nonneg).trans share
      refine before_share.trans (Int.mul_le_mul_of_nonneg_left ?_ h.jobs_pos.le)
      have := @weightBelow_nonneg _ _ part _ _ _ (h.take alone)
      omega

/-- The parts before one have no more than their even shares and one function. -/
theorem weightBelow_le (h : Filling total jobs before heaviest weights) :
    jobs * (before + weightBelow total jobs part before weights) ≤
      max (part * total + jobs * heaviest) (jobs * before) := by
  induction weights generalizing before with
  | nil =>
    show jobs * (before + 0) ≤ _
    rw [Int.add_zero]
    exact le_max_right ..
  | cons weight weights ih =>
    by_cases alone : weight < 0
    · rw [weightBelow_skip alone]
      exact ih (h.skip alone)
    have rest := ih (h.take alone)
    have total_nonneg := h.before_nonneg.trans h.before_le
    have light := Int.mul_le_mul_of_nonneg_left (h.bounded weight (.head _)) h.jobs_pos.le
    have heavy : 0 ≤ jobs * weight := Int.mul_nonneg h.jobs_pos.le (Int.not_lt.mp alone)
    rw [weightBelow_take h alone]
    simp only [Int.mul_add] at rest ⊢
    split
    next inside =>
      have share := (ownerAt_share h.jobs_pos h.before_nonneg h.before_le).2
      have := Int.mul_le_mul_of_nonneg_right (show ownerAt total jobs before + 1 ≤ part from inside)
        total_nonneg
      rw [Int.mul_comm before] at share
      omega
    next => omega

theorem ownedWeight_succ (nonneg : 0 ≤ part) (weights owners : List Int) :
    ownedWeight (fun owner => decide (0 ≤ owner ∧ owner < part + 1)) weights owners =
      ownedWeight (fun owner => decide (0 ≤ owner ∧ owner < part)) weights owners +
        ownedWeight (· == part) weights owners := by
  induction weights generalizing owners with
  | nil => rfl
  | cons weight weights ih =>
    cases owners with
    | nil => rfl
    | cons owner owners =>
      simp only [ownedWeight, ih, decide_eq_true_eq, beq_iff_eq]
      split_ifs <;> omega

/-- Where a module is divided, no process is asked for without work for it, and the parts are of one
size, but for the weight of one function. -/
theorem parts_balanced (m : PartModule) (requested jobs heaviest : Int)
    (effective : partEffectiveJobs (partTotalWeight (partFunctionWeights m)) requested = jobs)
    (divided : 1 < jobs) (bounded : ∀ weight ∈ partFunctionWeights m, weight ≤ heaviest) :
    jobs ≤ requested ∧ jobs * partMinWeightPerJob ≤ partTotalWeight (partFunctionWeights m) ∧
      ∀ part, 0 ≤ part → part < jobs →
        Balanced (partTotalWeight (partFunctionWeights m)) jobs heaviest (m.load jobs part) := by
  have fills := partTotalWeight_eq (partFunctionWeights m)
  generalize ht : partTotalWeight (partFunctionWeights m) = total at effective fills
  have total_nonneg : 0 ≤ total := fills ▸ positiveWeight_nonneg _
  rw [partEffectiveJobs, Int.tdiv_eq_ediv_of_nonneg total_nonneg] at effective
  have useful := Int.ediv_mul_le total (show partMinWeightPerJob ≠ 0 by decide)
  have most : jobs ≤ total / partMinWeightPerJob ∧ jobs ≤ requested := by
    split_ifs at effective <;> omega
  have worth : jobs * partMinWeightPerJob ≤ total :=
    (Int.mul_le_mul_of_nonneg_right most.1 (by decide)).trans useful
  refine ⟨most.2, worth, fun part nonneg part_lt => ?_⟩
  have heaviest_nonneg : 0 ≤ heaviest := by
    by_contra light
    have none := positiveWeight_of_light fun weight mem =>
      (bounded weight mem).trans (Int.not_le.mp light).le
    have : jobs * partMinWeightPerJob ≤ 0 := none ▸ fills ▸ worth
    rw [partMinWeightPerJob] at this
    omega
  have filling : Filling total jobs 0 heaviest (partFunctionWeights m) :=
    ⟨by omega, le_refl 0, by rw [Int.zero_add, fills], bounded⟩
  have heavy : 0 ≤ jobs * heaviest := Int.mul_nonneg filling.jobs_pos.le heaviest_nonneg
  have share : 0 ≤ part * total := Int.mul_nonneg nonneg total_nonneg
  have low := share_le_weightBelow filling part_lt.le
  have high := @weightBelow_le _ _ part _ _ _ filling
  have low' := share_le_weightBelow filling (show part + 1 ≤ jobs from part_lt)
  have high' := @weightBelow_le _ _ (part + 1) _ _ _ filling
  have cut := ownedWeight_succ nonneg (partFunctionWeights m) (m.owners jobs)
  rw [PartModule.owners, ht, partFunctionOwners] at cut
  rw [Balanced, PartModule.load, PartModule.owners, ht, partFunctionOwners]
  simp only [weightBelow, cut, Int.zero_add, Int.mul_zero, Int.mul_add, Int.add_mul, Int.one_mul]
    at low high low' high'
  omega

/-- Two functions that are twice an even share each. -/
def twinModule : PartModule :=
  let body : List (List (List Symbol)) := [List.replicate 40000 []]
  ⟨[], [⟨⟨[97], .external, .standard⟩, body, none⟩, ⟨⟨[98], .internal, .standard⟩, body, none⟩], []⟩

theorem parts_balanced_twins : (4 : Int) ≤ 8 ∧
    ∀ part, 0 ≤ part → part < 4 → Balanced 80002 4 40001 (twinModule.load 4 part) := by
  have weights : partFunctionWeights twinModule = [40001, 40001] := by
    have body : (List.replicate 40000 ([] : List Symbol)).length = 40000 := length_replicate
    simp only [partFunctionWeights, twinModule, map_cons, map_nil, partFunctionWeight, body]
    rfl
  have total : partTotalWeight (partFunctionWeights twinModule) = 80002 := by
    rw [weights]
    decide
  have balanced := parts_balanced twinModule 8 4 40001
    (by rw [total]; decide) (by decide) (by simp [weights])
  rw [total] at balanced
  exact ⟨balanced.1, balanced.2.2⟩

end Elisa.Backend
