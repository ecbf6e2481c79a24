import Mathlib.Data.BitVec
import Elisa.Easm.ScanInvariant
import Elisa.Lib.Dataflow

/-!
# The rounds over the flow state settle

The parts of a flow state (each register, the flags, the stack pointer modulo 16, the stack delta)
do not depend on one another and change once at most, so that a round in which something changes
uses up one of two changes at the target of a jump back.  So one round more than there are lines is
enough (`flow_settles`).

The result is the meet over all edges (`flow_solution`), but for the stack delta: where edges
disagree on it, it is set to 0, which is a delta like any other.
-/

namespace Elisa.Easm

open Lib.Dataflow List

/-! ## Flow states -/

/-- The states that come up: a residue that is not known is stored as 0. -/
def FlowState.Good (state : FlowState) : Prop :=
  state.valid = true ∧ (state.stackKnown = false → state.stackMod16 = 0)

/-- The residue of the stack pointer, where it is known. -/
def FlowState.residue? (state : FlowState) : Option Int :=
  if state.stackKnown then some state.stackMod16 else none

variable {s t : FlowState}

theorem stackTransfer_rel {R : FlowState → FlowState → Prop} (inst : Instruction)
    (move : ∀ {s t} delta, R s t → R (s.moveStack delta) (t.moveStack delta))
    (lose : ∀ {s t}, R s t → R s.loseStack t.loseStack) (h : R s t) :
    R (stackTransfer inst s) (stackTransfer inst t) := by
  unfold stackTransfer
  dsimp only
  have pushed : R (if startsWith inst.op (ascii "push") then s.moveStack (-8) else s)
      (if startsWith inst.op (ascii "push") then t.moveStack (-8) else t) := by
    split
    · exact move (-8) h
    · exact h
  generalize (if startsWith inst.op (ascii "push") then s.moveStack (-8) else s) = s' at pushed
  generalize (if startsWith inst.op (ascii "push") then t.moveStack (-8) else t) = t' at pushed
  split
  · split
    · exact lose pushed
    · exact move 8 pushed
  split
  · split
    · exact lose pushed
    · cases immediateOperandAfterDollarChecked inst.source with
      | none => exact lose pushed
      | some value => exact move _ pushed
  · split
    · exact lose pushed
    · exact pushed

theorem stackTransfer_frame (inst : Instruction) (s : FlowState) :
    (stackTransfer inst s).live = s.live ∧ (stackTransfer inst s).flagsLive = s.flagsLive ∧
      (stackTransfer inst s).valid = s.valid :=
  stackTransfer_rel (R := fun now _ => now.live = s.live ∧ now.flagsLive = s.flagsLive ∧
    now.valid = s.valid) inst (fun _ h => h) (fun h => h) (t := s) ⟨rfl, rfl, rfl⟩

theorem good_flowTransfer (inst : Instruction) (good : s.Good) : (flowTransfer inst s).Good := by
  refine stackTransfer_rel (R := fun now _ => now.Good) inst ?_ ?_
    (s := registerTransfer inst s) (t := registerTransfer inst s) good
  · intro s _ delta good
    refine ⟨good.1, fun unknown => ?_⟩
    have unknown : s.stackKnown = false := unknown
    simp [FlowState.moveStack, unknown, good.2 unknown]
  · exact fun good => ⟨good.1, fun _ => rfl⟩

theorem good_join (good : s.Good) : (s.join t).Good := by
  refine ⟨good.1, fun unknown => ?_⟩
  have unknown : (s.stackKnown && t.stackKnown && decide (s.stackMod16 = t.stackMod16)) = false :=
    unknown
  simp [FlowState.join, unknown]

/-! ## The analysis -/

variable {u : Nat}

theorem successors_inside {body : List Instruction} {v : Nat} (mem : v ∈ successors body u) :
    u < body.length ∧ v < body.length := by
  obtain ⟨inst, found, next⟩ := mem_successors_iff.1 mem
  refine ⟨(List.getElem?_eq_some_iff.1 found).1, ?_⟩
  rcases next with jumps | ⟨-, -, within⟩
  · exact jumpTarget_lt jumps
  · exact within

def lineTransfer {S : Type} (transfer : Instruction → S → S) (body : List Instruction) (u : Nat)
    (state : S) : S :=
  match body[u]? with
  | some inst => transfer inst state
  | none => state

/-- A property of states that every instruction keeps is kept by every line. -/
theorem lineTransfer_rel {S : Type} {transfer : Instruction → S → S} {R : S → S → Prop}
    {body : List Instruction} {s t : S} (keep : ∀ inst, R (transfer inst s) (transfer inst t))
    (h : R s t) : R (lineTransfer transfer body u s) (lineTransfer transfer body u t) := by
  unfold lineTransfer
  cases body[u]? with
  | none => exact h
  | some inst => exact keep inst

def flowAnalysis (body : List Instruction) : Analysis FlowState where
  count := body.length
  successors := successors body
  transfer := lineTransfer flowTransfer body
  meet := FlowState.join
  good := FlowState.Good
  inside := successors_inside
  good_transfer good := lineTransfer_rel (R := fun s _ => s.Good) (t := FlowState.unreached)
    (fun inst => good_flowTransfer inst good) good
  good_meet good _ := good_join good

/-! ## Its components -/

inductive FlowPart where
  | register (bit : Fin 64)
  | flags
  | residue
  | delta

section
variable (body : List Instruction)

theorem join_residue? (s t : FlowState) : (s.join t).residue? =
    if s.residue? = t.residue? then s.residue? else none := by
  unfold FlowState.residue? FlowState.join
  cases s.stackKnown <;> cases t.stackKnown <;> simp
  split <;> simp_all

theorem moveStack_residue? (s : FlowState) (delta : Int) :
    (s.moveStack delta).residue? = s.residue?.map fun residue => (residue + delta).tmod 16 := by
  cases known : s.stackKnown <;> simp [FlowState.residue?, FlowState.moveStack, known]

def flowComponents : FlowPart → Component (flowAnalysis body)
  | .register bit => Component.ofFlat (fun s => s.live.getLsbD bit) false
      (by
        intro s t
        change (s.live &&& t.live).getLsbD bit = _
        rw [BitVec.getLsbD_and]
        cases s.live.getLsbD bit <;> cases t.live.getLsbD bit <;> rfl)
      (by
        intro u s t same
        refine lineTransfer_rel (R := fun s t : FlowState => s.live.getLsbD bit =
          t.live.getLsbD bit) ?_ same
        intro inst
        rw [flowTransfer, flowTransfer, (stackTransfer_frame _ _).1, (stackTransfer_frame _ _).1]
        simp only [registerTransfer]
        split <;> simp only [BitVec.getLsbD_and, BitVec.getLsbD_or, same])
  | .flags => Component.ofFlat FlowState.flagsLive false
      (by
        intro s t
        change (s.flagsLive && t.flagsLive) = _
        cases s.flagsLive <;> cases t.flagsLive <;> rfl)
      (by
        intro u s t same
        refine lineTransfer_rel (R := fun s t : FlowState => s.flagsLive = t.flagsLive) ?_ same
        intro inst
        rw [flowTransfer, flowTransfer, (stackTransfer_frame _ _).2.1,
          (stackTransfer_frame _ _).2.1]
        simp only [registerTransfer, same])
  | .residue => Component.ofFlat FlowState.residue? none (join_residue? _ _)
      (by
        intro u s t same
        refine lineTransfer_rel (R := fun s t : FlowState => s.residue? = t.residue?) ?_ same
        intro inst
        refine stackTransfer_rel (R := fun s t => s.residue? = t.residue?) inst ?_ ?_ same
        · intro s t delta same
          rw [moveStack_residue?, moveStack_residue?, same]
        · exact fun _ => rfl)
  | .delta => Component.ofFlat FlowState.stackDelta 0 rfl
      (by
        intro u s t same
        refine lineTransfer_rel (R := fun s t : FlowState => s.stackDelta = t.stackDelta) ?_ same
        intro inst
        refine stackTransfer_rel (R := fun s t => s.stackDelta = t.stackDelta) inst ?_ ?_ same
        · exact fun delta same => congrArg (· + delta) same
        · exact id)

theorem flowComponents_bounded (part : FlowPart) (s : FlowState) :
    (flowComponents body part).height s ≤ 1 := by
  cases part <;>
  · simp only [flowComponents, Component.ofFlat]
    split
    · exact Nat.zero_le 1
    · exact Nat.le_refl 1

theorem eq_of_flowComponents (goodS : s.Good) (goodT : t.Good)
    (same : ∀ part, (flowComponents body part).same s t) : s = t := by
  have live : s.live = t.live := BitVec.eq_of_getLsbD_eq fun i lt => same (.register ⟨i, lt⟩)
  have flags : s.flagsLive = t.flagsLive := same .flags
  have delta : s.stackDelta = t.stackDelta := same .delta
  have residue : s.residue? = t.residue? := same .residue
  obtain ⟨validS, zeroS⟩ := goodS
  obtain ⟨validT, zeroT⟩ := goodT
  cases s
  cases t
  simp only [FlowState.residue?] at *
  subst live flags delta validS validT
  split at residue <;> split at residue <;> simp_all

end

/-! ## Rounds of the pass -/

theorem rounds_of_settles {α : Type} {round : α → α × Bool} {P : α → Prop}
    (keep : ∀ x, P x → P (round x).1) {count : Nat} {x : α} (holds : P x)
    (h : Settles round count x) :
    ∃ last, P last ∧ (round last).2 = false ∧ rounds round count x = (round last).1 := by
  induction count generalizing x with
  | zero => exact h.elim
  | succ count ih =>
    unfold rounds
    cases changed : (round x).2 with
    | false =>
      refine ⟨x, holds, changed, ?_⟩
      rw [show round x = ((round x).1, false) from Prod.ext rfl changed]
    | true =>
      rw [show round x = ((round x).1, true) from Prod.ext rfl changed]
      refine ih (keep x holds) (h.resolve_left fun settled => ?_)
      cases changed.symm.trans settled

section
variable {α S : Type} [DecidableEq S] {a : Analysis S} {o : Order a} {start : Table S}
  {states : α → Table S} {P : α → Prop} {step : α → α × Bool} {count : Nat} {x : α}
  (follows : ∀ {x}, P x → GoodTable a (states x) →
    P (step x).1 ∧ (step x).map states id = round a (states x))
include follows

theorem settles_of_follows (holds : P x) (good : GoodTable a (states x))
    (h : Settles (round a) count (states x)) : Settles step count x := by
  refine settles_of_simulation (P := fun x => P x ∧ GoodTable a (states x)) states ?_ ?_
    ⟨holds, good⟩ h
  · rintro x ⟨holds, good⟩
    obtain ⟨next, same⟩ := follows holds good
    refine ⟨next, ?_⟩
    rw [show states (step x).1 = _ from congrArg Prod.fst same]
    exact good_linesUpTo good _
  · rintro x ⟨holds, good⟩
    obtain ⟨-, same⟩ := follows holds good
    exact ⟨congrArg Prod.fst same, congrArg Prod.snd same⟩

theorem solution_of_follows (holds : P x) (sound : Sound a o start (states x))
    (h : Settles step count x) :
    P (rounds step count x) ∧ (step (rounds step count x)).2 = false ∧
      Solution a o start (states (rounds step count x)) := by
  obtain ⟨last, ⟨holds, sound⟩, settled, eq⟩ :=
    rounds_of_settles (P := fun x => P x ∧ Sound a o start (states x))
      (fun x h => by
        obtain ⟨next, same⟩ := follows h.1 h.2.good
        refine ⟨next, ?_⟩
        rw [show states (step x).1 = _ from congrArg Prod.fst same]
        exact h.2.round)
      ⟨holds, sound⟩ h
  obtain ⟨next, same⟩ := follows holds sound.good
  rw [eq]
  have still : (round a (states last)).2 = false := (congrArg Prod.snd same).symm.trans settled
  obtain ⟨unchanged, solution⟩ := sound.solution still
  have states_eq : states (step last).1 = states last := (congrArg Prod.fst same).trans unchanged
  refine ⟨next, ?_, states_eq ▸ solution⟩
  obtain ⟨-, same'⟩ := follows next (states_eq ▸ sound.good)
  rw [states_eq] at same'
  exact (congrArg Prod.snd same').trans still

end

def FlowTable.states (table : FlowTable) : Table FlowState :=
  fun v => table.entries[v]?.filter FlowState.valid

/-- What a run keeps of the columns of a table: a line is reached when a state has been counted
there, and its meet is the live set of its state. -/
structure FlowTable.Consistent (count : Nat) (table : FlowTable) : Prop where
  entries_length : table.entries.length = count
  meets_length : table.meets.length = count
  counts_length : table.counts.length = count
  counted : ∀ (v : Nat) (entry : FlowState) (n : Nat), table.entries[v]? = some entry →
    table.counts[v]? = some n →
    (n = 0 ↔ entry.valid = false)
  meet_eq : ∀ (v : Nat) (entry : FlowState) (meet : Mask), table.entries[v]? = some entry →
    table.meets[v]? = some meet →
    entry.valid = true → meet = entry.live

section
variable {body : List Instruction}

def FlowTable.store (table : FlowTable) (target : Nat) (state : FlowState) (meet : Mask)
    (count : Nat) : FlowTable where
  entries := table.entries.set target state
  meets := table.meets.set target meet
  counts := table.counts.set target count

variable {table : FlowTable} {target : Nat}

theorem states_store {state : FlowState} (meet : Mask) (count : Nat)
    (within : target < table.entries.length) (valid : state.valid = true) :
    (table.store target state meet count).states =
      Function.update table.states target (some state) := by
  funext v
  by_cases here : v = target
  · subst here
    simp [FlowTable.states, FlowTable.store, within, valid]
  · simp [FlowTable.states, FlowTable.store, getElem?_set_ne (Ne.symm here),
      Function.update_of_ne here]

theorem consistent_store (consistent : table.Consistent body.length) {state : FlowState}
    (within : target < body.length) (valid : state.valid = true) (count : Nat) :
    (table.store target state state.live (count + 1)).Consistent body.length := by
  obtain ⟨lengthE, lengthM, lengthC, counted, meetEq⟩ := consistent
  refine ⟨by simp [FlowTable.store, lengthE], by simp [FlowTable.store, lengthM],
    by simp [FlowTable.store, lengthC], ?_, ?_⟩
  · intro v entry n foundE foundN
    by_cases here : v = target
    · subst here
      simp only [FlowTable.store, getElem?_set, lengthE, lengthC, within, if_true] at foundE foundN
      obtain rfl := Option.some.inj foundE
      obtain rfl := Option.some.inj foundN
      simp [valid]
    · simp only [FlowTable.store, getElem?_set_ne (Ne.symm here)] at foundE foundN
      exact counted v entry n foundE foundN
  · intro v entry meet foundE foundM reached
    by_cases here : v = target
    · subst here
      simp only [FlowTable.store, getElem?_set, lengthE, lengthM, within, if_true] at foundE foundM
      obtain rfl := Option.some.inj foundE
      exact (Option.some.inj foundM).symm
    · simp only [FlowTable.store, getElem?_set_ne (Ne.symm here)] at foundE foundM
      exact meetEq v entry meet foundE foundM reached

theorem propagateFlow_arrive (consistent : table.Consistent body.length) {incoming : FlowState}
    (good : incoming.Good) (within : target < body.length) (flag : Bool) :
    (propagateFlow incoming table target).1.Consistent body.length ∧
      ((propagateFlow incoming table target).1.states,
          (propagateFlow incoming table target).2 || flag) =
        arrive (flowAnalysis body) incoming (table.states, flag) target := by
  have inEntries : target < table.entries.length := consistent.entries_length.symm ▸ within
  have entry := getElem?_eq_getElem inEntries
  have meet :=
    getElem?_eq_getElem (consistent.meets_length.symm ▸ within : target < table.meets.length)
  have number :=
    getElem?_eq_getElem (consistent.counts_length.symm ▸ within : target < table.counts.length)
  generalize table.entries[target] = current at entry
  generalize getElem table.meets target _ = oldMeet at meet
  generalize getElem table.counts target _ = count at number
  have unreached := consistent.counted target current count entry number
  cases valid : current.valid with
  | false =>
    obtain rfl : count = 0 := unreached.2 valid
    have fresh : table.states target = none := by simp [FlowTable.states, entry, valid]
    have stored : propagateFlow incoming table target =
        (table.store target incoming incoming.live (0 + 1), true) := by
      simp [propagateFlow, entry, meet, number, valid, FlowTable.store]
    rw [stored]
    refine ⟨consistent_store consistent within good.1 0, ?_⟩
    simp only [arrive, fresh, states_store _ _ inEntries good.1, Bool.true_or]
  | true =>
    have positive : count ≠ 0 := fun zero => by cases valid.symm.trans (unreached.1 zero)
    obtain rfl : oldMeet = current.live :=
      consistent.meet_eq target current oldMeet entry meet valid
    have old : table.states target = some current := by simp [FlowTable.states, entry, valid]
    have joinedValid : (current.join incoming).valid = true := valid
    -- A new meet is a new live set, so that the entry has changed as well.
    have changed : (current.live &&& incoming.live != current.live ||
        decide (current ≠ current.join incoming)) = decide (current ≠ current.join incoming) := by
      by_cases same : current = current.join incoming
      · have live : current.live = current.live &&& incoming.live := congrArg FlowState.live same
        simp [← live, ← same]
      · simp [same]
    have stored : propagateFlow incoming table target =
        (table.store target (current.join incoming) (current.join incoming).live (count + 1),
          decide (current ≠ current.join incoming)) := by
      have counts : (count != 0) = true := bne_iff_ne.2 positive
      rw [← changed]
      simp only [propagateFlow, entry, meet, number, valid, positive, if_false, if_true,
        Bool.not_true, Bool.false_or, counts, Bool.true_and]
      rfl
    rw [stored]
    refine ⟨consistent_store consistent within joinedValid count, ?_⟩
    simp only [arrive, old, states_store _ _ inEntries joinedValid]
    rfl

theorem flowLine_line (consistent : table.Consistent body.length)
    (good : GoodTable (flowAnalysis body) table.states) (flag : Bool) (u : Nat) :
    (flowLine body (table, flag) u).1.Consistent body.length ∧
      (flowLine body (table, flag) u).map FlowTable.states id =
        line (flowAnalysis body) (table.states, flag) u := by
  cases found : body[u]? with
  | none =>
    have out : body.length ≤ u := List.getElem?_eq_none_iff.1 found
    have unreached : table.states u = none := by
      have none : table.entries[u]? = none :=
        List.getElem?_eq_none_iff.2 (consistent.entries_length ▸ out)
      simp [FlowTable.states, none]
    simp only [flowLine, found, line, unreached]
    exact ⟨consistent, rfl⟩
  | some inst =>
    have within : u < body.length := (List.getElem?_eq_some_iff.1 found).1
    have entry := getElem?_eq_getElem
      (consistent.entries_length.symm ▸ within : u < table.entries.length)
    generalize getElem table.entries u _ = state at entry
    simp only [flowLine, found, entry]
    cases valid : state.valid with
    | false =>
      have unreached : table.states u = none := by simp [FlowTable.states, entry, valid]
      simp only [line, unreached, Bool.false_eq_true, if_false]
      exact ⟨consistent, rfl⟩
    | true =>
      have reached : table.states u = some state := by simp [FlowTable.states, entry, valid]
      have incoming : (flowAnalysis body).transfer u state = flowTransfer inst state := by
        simp only [flowAnalysis, lineTransfer, found]
      have goodIncoming := good_flowTransfer inst (good u state reached)
      simp only [line, reached, if_true, incoming]
      refine foldl_follows (P := FlowTable.Consistent body.length) ?_ consistent flag
      intro table consistent flag target mem
      exact propagateFlow_arrive consistent goodIncoming (successors_inside mem).2 flag

theorem flowRound_round (consistent : table.Consistent body.length)
    (good : GoodTable (flowAnalysis body) table.states) :
    (flowRound body table).1.Consistent body.length ∧
      (flowRound body table).map FlowTable.states id = round (flowAnalysis body) table.states :=
  linesUpTo_follows flowLine_line consistent good _

end

/-! ## Jumps back -/

section
variable {body : List Instruction}

theorem jump_of_back {v : Nat} (mem : v ∈ successors body u) (back : v ≤ u) :
    ∃ inst label, body[u]? = some inst ∧ jumpTarget body inst = some v ∧
      startsWith inst.op (ascii "j") = true ∧ body[v]? = some label ∧ label.op = ascii "label" := by
  obtain ⟨inst, found, next⟩ := mem_successors_iff.1 mem
  rcases next with jumps | ⟨-, falls, -⟩
  · obtain ⟨isJump, -, label, foundLabel, isLabel, -⟩ := jumpTarget_eq_some jumps
    exact ⟨inst, label, found, jumps, isJump, foundLabel, isLabel⟩
  · omega

/-- Each target of a jump back goes with a jump of its own, so that there are at most half as many
of them as there are lines; without the first line, if that is not one of them. -/
theorem two_mul_length_backTargets {S : Type} (a : Analysis S)
    (edges : a.successors = successors body) (first : Nat)
    (free : ∀ v ∈ backTargets a, first ≤ v) (within : first ≤ body.length) :
    2 * (backTargets a).length + first ≤ body.length := by
  have source : ∀ v ∈ backTargets a, ∃ u, v ≤ u ∧ v ∈ successors body u := by
    intro v mem
    simp only [backTargets, mem_filter, mem_range, any_eq_true, Bool.and_eq_true,
      decide_eq_true_iff] at mem
    obtain ⟨-, u, -, back, edge⟩ := mem
    exact ⟨u, back, edges ▸ edge⟩
  choose! jump back edge using source
  have nodup : (backTargets a).Nodup := (nodup_range).filter _
  have injective : ∀ v ∈ backTargets a, ∀ w ∈ backTargets a, jump v = jump w → v = w := by
    intro v memV w memW same
    obtain ⟨inst, -, found, target, -⟩ := jump_of_back (edge v memV) (back v memV)
    obtain ⟨inst', -, found', target', -⟩ := jump_of_back (edge w memW) (back w memW)
    rw [same, found'] at found
    obtain rfl := Option.some.inj found
    exact Option.some.inj (target.symm.trans target')
  have apart : ∀ v ∈ backTargets a, ∀ w ∈ (backTargets a).map jump, v ≠ w := by
    rintro v memV _ memJump rfl
    obtain ⟨w, memW, eq⟩ := mem_map.1 memJump
    obtain ⟨inst, -, foundJump, -, isJump, -, -⟩ := jump_of_back (edge w memW) (back w memW)
    obtain ⟨-, label, -, -, -, foundLabel, isLabel⟩ := jump_of_back (edge v memV) (back v memV)
    rw [eq, foundLabel] at foundJump
    obtain rfl := Option.some.inj foundJump
    rw [isLabel] at isJump
    exact absurd isJump (by decide)
  have all : (backTargets a ++ (backTargets a).map jump).Nodup :=
    nodup_append.2 ⟨nodup, nodup.map_on injective, apart⟩
  have sub : backTargets a ++ (backTargets a).map jump ⊆ List.range' first
    (body.length - first) := by
    intro v mem
    rw [mem_range'_1]
    rcases mem_append.1 mem with mem | mem
    · have inside := (successors_inside (edge v mem)).2
      have le := free v mem
      omega
    obtain ⟨w, memW, rfl⟩ := mem_map.1 mem
    have inside := (successors_inside (edge w memW)).1
    have le := free w memW
    have later := back w memW
    omega
  have count := (subperm_of_subset all sub).length_le
  simp only [length_append, length_map, length_range'] at count
  omega

end

/-! ## The fixed point -/

def startFlow (fn : Function) : FlowState :=
  { FlowState.unreached with live := initialLiveMask fn, valid := true }

/-- Only the first line is reached before the first round. -/
def startStates {S : Type} (state : S) : Table S := fun v => if v = 0 then some state else none

section
variable {fn : Function}

def FlowTable.blank (count : Nat) : FlowTable :=
  ⟨List.replicate count .unreached, List.replicate count 0, List.replicate count 0⟩

theorem initialFlow_eq (fn : Function) : initialFlow fn =
    (FlowTable.blank fn.instructions.length).store 0 (startFlow fn) (startFlow fn).live (0 + 1) :=
  rfl

theorem consistent_blank (count : Nat) : (FlowTable.blank count).Consistent count := by
  refine ⟨length_replicate, length_replicate, length_replicate, ?_, ?_⟩
  · intro v entry n foundE foundN
    obtain rfl := eq_of_mem_replicate (mem_of_getElem? foundE)
    obtain rfl := eq_of_mem_replicate (mem_of_getElem? foundN)
    exact ⟨fun _ => rfl, fun _ => rfl⟩
  · intro v entry meet foundE _ reached
    obtain rfl := eq_of_mem_replicate (mem_of_getElem? foundE)
    cases reached

theorem consistent_initialFlow (lines : fn.instructions ≠ []) :
    (initialFlow fn).Consistent fn.instructions.length := by
  rw [initialFlow_eq]
  exact consistent_store (consistent_blank _) (length_pos_iff.2 lines) rfl 0

theorem states_initialFlow (lines : fn.instructions ≠ []) :
    (initialFlow fn).states = startStates (startFlow fn) := by
  have within : 0 < (FlowTable.blank fn.instructions.length).entries.length := by
    simpa [FlowTable.blank] using length_pos_iff.2 lines
  rw [initialFlow_eq, states_store _ _ within rfl]
  funext v
  by_cases first : v = 0
  · subst first
    rw [Function.update_self]
    rfl
  rw [Function.update_of_ne first]
  cases found : (FlowTable.blank fn.instructions.length).entries[v]? with
  | none => simp [FlowTable.states, found, startStates, first]
  | some entry =>
    obtain rfl := eq_of_mem_replicate (mem_of_getElem? found)
    simp [FlowTable.states, found, startStates, first, FlowState.unreached]

theorem good_startStates {S : Type} {a : Analysis S} {state : S} (good : a.good state) :
    GoodTable a (startStates state) := by
  intro v s found
  simp only [startStates] at found
  split at found
  · exact Option.some.inj found ▸ good
  · cases found

theorem good_startFlow (fn : Function) : (startFlow fn).Good := ⟨rfl, fun h => by cases h⟩

theorem measure_startStates {S : Type} {a : Analysis S} {c : Component a} {state : S}
    (bounded : c.height state ≤ 1) :
    c.measure 1 (startStates state) + (if 0 ∈ backTargets a then 1 else 0) ≤
      2 * (backTargets a).length := by
  unfold Component.measure
  generalize (backTargets a) = targets
  induction targets with
  | nil => simp
  | cons v targets ih =>
    simp only [map_cons, sum_cons, length_cons, mem_cons]
    by_cases first : v = 0
    · subst first
      have here : c.left 1 (startStates state 0) ≤ 1 := bounded
      simp only [true_or, if_true]
      split at ih <;> omega
    · have here : c.left 1 (startStates state v) = 2 := by simp [startStates, first, Component.left]
      have same : (0 = v ∨ 0 ∈ targets) ↔ 0 ∈ targets := by simp [Ne.symm first]
      simp only [same]
      split at ih <;> simp_all <;> omega

theorem flow_settles (lines : fn.instructions ≠ []) :
    Settles (flowRound fn.instructions) (fn.instructions.length + 1) (initialFlow fn) := by
  have positive : 0 < fn.instructions.length := length_pos_iff.2 lines
  have good : GoodTable (flowAnalysis fn.instructions) (startStates (startFlow fn)) :=
    good_startStates (good_startFlow fn)
  refine settles_of_follows flowRound_round (consistent_initialFlow lines)
    (states_initialFlow lines ▸ good) ?_
  rw [states_initialFlow lines]
  have : Nonempty FlowPart := ⟨.flags⟩
  refine settles (eq_of_flowComponents _) (fun part s _ => flowComponents_bounded _ part s) good
    fun part => ?_
  have left := measure_startStates (c := flowComponents fn.instructions part)
    (flowComponents_bounded _ part (startFlow fn))
  by_cases zero : 0 ∈ backTargets (flowAnalysis fn.instructions)
  · have half := two_mul_length_backTargets (flowAnalysis fn.instructions) rfl 0
      (fun _ _ => Nat.zero_le _) (Nat.zero_le _)
    rw [if_pos zero] at left
    omega
  · have half := two_mul_length_backTargets (flowAnalysis fn.instructions) rfl 1
      (fun v mem => Nat.one_le_iff_ne_zero.2 fun h => zero (h ▸ mem)) positive
    rw [if_neg zero] at left
    omega

/-! ## The solution -/

def FlowState.le (s t : FlowState) : Prop :=
  (∀ bit, s.live.getLsbD bit = true → t.live.getLsbD bit = true) ∧
    (s.flagsLive = true → t.flagsLive = true) ∧
    ∀ residue, s.residue? = some residue → t.residue? = some residue

theorem residue?_join {residue : Int} :
    (s.join t).residue? = some residue ↔ s.residue? = some residue ∧ t.residue? = some residue := by
  rw [join_residue?]
  constructor
  · intro known
    split at known
    next same => exact ⟨known, same ▸ known⟩
    next => cases known
  · rintro ⟨left, right⟩
    rw [if_pos (left.trans right.symm), left]

theorem live_join {bit : Nat} : (s.join t).live.getLsbD bit = true ↔
    s.live.getLsbD bit = true ∧ t.live.getLsbD bit = true := by
  simp [FlowState.join, BitVec.getLsbD_and]

theorem flowTransfer_le (inst : Instruction) (h : s.le t) :
    (flowTransfer inst s).le (flowTransfer inst t) := by
  refine stackTransfer_rel inst ?_ ?_ ?_
  · rintro s t delta ⟨live, flags, residue⟩
    refine ⟨live, flags, fun value known => ?_⟩
    rw [moveStack_residue?, Option.map_eq_some_iff] at known ⊢
    obtain ⟨before, known, eq⟩ := known
    exact ⟨before, residue before known, eq⟩
  · rintro s t ⟨live, flags, -⟩
    exact ⟨live, flags, fun value known => by cases known⟩
  obtain ⟨live, flags, residue⟩ := h
  refine ⟨?_, ?_, residue⟩
  · intro bit
    simp only [registerTransfer]
    split
    · simp only [BitVec.getLsbD_and, BitVec.getLsbD_or, Bool.and_eq_true, Bool.or_eq_true]
      exact And.imp_left (Or.imp_left (live bit))
    · simp only [BitVec.getLsbD_or, Bool.or_eq_true]
      exact Or.imp_left (live bit)
  · simp only [registerTransfer]
    split
    · exact id
    split
    · exact id
    · split
      · exact id
      · exact flags

def flowOrder (body : List Instruction) : Order (flowAnalysis body) where
  le := FlowState.le
  refl s := ⟨fun _ => id, id, fun _ => id⟩
  trans := by
    rintro s t r ⟨live, flags, residue⟩ ⟨live', flags', residue'⟩
    exact ⟨fun bit => live' bit ∘ live bit, flags' ∘ flags,
      fun value known => residue' value (residue value known)⟩
  meet_left _ _ := ⟨fun _ h => (live_join.1 h).1, fun h => (Bool.and_eq_true_iff.1 h).1,
    fun _ h => (residue?_join.1 h).1⟩
  meet_right _ _ := ⟨fun _ h => (live_join.1 h).2, fun h => (Bool.and_eq_true_iff.1 h).2,
    fun _ h => (residue?_join.1 h).2⟩
  le_meet := by
    rintro s t r - - ⟨live, flags, residue⟩ ⟨live', flags', residue'⟩
    exact ⟨fun bit h => live_join.2 ⟨live bit h, live' bit h⟩,
      fun h => Bool.and_eq_true_iff.2 ⟨flags h, flags' h⟩,
      fun value known => residue?_join.2 ⟨residue value known, residue' value known⟩⟩
  transfer _ _ h := lineTransfer_rel (fun inst => flowTransfer_le inst h) h

theorem solution_of_unreached {S : Type} {a : Analysis S} {o : Order a} {start : Table S}
    (none : ∀ v, start v = none) : Solution a o start start where
  reached v := by simp [none]
  takes u s found := by cases (none u).symm.trans found
  le_edge u s found := by cases (none u).symm.trans found
  le_start v s found := by cases (none v).symm.trans found
  greatest v t found := by cases (none v).symm.trans found

theorem flow_solution (fn : Function) :
    Settles (flowRound fn.instructions) (fn.instructions.length + 1) (initialFlow fn) ∧
      (flowTable fn).Consistent fn.instructions.length ∧
      Solution (flowAnalysis fn.instructions) (flowOrder fn.instructions) (initialFlow fn).states
        (flowTable fn).states := by
  cases lines : fn.instructions with
  | nil =>
    have entries : (initialFlow fn).entries = [] := by simp [initialFlow, lines]
    have unreached : ∀ v, (initialFlow fn).states v = none := by
      simp [FlowTable.states, entries]
    have table : flowTable fn = initialFlow fn := by
      rw [flowTable, lines]
      rfl
    rw [table]
    refine ⟨Or.inl rfl, ?_, solution_of_unreached unreached⟩
    exact ⟨by simp [entries], by simp [initialFlow, lines], by simp [initialFlow, lines],
      by simp [entries], by simp [entries]⟩
  | cons first rest =>
    have some : fn.instructions ≠ [] := by simp [lines]
    rw [← lines]
    have good : GoodTable (flowAnalysis fn.instructions) (initialFlow fn).states := by
      rw [states_initialFlow some]
      exact good_startStates (good_startFlow fn)
    obtain ⟨consistent, -, solution⟩ := solution_of_follows flowRound_round
      (consistent_initialFlow some) (Sound.initial good) (flow_settles some)
    exact ⟨flow_settles some, consistent, solution⟩

end

end Elisa.Easm
