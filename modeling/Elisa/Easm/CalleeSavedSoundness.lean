import Elisa.Easm.CalleeSaved

/-!
# Callee-saved registers along executions

The scan for a callee-saved register keeps one slot of the stack that holds its entry value, forgets
it at labels, jumps, calls and writes to memory, and demands the entry value at every label, jump
and return.

Along an execution the slot is a place of the memory at a fixed distance from the stack pointer
(`Preserved`).  The scan gets two things wrong: it does not see that a push overlaps a part of the
saved slot, and it counts eight bytes for a push or a pop of two.  On an execution without either,
the register has its entry value at every return (`preserved_at_return`).
-/

namespace Elisa.Easm

open Machine List

/-! ## The scan before a line -/

def PreserveState.enter (state : PreserveState) (inst : Instruction) : PreserveState :=
  let state :=
    if inst.op = ascii "label" ∨ startsWith inst.op (ascii "j") then state.cut else state
  if startsWith inst.op (ascii "ret") then
    { state with controlFlowUnsafe := state.controlFlowUnsafe || state.dirty }
  else state

def preserveBefore (fn : Function) (register : Bytes) (index : Nat) : PreserveState :=
  (fn.instructions.take index).foldl (preserveStep register) initialPreserve

theorem preserveBefore_succ {fn : Function} {register : Bytes} {index : Nat} {inst : Instruction}
    (found : fn.instructions[index]? = some inst) :
    preserveBefore fn register (index + 1) =
      preserveStep register (preserveBefore fn register index) inst := by
  simp [preserveBefore, take_add_one, found]

section Before

variable {fn : Function} {scan : ScanState} {register : Bytes} {inst : Instruction}
  {state : PreserveState} {place : Int} {index : Nat}

theorem preserveStep_machine (machine : inst.pseudo = false) :
    preserveStep register state inst = preserveStack inst inst.source inst.destination
      (preserveEffect register inst inst.source inst.destination (state.enter inst)) := by
  rw [preserveStep, machine]
  rfl

theorem PreserveState.enter_keeps (state : PreserveState) (inst : Instruction) :
    (state.enter inst).stackDelta = state.stackDelta ∧
      (state.enter inst).stackKnown = state.stackKnown ∧
      (state.enter inst).dirty = state.dirty ∧ (state.enter inst).written = state.written := by
  unfold PreserveState.enter
  dsimp only
  split_ifs <;> exact ⟨rfl, rfl, rfl, rfl⟩

theorem PreserveState.enter_saved (h : (state.enter inst).saved = some place) :
    state.saved = some place ∧ inst.op ≠ ascii "label" ∧
      startsWith inst.op (ascii "j") = false := by
  unfold PreserveState.enter at h
  dsimp only at h
  by_cases cuts : inst.op = ascii "label" ∨ startsWith inst.op (ascii "j") = true
  · simp only [cuts, if_true] at h
    split at h <;> simp [PreserveState.cut] at h
  simp only [cuts, if_false] at h
  rw [not_or, Bool.not_eq_true] at cuts
  split at h
  · exact ⟨h, cuts⟩
  · exact ⟨h, cuts⟩

theorem PreserveState.enter_unsafe (leaves : startsWith inst.op (ascii "j") = true ∨
    startsWith inst.op (ascii "ret") = true) (dirty : state.dirty = true) :
    (state.enter inst).controlFlowUnsafe = true := by
  unfold PreserveState.enter
  dsimp only
  have cut : state.cut.dirty = true := dirty
  rcases leaves with jumps | returns
  · have noted : state.cut.controlFlowUnsafe = true := by simp [PreserveState.cut, dirty]
    simp only [jumps, or_true, if_true]
    split
    · simp [noted]
    · exact noted
  · simp only [returns, if_true]
    split
    · simp [cut]
    · simp [dirty]

theorem PreserveState.enter_mono (noted : state.controlFlowUnsafe = true) :
    (state.enter inst).controlFlowUnsafe = true := by
  unfold PreserveState.enter PreserveState.cut
  dsimp only
  split_ifs <;> simp [noted]

theorem preserveStep_mono (written : state.written = true)
    (noted : state.controlFlowUnsafe = true) :
    (preserveStep register state inst).written = true ∧
      (preserveStep register state inst).controlFlowUnsafe = true := by
  by_cases machine : inst.pseudo = false
  · rw [preserveStep_machine machine, preserveStack_keeps.2.2.1, preserveStack_keeps.2.2.2]
    have kept := (state.enter_keeps inst).2.2.2
    refine ⟨?_, PreserveState.enter_mono noted⟩
    simp [preserveEffect, kept, written]
  rw [Bool.not_eq_false] at machine
  rw [preserveStep, if_pos machine]
  split
  · simp [PreserveState.cut, written, noted]
  · exact ⟨written, noted⟩

theorem foldl_preserveStep_mono {body : List Instruction} (written : state.written = true)
    (noted : state.controlFlowUnsafe = true) :
    (body.foldl (preserveStep register) state).written = true ∧
      (body.foldl (preserveStep register) state).controlFlowUnsafe = true := by
  induction body generalizing state with
  | nil => exact ⟨written, noted⟩
  | cons inst rest ih =>
    have step := @preserveStep_mono register inst state written noted
    exact ih step.1 step.2

theorem clean_of_leaves (proven : preservationUnproven fn register = false)
    (found : fn.instructions[index]? = some inst) (machine : inst.pseudo = false)
    (leaves : startsWith inst.op (ascii "j") = true ∨ startsWith inst.op (ascii "ret") = true) :
    (preserveBefore fn register index).dirty = false := by
  rw [Bool.eq_false_iff]
  intro dirty
  have written : (preserveBefore fn register index).written = true := by
    simp only [PreserveState.dirty, Bool.and_eq_true] at dirty
    exact dirty.1
  have step : (preserveBefore fn register (index + 1)).written = true ∧
      (preserveBefore fn register (index + 1)).controlFlowUnsafe = true := by
    rw [preserveBefore_succ found, preserveStep_machine machine, preserveStack_keeps.2.2.1,
      preserveStack_keeps.2.2.2]
    have kept := ((preserveBefore fn register index).enter_keeps inst).2.2.2
    exact ⟨by simp [preserveEffect, kept, written], PreserveState.enter_unsafe leaves dirty⟩
  have whole : fn.instructions.foldl (preserveStep register) initialPreserve =
      (fn.instructions.drop (index + 1)).foldl (preserveStep register)
        (preserveBefore fn register (index + 1)) := by
    rw [preserveBefore, ← foldl_append, take_append_drop]
  obtain ⟨last, noted⟩ := @foldl_preserveStep_mono register _
    (fn.instructions.drop (index + 1)) step.1 step.2
  simp [preservationUnproven, whole, last, noted] at proven

end Before

/-! ## What the text says -/

/-- The slot that a line of the text saves a register to, if it does. -/
def savePlace (fn : Function) (register : Bytes) (index : Nat) : Option Int :=
  fn.instructions[index]?.bind fun inst =>
    if registerOperand inst.source != register then none
    else if startsWith inst.op (ascii "push") then some (textOffset fn.instructions index - 8)
    else if isMove inst.op then
      rspStackSlot inst.destination (textOffset fn.instructions index) true
    else none

/-- Lines behind which nothing is known of the stack: labels, jumps, calls and writes to memory
other than pushes. -/
def cutsSlots (inst : Instruction) : Bool :=
  inst.op == ascii "label" || startsWith inst.op (ascii "j") || isCall inst.op ||
    policyMemoryWrites inst.op inst.pseudo (memoryOperand inst.destination)
      (memoryOperand inst.source)

/-- A register is saved to a slot on the straight stretch of text before a line. -/
def SavedTo (fn : Function) (register : Bytes) (place : Int) (index : Nat) : Prop :=
  ∃ earlier < index, savePlace fn register earlier = some place ∧
    ∀ line inst, earlier < line → line < index → fn.instructions[line]? = some inst →
      cutsSlots inst = false

/-- Two slots of eight bytes are the same or have no byte in common. -/
def Disjoint (place other : Int) : Prop :=
  place = other ∨ 8 ≤ (place - other) % 2 ^ 64 ∧ (place - other) % 2 ^ 64 ≤ 2 ^ 64 - 8

/-- A line that pushes and pops eight bytes only, and that pushes over no part of a saved slot. -/
structure Regular (fn : Function) (register : Bytes) (index : Nat) (inst : Instruction) : Prop where
  wide : narrowEffect inst = 0
  apart : startsWith inst.op (ascii "push") = true → ∀ place, SavedTo fn register place index →
    Disjoint place (textOffset fn.instructions index - 8)

theorem pseudo_op {inst : Instruction} (parsed : inst.Parsed) (known : knownOp inst.op = true)
    (pseudo : inst.pseudo = true) :
    inst.op = ascii "label" ∨ inst.op = ascii "state" ∨ inst.op = ascii "compose" := by
  have named : (inst.op.head? == some 46) = false := by
    simpa using (effects_table known).2.2.2.2.2.2
  obtain ⟨text, line, rfl⟩ := parsed
  unfold parseInstruction at pseudo named ⊢
  dsimp only at pseudo named ⊢
  split
  next => exact .inl rfl
  rename_i label
  rw [if_neg label] at named
  split
  next => exact .inr (.inl rfl)
  rename_i state
  rw [if_neg state] at named
  split
  next => exact .inr (.inr rfl)
  next compose =>
    rw [if_neg compose] at named
    simp [label, state, compose, named] at pseudo

section Text

variable {fn : Function} {register : Bytes} {inst : Instruction} {place : Int} {index : Nat}

theorem preserveStep_pseudo {state : PreserveState} (parsed : inst.Parsed)
    (known : knownOp inst.op = true) (pseudo : inst.pseudo = true) :
    startsWith inst.op (ascii "j") = false ∧ countedEffect inst = 0 ∧
      (inst.op = ascii "label" ∧ preserveStep register state inst = state.cut ∨
        cutsSlots inst = false ∧ preserveStep register state inst = state) := by
  have step : preserveStep register state inst =
      if inst.op = ascii "label" then state.cut else state := by
    rw [preserveStep, if_pos pseudo]
  have reads : policyMemoryWrites inst.op inst.pseudo (memoryOperand inst.destination)
      (memoryOperand inst.source) = false := by
    rw [policyMemoryWrites, pseudo]
    rfl
  unfold countedEffect cutsSlots
  rw [step, reads]
  rcases pseudo_op parsed known pseudo with op | op | op
  all_goals
    rw [op]
    refine ⟨by decide, ?_⟩
  · exact ⟨by simp [show stackOp (ascii "label") = .other by decide], .inl ⟨rfl, rfl⟩⟩
  · exact ⟨by simp [show stackOp (ascii "state") = .other by decide], .inr ⟨by decide, rfl⟩⟩
  · exact ⟨by simp [show stackOp (ascii "compose") = .other by decide], .inr ⟨by decide, rfl⟩⟩

theorem preserveBefore_text (parsed : fn.Parsed)
    (clean : (verifyFunctionInstructions fn).issues = []) (within : index ≤ fn.instructions.length)
    (known : (preserveBefore fn register index).stackKnown = true) :
    (preserveBefore fn register index).stackDelta = textOffset fn.instructions index ∧
      ∀ place, (preserveBefore fn register index).saved = some place →
        SavedTo fn register place index := by
  induction index with
  | zero => exact ⟨rfl, by simp [preserveBefore, initialPreserve]⟩
  | succ index ih =>
    obtain ⟨inst, found⟩ : ∃ inst, fn.instructions[index]? = some inst :=
      ⟨_, getElem?_eq_getElem within⟩
    have line := lineClean clean found
    have wellFormed := parsed.instructions inst (mem_of_getElem? found)
    rw [textOffset_succ found]
    rw [preserveBefore_succ found] at known ⊢
    -- a slot saved before this line is still one behind it, unless the line cuts
    have extend {place : Int} (saved : SavedTo fn register place index)
        (keeps : cutsSlots inst = false) : SavedTo fn register place (index + 1) := by
      obtain ⟨earlier, before, here, between⟩ := saved
      refine ⟨earlier, by omega, here, fun other line after upTo foundLine => ?_⟩
      rcases Nat.lt_succ_iff_lt_or_eq.1 upTo with less | rfl
      · exact between other line after less foundLine
      · rw [found, Option.some.injEq] at foundLine
        exact foundLine ▸ keeps
    by_cases machine : inst.pseudo = false
    · rw [preserveStep_machine machine] at known ⊢
      obtain ⟨before, -, moved⟩ := preserveStack_moves line known
      have entered := (preserveBefore fn register index).enter_keeps inst
      have delta : (preserveEffect register inst inst.source inst.destination
          ((preserveBefore fn register index).enter inst)).stackDelta =
          (preserveBefore fn register index).stackDelta := entered.1
      have stackKnown : (preserveBefore fn register index).stackKnown = true :=
        entered.2.1 ▸ before
      obtain ⟨offset, slots⟩ := ih (by omega) stackKnown
      refine ⟨by rw [moved, delta, offset], fun place saved => ?_⟩
      rw [preserveStack_keeps.1] at saved
      have here (own : registerOperand inst.source = register) (value :
          savePlace fn register index = some place) : SavedTo fn register place (index + 1) :=
        ⟨index, by omega, value, fun other _ after upTo _ => by omega⟩
      cases savedBy saved with
      | push isPush own _ slot _ =>
        refine here own ?_
        rw [entered.1, offset] at slot
        simp [savePlace, found, own, isPush, i64SubChecked_eq slot]
      | move isMove own slot _ =>
        refine here own ?_
        rw [entered.1, entered.2.1, offset, stackKnown] at slot
        have noPush : startsWith inst.op (ascii "push") = false := by
          rw [startsWith_push line.knownOp, (stackOp_of_move isMove).1]
          rfl
        simp [savePlace, found, own, noPush, isMove, slot]
      | kept saved reads noCall _ =>
        obtain ⟨saved, label, jumps⟩ := PreserveState.enter_saved saved
        exact extend (slots place saved) (by simp [cutsSlots, label, jumps, noCall, reads])
    · rw [Bool.not_eq_false] at machine
      obtain ⟨-, counted, ⟨-, step⟩ | ⟨keeps, step⟩⟩ :=
        @preserveStep_pseudo register inst (preserveBefore fn register index) wellFormed
          line.knownOp machine
      all_goals
        rw [step] at known ⊢
        rw [counted, add_zero]
      · exact ⟨(ih (by omega) known).1, by simp [PreserveState.cut]⟩
      · obtain ⟨offset, slots⟩ := ih (by omega) known
        exact ⟨offset, fun place saved => extend (slots place saved) keeps⟩

end Text

/-! ## Runs -/

/-- A register of 64 bits that calls keep, other than the stack pointer. -/
structure KeptRegister (register : Bytes) (slot : Nat) : Prop where
  found : registerSlot register = some slot
  wide : addressRegisterWidth register = .width64
  kept : slot ∈ keptByCalls
  notStack : slot ≠ rspSlot

theorem exists_keptRegister {name : String} (mem : name ∈ calleeSavedRegisters) :
    ∃ slot, KeptRegister (ascii name) slot := by
  have all : ∀ name ∈ calleeSavedRegisters, (registerSlot (ascii name)).any (fun slot =>
      decide (addressRegisterWidth (ascii name) = .width64 ∧ slot ∈ keptByCalls ∧
        slot ≠ rspSlot)) = true := by decide +kernel
  obtain ⟨slot, found, fits⟩ := (Option.any_eq_true _ _).1 (all name mem)
  obtain ⟨wide, kept, notStack⟩ := decide_eq_true_iff.1 fits
  exact ⟨slot, found, wide, kept, notStack⟩

/-- The machine agrees with the scan: a register that is not dirty has its entry value, and so
has the saved slot.  At a label nothing is known of the slot. -/
structure Preserved (fn : Function) (register : Bytes) (slot : Nat) (entry : BitVec 64)
    (index : Nat) (s : Machine) : Prop where
  clean : (preserveBefore fn register index).dirty = false → s.register slot = entry
  saved : ∀ inst place, fn.instructions[index]? = some inst → inst.op ≠ ascii "label" →
    (preserveBefore fn register index).stackKnown = true →
    (preserveBefore fn register index).saved = some place →
    s.memory.load (s.sp + BitVec.ofInt 64
      (place - (preserveBefore fn register index).stackDelta)) = entry

section Runs

variable {fn : Function} {register : Bytes} {inst : Instruction} {index slot : Nat}
  {entry : BitVec 64} {oracle s : Machine} {scan : ScanState}

/-- What a state of the scan says of a machine behind the lines that it covers. -/
structure PreserveState.Agrees (state : PreserveState) (slot : Nat) (entry : BitVec 64)
    (s : Machine) : Prop where
  clean : state.dirty = false → s.register slot = entry
  saved : ∀ place, state.stackKnown = true → state.saved = some place →
    s.memory.load (s.sp + BitVec.ofInt 64 (place - state.stackDelta)) = entry

theorem KeptRegister.named_ne {operand : Bytes} (named : KeptRegister register slot)
    (own : registerOperand operand = register) : registerOperand operand ≠ [] := by
  intro empty
  have found := named.found
  rw [← own, empty, registerSlot_nil] at found
  simp at found

section Line

variable {state : PreserveState} {place : Int}

/-- A register is restored from a known stack, by a line that is no push and, if it is a move, has
an address for its source. -/
theorem restoreSlot_eq_some
    (restored : restoreSlot register inst inst.source inst.destination state = some place) :
    stackOp inst.op ≠ .push ∧ state.stackKnown = true ∧
      (isMove inst.op = true → memoryDisplacementChecked inst.source ≠ none ∧
        memoryBaseRegister inst.source = ascii "rsp") := by
  unfold restoreSlot at restored
  split at restored
  next pop =>
    rw [Bool.and_eq_true] at pop
    have kind := stackOp_of_pop pop.1
    refine ⟨by simp [kind], by by_contra unknown; simp [unknown] at restored, fun move => ?_⟩
    rw [(stackOp_of_move move).1] at kind
    simp at kind
  split at restored
  next move =>
    rw [Bool.and_eq_true] at move
    obtain ⟨known, -, base, -, displacement, number, -⟩ := rspStackSlot_eq_some restored
    exact ⟨by simp [(stackOp_of_move move.1).1], known, fun _ => ⟨by simp [number], base⟩⟩
  next => simp at restored

variable (line : LineClean fn scan inst) (machine : inst.pseudo = false)
  (named : KeptRegister register slot) (agrees : state.Agrees slot entry s)
include line machine named agrees

/-- A register that is clean behind a line has its entry value there. -/
theorem register_preserved
    (clean : (preserveEffect register inst inst.source inst.destination state).dirty = false) :
    (execute oracle inst s).register slot = entry := by
  rcases clean_cases clean with ⟨before, elsewhere⟩ | ⟨place, restored, slotSaved⟩
  · rw [register_frame line.knownOp machine named.found named.kept named.notStack elsewhere]
    exact agrees.clean before
  rw [register_of_restoreSlot machine named.found named.wide restored]
  obtain ⟨noPush, known, moved⟩ := restoreSlot_eq_some restored
  cases savedBy slotSaved with
  | push isPush own _ _ _ =>
    rw [startsWith_push line.knownOp, decide_eq_true_iff] at isPush
    exact absurd isPush noPush
  | move isMove own slotOf _ =>
    -- the source would be the register and an address of the stack
    exfalso
    obtain ⟨displacement, base⟩ := moved isMove
    by_cases opened : find inst.source (ascii "(") < inst.source.length
    · exact displacement (displacement_eq_none (named.named_ne own) opened)
    unfold memoryBaseRegister at base
    dsimp only at base
    rw [if_pos (not_lt.1 opened)] at base
    exact absurd base (by decide)
  | kept before _ _ _ => exact agrees.saved place known before

/-- The saved slot has the entry value behind a line: it is written then, or no byte of it is. -/
theorem slot_preserved (wide : narrowEffect inst = 0)
    (apart : startsWith inst.op (ascii "push") = true → state.stackKnown = true →
      ∀ place, state.saved = some place → Disjoint place (state.stackDelta - 8))
    (known : state.stackKnown = true)
    (slotSaved : (preserveEffect register inst inst.source inst.destination state).saved =
      some place) : (execute oracle inst s).memory.load
        (s.sp + BitVec.ofInt 64 (place - state.stackDelta)) = entry := by
  cases savedBy slotSaved with
  | push isPush own _ slotOf unwritten =>
    rw [startsWith_push line.knownOp, decide_eq_true_iff] at isPush
    have below : place - state.stackDelta = -8 := by
      rw [i64SubChecked_eq slotOf]
      ring
    rw [memory_of_push machine isPush wide, value_of_named own named.found named.wide, below,
      Option.getD_some, Lib.Memory.load_store]
    exact agrees.clean unwritten
  | move isMove own slotOf unwritten =>
    rw [memory_of_move machine isMove own named.found named.wide slotOf, Lib.Memory.load_store]
    exact agrees.clean unwritten
  | kept slotBefore reads noCall differs =>
    by_cases push : stackOp inst.op = .push
    · have isPush : startsWith inst.op (ascii "push") = true := by
        rw [startsWith_push line.knownOp, push]
        rfl
      obtain ⟨-, other, slotOf, other_ne⟩ := differs isPush
      rw [memory_of_push machine push wide]
      have far := (apart isPush known place slotBefore).resolve_left (by
        rintro rfl
        exact other_ne (i64SubChecked_eq slotOf))
      have distance : (s.sp + BitVec.ofInt 64 (place - state.stackDelta) -
          (s.sp + BitVec.ofInt 64 (-8))).toNat =
            ((place - (state.stackDelta - 8)) % 2 ^ 64).toNat := by
        have difference : s.sp + BitVec.ofInt 64 (place - state.stackDelta) -
            (s.sp + BitVec.ofInt 64 (-8)) =
              BitVec.ofInt 64 (place - (state.stackDelta - 8)) := by
          have split : place - (state.stackDelta - 8) =
              place - state.stackDelta + 8 := by ring
          rw [split, BitVec.ofInt_add]
          generalize BitVec.ofInt 64 (place - state.stackDelta) = offset
          have eight : BitVec.ofInt 64 8 = 8#64 := rfl
          have minus : BitVec.ofInt 64 (-8) = -8#64 := rfl
          rw [eight, minus]
          bv_omega
        rw [difference, BitVec.toNat_ofInt]
        rfl
      rw [Lib.Memory.load_store_apart (by omega) (by omega)]
      exact agrees.saved place known slotBefore
    · rw [memory_frame line.knownOp machine push noCall reads]
      exact agrees.saved place known slotBefore

theorem preserved_machine (wide : narrowEffect inst = 0)
    (apart : startsWith inst.op (ascii "push") = true → state.stackKnown = true →
      ∀ place, state.saved = some place → Disjoint place (state.stackDelta - 8)) :
    (preserveStack inst inst.source inst.destination (preserveEffect register inst inst.source
      inst.destination state)).Agrees slot entry (execute oracle inst s) where
  clean unwritten := by
    rw [preserveStack_keeps.2.1] at unwritten
    exact register_preserved line machine named agrees unwritten
  saved place known slotSaved := by
    obtain ⟨before, effect, moved⟩ := preserveStack_moves line known
    change _ = state.stackDelta + countedEffect inst at moved
    rw [wide, add_zero] at effect
    rw [preserveStack_keeps.1] at slotSaved
    -- the place of the slot in the memory stays the same
    have place_eq : (execute oracle inst s).sp + BitVec.ofInt 64 (place - (preserveStack inst
        inst.source inst.destination (preserveEffect register inst inst.source inst.destination
          state)).stackDelta) = s.sp + BitVec.ofInt 64 (place - state.stackDelta) := by
      rw [sp_execute line.knownOp machine effect, moved, BitVec.add_assoc, ← BitVec.ofInt_add]
      congr 2
      ring
    rw [place_eq]
    exact slot_preserved line machine named agrees wide apart before slotSaved

end Line

theorem register_of_jump (known : knownOp inst.op = true) (machine : inst.pseudo = false)
    (jumps : startsWith inst.op (ascii "j") = true) :
    (execute oracle inst s).register slot = s.register slot := by
  obtain ⟨kind, call, keeps, implicit⟩ := (effects_table known).2.2.2.2.2.1 jumps
  have fixed : adjustment inst = none := by
    rw [adjustment, kind]
    split <;> rfl
  have nothing : setBit 0#64 (slotBit slot) = false := by simp [setBit]
  rw [execute_register machine]
  simp [registerAfter, kind, plainRegister, call, fixed, changesRegister, keeps,
    implicit, nothing]

section Steps

variable (parsed : fn.Parsed) (clean : (verifyFunctionInstructions fn).issues = [])
include parsed clean

theorem Preserved.step {next : Nat} (proven : preservationUnproven fn register = false)
    (named : KeptRegister register slot) (agrees : Preserved fn register slot entry index s)
    (found : fn.instructions[index]? = some inst) (regular : Regular fn register index inst)
    (follows : next ∈ successors fn.instructions index) :
    Preserved fn register slot entry next (execute oracle inst s) := by
  have line := lineClean clean found
  have within := (List.getElem?_eq_some_iff.1 found).1
  have wellFormed := parsed.instructions inst (mem_of_getElem? found)
  obtain ⟨other, same, follows⟩ := mem_successors_iff.1 follows
  obtain rfl : inst = other := Option.some.inj (found.symm.trans same)
  by_cases machine : inst.pseudo = false
  · have entered := (preserveBefore fn register index).enter_keeps inst
    rcases follows with target | ⟨-, rfl, -⟩
    · -- a jump: the scan has checked that the register is clean here
      obtain ⟨jumps, -, label, there, isLabel, -⟩ := jumpTarget_eq_some target
      refine ⟨fun _ => ?_, fun other place here notLabel => ?_⟩
      · rw [register_of_jump line.knownOp machine jumps]
        exact agrees.clean (clean_of_leaves proven found machine (.inl jumps))
      · obtain rfl : label = other := Option.some.inj (there.symm.trans here)
        exact absurd isLabel notLabel
    · have before : ((preserveBefore fn register index).enter inst).Agrees slot entry s := by
        refine ⟨by rw [entered.2.2.1]; exact agrees.clean, fun place known saved => ?_⟩
        obtain ⟨saved, label, -⟩ := PreserveState.enter_saved saved
        rw [entered.2.1] at known
        rw [entered.1]
        exact agrees.saved inst place found label known saved
      have moved := @preserved_machine fn register inst slot entry oracle s _ _ line machine named
        before regular.wide fun isPush known place saved => by
          rw [entered.2.1] at known
          have text := preserveBefore_text parsed clean within.le known
          rw [entered.1, text.1]
          exact regular.apart isPush place (text.2 place (PreserveState.enter_saved saved).1)
      rw [← preserveStep_machine machine, ← preserveBefore_succ found] at moved
      exact ⟨moved.clean, fun _ place _ _ => moved.saved place⟩
  · rw [Bool.not_eq_false] at machine
    have stays : execute oracle inst s = s := by rw [execute, if_pos machine]
    obtain ⟨noJump, -, step⟩ := @preserveStep_pseudo register inst
      (preserveBefore fn register index) wellFormed line.knownOp machine
    rcases follows with target | ⟨-, rfl, -⟩
    · have jumps := (jumpTarget_eq_some target).1
      simp [noJump] at jumps
    rw [← preserveBefore_succ found] at step
    rcases step with ⟨-, step⟩ | ⟨keeps, step⟩
    · refine ⟨?_, ?_⟩
      · rw [step, stays]
        exact agrees.clean
      · rw [step]
        simp [PreserveState.cut]
    · have notLabel : inst.op ≠ ascii "label" := by
        intro label
        simp [cutsSlots, label] at keeps
      refine ⟨?_, fun _ place _ _ => ?_⟩
      · rw [step, stays]
        exact agrees.clean
      · rw [step, stays]
        exact agrees.saved inst place found notLabel

theorem Executes.preserved {executed : List Nat} (proven : preservationUnproven fn register = false)
    (named : KeptRegister register slot) {start : Machine}
    (run : Executes fn.instructions start executed index s)
    (regular : ∀ line ∈ executed, ∀ inst, fn.instructions[line]? = some inst → Regular fn register
      line inst) : Preserved fn register slot (start.register slot) index s := by
  induction run with
  | entry => exact ⟨fun _ => rfl, by simp [preserveBefore, initialPreserve]⟩
  | step oracle run found follows ih =>
    have before := ih fun line mem => regular line (mem_append_left _ mem)
    have here := regular _ (mem_append_right _ (mem_singleton_self _)) _ found
    exact before.step parsed clean proven named found here follows

end Steps

/-- An execution of a function without issues to a return, whose pushes and pops move eight bytes
and whose pushes overlap no saved slot in part, comes there with the value that the register had at
the entry. -/
theorem preserved_at_return {executed : List Nat} {start : Machine} {name : String}
    (parsed : fn.Parsed) (clean : (verifyFunctionInstructions fn).issues = [])
    (verdict : ∀ issue ∈ verifyCalleeSavedPreservation fn,
      issue.code ≠ "callee-saved-preservation-unproven")
    (mem : name ∈ calleeSavedRegisters) (preserves : preservesClobbered fn (ascii name) = true)
    (named : registerSlot (ascii name) = some slot)
    (run : Executes fn.instructions start executed index s)
    (last : fn.instructions[index]? = some inst) (returns : startsWith inst.op (ascii "ret") = true)
    (regular : ∀ line ∈ executed, ∀ inst, fn.instructions[line]? = some inst →
      Regular fn (ascii name) line inst) :
    s.register slot = start.register slot := by
  have proven : preservationUnproven fn (ascii name) = false := by
    rw [Bool.eq_false_iff]
    intro unproven
    refine verdict (errorIssue "callee-saved-preservation-unproven" fn.line
      ("callee-saved register is clobbered but no save-before-write and restore-after-write " ++
        "proof was found")) ?_ rfl
    refine mem_flatMap.2 ⟨name, mem, mem_append_right _ ?_⟩
    simp [issueIf, preserves, unproven]
  obtain ⟨other, kept⟩ := exists_keptRegister mem
  obtain rfl : slot = other := Option.some.inj (named.symm.trans kept.found)
  have machine : inst.pseudo = false := by
    rw [Bool.eq_false_iff]
    intro pseudo
    have op := pseudo_op (parsed.instructions inst (mem_of_getElem? last))
      (lineClean clean last).knownOp pseudo
    revert returns
    rcases op with op | op | op <;> rw [op] <;> decide
  exact (run.preserved parsed clean proven kept regular).clean
    (clean_of_leaves proven last machine (.inr returns))

end Runs

/-! ## Executions of listed lines -/

def Machine.executeLines (oracle : Machine) (body : List Instruction) (lines : List Nat)
    (s : Machine) : Machine :=
  lines.foldl (fun s line => (body[line]?.map fun inst => execute oracle inst s).getD s) s

theorem Executes.walk {body : List Instruction} {oracle start s : Machine}
    {executed rest : List Nat}
    {index next : Nat} (run : Executes body start executed index s)
    (walk : isWalk body (index :: rest ++ [next]) = true) :
    Executes body start (executed ++ index :: rest) next
      (executeLines oracle body (index :: rest) s) := by
  have step {after : Nat} (follows : after ∈ successors body index) :
      Executes body start (executed ++ [index]) after
        (executeLines oracle body [index] s) := by
    obtain ⟨inst, found, -⟩ := mem_successors_iff.1 follows
    have once := Executes.step oracle run found follows
    simpa [executeLines, found] using once
  induction rest generalizing executed index s with
  | nil =>
    simp only [singleton_append, isWalk, Bool.and_true, contains_iff_mem] at walk
    exact step walk
  | cons second rest ih =>
    simp only [cons_append, isWalk, Bool.and_eq_true, contains_iff_mem] at walk
    have longer := ih (step walk.1) walk.2 fun {after} follows => by
      obtain ⟨inst, found, -⟩ := mem_successors_iff.1 follows
      have once := Executes.step oracle (step walk.1) found follows
      simpa [executeLines, found] using once
    rwa [append_assoc] at longer

/-! ## Two sources -/

def Machine.filled (value : BitVec 64) : Machine :=
  { register := fun _ => value, memory := fun _ => 0 }

theorem regular_of_first {fn : Function} {register : Bytes} {inst : Instruction} {index : Nat}
    (wide : narrowEffect inst = 0)
    (first : startsWith inst.op (ascii "push") = false ∨ index = 0) :
    Regular fn register index inst := by
  refine ⟨wide, ?_⟩
  rcases first with noPush | rfl
  · simp [noPush]
  · rintro - place ⟨earlier, before, -⟩
    omega

/-- A save by a push, and a restore by a pop. -/
def savedSource : Bytes := ascii
  "export def f() -> void
  clobbers:
    rbx
  preserves:
    rbx
  body:
    push %rbx
    mov $1, %rbx
    pop %rbx
    ret
"

set_option maxRecDepth 10000 in
theorem savedSource_preserved : ∃ m fn inst s, parseModule savedSource [] = some m ∧
    fn ∈ m.functions ∧ (verifyFunctionInstructions fn).issues = [] ∧
      preservesClobbered fn (ascii "rbx") = true ∧
      Executes fn.instructions (.filled 5) [0, 1, 2] 3 s ∧ fn.instructions[3]? = some inst ∧
        startsWith inst.op (ascii "ret") = true ∧ s.register 3 = 5 := by
  have checked : ((parseModule savedSource []).any fun m => m.functions.any fun fn =>
      (verifyFunctionInstructions fn).issues.isEmpty &&
        (verifyCalleeSavedPreservation fn).isEmpty && preservesClobbered fn (ascii "rbx") &&
        isWalk fn.instructions [0, 1, 2, 3] &&
        (fn.instructions[3]?.any fun inst => startsWith inst.op (ascii "ret")) &&
        ([0, 1, 2].all fun line => fn.instructions[line]?.all fun inst =>
          decide (narrowEffect inst = 0) &&
            decide (startsWith inst.op (ascii "push") = false ∨ line = 0))) = true := by
    rw [show savedSource = _ from ascii_ofList _]
    decide +kernel
  obtain ⟨m, parsed, found⟩ := (Option.any_eq_true _ _).1 checked
  obtain ⟨fn, mem, found⟩ := List.any_eq_true.1 found
  simp only [Bool.and_eq_true, List.isEmpty_iff, Option.any_eq_true] at found
  obtain ⟨⟨⟨⟨⟨scan, verdict⟩, preserves⟩, walk⟩, inst, last, returns⟩, plain⟩ := found
  have run : Executes fn.instructions (.filled 5) [0, 1, 2] 3
      (executeLines (.filled 0) fn.instructions [0, 1, 2] (.filled 5)) :=
    Executes.entry.walk walk
  refine ⟨m, fn, inst, _, parsed, mem, scan, preserves, run, last, returns, ?_⟩
  refine preserved_at_return (parseModule_parsed parsed fn mem) scan (by simp [verdict])
    (by decide : "rbx" ∈ calleeSavedRegisters) preserves (by decide) run last returns ?_
  intro line inside inst found
  have regular := all_eq_true.1 plain line inside
  rw [found, Option.all_some, Bool.and_eq_true, decide_eq_true_iff, decide_eq_true_iff] at regular
  exact regular_of_first regular.1 regular.2

/-- A save below the stack pointer, half of which a push writes over. -/
def overlappedSource : Bytes := ascii
  "export def f() -> void
  clobbers:
    rax
    rbx
    memory
  preserves:
    rbx
  body:
    mov $0, %rax
    mov %rbx, -12(%rsp)
    push %rax
    mov $1, %rbx
    mov -4(%rsp), %rbx
    pop %rax
    ret
"

set_option maxRecDepth 10000 in
theorem overlappedSource_lost : ∃ m fn inst s, parseModule overlappedSource [] = some m ∧
    m.issues = [] ∧ fn ∈ m.functions ∧ (verifyFunctionInstructions fn).issues = [] ∧
      verifyCalleeSavedPreservation fn = [] ∧ preservesClobbered fn (ascii "rbx") = true ∧
      Executes fn.instructions (.filled (-1)) [0, 1, 2, 3, 4, 5] 6 s ∧
        fn.instructions[6]? = some inst ∧ startsWith inst.op (ascii "ret") = true ∧
          registerSlot (ascii "rbx") = some 3 ∧
            s.register 3 ≠ (filled (-1)).register 3 := by
  have checked : ((parseModule overlappedSource []).any fun m => m.issues.isEmpty &&
      m.functions.any fun fn => (verifyFunctionInstructions fn).issues.isEmpty &&
        (verifyCalleeSavedPreservation fn).isEmpty && preservesClobbered fn (ascii "rbx") &&
        isWalk fn.instructions [0, 1, 2, 3, 4, 5, 6] &&
        (fn.instructions[6]?.any fun inst => startsWith inst.op (ascii "ret")) &&
        decide ((executeLines (.filled 0) fn.instructions [0, 1, 2, 3, 4, 5]
          (.filled (-1))).register 3 ≠ -1)) = true := by
    rw [show overlappedSource = _ from ascii_ofList _]
    decide +kernel
  obtain ⟨m, fn, parsed, none, mem, found⟩ := exists_function checked
  simp only [Bool.and_eq_true, List.isEmpty_iff, Option.any_eq_true, decide_eq_true_iff] at found
  obtain ⟨⟨⟨⟨⟨scan, verdict⟩, preserves⟩, walk⟩, inst, last, returns⟩, lost⟩ := found
  have run : Executes fn.instructions (.filled (-1)) [0, 1, 2, 3, 4, 5] 6
      (executeLines (.filled 0) fn.instructions [0, 1, 2, 3, 4, 5] (.filled (-1))) :=
    Executes.entry.walk walk
  exact ⟨m, fn, inst, _, parsed, List.isEmpty_iff.1 none, mem, scan, verdict,
    preserves, run, last, returns,
    by decide, lost⟩

end Elisa.Easm
