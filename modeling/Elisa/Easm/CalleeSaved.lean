import Elisa.Easm.Machine
import Elisa.Easm.ParseInvariant
import Elisa.Easm.ProvenanceSoundness

/-!
# Callee-saved registers in the scan and in the machine

One line of the scan for a callee-saved register, and one instruction of the machine, side by side.
What the scan takes to save a register stores it at a place that the stack offset gives, what it
takes to restore it loads it from there, and what it takes to write neither register nor memory does
not.
-/

namespace Elisa.Easm

open Machine

/-! ## Checked offsets -/

theorem i64AddChecked_eq {left right value : Int} (h : i64AddChecked left right = some value) :
    value = left + right := by
  unfold i64AddChecked at h
  split at h
  · simp at h
  · exact (Option.some.inj h).symm

theorem i64SubChecked_eq {left right value : Int} (h : i64SubChecked left right = some value) :
    value = left - right := by
  unfold i64SubChecked at h
  split at h
  · simp at h
  · exact (Option.some.inj h).symm

/-! ## Operations -/

section Known

variable {op : Bytes}

/-- What can be read off the table: where the words of the scan and of the machine agree. -/
theorem effects_table (known : knownOp op = true) :
    (writesNoRegister op = true → keepsOperands op = true ∨ stackOp op = .push) ∧
    (stackOp op ≠ .push → keepsOperands op = false →
      oneOf op ["fldcw", "ldmxcsr", "lea", "leaq"] = false →
        destinationWritesMemory op = true ∧ oneOf op ["lea", "leaq"] = false) ∧
    (exchangesMemoryOperand op = true → oneOf op ["lea", "leaq"] = false) ∧
    (stackOp op = .other ∨
      isCall op = false ∧ implicitWriteMask op = 0 ∧ startsWith op (ascii "xchg") = false) ∧
    (stackOp op = .pop → writesNoRegister op = false) ∧
    (startsWith op (ascii "j") = true → stackOp op = .other ∧ isCall op = false ∧
      keepsOperands op = true ∧ implicitWriteMask op = 0) ∧
    op.head? ≠ some 46 := by
  obtain ⟨word, listed, rfl⟩ := mem_operationTable known
  clear known
  revert word
  decide +kernel

theorem keepsOperands_of_writesNoRegister (known : knownOp op = true)
    (writes : writesNoRegister op = true) : keepsOperands op = true ∨ stackOp op = .push :=
  (effects_table known).1 writes

theorem destinationWritesMemory_of_changes (known : knownOp op = true)
    (push : stackOp op ≠ .push) (keeps : keepsOperands op = false)
    (reads : oneOf op ["fldcw", "ldmxcsr", "lea", "leaq"] = false) :
    destinationWritesMemory op = true ∧ oneOf op ["lea", "leaq"] = false :=
  (effects_table known).2.1 push keeps reads

theorem exchange_not_lea (known : knownOp op = true)
    (exchanges : exchangesMemoryOperand op = true) :
    oneOf op ["lea", "leaq"] = false :=
  (effects_table known).2.2.1 exchanges

theorem stackOp_plain (known : knownOp op = true) : stackOp op = .other ∨
    isCall op = false ∧ implicitWriteMask op = 0 ∧ startsWith op (ascii "xchg") = false :=
  (effects_table known).2.2.2.1

end Known

theorem setBit_registerBit {register : Bytes} {slot : Nat} (within : slot < 16) :
    setBit (registerBit register) (slotBit slot) = (registerSlot register == some slot) := by
  have bits : ∀ a b : Fin 16, setBit (slotBit a) (slotBit b) = decide (a = b) := by decide
  cases found : registerSlot register with
  | none =>
    have nothing : (0 : Mask) &&& slotBit slot = 0 := BitVec.zero_and
    rw [registerBit_of_none found, setBit, nothing]
    rfl
  | some other =>
    rw [registerBit_of_slot found, bits ⟨other, registerSlot_lt found⟩ ⟨slot, within⟩]
    rw [Bool.eq_iff_iff, decide_eq_true_iff, Fin.mk.injEq, beq_iff_eq, Option.some.injEq]

/-! ## What a step of the scan says -/

section Scan

variable {register : Bytes} {inst : Instruction} {source destination : Bytes}
  {state : PreserveState} {place : Int}

def restoreSlot (register : Bytes) (inst : Instruction) (source destination : Bytes)
    (state : PreserveState) : Option Int :=
  if oneOf inst.op ["pop", "popq"] && registerOperand destination == register then
    if state.stackKnown then some state.stackDelta else none
  else if isMove inst.op && registerOperand destination == register then
    rspStackSlot source state.stackDelta state.stackKnown
  else none

theorem preserveStack_keeps :
    (preserveStack inst source destination state).saved = state.saved ∧
      (preserveStack inst source destination state).dirty = state.dirty ∧
      (preserveStack inst source destination state).written = state.written ∧
      (preserveStack inst source destination state).controlFlowUnsafe =
        state.controlFlowUnsafe := by
  unfold preserveStack
  dsimp only
  repeat' split
  all_goals exact ⟨rfl, rfl, rfl, rfl⟩

/-- Where a saved slot comes from. -/
inductive SavedBy (register : Bytes) (inst : Instruction) (source destination : Bytes)
    (state : PreserveState) (place : Int) : Prop where
  | push (isPush : startsWith inst.op (ascii "push") = true)
      (own : registerOperand source = register)
      (known : state.stackKnown = true) (slot : i64SubChecked state.stackDelta 8 = some place)
      (clean : state.dirty = false)
  | move (isMove : isMove inst.op = true) (own : registerOperand source = register)
      (slot : rspStackSlot destination state.stackDelta state.stackKnown = some place)
      (clean : state.dirty = false)
  | kept (saved : state.saved = some place)
      (reads : policyMemoryWrites inst.op inst.pseudo (memoryOperand destination)
        (memoryOperand source) = false)
      (noCall : isCall inst.op = false)
      (apart : startsWith inst.op (ascii "push") = true → state.stackKnown = true ∧
        ∃ slot, i64SubChecked state.stackDelta 8 = some slot ∧ slot ≠ place)

/-- A saved place was pushed or moved there by this line, or was saved before. -/
theorem savedBy (h : (preserveEffect register inst source destination state).saved = some place) :
    SavedBy register inst source destination state place := by
  unfold preserveEffect at h
  extract_lets op isPush isFullMov clean pushSlot saveSlot registerSave pushSave saved₁ saved₂
    writesMemory saved₃ saved₄ restoreSlot restores restored writes destroyed at h
  have last : saved₄ = some place := h
  have third : saved₃ = some place ∧
      (isPush && !pushSave && (!state.stackKnown || pushSlot.isNone || pushSlot == saved₃)) =
        false := by
    simp only [saved₄] at last
    split at last
    next => simp at last
    next keeps => exact ⟨last, Bool.eq_false_iff.2 keeps⟩
  have second : saved₂ = some place ∧
      (!registerSave && (writesMemory || oneOf op ["call", "callq"])) = false := by
    have third := third.1
    simp only [saved₃] at third
    split at third
    next => simp at third
    next keeps => exact ⟨third, Bool.eq_false_iff.2 keeps⟩
  by_cases moved : registerSave = true
  · have slot : saveSlot = some place := by
      have := second.1
      simpa only [saved₂, moved, if_true] using this
    simp only [registerSave, Bool.and_eq_true] at moved
    simp only [saveSlot] at slot
    split at slot
    next own =>
      rw [Bool.and_eq_true, beq_iff_eq] at own
      exact .move own.1 own.2 slot (by simpa [clean] using moved.2)
    next => simp at slot
  · have first : saved₁ = some place := by
      have := second.1
      simpa only [saved₂, moved, Bool.false_eq_true, if_false] using this
    have kept := second.2
    rw [Bool.not_eq_true] at moved
    rw [moved, Bool.not_false, Bool.true_and, Bool.or_eq_false_iff] at kept
    by_cases pushed : pushSave = true
    · have slot : pushSlot = some place := by simpa only [saved₁, pushed, if_true] using first
      simp only [pushSave, Bool.and_eq_true, beq_iff_eq] at pushed
      exact .push pushed.1.1.1.1 pushed.1.1.1.2 pushed.1.1.2 slot (by simpa [clean] using pushed.2)
    have saved : state.saved = some place := by
      simpa only [saved₁, pushed, Bool.false_eq_true, if_false] using first
    refine .kept saved kept.1 kept.2 fun isPush' => ?_
    have apart := third.2
    rw [Bool.not_eq_true] at pushed
    rw [pushed, third.1, show isPush = true from isPush'] at apart
    simp only [Bool.not_false, Bool.true_and, Bool.or_eq_false_iff, Bool.not_eq_false'] at apart
    obtain ⟨⟨known, some⟩, differs⟩ := apart
    cases slot : pushSlot with
    | none => simp [slot] at some
    | some value => exact ⟨known, value, slot, by simpa [slot] using differs⟩

/-- A register that is clean behind a line was not written by it, or was restored. -/
theorem clean_cases
    (clean : (preserveEffect register inst source destination state).dirty = false) :
    state.dirty = false ∧ (startsWith inst.op (ascii "push") = true ∨
        writesRegister inst source destination (registerBit register) = false) ∨
      ∃ place, restoreSlot register inst source destination state = some place ∧
        (preserveEffect register inst source destination state).saved = some place := by
  unfold preserveEffect at clean
  extract_lets op isPush isFullMov unwritten pushSlot saveSlot registerSave pushSave saved₁ saved₂
    writesMemory saved₃ saved₄ loaded restores restored writes destroyed at clean
  have dirty : ((state.written || destroyed) && !(if destroyed then false else restored)) = false :=
    clean
  by_cases back : restores = true
  · right
    have slots : loaded.isSome = true ∧ loaded = saved₄ := by simpa [restores] using back
    obtain ⟨place, found⟩ := Option.isSome_iff_exists.1 slots.1
    exact ⟨place, found, slots.2.symm.trans found⟩
  left
  rw [Bool.not_eq_true] at back
  by_cases lost : destroyed = true
  · simp [lost] at dirty
  rw [Bool.not_eq_true] at lost
  constructor
  · simpa [lost, restored, back, PreserveState.dirty] using dirty
  · by_cases pushes : isPush = true
    · exact .inl pushes
    · right
      simpa [destroyed, back, pushes] using lost

end Scan

/-! ## Addresses -/

theorem head?_of_parseSigned {text : Bytes} {value : Int} (h : parseSigned text = some value) :
    ∃ byte, text.head? = some byte ∧ (byte = 45 ∨ 48 ≤ byte ∧ byte ≤ 57) := by
  cases text with
  | nil => simp [parseSigned] at h
  | cons byte rest =>
    refine ⟨byte, rfl, ?_⟩
    by_cases minus : byte = 45
    · exact .inl minus
    right
    simp only [parseSigned, minus, if_false, parseDigits] at h
    split at h
    next => simp at h
    next digit => simpa only [not_or, UInt8.not_lt] using digit

theorem head?_of_registerOperand {operand : Bytes} (named : registerOperand operand ≠ []) :
    ∃ byte, (trim operand).head? = some byte ∧ (byte = 42 ∨ byte = 37 ∨ 97 ≤ byte) := by
  unfold registerOperand at named
  dsimp only at named
  generalize trim operand = value at named
  by_cases star : value.head? = some 42
  · exact ⟨42, star, .inl rfl⟩
  by_cases percent : value.head? = some 37
  · exact ⟨37, percent, .inr (.inl rfl)⟩
  simp only [beq_iff_eq, star, percent, if_false] at named
  split at named
  next bit =>
    have listed : ∃ names ∈ registerTable, oneOf value names = true := by
      by_contra none
      have absent : registerSlot value = Option.none := by
        rw [registerSlot, List.findIdx?_eq_none_iff]
        exact fun names mem => Bool.eq_false_iff.2 fun h => none ⟨names, mem, h⟩
      simp [registerBit_of_none absent] at bit
    obtain ⟨names, mem, named⟩ := listed
    obtain ⟨word, inside, equal⟩ := List.any_eq_true.1 named
    have letters : ∀ names ∈ registerTable, ∀ word ∈ names,
        ∃ byte, (ascii word).head? = some byte ∧ (byte = 42 ∨ byte = 37 ∨ 97 ≤ byte) := by
      have checked : (registerTable.all fun names => names.all fun word =>
          (ascii word).head?.any fun byte => decide (97 ≤ byte)) = true := by decide +kernel
      intro names mem word inside
      have letter := List.all_eq_true.1 (List.all_eq_true.1 checked names mem) word inside
      obtain ⟨byte, head, large⟩ := (Option.any_eq_true _ _).1 letter
      exact ⟨byte, head, .inr (.inr (decide_eq_true_iff.1 large))⟩
    rw [beq_iff_eq.1 equal]
    exact letters names mem word inside
  next => simp at named

/-- What names a register has no address. -/
theorem displacement_eq_none {operand : Bytes} (named : registerOperand operand ≠ [])
    (opened : find operand (ascii "(") < operand.length) :
    memoryDisplacementChecked operand = none := by
  obtain ⟨first, head, letter⟩ := head?_of_registerOperand named
  rw [head?_trim] at head
  have paren := head?_of_startsWith (startsWith_find opened) (by decide)
  obtain ⟨rest, tail⟩ : ∃ rest, operand.drop (find operand (ascii "(")) = 40 :: rest := by
    cases left : operand.drop (find operand (ascii "(")) with
    | nil =>
      rw [left] at paren
      exact absurd paren (by decide)
    | cons byte rest =>
      rw [left] at paren
      exact ⟨rest, by rw [Option.some.inj paren]; rfl⟩
  rw [← List.take_append_drop (find operand (ascii "(")) operand, List.find?_append, tail] at head
  unfold memoryDisplacementChecked
  dsimp only
  rw [if_neg (not_le.2 opened)]
  have text : (trim (slice operand 0 (find operand (ascii "(")))).head? =
      (operand.take (find operand (ascii "("))).find? (!isBlank ·) := by
    rw [head?_trim, slice, List.drop_zero]
  split
  next empty =>
    rw [empty] at text
    rw [← text] at head
    simp only [List.head?_nil, Option.none_or, List.find?_cons] at head
    obtain rfl := Option.some.inj head
    revert letter
    decide
  cases number : parseSigned (trim (slice operand 0 (find operand (ascii "(")))) with
  | none => rfl
  | some value =>
    obtain ⟨byte, start, digit⟩ := head?_of_parseSigned number
    rw [← text, start, Option.some_or] at head
    obtain rfl := Option.some.inj head
    exfalso
    rcases digit with rfl | digit
    · revert letter
      decide
    · rcases letter with rfl | rfl | large
      · exact absurd digit.1 (by decide)
      · exact absurd digit.1 (by decide)
      · exact absurd (UInt8.le_trans large digit.2) (by decide)

/-! ## What the machine does -/

section Effects

variable {fn : Function} {scan : ScanState} {inst : Instruction} {oracle s : Machine}

theorem implicit_rsp (op : Bytes) : setBit (implicitWriteMask op) (slotBit rspSlot) = false := by
  unfold implicitWriteMask
  split_ifs <;> decide

theorem registerBit_rsp {register : Bytes} :
    registerBit register = Mask.rsp ↔ registerSlot register = some rspSlot := by
  have bits : ∀ a : Fin 16, slotBit a = Mask.rsp ↔ (a : Nat) = rspSlot := by decide
  cases found : registerSlot register with
  | none =>
    rw [registerBit_of_none found]
    simp
  | some slot =>
    rw [registerBit_of_slot found, bits ⟨slot, registerSlot_lt found⟩, Option.some.injEq]

theorem execute_register (machine : inst.pseudo = false) (slot : Nat) :
    (execute oracle inst s).register slot = registerAfter oracle s inst slot := by
  simp [execute, machine]

theorem execute_memory (machine : inst.pseudo = false) :
    (execute oracle inst s).memory = memoryAfter oracle s inst := by
  simp [execute, machine]

theorem changesRegister_rsp (elsewhere : registerBit (registerOperand inst.destination) ≠ Mask.rsp)
    (exchange : startsWith inst.op (ascii "xchg") = true →
      registerBit (registerOperand inst.source) ≠ Mask.rsp) :
    changesRegister inst rspSlot = false := by
  rw [Ne, registerBit_rsp] at elsewhere
  rw [changesRegister, implicit_rsp, Bool.false_or, Bool.and_eq_false_iff]
  right
  rw [Bool.or_eq_false_iff, Bool.and_eq_false_iff, beq_eq_false_iff_ne, beq_eq_false_iff_ne]
  refine ⟨elsewhere, ?_⟩
  by_cases exchanges : startsWith inst.op (ascii "xchg") = true
  · exact .inr fun source => exchange exchanges (registerBit_rsp.2 source)
  · exact .inl (Bool.eq_false_iff.2 exchanges)

theorem adjustment_eq_none (elsewhere : registerBit (registerOperand inst.destination) ≠ Mask.rsp) :
    adjustment inst = none := by
  have other : registerOperand inst.destination ≠ ascii "rsp" := by
    intro rsp
    exact elsewhere (rsp ▸ by decide)
  rw [adjustment, if_pos other]

theorem untouched_of_nil (untouched : stackPointerWriteRegister inst = []) :
    registerBit (registerOperand inst.destination) ≠ Mask.rsp ∧
      (startsWith inst.op (ascii "xchg") = true →
        registerBit (registerOperand inst.source) ≠ Mask.rsp) := by
  have named {register : Bytes} (rsp : registerBit register = Mask.rsp) : register ≠ [] := by
    rintro rfl
    exact absurd rsp (by decide)
  unfold stackPointerWriteRegister at untouched
  dsimp only at untouched
  split at untouched
  next rsp => exact absurd untouched (named rsp)
  rename_i elsewhere
  refine ⟨elsewhere, fun exchange rsp => ?_⟩
  rw [if_pos ⟨exchange, rsp⟩] at untouched
  exact named rsp untouched

theorem plainRegister_rsp (call : isCall inst.op = false)
    (elsewhere : registerBit (registerOperand inst.destination) ≠ Mask.rsp)
    (exchange : startsWith inst.op (ascii "xchg") = true →
      registerBit (registerOperand inst.source) ≠ Mask.rsp) :
    plainRegister oracle s inst rspSlot = s.sp := by
  rw [plainRegister, call, adjustment_eq_none elsewhere,
    changesRegister_rsp elsewhere exchange]
  rfl

theorem plainRegister_adjusted {amount : Int} (call : isCall inst.op = false)
    (adjusted : adjustment inst = some amount) :
    plainRegister oracle s inst rspSlot = s.sp + BitVec.ofInt 64 amount := by
  rw [plainRegister, call, adjusted]
  rfl

/-- The stack pointer moves by the effect of the line. -/
theorem sp_execute (known : knownOp inst.op = true) (machine : inst.pseudo = false) {amount : Int}
    (effect : stackEffect inst = some amount) :
    (execute oracle inst s).sp = s.sp + BitVec.ofInt 64 amount := by
  have plain := stackOp_plain known
  have zero : BitVec.ofInt 64 0 = 0#64 := rfl
  rw [sp, execute_register machine]
  unfold stackEffect at effect
  unfold registerAfter
  dsimp only at effect
  cases kind : stackOp inst.op with
  | push =>
    rw [kind] at effect
    obtain rfl := Option.some.inj effect
    dsimp only
    rw [if_pos rfl, BitVec.sub_eq_add_neg, ← BitVec.ofInt_neg]
  | pop =>
    rw [kind] at effect
    dsimp only at effect ⊢
    split at effect
    next => simp at effect
    next elsewhere =>
      rw [registerBit_rsp] at elsewhere
      rw [if_neg elsewhere, if_pos rfl, Option.some.inj effect]
  | add | sub =>
    obtain ⟨call, -, exchange⟩ := plain.resolve_left (by simp [kind])
    rw [kind] at effect
    dsimp only at effect ⊢
    split at effect
    next elsewhere =>
      obtain rfl := Option.some.inj effect
      rw [plainRegister_rsp call elsewhere (by simp [exchange]), zero, BitVec.add_zero]
    split at effect
    next => simp at effect
    rename_i rsp
    refine plainRegister_adjusted call ?_
    rw [adjustment, if_neg rsp, kind]
    simpa using effect
  | other =>
    rw [kind] at effect
    dsimp only at effect ⊢
    split at effect
    next quiet =>
      obtain rfl := Option.some.inj effect
      rw [zero, BitVec.add_zero]
      rw [Bool.or_eq_true, beq_iff_eq] at quiet
      by_cases call : isCall inst.op = true
      · rw [plainRegister, if_pos call]
        rfl
      rw [Bool.not_eq_true] at call
      rcases quiet with keeps | untouched
      · have fixed : adjustment inst = none := by
          rw [adjustment, kind]
          split <;> rfl
        rw [plainRegister, call, fixed, changesRegister, implicit_rsp, keeps]
        rfl
      · obtain ⟨elsewhere, exchange⟩ := untouched_of_nil untouched
        exact plainRegister_rsp call elsewhere exchange
    next => simp at effect

theorem oneOf_push {op : Bytes} (kind : stackOp op = .push) :
    oneOf op ["push", "pushq"] = true := by
  unfold stackOp at kind
  split_ifs at kind with push
  exact push

theorem oneOf_pop {op : Bytes} (kind : stackOp op = .pop) : oneOf op ["pop", "popq"] = true := by
  unfold stackOp at kind
  split_ifs at kind with push pop
  exact pop

/-- The state behind a move of the stack pointer, lost where the sum overflows. -/
def PreserveState.moveTo (state : PreserveState) (delta : Option Int) : PreserveState :=
  match delta with
  | some value =>
    if state.stackKnown then { state with stackDelta := value }
    else { state with stackKnown := false }
  | none => { state with stackKnown := false }

theorem moveTo_known {state : PreserveState} {delta : Option Int} {amount : Int}
    (sum : ∀ value, delta = some value → value = state.stackDelta + amount)
    (known : (state.moveTo delta).stackKnown = true) :
    state.stackKnown = true ∧ (state.moveTo delta).stackDelta = state.stackDelta + amount := by
  cases delta with
  | none => simp [PreserveState.moveTo] at known
  | some value =>
    by_cases before : state.stackKnown = true
    · simpa [PreserveState.moveTo, before] using sum value rfl
    · simp [PreserveState.moveTo, before] at known

theorem countedEffect_elsewhere (adjusts : stackOp inst.op = .add ∨ stackOp inst.op = .sub)
    (elsewhere : registerBit (registerOperand inst.destination) ≠ Mask.rsp) :
    countedEffect inst = 0 := by
  have other : registerOperand inst.destination ≠ ascii "rsp" := by
    intro rsp
    exact elsewhere (rsp ▸ by decide)
  rcases adjusts with kind | kind <;> simp [countedEffect, kind, other]

/-- The offset kept in text order moves by what the scan counts of the line. -/
theorem preserveStack_moves {state : PreserveState} (clean : LineClean fn scan inst)
    (known : (preserveStack inst inst.source inst.destination state).stackKnown = true) :
    state.stackKnown = true ∧ stackEffect inst = some (countedEffect inst + narrowEffect inst) ∧
      (preserveStack inst inst.source inst.destination state).stackDelta =
        state.stackDelta + countedEffect inst := by
  have op := clean.knownOp
  have effect := clean.stackCase.effect
  unfold preserveStack at known ⊢
  dsimp only at known ⊢
  rw [startsWith_push op, startsWith_pop op, startsWith_add op, startsWith_sub op] at known ⊢
  cases kind : stackOp inst.op with
  | push =>
    have counted : countedEffect inst = -8 := by simp [countedEffect, kind]
    simp only [kind, decide_true, if_true, oneOf_push kind] at known effect ⊢
    have moved := @moveTo_known state (i64SubChecked state.stackDelta 8) (-8)
      (fun value h => by rw [i64SubChecked_eq h]; ring) known
    exact ⟨moved.1, effect.resolve_right (by simp), by rw [counted]; exact moved.2⟩
  | pop =>
    have counted : countedEffect inst = 8 := by simp [countedEffect, kind]
    simp only [kind, decide_true, if_true, oneOf_pop kind, reduceCtorEq, decide_false,
      Bool.false_eq_true, if_false] at known effect ⊢
    split at known
    next => simp at known
    rename_i elsewhere
    rw [if_neg elsewhere]
    have moved := @moveTo_known state (i64AddChecked state.stackDelta 8) 8
      (fun value h => i64AddChecked_eq h) known
    exact ⟨moved.1, effect.resolve_right (by simp), by rw [counted]; exact moved.2⟩
  | add =>
    simp only [kind, decide_true, if_true, reduceCtorEq, decide_false, Bool.false_eq_true, if_false,
      Bool.true_or] at known effect ⊢
    split at known
    next rsp =>
      rw [if_pos rsp]
      cases immediate : immediateOperandAfterDollarChecked inst.source with
      | none => simp [immediate] at known
      | some value =>
        simp only [immediate] at known ⊢
        split at known
        next => simp at known
        rename_i named
        rw [if_neg named]
        have counted : countedEffect inst = value := by
          simp [countedEffect, kind, not_not.1 named, immediate]
        have moved := @moveTo_known state (i64AddChecked state.stackDelta value) value
          (fun value h => i64AddChecked_eq h) known
        exact ⟨moved.1, effect.resolve_right (by simp), by rw [counted]; exact moved.2⟩
    rename_i elsewhere
    rw [if_neg elsewhere]
    have counted := countedEffect_elsewhere (.inl kind) elsewhere
    exact ⟨known, effect.resolve_right (by simp), by rw [counted, add_zero]⟩
  | sub =>
    simp only [kind, decide_true, if_true, reduceCtorEq, decide_false, Bool.false_eq_true, if_false,
      Bool.or_true] at known effect ⊢
    split at known
    next rsp =>
      rw [if_pos rsp]
      cases immediate : immediateOperandAfterDollarChecked inst.source with
      | none => simp [immediate] at known
      | some value =>
        simp only [immediate] at known ⊢
        split at known
        next => simp at known
        rename_i named
        rw [if_neg named]
        have counted : countedEffect inst = -value := by
          simp [countedEffect, kind, not_not.1 named, immediate]
        have moved := @moveTo_known state (i64SubChecked state.stackDelta value) (-value)
          (fun value h => by rw [i64SubChecked_eq h]; ring) known
        exact ⟨moved.1, effect.resolve_right (by simp), by rw [counted]; exact moved.2⟩
    rename_i elsewhere
    rw [if_neg elsewhere]
    have counted := countedEffect_elsewhere (.inr kind) elsewhere
    exact ⟨known, effect.resolve_right (by simp), by rw [counted, add_zero]⟩
  | other =>
    have counted : countedEffect inst = 0 := by simp [countedEffect, kind]
    simp only [kind, reduceCtorEq, decide_false, Bool.false_eq_true, if_false,
      Bool.or_self] at known ⊢
    split at known
    next => simp at known
    rename_i quiet
    rw [if_neg quiet, counted, add_zero]
    refine ⟨known, ?_, rfl⟩
    rw [not_or, not_or] at quiet
    have untouched : stackPointerWriteRegister inst = [] := by
      unfold stackPointerWriteRegister
      dsimp only
      rw [if_neg quiet.1, if_neg quiet.2.1]
    rw [counted, zero_add] at effect
    rw [zero_add]
    exact effect.resolve_right fun lost => lost.2.2 untouched

/-- A line that does not write a register kept by calls leaves its value. -/
theorem register_frame {register : Bytes} {slot : Nat} (known : knownOp inst.op = true)
    (machine : inst.pseudo = false) (found : registerSlot register = some slot)
    (kept : slot ∈ keptByCalls) (notStack : slot ≠ rspSlot)
    (unwritten : startsWith inst.op (ascii "push") = true ∨
      writesRegister inst inst.source inst.destination (registerBit register) = false) :
    (execute oracle inst s).register slot = s.register slot := by
  rw [execute_register machine, registerAfter]
  rw [startsWith_push known, decide_eq_true_iff] at unwritten
  have within := registerSlot_lt found
  have unchanged (noPush : stackOp inst.op ≠ .push) : setBit (implicitWriteMask inst.op)
      (slotBit slot) = false ∧ (writesNoRegister inst.op = true ∨
        registerSlot (registerOperand inst.destination) ≠ some slot ∧
          (startsWith inst.op (ascii "xchg") = true →
            registerSlot (registerOperand inst.source) ≠ some slot)) := by
    have unwritten := unwritten.resolve_left noPush
    rw [registerBit_of_slot found, writesRegister, setBit_registerBit within,
      setBit_registerBit within] at unwritten
    simp only [Bool.or_eq_false_iff, Bool.and_eq_false_iff, Bool.not_eq_false',
      beq_eq_false_iff_ne] at unwritten
    refine ⟨unwritten.1, unwritten.2.imp id fun h => ⟨h.1, fun exchange => ?_⟩⟩
    exact h.2.resolve_left (by simp [exchange])
  have plain (noPush : stackOp inst.op ≠ .push) :
      plainRegister oracle s inst slot = s.register slot := by
    obtain ⟨implicit, operands⟩ := unchanged noPush
    unfold plainRegister
    by_cases call : isCall inst.op = true
    · rw [if_pos call, if_pos kept]
    rw [if_neg call]
    cases adjustment inst with
    | some amount => simp [notStack]
    | none =>
      have same : changesRegister inst slot = false := by
        rw [changesRegister, implicit, Bool.false_or, Bool.and_eq_false_iff]
        rcases operands with none | ⟨elsewhere, exchange⟩
        · left
          have keeps := (keepsOperands_of_writesNoRegister known none).resolve_right noPush
          rw [keeps]
          rfl
        right
        rw [Bool.or_eq_false_iff, Bool.and_eq_false_iff, beq_eq_false_iff_ne,
          beq_eq_false_iff_ne]
        refine ⟨elsewhere, ?_⟩
        by_cases exchanges : startsWith inst.op (ascii "xchg") = true
        · exact .inr (exchange exchanges)
        · exact .inl (Bool.eq_false_iff.2 exchanges)
      simp [same]
  cases kind : stackOp inst.op with
  | push => simp [notStack]
  | pop =>
    have writes := (effects_table known).2.2.2.2.1 kind
    obtain ⟨-, operands⟩ := unchanged (by simp [kind])
    have elsewhere := (operands.resolve_left (by simp [writes])).1
    simp [elsewhere, notStack]
  | add => exact plain (by simp [kind])
  | sub => exact plain (by simp [kind])
  | other => exact plain (by simp [kind])

/-- A line that the scan takes for no store leaves the memory. -/
theorem memory_frame (known : knownOp inst.op = true) (machine : inst.pseudo = false)
    (noPush : stackOp inst.op ≠ .push) (noCall : isCall inst.op = false)
    (reads : policyMemoryWrites inst.op inst.pseudo (memoryOperand inst.destination)
      (memoryOperand inst.source) = false) :
    (execute oracle inst s).memory = s.memory := by
  have same : changesMemory inst = false := by
    rw [Bool.eq_false_iff]
    intro changes
    rw [policyMemoryWrites, machine, Bool.false_or] at reads
    simp only [changesMemory, Bool.or_eq_true, Bool.and_eq_true, Bool.not_eq_true'] at changes
    rcases changes with ⟨⟨memory, keeps⟩, writes⟩ | ⟨memory, exchanges⟩
    · obtain ⟨writes, noLea⟩ := destinationWritesMemory_of_changes known noPush keeps writes
      simp [noLea, memory, writes] at reads
    · simp [exchange_not_lea known exchanges, memory, exchanges] at reads
  rw [execute_memory machine, memoryAfter]
  cases kind : stackOp inst.op with
  | push => exact absurd kind noPush
  | pop | add | sub | other => simp [noCall, same]

end Effects

/-! ## Saves and restores -/

section Slots

variable {fn : Function} {scan : ScanState} {inst : Instruction} {oracle s : Machine}
  {register : Bytes} {slot : Nat} {state : PreserveState} {place : Int}

theorem rspStackSlot_eq_some {operand : Bytes} {delta : Int} {known : Bool}
    (h : rspStackSlot operand delta known = some place) :
    known = true ∧ memoryOperand operand = true ∧ memoryBaseRegister operand = ascii "rsp" ∧
      memoryIndexRegister operand = [] ∧
      ∃ displacement, memoryDisplacementChecked operand = some displacement ∧
        place = delta + displacement := by
  unfold rspStackSlot at h
  split at h
  next => simp at h
  rename_i slot
  simp only [Bool.or_eq_true, not_or, Bool.not_eq_true', bne_iff_ne, not_not,
    Bool.not_eq_false] at slot
  obtain ⟨displacement, number, sum⟩ := Option.bind_eq_some_iff.1 h
  exact ⟨slot.1.1.1, slot.1.1.2, slot.1.2, slot.2, displacement, number, i64AddChecked_eq sum⟩

/-- A stack slot lies where the offset kept in text order says. -/
theorem address_of_rspStackSlot {operand : Bytes} {delta : Int} {known : Bool}
    (h : rspStackSlot operand delta known = some place) :
    s.address operand = some (s.sp + BitVec.ofInt 64 (place - delta)) := by
  obtain ⟨-, memory, base, index, displacement, number, rfl⟩ := rspStackSlot_eq_some h
  have rsp : registerSlot (ascii "rsp") = some rspSlot := by decide
  have wide : addressRegisterWidth (ascii "rsp") = .width64 := by decide
  simp [address, memory, index, base, wide, rsp, number, sp]

theorem address_eq_none {operand : Bytes} (named : registerOperand operand ≠ []) :
    s.address operand = none := by
  by_cases opened : find operand (ascii "(") < operand.length
  · rw [address, displacement_eq_none named opened]
    split
    · split
      next h => simp at h
      next => rfl
    · rfl
  · have base : memoryBaseRegister operand = [] := by
      unfold memoryBaseRegister
      dsimp only
      rw [if_pos (not_lt.1 opened)]
    have wide : (addressRegisterWidth [] == .width64) = false := by decide
    simp [address, base, wide]

theorem stackOp_of_move {op : Bytes} (move : isMove op = true) :
    stackOp op = .other ∧ isCall op = false ∧ keepsOperands op = false ∧
      oneOf op ["fldcw", "ldmxcsr", "lea", "leaq"] = false := by
  obtain ⟨word, inside, equal⟩ := List.any_eq_true.1 move
  rw [beq_iff_eq.1 equal]
  clear equal move
  revert word
  decide

theorem stackOp_of_pop {op : Bytes} (pop : oneOf op ["pop", "popq"] = true) :
    stackOp op = .pop := by
  obtain ⟨word, inside, equal⟩ := List.any_eq_true.1 pop
  rw [beq_iff_eq.1 equal]
  clear equal pop
  revert word
  decide

theorem wideSlot_of_named {operand : Bytes} (own : registerOperand operand = register)
    (found : registerSlot register = some slot)
    (wide : addressRegisterWidth register = .width64) : wideSlot operand = some slot := by
  rw [wideSlot, own, if_pos wide, found]

/-- A restored register has the word that lies at the place it was saved. -/
theorem register_of_restoreSlot (machine : inst.pseudo = false)
    (found : registerSlot register = some slot) (wide : addressRegisterWidth register = .width64)
    (restored : restoreSlot register inst inst.source inst.destination state = some place) :
    (execute oracle inst s).register slot =
      s.memory.load (s.sp + BitVec.ofInt 64 (place - state.stackDelta)) := by
  rw [execute_register machine]
  unfold restoreSlot at restored
  split at restored
  next pop =>
    rw [Bool.and_eq_true, beq_iff_eq] at pop
    split at restored
    next =>
      obtain rfl := Option.some.inj restored
      have named : registerSlot (registerOperand inst.destination) = some slot := by
        rw [pop.2, found]
      simp [registerAfter, stackOp_of_pop pop.1, named,
        wideSlot_of_named pop.2 found wide]
    next => simp at restored
  split at restored
  next move =>
    rw [Bool.and_eq_true, beq_iff_eq] at move
    obtain ⟨kind, call, keeps, -⟩ := stackOp_of_move move.1
    have fixed : adjustment inst = none := by
      rw [adjustment, kind]
      split <;> rfl
    have changes : changesRegister inst slot = true := by
      simp [changesRegister, keeps, move.2, found]
    have value : s.value inst.source =
        some (s.memory.load (s.sp + BitVec.ofInt 64 (place - state.stackDelta))) := by
      rw [Machine.value, address_of_rspStackSlot restored]
    simp [registerAfter, kind, plainRegister, call, fixed, changes, move.1,
      wideSlot_of_named move.2 found wide, value]
  next => simp at restored

theorem memory_of_move (machine : inst.pseudo = false) (move : isMove inst.op = true)
    (own : registerOperand inst.source = register) (found : registerSlot register = some slot)
    (wide : addressRegisterWidth register = .width64)
    (saved : rspStackSlot inst.destination state.stackDelta state.stackKnown = some place) :
    (execute oracle inst s).memory =
      s.memory.store (s.sp + BitVec.ofInt 64 (place - state.stackDelta)) 8 (s.register slot) := by
  obtain ⟨kind, call, keeps, reads⟩ := stackOp_of_move move
  have changes : changesMemory inst = true := by
    simp [changesMemory, (rspStackSlot_eq_some saved).2.1, keeps, reads]
  rw [execute_memory machine]
  simp [memoryAfter, kind, call, changes, move, address_of_rspStackSlot saved,
    wideSlot_of_named own found wide]

theorem memory_of_push (machine : inst.pseudo = false) (push : stackOp inst.op = .push)
    (wide : narrowEffect inst = 0) :
    (execute oracle inst s).memory =
      s.memory.store (s.sp + BitVec.ofInt 64 (-8)) 8 ((s.value inst.source).getD oracle.sp) := by
  have size : transferSize inst.source = 8 := by
    simp only [narrowEffect, push] at wide
    omega
  rw [execute_memory machine]
  rw [memoryAfter, push, size, BitVec.sub_eq_add_neg, ← BitVec.ofInt_neg]
  rfl

theorem value_of_named {operand : Bytes} (own : registerOperand operand = register)
    (found : registerSlot register = some slot)
    (wide : addressRegisterWidth register = .width64) :
    s.value operand = some (s.register slot) := by
  have named : registerOperand operand ≠ [] := by
    intro empty
    rw [← own, empty] at found
    exact absurd found (by simp [registerSlot_nil])
  rw [Machine.value, address_eq_none named, wideSlot_of_named own found wide]

end Slots

end Elisa.Easm
