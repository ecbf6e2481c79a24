import Mathlib.Data.List.Chain
import Mathlib.Tactic.Ring
import Elisa.Easm.ScanInvariant

/-!
# Stack offsets along runs

The scan of a body adds up the stack effects of its lines in the order of the text, and asks for a
sum of zero at the end and for an aligned one at each call.  A run skips and repeats lines.

A push and a pop of two bytes is counted for eight, and a jump leaves out, or repeats, what the text
counts.  Along a run without such transfers, each of whose jumps passes over a stretch that sums up
to a multiple of a unit, the stack pointer moves by the sum of the text, up to that unit
(`Run.level`).  So these runs meet the two checks: `return_balanced_iff`, `call_aligned`.
-/

namespace Elisa.Easm

open List

/-! ## Operations -/

def operationTable : List String :=
  zeroOperandOps ++ oneOperandOps ++ twoOperandOps ++ shiftOps ++ ["compose", "state", "label"]

theorem mem_operationTable {op : Bytes} (known : knownOp op = true) :
    ∃ word ∈ operationTable, op = ascii word := by
  simpa [knownOp, oneOf, operationTable, or_and_right, exists_or, or_assoc] using known

/-- The operations that move the stack pointer by an amount of their own. -/
inductive StackOp where
  | push
  | pop
  | add
  | sub
  | other
  deriving DecidableEq

def stackOp (op : Bytes) : StackOp :=
  if oneOf op ["push", "pushq"] then .push
  else if oneOf op ["pop", "popq"] then .pop
  else if oneOf op ["add", "addq"] then .add
  else if oneOf op ["sub", "subq"] then .sub
  else .other

section Known

variable {op : Bytes}

section Known

variable (known : knownOp op = true)
include known

/-- What can be read off the table: the words that move the stack pointer are known by their
beginnings, and they have operands and are no exchanges. -/
theorem stackOp_table : startsWith op (ascii "push") = decide (stackOp op = .push) ∧
    startsWith op (ascii "pop") = decide (stackOp op = .pop) ∧
    startsWith op (ascii "add") = decide (stackOp op = .add) ∧
    startsWith op (ascii "sub") = decide (stackOp op = .sub) ∧
    (stackOp op = .other ∨
      oneOf op zeroOperandOps = false ∧ startsWith op (ascii "xchg") = false) ∧
    (oneOf op ["call", "callq"] = true →
      stackOp op = .other ∧ startsWith op (ascii "call") = true) := by
  obtain ⟨word, listed, rfl⟩ := mem_operationTable known
  clear known
  revert word
  decide +kernel

theorem startsWith_push :
    startsWith op (ascii "push") = decide (stackOp op = .push) := (stackOp_table known).1

theorem startsWith_pop :
    startsWith op (ascii "pop") = decide (stackOp op = .pop) := (stackOp_table known).2.1

theorem startsWith_add :
    startsWith op (ascii "add") = decide (stackOp op = .add) := (stackOp_table known).2.2.1

theorem startsWith_sub :
    startsWith op (ascii "sub") = decide (stackOp op = .sub) := (stackOp_table known).2.2.2.1

theorem stackOp_other :
    stackOp op = .other ∨
      oneOf op zeroOperandOps = false ∧ startsWith op (ascii "xchg") = false :=
  (stackOp_table known).2.2.2.2.1

end Known

end Known

/-- A line with a good shape shows its operands to the checks, unless it has none. -/
theorem LineClean.checkedOperands {fn : Function} {state : ScanState} {inst : Instruction}
    (clean : LineClean fn state inst) (operands : oneOf inst.op zeroOperandOps = false) :
    Easm.checkedOperands inst = (inst.source, inst.destination) := by
  unfold Easm.checkedOperands
  dsimp only
  split_ifs with pseudo fits
  · rfl
  · rfl
  have shape := clean.shape
  rw [shapeIssues, if_neg pseudo] at shape
  split at shape
  next => simp at shape
  rename_i supported
  simp only [unsupportedOperands, clean.knownOp, Bool.not_eq_true, Bool.or_eq_false_iff,
    Bool.not_eq_false', decide_eq_false_iff_not, Bool.true_and, Bool.and_eq_true] at supported
  obtain ⟨⟨valid, few⟩, arity, -⟩ := supported
  have some : (scanInstruction inst.text).count ≠ 0 := by
    intro zero
    simp [operandAritySupported, zero, operands] at arity
  simp [valid, not_lt.1 few, Nat.pos_of_ne_zero some] at fits

/-! ## The machine -/

def wordRegister (register : Bytes) : Bool :=
  oneOf register (registerTable.map fun names => names.getD 2 "")

def transferSize (operand : Bytes) : Int := if wordRegister (registerOperand operand) then 2 else 8

def keepsOperands (op : Bytes) : Bool :=
  oneOf op (compareOps ++ controlOps ++ conditionalJumps ++ ["ret", "retq"] ++
    ["compose", "state", "label"])

/-- What a line adds to the stack pointer: `none` if that is not a fixed amount.  A call comes
back with the stack pointer that it was made with. -/
def stackEffect (inst : Instruction) : Option Int :=
  let destination := registerOperand inst.destination
  let adjusted (amount : Int → Int) : Option Int :=
    if registerBit destination ≠ Mask.rsp then some 0
    else if destination ≠ ascii "rsp" then none
    else (immediateOperandAfterDollarChecked inst.source).map amount
  match stackOp inst.op with
  | .push => some (-transferSize inst.source)
  | .pop => if registerBit destination = Mask.rsp then none
      else some (transferSize inst.destination)
  | .add => adjusted fun value => value
  | .sub => adjusted fun value => -value
  | .other =>
    if keepsOperands inst.op || stackPointerWriteRegister inst == [] then some 0 else none

/-- What the lines of a run add to the stack pointer. -/
def netEffect (body : List Instruction) (executed : List Nat) : Option Int :=
  executed.foldl (fun net index => net.bind fun net =>
    (body[index]?.bind stackEffect).map (net + ·)) (some 0)

/-! ## The text -/

/-- What the scan counts for a line. -/
def countedEffect (inst : Instruction) : Int :=
  let immediate :=
    if registerOperand inst.destination = ascii "rsp" then
      (immediateOperandAfterDollarChecked inst.source).getD 0
    else 0
  match stackOp inst.op with
  | .push => -8
  | .pop => 8
  | .add => immediate
  | .sub => -immediate
  | .other => 0

def narrowEffect (inst : Instruction) : Int :=
  match stackOp inst.op with
  | .push => 8 - transferSize inst.source
  | .pop => transferSize inst.destination - 8
  | _ => 0

def textOffset (body : List Instruction) (index : Nat) : Int :=
  ((body.take index).map countedEffect).sum

section Lines

variable {fn : Function} {state : ScanState} {inst : Instruction}

theorem stackWrite_delta (fn : Function) (inst : Instruction) : (stackWrite fn inst).delta = 0 := by
  unfold stackWrite
  dsimp only
  split_ifs <;> rfl

theorem stackPointerWriteRegister_eq_nil (plain : startsWith inst.op (ascii "xchg") = false)
    (elsewhere : registerBit (registerOperand inst.destination) ≠ Mask.rsp) :
    stackPointerWriteRegister inst = [] := by
  unfold stackPointerWriteRegister
  dsimp only
  rw [if_neg elsewhere, if_neg]
  rw [plain]
  exact fun h => Bool.noConfusion h.1

theorem stackWrite_eq_none (untouched : stackPointerWriteRegister inst = []) :
    stackWrite fn inst = .none := by
  unfold stackWrite
  dsimp only
  rw [if_pos untouched]

theorem LineClean.stackAdjustment_eq (clean : LineClean fn state inst)
    (operands : oneOf inst.op zeroOperandOps = false)
    (stack : (stackAdjustment inst).issues = []) :
    registerOperand inst.destination = ascii "rsp" ∧
      ∃ value, immediateOperandAfterDollarChecked inst.source = some value ∧
        stackAdjustment inst =
          .moved (if startsWith inst.op (ascii "add") then value else -value) := by
  unfold stackAdjustment at stack ⊢
  rw [clean.checkedOperands operands] at stack ⊢
  dsimp only at stack ⊢
  split at stack
  next => simp [StackStep.lost] at stack
  rename_i rsp
  rw [if_neg rsp]
  rw [not_not] at rsp
  cases immediate : immediateOperandAfterDollarChecked inst.source with
  | none => simp [immediate, StackStep.lost] at stack
  | some value => exact ⟨rsp, value, rfl, rfl⟩

/-- What the scan does with a clean line. -/
inductive StackCase (fn : Function) (inst : Instruction) : Prop where
  | push (kind : stackOp inst.op = .push)
      (step : stackStep fn inst = { stackWrite fn inst with delta := -8, touched := true })
  | pop (kind : stackOp inst.op = .pop)
      (elsewhere : registerBit (registerOperand inst.destination) ≠ Mask.rsp)
      (step : stackStep fn inst = .moved 8)
  | add (value : Int) (kind : stackOp inst.op = .add)
      (rsp : registerOperand inst.destination = ascii "rsp")
      (immediate : immediateOperandAfterDollarChecked inst.source = some value)
      (step : stackStep fn inst = .moved value)
  | sub (value : Int) (kind : stackOp inst.op = .sub)
      (rsp : registerOperand inst.destination = ascii "rsp")
      (immediate : immediateOperandAfterDollarChecked inst.source = some value)
      (step : stackStep fn inst = .moved (-value))
  | elsewhere (kind : stackOp inst.op = .add ∨ stackOp inst.op = .sub)
      (elsewhere : registerBit (registerOperand inst.destination) ≠ Mask.rsp)
      (step : stackStep fn inst = .none)
  | other (kind : stackOp inst.op = .other) (step : stackStep fn inst = stackWrite fn inst)

theorem stackStep_eq (fn : Function) (known : knownOp inst.op = true) : stackStep fn inst =
    match stackOp inst.op with
    | .push => { stackWrite fn inst with delta := -8, touched := true }
    | .pop =>
      if registerBit (registerOperand (checkedOperands inst).2) = Mask.rsp then
        .lost "pop-stack-pointer" inst.line
          "pop may not write the stack pointer or one of its aliases"
      else .moved 8
    | .add | .sub =>
      if registerBit (registerOperand (checkedOperands inst).2) = Mask.rsp then
        stackAdjustment inst
      else stackWrite fn inst
    | .other => stackWrite fn inst := by
  unfold stackStep
  dsimp only
  rw [startsWith_push known, startsWith_pop known, startsWith_add known, startsWith_sub known]
  cases stackOp inst.op with
  | push => rfl
  | pop => rfl
  | other => rfl
  | add | sub =>
    simp only [reduceCtorEq, decide_true, decide_false, Bool.or_true, Bool.or_false, Bool.true_and,
      Bool.false_eq_true, if_false, beq_iff_eq]

theorem LineClean.stackCase (clean : LineClean fn state inst) : StackCase fn inst := by
  have known := clean.knownOp
  have stack := clean.stack
  have step := stackStep_eq fn known
  rw [step] at stack
  have moves : stackOp inst.op ≠ .other → oneOf inst.op zeroOperandOps = false ∧
      startsWith inst.op (ascii "xchg") = false := (stackOp_other known).resolve_left
  cases kind : stackOp inst.op with
  | push =>
    rw [kind] at step
    exact .push kind step
  | pop =>
    rw [kind, clean.checkedOperands (moves (by simp [kind])).1] at step stack
    dsimp only at step stack
    split at stack
    next => simp [StackStep.lost] at stack
    next elsewhere => exact .pop kind elsewhere (step.trans (if_neg elsewhere))
  | add =>
    obtain ⟨operands, plain⟩ := moves (by simp [kind])
    rw [kind, clean.checkedOperands operands] at step stack
    dsimp only at step stack
    split at stack
    next rsp =>
      obtain ⟨named, value, immediate, moved⟩ := clean.stackAdjustment_eq operands stack
      rw [if_pos rsp, moved, startsWith_add known, kind] at step
      exact .add value kind named immediate step
    rename_i elsewhere
    rw [if_neg elsewhere,
      stackWrite_eq_none (stackPointerWriteRegister_eq_nil plain elsewhere)] at step
    exact .elsewhere (.inl kind) elsewhere step
  | sub =>
    obtain ⟨operands, plain⟩ := moves (by simp [kind])
    rw [kind, clean.checkedOperands operands] at step stack
    dsimp only at step stack
    split at stack
    next rsp =>
      obtain ⟨named, value, immediate, moved⟩ := clean.stackAdjustment_eq operands stack
      rw [if_pos rsp, moved, startsWith_add known, kind] at step
      exact .sub value kind named immediate step
    rename_i elsewhere
    rw [if_neg elsewhere,
      stackWrite_eq_none (stackPointerWriteRegister_eq_nil plain elsewhere)] at step
    exact .elsewhere (.inr kind) elsewhere step
  | other =>
    rw [kind] at step
    exact .other kind step

theorem StackCase.delta (line : StackCase fn inst) :
    (stackStep fn inst).delta = countedEffect inst := by
  unfold countedEffect
  dsimp only
  cases line with
  | push kind step => rw [step, kind]
  | pop kind elsewhere step => rw [step, kind]; rfl
  | add value kind rsp immediate step =>
    rw [step, kind, if_pos rsp, immediate]
    rfl
  | sub value kind rsp immediate step =>
    rw [step, kind, if_pos rsp, immediate]
    rfl
  | elsewhere kind elsewhere step =>
    have other : registerOperand inst.destination ≠ ascii "rsp" := by
      intro rsp
      exact elsewhere (rsp ▸ by decide)
    rw [step, if_neg other]
    rcases kind with kind | kind <;> rw [kind] <;> rfl
  | other kind step => rw [step, kind, stackWrite_delta]

/-- What a clean line does to the stack pointer is what the scan counts, corrected if it moves
two bytes, unless it writes the stack pointer in a way that the scan does not follow. -/
theorem StackCase.effect (line : StackCase fn inst) :
    stackEffect inst = some (countedEffect inst + narrowEffect inst) ∨
      stackEffect inst = none ∧ stackOp inst.op = .other ∧ stackPointerWriteRegister inst ≠ [] := by
  have rspBit : registerBit (ascii "rsp") = Mask.rsp := by decide
  unfold stackEffect countedEffect narrowEffect
  dsimp only
  cases line with
  | push kind step =>
    left
    rw [kind]
    exact congrArg some (by ring)
  | pop kind elsewhere step =>
    left
    rw [kind]
    dsimp only
    rw [if_neg elsewhere]
    exact congrArg some (by ring)
  | add value kind rsp immediate step =>
    left
    rw [kind]
    dsimp only
    rw [if_pos rsp, rsp, immediate, if_neg (not_not.2 rspBit), if_neg (not_not.2 rfl)]
    simp
  | sub value kind rsp immediate step =>
    left
    rw [kind]
    dsimp only
    rw [if_pos rsp, rsp, immediate, if_neg (not_not.2 rspBit), if_neg (not_not.2 rfl)]
    simp
  | elsewhere kind elsewhere step =>
    left
    have other : registerOperand inst.destination ≠ ascii "rsp" := by
      intro rsp
      exact elsewhere (rsp ▸ rspBit)
    rcases kind with kind | kind <;> rw [kind] <;> dsimp only <;>
      rw [if_pos elsewhere, if_neg other] <;> rfl
  | other kind step =>
    rw [kind]
    dsimp only
    split
    next => exact .inl rfl
    next writes =>
      rw [Bool.or_eq_true, not_or] at writes
      exact .inr ⟨rfl, rfl, by simpa using writes.2⟩

theorem stackPointerWriteRegister_of_clean (stack : (stackWrite fn inst).issues = [])
    (balance : hasWord fn.requires "stack.balance.unchecked" = false) :
    stackPointerWriteRegister inst = [] := by
  by_contra writes
  unfold stackWrite at stack
  dsimp only at stack
  rw [if_neg writes, balance] at stack
  split at stack <;> simp [StackStep.lost] at stack

/-- A line that does not count as touching the stack adds nothing to the sum. -/
theorem StackCase.touched (line : StackCase fn inst)
    (untouched : (stackStep fn inst).touched = false) :
    (stackStep fn inst).delta = 0 := by
  cases line with
  | push kind step => simp [step] at untouched
  | pop kind elsewhere step => simp [step, StackStep.moved] at untouched
  | add value kind rsp immediate step => simp [step, StackStep.moved] at untouched
  | sub value kind rsp immediate step => simp [step, StackStep.moved] at untouched
  | elsewhere kind elsewhere step => simp [step, StackStep.none]
  | other kind step => rw [step, stackWrite_delta]

/-- Without the word that allows them, a clean line has no effect that is not followed. -/
theorem LineClean.effect (clean : LineClean fn state inst)
    (balance : hasWord fn.requires "stack.balance.unchecked" = false) :
    stackEffect inst = some (countedEffect inst + narrowEffect inst) := by
  rcases clean.stackCase.effect with known | ⟨-, kind, writes⟩
  · exact known
  · have stack := clean.stack
    rw [stackStep_eq fn clean.knownOp, kind] at stack
    exact absurd (stackPointerWriteRegister_of_clean stack balance) writes

theorem LineClean.known_of_balance (clean : LineClean fn state inst)
    (balance : hasWord fn.requires "stack.balance.unchecked" = false) :
    (stackStep fn inst).known = true := by
  have stack := clean.stack
  cases clean.stackCase with
  | push kind step =>
    rw [step] at stack ⊢
    dsimp only at stack ⊢
    rw [stackWrite_eq_none (stackPointerWriteRegister_of_clean stack balance)]
    rfl
  | pop kind elsewhere step => rw [step]; rfl
  | add value kind rsp immediate step => rw [step]; rfl
  | sub value kind rsp immediate step => rw [step]; rfl
  | elsewhere kind elsewhere step => rw [step]; rfl
  | other kind step =>
    rw [step] at stack ⊢
    rw [stackWrite_eq_none (stackPointerWriteRegister_of_clean stack balance)]
    rfl

end Lines

/-! ## The sum of the scan -/

section Sums

variable {fn : Function} {index : Nat} {inst : Instruction} {body : List Instruction}

theorem textOffset_succ (found : body[index]? = some inst) :
    textOffset body (index + 1) = textOffset body index + countedEffect inst := by
  simp [textOffset, take_add_one, found]

section Clean

variable (clean : (verifyFunctionInstructions fn).issues = [])
include clean

theorem scanBefore_stackDelta (within : index ≤ fn.instructions.length) :
    (scanBefore fn index).stackDelta = textOffset fn.instructions index := by
  induction index with
  | zero => rfl
  | succ index ih =>
    have found := getElem?_eq_getElem within
    have line := lineClean clean found
    rw [scanBefore_succ found, line.stackDelta, line.stackCase.delta, textOffset_succ found,
      ih (Nat.le_of_succ_le within)]

theorem scanBefore_stackKnown (balance : hasWord fn.requires "stack.balance.unchecked" = false)
    (within : index ≤ fn.instructions.length) : (scanBefore fn index).stackKnown = true := by
  induction index with
  | zero => rfl
  | succ index ih =>
    have found := getElem?_eq_getElem within
    have line := lineClean clean found
    rw [scanBefore_succ found, line.stackKnown, ih (Nat.le_of_succ_le within),
      line.known_of_balance balance]
    rfl

theorem scanBefore_untouched (within : index ≤ fn.instructions.length)
    (untouched : (scanBefore fn index).stackTouched = false) :
    (scanBefore fn index).stackDelta = 0 := by
  induction index with
  | zero => rfl
  | succ index ih =>
    have found := getElem?_eq_getElem within
    have line := lineClean clean found
    rw [scanBefore_succ found, line.stackTouched, Bool.or_eq_false_iff] at untouched
    rw [scanBefore_succ found, line.stackDelta, ih (Nat.le_of_succ_le within) untouched.1,
      line.stackCase.touched untouched.2, add_zero]

theorem textOffset_length (end_ : scanEndIssues fn (verifyFunctionInstructions fn) = [])
    (balance : hasWord fn.requires "stack.balance.unchecked" = false) :
    textOffset fn.instructions fn.instructions.length = 0 := by
  rw [← scanBefore_stackDelta clean le_rfl]
  by_contra left
  rw [← scanBefore_length, scanEndIssues, append_eq_nil_iff, append_eq_nil_iff] at end_
  have touched : (scanBefore fn fn.instructions.length).stackTouched = true := by
    by_contra untouched
    exact left (scanBefore_untouched clean le_rfl (by simpa using untouched))
  simp [issueIf, touched, left, balance, scanBefore_stackKnown clean balance le_rfl] at end_

end Clean

end Sums

/-! ## Runs -/

/-- What stands in the text from a line on. -/
def textBehind (body : List Instruction) (index : Nat) : Int :=
  ((body.drop index).map countedEffect).sum

/-- The text between a line and the one that is executed next, which a jump skips or goes back
over, adds up to a multiple of the unit. -/
def Level (body : List Instruction) (unit : Int) (index next : Nat) : Prop :=
  unit ∣ textOffset body next - textOffset body (index + 1)

instance (body : List Instruction) (unit : Int) : DecidableRel (Level body unit) :=
  fun _ _ => inferInstanceAs (Decidable (_ ∣ _))

/-- The lines of a run push and pop eight bytes, and write the stack pointer in no other way than
the scan follows. -/
def Followed (body : List Instruction) (executed : List Nat) : Prop :=
  ∀ line ∈ executed, ∀ inst, body[line]? = some inst →
    narrowEffect inst = 0 ∧ stackEffect inst ≠ none

section Runs

variable {body : List Instruction} {executed : List Nat} {index : Nat} {unit : Int}

theorem netEffect_concat (body : List Instruction) (executed : List Nat) (index : Nat) :
    netEffect body (executed ++ [index]) = (netEffect body executed).bind fun net =>
      (body[index]?.bind stackEffect).map (net + ·) := by
  simp [netEffect]

/-- Along a run whose jumps are level the stack pointer keeps to the sum of the text. -/
theorem Run.level (run : Run body executed index)
    (effects : ∀ line ∈ executed, ∀ inst, body[line]? = some inst →
      stackEffect inst = some (countedEffect inst))
    (level : (executed ++ [index]).IsChain (Level body unit)) :
    ∃ net, netEffect body executed = some net ∧ unit ∣ net - textOffset body index := by
  induction run with
  | entry => exact ⟨0, rfl, by simp [textOffset]⟩
  | @step executed index next run mem ih =>
    obtain ⟨inst, found, -⟩ := mem_successors_iff.1 mem
    have effect := effects index (by simp) inst found
    obtain ⟨before, -, last⟩ := isChain_append.1 level
    have skipped : Level body unit index next := last index (by simp) next (by simp)
    obtain ⟨net, moved, near⟩ := ih (fun line mem => effects line (by simp [mem])) before
    refine ⟨net + countedEffect inst, ?_, ?_⟩
    · rw [netEffect_concat, moved, found, Option.bind_some, Option.bind_some, effect]
      rfl
    · rw [Level, textOffset_succ found] at skipped
      have both := Int.dvd_sub near skipped
      convert both using 1
      ring

theorem textBehind_eq (body : List Instruction) (index : Nat) :
    textOffset body index + textBehind body index = textOffset body body.length := by
  rw [textOffset, textBehind, ← sum_append, ← map_append, take_append_drop,
    textOffset, take_length]

end Runs

/-! ## The two checks -/

structure Verified (layouts : List Layout) (fn : Function) : Prop where
  scan : (verifyFunctionInstructions fn).issues = []
  post : verifyFunctionPost layouts fn (verifyFunctionInstructions fn) = []
  merges : verifyControlFlowMerges fn = []

instance (layouts : List Layout) (fn : Function) : Decidable (Verified layouts fn) :=
  decidable_of_iff ((verifyFunctionInstructions fn).issues = [] ∧
    verifyFunctionPost layouts fn (verifyFunctionInstructions fn) = [] ∧
    verifyControlFlowMerges fn = [])
    ⟨fun ⟨scan, post, merges⟩ => ⟨scan, post, merges⟩, fun h => ⟨h.scan, h.post, h.merges⟩⟩

section Checks

variable {layouts : List Layout} {fn : Function} {executed : List Nat} {index : Nat}

/-- A jump over a push and a pop. -/
def balancedSource : Bytes := ascii
  "export def f(a: u64) -> void
  inputs:
    a = rdi
  clobbers:
    rdi, cc
  body:
    cmp $0, %rdi
    je done
    push %rdi
    pop %rdi
    done:
    ret
"

/-- A push, and behind two returns a pop that the first return skips. -/
def earlyReturnSource : Bytes := ascii
  "export def f(a: u64) -> void
  inputs:
    a = rdi
  clobbers:
    rdi, cc
  body:
    push %rdi
    cmp $0, %rdi
    je done
    ret
    done:
    pop %rdi
    ret
"

/-- A push before a call and a pop behind it, and a jump over two others. -/
def alignedCallSource : Bytes := ascii
  "export def f() -> void
  requires:
    control.direct
  stack:
    aligned
  clobbers:
    rax
  body:
    mov $0, %rax
    push %rax
    jmp over
    push %rax
    pop %rax
    over:
    call g
    pop %rax
    ret
"

/-- A pop that no run executes makes up in the text for a push that every run executes. -/
def skippedPopSource : Bytes := ascii
  "export def f() -> void
  requires:
    control.direct
  stack:
    aligned
  clobbers:
    rax
  body:
    mov $0, %rax
    push %rax
    jmp again
    pop %rax
    again:
    push %rax
    call g
    pop %rax
    ret
"

set_option maxRecDepth 10000 in
theorem sources_checked :
    ((parseModule balancedSource []).any fun m => m.functions.any fun fn =>
      decide (Verified m.layouts fn) && !hasWord fn.requires "stack.balance.unchecked" &&
        isWalk fn.instructions [0, 1, 4, 5] &&
        ([0, 1, 4].all fun line => fn.instructions[line]?.all fun inst => narrowEffect inst == 0) &&
        decide ([0, 1, 4, 5].IsChain (Level fn.instructions 0)) &&
        decide (textBehind fn.instructions 5 = 0)) = true ∧
    ((parseModule earlyReturnSource []).any fun m => m.issues.isEmpty &&
      m.functions.any fun fn =>
      decide (Verified m.layouts fn) && !hasWord fn.requires "stack.balance.unchecked" &&
        !hasWord fn.requires "stack.call_alignment.unchecked" &&
        isWalk fn.instructions [0, 1, 2, 3] &&
        (fn.instructions[3]?.any fun ret => oneOf ret.op ["ret", "retq"]) &&
        decide (netEffect fn.instructions [0, 1, 2] = some (-8))) = true ∧
    ((parseModule alignedCallSource []).any fun m => m.functions.any fun fn =>
      decide (Verified m.layouts fn) && !hasWord fn.requires "stack.call_alignment.unchecked" &&
        isWalk fn.instructions [0, 1, 2, 5, 6] &&
        (fn.instructions[6]?.any fun call => oneOf call.op ["call", "callq"]) &&
        ([0, 1, 2, 5].all fun line => fn.instructions[line]?.all fun inst =>
          narrowEffect inst == 0 && (stackEffect inst).isSome) &&
        decide ([0, 1, 2, 5, 6].IsChain (Level fn.instructions 16))) = true ∧
    ((parseModule skippedPopSource []).any fun m => m.issues.isEmpty &&
      m.functions.any fun fn =>
      decide (Verified m.layouts fn) && !hasWord fn.requires "stack.call_alignment.unchecked" &&
        isWalk fn.instructions [0, 1, 2, 4, 5, 6] &&
        (fn.instructions[6]?.any fun call => oneOf call.op ["call", "callq"]) &&
        decide (netEffect fn.instructions [0, 1, 2, 4, 5] = some (-16))) = true := by
  rw [show balancedSource = _ from ascii_ofList _,
    show earlyReturnSource = _ from ascii_ofList _,
    show alignedCallSource = _ from ascii_ofList _,
    show skippedPopSource = _ from ascii_ofList _]
  decide +kernel

/-- A run of an accepted function each of whose jumps passes over a stretch that adds up to zero,
and that pushes and pops eight bytes only, stands with the stack pointer that it began with exactly
where the text from there on adds up to zero. -/
theorem return_balanced_iff (verified : Verified layouts fn)
    (balance : hasWord fn.requires "stack.balance.unchecked" = false)
    (run : Run fn.instructions executed index)
    (wide : ∀ line ∈ executed, ∀ inst, fn.instructions[line]? = some inst → narrowEffect inst = 0)
    (level : (executed ++ [index]).IsChain (Level fn.instructions 0)) :
    netEffect fn.instructions executed = some 0 ↔ textBehind fn.instructions index = 0 := by
  obtain ⟨net, moved, near⟩ := run.level
    (fun line mem inst found => by
      rw [(lineClean verified.scan found).effect balance, wide line mem inst found, add_zero])
    level
  have post := verified.post
  simp only [verifyFunctionPost, append_eq_nil_iff] at post
  have whole := textOffset_length verified.scan post.1.1.1.1 balance
  have behind := textBehind_eq fn.instructions index
  rw [zero_dvd_iff] at near
  rw [moved, Option.some.injEq]
  omega

theorem balancedSource_balanced : ∃ m fn, parseModule balancedSource [] = some m ∧
    fn ∈ m.functions ∧ Verified m.layouts fn ∧ Run fn.instructions [0, 1, 4] 5 ∧
      netEffect fn.instructions [0, 1, 4] = some 0 := by
  have checked := sources_checked.1
  obtain ⟨m, parsed, found⟩ := (Option.any_eq_true _ _).1 checked
  obtain ⟨fn, mem, found⟩ := any_eq_true.1 found
  simp only [Bool.and_eq_true, decide_eq_true_iff, Bool.not_eq_true', all_eq_true] at found
  obtain ⟨⟨⟨⟨⟨verified, balance⟩, walk⟩, wide⟩, level⟩, behind⟩ := found
  have run : Run fn.instructions [0, 1, 4] 5 := Run.entry.walk walk
  refine ⟨m, fn, parsed, mem, verified, run,
    (return_balanced_iff verified balance run ?_ level).2 behind⟩
  intro line mem inst found
  have here := wide line mem
  rw [found, Option.all_some, beq_iff_eq] at here
  exact here

theorem earlyReturnSource_unbalanced : ∃ m fn ret, parseModule earlyReturnSource [] = some m ∧
    m.issues = [] ∧ fn ∈ m.functions ∧ Verified m.layouts fn ∧
      hasWord fn.requires "stack.balance.unchecked" = false ∧
      hasWord fn.requires "stack.call_alignment.unchecked" = false ∧
      Run fn.instructions [0, 1, 2] 3 ∧ fn.instructions[3]? = some ret ∧
        oneOf ret.op ["ret", "retq"] = true ∧ netEffect fn.instructions [0, 1, 2] = some (-8) := by
  have checked := sources_checked.2.1
  obtain ⟨m, fn, parsed, none, mem, found⟩ := exists_function checked
  simp only [Bool.and_eq_true, decide_eq_true_iff, Bool.not_eq_true', Option.any_eq_true] at found
  obtain ⟨⟨⟨⟨⟨verified, balance⟩, calls⟩, walk⟩, ret, last, returns⟩, net⟩ := found
  exact ⟨m, fn, ret, parsed, isEmpty_iff.1 none, mem, verified, balance, calls,
    Run.entry.walk walk, last, returns, net⟩

/-- The stack pointer is a multiple of 16 behind the lines of a run, if it is 8 more than one at
the beginning. -/
def AlignedBehind (body : List Instruction) (executed : List Nat) : Prop :=
  ∃ net, netEffect body executed = some net ∧ (8 + net) % 16 = 0

theorem textOffset_call {call : Instruction} (scan : (verifyFunctionInstructions fn).issues = [])
    (calls : hasWord fn.requires "stack.call_alignment.unchecked" = false)
    (found : fn.instructions[index]? = some call)
    (isCall : oneOf call.op ["call", "callq"] = true) :
    (8 + textOffset fn.instructions index) % 16 = 0 := by
  have line := lineClean scan found
  have aligned := line.aligned
  have within := (List.getElem?_eq_some_iff.1 found).1.le
  have kind := (stackOp_table line.knownOp).2.2.2.2.2 isCall
  rw [checkCallAlignment, kind.2, calls, stackStep_eq fn line.knownOp, kind.1,
    scanBefore_stackDelta scan within] at aligned
  dsimp only at aligned
  rw [stackWrite_delta, add_zero] at aligned
  split_ifs at aligned with skipped unknown
  · simp at skipped
  unfold issueIf at aligned
  split at aligned
  next => simp at aligned
  next multiple =>
    rw [decide_eq_true_iff, not_not] at multiple
    exact Int.emod_eq_zero_of_dvd (Int.dvd_of_tmod_eq_zero multiple)

/-- A call of an accepted function is made with an aligned stack on every run that writes the stack
pointer only in ways that are followed, eight bytes at a time, and each of whose jumps passes over a
stretch that adds up to a multiple of 16. -/
theorem call_aligned {call : Instruction} (verified : Verified layouts fn)
    (calls : hasWord fn.requires "stack.call_alignment.unchecked" = false)
    (run : Run fn.instructions executed index) (found : fn.instructions[index]? = some call)
    (isCall : oneOf call.op ["call", "callq"] = true)
    (followed : Followed fn.instructions executed)
    (level : (executed ++ [index]).IsChain (Level fn.instructions 16)) :
    AlignedBehind fn.instructions executed := by
  have aligned := textOffset_call verified.scan calls found isCall
  have effects : ∀ line ∈ executed, ∀ inst, fn.instructions[line]? = some inst →
      stackEffect inst = some (countedEffect inst) := by
    intro line mem inst found
    obtain ⟨wide, known⟩ := followed line mem inst found
    have effect := (lineClean verified.scan found).stackCase.effect.resolve_right
      fun lost => known lost.1
    rw [effect, wide, add_zero]
  obtain ⟨net, moved, near⟩ := run.level effects level
  exact ⟨net, moved, by omega⟩

theorem alignedCallSource_aligned : ∃ m fn call, parseModule alignedCallSource [] = some m ∧
    fn ∈ m.functions ∧ Verified m.layouts fn ∧ Run fn.instructions [0, 1, 2, 5] 6 ∧
      fn.instructions[6]? = some call ∧ oneOf call.op ["call", "callq"] = true ∧
        AlignedBehind fn.instructions [0, 1, 2, 5] := by
  have checked := sources_checked.2.2.1
  obtain ⟨m, parsed, found⟩ := (Option.any_eq_true _ _).1 checked
  obtain ⟨fn, mem, found⟩ := any_eq_true.1 found
  simp only [Bool.and_eq_true, decide_eq_true_iff, Bool.not_eq_true', Option.any_eq_true,
    all_eq_true] at found
  obtain ⟨⟨⟨⟨⟨verified, calls⟩, walk⟩, call, last, isCall⟩, followed⟩, level⟩ := found
  have run : Run fn.instructions [0, 1, 2, 5] 6 := Run.entry.walk walk
  refine ⟨m, fn, call, parsed, mem, verified, run, last, isCall,
    call_aligned verified calls run last isCall ?_ level⟩
  intro line mem inst found
  have here := followed line mem
  rw [found, Option.all_some, Bool.and_eq_true, beq_iff_eq, Option.isSome_iff_ne_none] at here
  exact here

theorem skippedPopSource_misaligned : ∃ m fn call, parseModule skippedPopSource [] = some m ∧
    m.issues = [] ∧ fn ∈ m.functions ∧ Verified m.layouts fn ∧
      hasWord fn.requires "stack.call_alignment.unchecked" = false ∧
      Run fn.instructions [0, 1, 2, 4, 5] 6 ∧ fn.instructions[6]? = some call ∧
        oneOf call.op ["call", "callq"] = true ∧
          ¬AlignedBehind fn.instructions [0, 1, 2, 4, 5] := by
  have checked := sources_checked.2.2.2
  obtain ⟨m, fn, parsed, none, mem, found⟩ := exists_function checked
  simp only [Bool.and_eq_true, decide_eq_true_iff, Bool.not_eq_true', Option.any_eq_true] at found
  obtain ⟨⟨⟨⟨verified, calls⟩, walk⟩, call, last, isCall⟩, net⟩ := found
  refine ⟨m, fn, call, parsed, isEmpty_iff.1 none, mem, verified, calls,
    Run.entry.walk walk, last, isCall, ?_⟩
  rintro ⟨other, same, aligned⟩
  rw [net, Option.some.injEq] at same
  omega

end Checks

end Elisa.Easm
