import Elisa.Easm.StackSoundness

/-!
# Jumps that stay in the body

Three notions of a known label take part in the checks of a jump (`easm_verify_function.elisa`).  A
conditional jump needs a label line with the name of its operand.  An unconditional one is known if
a label line merely contains its operand, but without direct control it also needs a label contract
with that name, and no check asks whether the body has a line for the contract.
-/

namespace Elisa.Easm

variable {fn : Function} {inst : Instruction}

def isJump (inst : Instruction) : Bool := startsWith inst.op (ascii "jmp")

def controlTarget (inst : Instruction) : Bytes := trim (checkedOperands inst).2

/-- Every jump goes to a label line of the body. -/
def JumpsClosed (fn : Function) : Prop :=
  ∀ inst ∈ fn.instructions, isJump inst = true ∨ isConditionalJump inst.op = true →
    (labelIndex fn.instructions (controlTarget inst)).isSome = true

instance (fn : Function) : Decidable (JumpsClosed fn) := by
  unfold JumpsClosed
  infer_instance

/-- Every label contract that a jump without a condition names has a label line in the body. -/
def ContractsDefined (fn : Function) : Prop :=
  ∀ contract ∈ fn.labels,
    (∃ inst ∈ fn.instructions, isJump inst = true ∧ controlTarget inst = contract.name) →
      (labelIndex fn.instructions contract.name).isSome = true

instance (fn : Function) : Decidable (ContractsDefined fn) := by
  unfold ContractsDefined
  infer_instance

/-- The capabilities with which a function may leave its body by a jump. -/
def asksForControl (fn : Function) : Bool :=
  hasWord fn.requires "control.direct" || hasWord fn.requires "relocation.symbol" ||
    hasWord fn.requires "control.indirect"

theorem issueIf_eq_nil {cond : Bool} {code message : String} {line : Int}
    (none_ : issueIf cond code line message = []) : cond = false := by
  cases cond with
  | false => rfl
  | true => exact absurd none_ (by simp [issueIf])

theorem issues_verifyInstruction (state : ScanState) :
    ∃ more, (verifyInstruction fn state inst).issues = state.issues ++ more := by
  unfold verifyInstruction
  dsimp only
  split
  · exact ⟨_, List.append_assoc _ _ _⟩
  · simp only [List.append_assoc]
    exact ⟨_, rfl⟩

theorem issues_foldl (instructions : List Instruction) (state : ScanState) :
    ∃ more, (instructions.foldl (verifyInstruction fn) state).issues = state.issues ++ more := by
  induction instructions generalizing state with
  | nil => exact ⟨[], (List.append_nil _).symm⟩
  | cons inst instructions ih =>
    obtain ⟨first, h⟩ := @issues_verifyInstruction fn inst state
    obtain ⟨rest, h'⟩ := ih (verifyInstruction fn state inst)
    exact ⟨first ++ rest, by rw [List.foldl_cons, h', h, List.append_assoc]⟩

section Accepted

variable (accepted : (verifyFunctionInstructions fn).issues = [])
include accepted

theorem checkControl_eq_nil (mem : inst ∈ fn.instructions) : checkControl fn inst = [] := by
  obtain ⟨before, after, split⟩ := List.append_of_mem mem
  rw [verifyFunctionInstructions, split, List.foldl_append, List.foldl_cons] at accepted
  generalize before.foldl (verifyInstruction fn) (initialScan fn) = state at accepted
  obtain ⟨more, issues⟩ := @issues_foldl fn after (verifyInstruction fn state inst)
  rw [issues, List.append_eq_nil_iff] at accepted
  obtain ⟨accepted, -⟩ := accepted
  unfold verifyInstruction at accepted
  dsimp only at accepted
  split at accepted
  · rename_i shape
    exact absurd (List.append_eq_nil_iff.1 accepted).2 shape
  · exact (List.append_eq_nil_iff.1 accepted).2

theorem jump_contracted (closed : asksForControl fn = false) (mem : inst ∈ fn.instructions)
    (jump : isJump inst = true) : ∃ contract ∈ fn.labels, contract.name = controlTarget inst := by
  simp only [asksForControl, Bool.or_eq_false_iff] at closed
  obtain ⟨⟨direct, relocation⟩, indirect⟩ := closed
  have checked := checkControl_eq_nil accepted mem
  simp only [checkControl, List.append_eq_nil_iff] at checked
  have notIndirect := issueIf_eq_nil checked.1.2
  have contracted := issueIf_eq_nil checked.2
  simp only [isJump] at jump
  simp only [jump, direct, relocation, indirect, Bool.or_true, Bool.true_and, Bool.not_false,
    Bool.and_true, Bool.or_false] at notIndirect contracted
  rw [notIndirect] at contracted
  simpa [controlTarget, List.any_eq_true] using contracted

theorem conditional_local (closed : asksForControl fn = false) (mem : inst ∈ fn.instructions)
    (jump : isConditionalJump inst.op = true) :
    (labelIndex fn.instructions (controlTarget inst)).isSome = true := by
  simp only [asksForControl, Bool.or_eq_false_iff] at closed
  obtain ⟨⟨direct, relocation⟩, -⟩ := closed
  have checked := checkControl_eq_nil accepted mem
  simp only [checkControl, List.append_eq_nil_iff] at checked
  have known := issueIf_eq_nil checked.1.1.1
  simpa [jump, direct, relocation, controlTarget] using known

end Accepted

/-- In an accepted function that asks for no control, every jump goes to a label line of the
body if and only if the contracts that its unconditional jumps name have one. -/
theorem jumpsClosed_iff (accepted : (verifyFunctionInstructions fn).issues = [])
    (closed : asksForControl fn = false) : JumpsClosed fn ↔ ContractsDefined fn := by
  constructor
  · rintro all contract - ⟨inst, mem, jump, named⟩
    exact named ▸ all inst mem (.inl jump)
  · rintro defined inst mem (jump | conditional)
    · obtain ⟨contract, contractMem, named⟩ := jump_contracted accepted closed mem jump
      exact named ▸ defined contract contractMem ⟨inst, mem, jump, named.symm⟩
    · exact conditional_local accepted closed mem conditional

/-- A jump back to a label that has a contract and a line. -/
def loopSource : Bytes := ascii
  "export def f(a: u64) -> void
  inputs:
    a = rdi
  labels:
    again: a
  clobbers:
    rdi, cc
  body:
    again:
    cmp $0, %rdi
    je done
    mov $0, %rdi
    jmp again
    done:
    ret
"

set_option maxRecDepth 10000 in
theorem loopSource_closed : ∃ m fn, parseModule loopSource [] = some m ∧ verifyModule m = [] ∧
    fn ∈ m.functions ∧ JumpsClosed fn := by
  have checked : ((parseModule loopSource []).any fun m => decide (verifyModule m = []) &&
      m.functions.any fun fn => decide ((verifyFunctionInstructions fn).issues = []) &&
        !asksForControl fn && decide (ContractsDefined fn)) = true := by
    rw [show loopSource = _ from ascii_ofList _]
    decide +kernel
  obtain ⟨m, fn, parsed, verified, mem, found⟩ := exists_function checked
  simp only [Bool.and_eq_true, decide_eq_true_iff, Bool.not_eq_true'] at verified found
  obtain ⟨⟨accepted, closed⟩, defined⟩ := found
  exact ⟨m, fn, parsed, verified, mem, (jumpsClosed_iff accepted closed).2 defined⟩

/-- A jump to a label that has a contract but no line. -/
def strayJumpSource : Bytes := ascii
  "export def f() -> void
  labels:
    gone
  clobbers:
    cc
  body:
    jmp gone
    ret
"

set_option maxRecDepth 10000 in
/-- The module is accepted without an issue, and the jump leaves the body. -/
theorem strayJumpSource_leaves : ¬ ∀ source m fn, parseModule source [] = some m →
    m.issues = [] → verifyModule m = [] → fn ∈ m.functions → Verified m.layouts fn →
    asksForControl fn = false → JumpsClosed fn := by
  intro claimed
  have checked : ((parseModule strayJumpSource []).any fun m => decide (m.issues = []) &&
      decide (verifyModule m = []) && m.functions.any fun fn => decide (Verified m.layouts fn) &&
        !asksForControl fn && !decide (JumpsClosed fn)) = true := by
    rw [show strayJumpSource = _ from ascii_ofList _]
    decide +kernel
  obtain ⟨m, fn, parsed, sound, mem, found⟩ := exists_function checked
  simp only [Bool.and_eq_true, decide_eq_true_iff, Bool.not_eq_true', decide_eq_false_iff_not]
    at sound found
  obtain ⟨⟨issues, verified⟩, ⟨accepted, closed⟩, stray⟩ := And.intro sound found
  exact stray (claimed _ m fn parsed issues verified mem accepted closed)

end Elisa.Easm
