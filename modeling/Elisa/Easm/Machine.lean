import Elisa.Lib.WordMemory
import Elisa.Easm.StackSoundness

/-!
# The machine that executes a body

Registers of 64 bits and a memory of bytes.  `execute` is exact where the verifier follows an
instruction: pushes and pops, moves of 64 bits, and additions of an immediate to the stack pointer.
Whatever else an instruction writes is taken from an oracle: a result that the verifier does not
look at, the flags of a conditional jump, and what a call leaves but for the callee-saved registers
and the stack pointer.
-/

namespace Elisa.Easm

open Lib (Memory)

/-! ## States -/

structure Machine where
  register : Nat → BitVec 64
  memory : Memory

abbrev rspSlot : Nat := 7

/-- The slots that a call keeps: the callee-saved registers and the stack pointer. -/
def keptByCalls : List Nat := [3, 6, 7, 12, 13, 14, 15]

namespace Machine

variable (s oracle : Machine) (inst : Instruction)

def sp : BitVec 64 := s.register rspSlot

end Machine

/-! ## Operands -/

def wideSlot (operand : Bytes) : Option Nat :=
  if addressRegisterWidth (registerOperand operand) = .width64 then
    registerSlot (registerOperand operand)
  else none

namespace Machine

def address (s : Machine) (operand : Bytes) : Option (BitVec 64) :=
  let base := memoryBaseRegister operand
  if memoryOperand operand && memoryIndexRegister operand == [] &&
      addressRegisterWidth base == .width64 then
    match registerSlot base, memoryDisplacementChecked operand with
    | some slot, some displacement => some (s.register slot + BitVec.ofInt 64 displacement)
    | _, _ => none
  else none

def value (s : Machine) (operand : Bytes) : Option (BitVec 64) :=
  match s.address operand, wideSlot operand with
  | some place, _ => some (s.memory.load place)
  | none, some slot => some (s.register slot)
  | none, none =>
    if operand.head? = some 36 then
      (immediateOperandAfterDollarChecked operand).map (BitVec.ofInt 64)
    else none

end Machine

/-! ## Instructions -/

def adjustment (inst : Instruction) : Option Int :=
  if registerOperand inst.destination ≠ ascii "rsp" then none
  else
    match stackOp inst.op with
    | .add => immediateOperandAfterDollarChecked inst.source
    | .sub => (immediateOperandAfterDollarChecked inst.source).map (- ·)
    | _ => none

def isCall (op : Bytes) : Bool := oneOf op ["call", "callq"]

def isMove (op : Bytes) : Bool := oneOf op ["mov", "movq"]

def changesRegister (inst : Instruction) (slot : Nat) : Bool :=
  setBit (implicitWriteMask inst.op) (slotBit slot) ||
    !keepsOperands inst.op &&
      (registerSlot (registerOperand inst.destination) == some slot ||
        startsWith inst.op (ascii "xchg") &&
          registerSlot (registerOperand inst.source) == some slot)

def changesMemory (inst : Instruction) : Bool :=
  memoryOperand inst.destination && !keepsOperands inst.op &&
      !oneOf inst.op ["fldcw", "ldmxcsr", "lea", "leaq"] ||
    memoryOperand inst.source && exchangesMemoryOperand inst.op

namespace Machine

def plainRegister (oracle s : Machine) (inst : Instruction) (slot : Nat) : BitVec 64 :=
  if isCall inst.op then if slot ∈ keptByCalls then s.register slot else oracle.register slot
  else
    match adjustment inst with
    | some amount => if slot = rspSlot then s.sp + BitVec.ofInt 64 amount else s.register slot
    | none =>
      if !changesRegister inst slot then s.register slot
      else if isMove inst.op && wideSlot inst.destination == some slot then
        (s.value inst.source).getD (oracle.register slot)
      else oracle.register slot

def registerAfter (oracle s : Machine) (inst : Instruction) (slot : Nat) : BitVec 64 :=
  match stackOp inst.op with
  | .push =>
    if slot = rspSlot then s.sp - BitVec.ofInt 64 (transferSize inst.source) else s.register slot
  | .pop =>
    if registerSlot (registerOperand inst.destination) = some slot then
      if wideSlot inst.destination = some slot then s.memory.load s.sp else oracle.register slot
    else if slot = rspSlot then s.sp + BitVec.ofInt 64 (transferSize inst.destination)
    else s.register slot
  | _ => plainRegister oracle s inst slot

def memoryAfter (oracle s : Machine) (inst : Instruction) : Memory :=
  match stackOp inst.op with
  | .push =>
    s.memory.store (s.sp - BitVec.ofInt 64 (transferSize inst.source))
      (transferSize inst.source).toNat ((s.value inst.source).getD oracle.sp)
  | _ =>
    if isCall inst.op then oracle.memory
    else if !changesMemory inst then s.memory
    else
      match isMove inst.op, s.address inst.destination, wideSlot inst.source with
      | true, some place, some slot => s.memory.store place 8 (s.register slot)
      | _, _, _ => oracle.memory

def execute (oracle : Machine) (inst : Instruction) (s : Machine) : Machine :=
  if inst.pseudo then s
  else { register := registerAfter oracle s inst, memory := memoryAfter oracle s inst }

end Machine

/-- An execution of a body: the lines that it has executed, the line that comes next, and the
machine there. -/
inductive Executes (body : List Instruction) (start : Machine) :
    List Nat → Nat → Machine → Prop where
  | entry : Executes body start [] 0 start
  | step {executed : List Nat} {index next : Nat} {s : Machine} {inst : Instruction}
      (oracle : Machine) :
      Executes body start executed index s → body[index]? = some inst →
      next ∈ successors body index →
      Executes body start (executed ++ [index]) next (Machine.execute oracle inst s)

end Elisa.Easm
