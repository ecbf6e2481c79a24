import Elisa.Easm.VerifyModule

/-!
# What a scan without issues has checked

Issues are only ever added.  So when the scan of a body ends without one, every check of every line
has passed in the state before the line (`lineClean`).  Runs through the body follow jumps, the
state of the scan does not (`Run`).
-/

namespace Elisa.Easm

/-! ## The state before a line -/

def scanBefore (fn : Function) (index : Nat) : ScanState :=
  (fn.instructions.take index).foldl (verifyInstruction fn) (initialScan fn)

@[simp] theorem scanBefore_zero (fn : Function) : scanBefore fn 0 = initialScan fn := rfl

theorem scanBefore_succ {fn : Function} {index : Nat} {inst : Instruction}
    (found : fn.instructions[index]? = some inst) :
    scanBefore fn (index + 1) = verifyInstruction fn (scanBefore fn index) inst := by
  simp [scanBefore, List.take_add_one, found]

theorem scanBefore_length (fn : Function) :
    scanBefore fn fn.instructions.length = verifyFunctionInstructions fn := by
  simp [scanBefore, verifyFunctionInstructions]

/-! ## Lines without issues -/

structure LineClean (fn : Function) (state : ScanState) (inst : Instruction) : Prop where
  known : unknownOpIssues inst = []
  shape : shapeIssues inst = []
  implicit : checkImplicit fn state.live inst = []
  reads : checkReads fn (implicitLive state.live inst.op) inst = []
  writes : checkWrites fn inst = []
  memory : checkMemory fn inst = []
  stack : (stackStep fn inst).issues = []
  aligned : checkCallAlignment fn inst (state.stackKnown && (stackStep fn inst).known)
    (state.stackDelta + (stackStep fn inst).delta) = []
  control : checkControl fn inst = []

section Lines

variable {fn : Function} {state : ScanState} {inst : Instruction}

theorem lineClean_of_issues (none : (verifyInstruction fn state inst).issues = []) :
    state.issues = [] ∧ LineClean fn state inst := by
  unfold verifyInstruction at none
  dsimp only at none
  split_ifs at none with shape
  · simp [shape] at none
  · simp only [List.append_eq_nil_iff] at none
    obtain ⟨⟨⟨⟨⟨⟨⟨⟨earlier, known⟩, implicit⟩, reads⟩, writes⟩, memory⟩, stack⟩, aligned⟩,
      control⟩ := none
    exact ⟨earlier, known, not_not.1 shape, implicit, reads, writes, memory, stack, aligned,
      control⟩

namespace LineClean

theorem stackDelta (clean : LineClean fn state inst) :
    (verifyInstruction fn state inst).stackDelta =
      state.stackDelta + (stackStep fn inst).delta := by
  simp [verifyInstruction, clean.shape]

theorem stackKnown (clean : LineClean fn state inst) :
    (verifyInstruction fn state inst).stackKnown =
      (state.stackKnown && (stackStep fn inst).known) := by
  simp [verifyInstruction, clean.shape]

theorem stackTouched (clean : LineClean fn state inst) :
    (verifyInstruction fn state inst).stackTouched =
      (state.stackTouched || (stackStep fn inst).touched) := by
  simp [verifyInstruction, clean.shape]

theorem knownOp (clean : LineClean fn state inst) : Easm.knownOp inst.op = true := by
  have known := clean.known
  unfold unknownOpIssues issueIf at known
  split at known
  next => simp at known
  next hidden =>
    rw [Bool.or_eq_true, not_or] at hidden
    simpa using hidden.2

end LineClean

theorem issues_of_foldl {body : List Instruction}
    (none : (body.foldl (verifyInstruction fn) state).issues = []) : state.issues = [] := by
  induction body generalizing state with
  | nil => exact none
  | cons inst rest ih => exact (lineClean_of_issues (ih none)).1

/-- Every line of a body without issues is clean in the state before it. -/
theorem lineClean {index : Nat} (clean : (verifyFunctionInstructions fn).issues = [])
    (found : fn.instructions[index]? = some inst) :
    LineClean fn (scanBefore fn index) inst := by
  have within := (List.getElem?_eq_some_iff.1 found).1
  have split : fn.instructions.drop index = inst :: fn.instructions.drop (index + 1) := by
    rw [List.drop_eq_getElem_cons within, (List.getElem?_eq_some_iff.1 found).2]
  have whole : verifyFunctionInstructions fn =
      (fn.instructions.drop index).foldl (verifyInstruction fn) (scanBefore fn index) := by
    rw [scanBefore, ← List.foldl_append, List.take_append_drop]
    rfl
  rw [whole, split] at clean
  exact (lineClean_of_issues (issues_of_foldl clean)).2

end Lines

/-! ## Runs -/

/-- A run through a body: the lines that it has executed from the first on, and the line that
comes next. -/
inductive Run (body : List Instruction) : List Nat → Nat → Prop where
  | entry : Run body [] 0
  | step {executed : List Nat} {index next : Nat} :
      Run body executed index → next ∈ successors body index → Run body (executed ++ [index]) next

section Runs

variable {body : List Instruction} {executed : List Nat} {index next : Nat}

theorem mem_successors_iff : next ∈ successors body index ↔ ∃ inst, body[index]? = some inst ∧
    (jumpTarget body inst = some next ∨
      isTerminator inst.op = false ∧ next = index + 1 ∧ next < body.length) := by
  unfold successors
  cases found : body[index]? with
  | none => simp
  | some inst =>
    rw [List.mem_append, Option.mem_toList]
    simp only [Option.some.injEq, exists_eq_left']
    refine or_congr_right ?_
    split
    next falls =>
      rw [Bool.and_eq_true, Bool.not_eq_true', decide_eq_true_iff] at falls
      rw [List.mem_singleton]
      exact ⟨fun same => ⟨falls.1, same, same ▸ falls.2⟩, fun h => h.2.1⟩
    rename_i stays
    simp only [List.not_mem_nil, false_iff]
    rintro ⟨falls, rfl, within⟩
    simp [falls, within] at stays

def isWalk (body : List Instruction) : List Nat → Bool
  | index :: next :: rest => (successors body index).contains next && isWalk body (next :: rest)
  | _ => true

theorem Run.walk {rest : List Nat} (run : Run body executed index)
    (walk : isWalk body (index :: rest ++ [next]) = true) :
    Run body (executed ++ index :: rest) next := by
  induction rest generalizing executed index with
  | nil =>
    simp only [List.singleton_append, isWalk, Bool.and_true, List.contains_iff_mem] at walk
    exact run.step walk
  | cons second rest ih =>
    simp only [List.cons_append, isWalk, Bool.and_eq_true, List.contains_iff_mem] at walk
    have longer := ih (run.step walk.1) walk.2
    rwa [List.append_assoc] at longer

end Runs

end Elisa.Easm
