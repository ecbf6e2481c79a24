import Mathlib.Data.List.Chain
import Mathlib.Data.List.GetD
import Elisa.Easm.ScanInvariant

/-!
# Types of address registers along runs

`memoryRoleScan` follows the types that registers carry in the order of the text, and asks that the
base of each address carries one that is no plain number.  `carriers` follows them along a run, by
the rules of the pass over the control flow (`provenanceTransfer`).

What a register has by the text behind an instruction is nothing, or what some register had before
it, and then the run copies from that register as well (`carrier_copied`).  So a run that jumps only
to where the text knows of no new pointer finds a pointer in every base (`base_typed`).
-/

namespace Elisa.Easm

open List

/-! ## Registers and slots -/

theorem registerSlot_lt {register : Bytes} {slot : Nat} (h : registerSlot register = some slot) :
    slot < 16 := (findIdx?_eq_some_iff_getElem.1 h).1

theorem registerSlot_nil : registerSlot [] = none := by decide

theorem registerBit_of_slot {register : Bytes} {slot : Nat}
    (h : registerSlot register = some slot) :
    registerBit register = slotBit slot := by
  simp [registerBit, h, slotBit]

theorem registerBit_of_none {register : Bytes} (h : registerSlot register = none) :
    registerBit register = 0 := by
  simp [registerBit, h]

theorem slotBit_inj {left right : Nat} (first : left < 16) (second : right < 16) :
    slotBit left = slotBit right ↔ left = right := by
  have all : ∀ a b : Fin 16, slotBit a = slotBit b ↔ a = b := by decide
  simpa [Fin.ext_iff] using all ⟨left, first⟩ ⟨right, second⟩

theorem slotBit_ne_zero {slot : Nat} (within : slot < 16) : slotBit slot ≠ 0 := by
  have all : ∀ a : Fin 16, slotBit a ≠ 0 := by decide
  exact all ⟨slot, within⟩

theorem provenanceRegistersEqual_iff {left right : Bytes} :
    provenanceRegistersEqual left right = true ↔
      ∃ slot, registerSlot left = some slot ∧ registerSlot right = some slot := by
  unfold provenanceRegistersEqual
  rw [Bool.and_eq_true, bne_iff_ne, beq_iff_eq]
  cases first : registerSlot left with
  | none => simp [registerBit_of_none first]
  | some slot =>
    rw [registerBit_of_slot first]
    have within := registerSlot_lt first
    cases second : registerSlot right with
    | none =>
      rw [registerBit_of_none second]
      exact ⟨fun h => absurd h.2 h.1, by simp⟩
    | some other =>
      rw [registerBit_of_slot second, slotBit_inj within (registerSlot_lt second)]
      exact ⟨fun h => ⟨slot, rfl, by rw [h.2]⟩, fun ⟨_, h, also⟩ =>
        ⟨slotBit_ne_zero within, (Option.some.inj h).trans (Option.some.inj also).symm⟩⟩

/-! ## Types by slot -/

/-- Whether an entry of the text is about a slot. -/
def atSlot (slot : Nat) (state : MemoryProvenance) : Bool :=
  registerSlot state.register == some slot

def slotType (states : List MemoryProvenance) (slot : Nat) : Bytes :=
  ((states.find? (atSlot slot)).map (·.typeName)).getD []

section Slots

variable {states : List MemoryProvenance} {register typeName parameter : Bytes} {slot : Nat}

theorem provenanceRegistersEqual_eq_atSlot {state : MemoryProvenance}
    (h : registerSlot register = some slot) :
    provenanceRegistersEqual state.register register = atSlot slot state := by
  rw [Bool.eq_iff_iff, provenanceRegistersEqual_iff, h, atSlot, beq_iff_eq]
  simp

theorem provenanceEntry_of_slot (h : registerSlot register = some slot) :
    provenanceEntry states register = states.find? (atSlot slot) := by
  unfold provenanceEntry
  congr 1
  funext state
  exact provenanceRegistersEqual_eq_atSlot h

theorem provenanceType_of_slot (h : registerSlot register = some slot) :
    provenanceType states register = slotType states slot := by
  rw [provenanceType, provenanceEntry_of_slot h, slotType]
  cases states.find? (atSlot slot) <;> rfl

theorem provenanceType_of_none (h : registerSlot register = none) :
    provenanceType states register = [] := by
  have absent : provenanceEntry states register = none := by
    rw [provenanceEntry, find?_eq_none]
    intro state _ same
    obtain ⟨slot, -, other⟩ := provenanceRegistersEqual_iff.1 same
    simp [h] at other
  rw [provenanceType, absent]

theorem provenanceSetParameter_cons (state : MemoryProvenance) :
    provenanceSetParameter (state :: states) register typeName parameter =
      if provenanceRegistersEqual state.register register then
        { register := register, typeName := typeName, parameter := parameter } :: states
      else state :: provenanceSetParameter states register typeName parameter := by
  unfold provenanceSetParameter
  rw [findIdx?_cons]
  cases provenanceRegistersEqual state.register register with
  | true => rfl
  | false =>
    rw [if_neg Bool.false_ne_true, if_neg Bool.false_ne_true]
    cases states.findIdx? (fun state => provenanceRegistersEqual state.register register) <;> rfl

theorem slotType_set : slotType (provenanceSetParameter states register typeName parameter) slot =
    if registerSlot register = some slot then typeName else slotType states slot := by
  induction states with
  | nil =>
    simp only [provenanceSetParameter, findIdx?_nil, nil_append, slotType,
      find?_singleton, atSlot, beq_iff_eq, find?_nil]
    split_ifs <;> rfl
  | cons state rest ih =>
    rw [provenanceSetParameter_cons]
    split
    next same =>
      obtain ⟨other, first, second⟩ := provenanceRegistersEqual_iff.1 same
      simp only [slotType, find?_cons, atSlot, first, second, Option.some.injEq]
      by_cases here : other = slot
      · simp [here]
      · have off : (some other == some slot) = false := by simpa using here
        simp only [off, here, if_false]
    rename_i differs
    by_cases here : atSlot slot state = true
    · have other : registerSlot register ≠ some slot := by
        intro h
        exact differs (by rw [provenanceRegistersEqual_eq_atSlot h, here])
      simp [slotType, here, other]
    · simpa [slotType, here] using ih

theorem any_atSlot_set : (provenanceSetParameter states register typeName parameter).any
    (atSlot slot) = (registerSlot register == some slot || states.any (atSlot slot)) := by
  induction states with
  | nil => simp [provenanceSetParameter, atSlot]
  | cons state rest ih =>
    rw [provenanceSetParameter_cons]
    split
    next same =>
      obtain ⟨other, first, second⟩ := provenanceRegistersEqual_iff.1 same
      simp [atSlot, first, second]
    next => rw [any_cons, any_cons, ih, Bool.or_left_comm]

end Slots

theorem lt_of_slotType {states : List MemoryProvenance} {slot : Nat}
    (carries : slotType states slot ≠ []) : slot < 16 := by
  cases found : states.find? (atSlot slot) with
  | none => simp [slotType, found] at carries
  | some state =>
    have here : registerSlot state.register = some slot := by
      simpa [atSlot] using find?_some found
    exact registerSlot_lt here

/-! ## Types along a run -/

section Flow

variable {flow : ProvenanceFlow} {slot other : Nat} {typeName : Bytes} {ambiguous : Bool}

theorem typeAt_assign (full : flow.types.length = 16) (within : other < 16) :
    (flow.assign other typeName ambiguous).typeAt slot =
      if other = slot then typeName else flow.typeAt slot := by
  simp only [ProvenanceFlow.assign, ProvenanceFlow.typeAt, getD_eq_getElem?_getD,
    getElem?_set, full]
  by_cases here : other = slot
  · subst here
    simp [within]
  · simp [here]

theorem typeAt_clobber {mask : Mask} : (flow.clobber mask).typeAt slot =
    if setBit mask (slotBit slot) then [] else flow.typeAt slot := by
  unfold ProvenanceFlow.clobber ProvenanceFlow.typeAt
  cases found : flow.types[slot]? with
  | none => simp [found]
  | some typeName => simp [found]

@[simp] theorem length_assign :
    (flow.assign other typeName ambiguous).types.length = flow.types.length := by
  simp [ProvenanceFlow.assign]

@[simp] theorem length_erase : (flow.erase other).types.length = flow.types.length := length_assign

@[simp] theorem length_clobber {mask : Mask} :
    (flow.clobber mask).types.length = flow.types.length := by
  simp [ProvenanceFlow.clobber]

theorem typeAt_erase (full : flow.types.length = 16) (within : other < 16) :
    (flow.erase other).typeAt slot = if other = slot then [] else flow.typeAt slot :=
  typeAt_assign full within

end Flow

/-! ## One instruction -/

section Instructions

variable {states : List MemoryProvenance} {inst : Instruction} {slot : Nat}

/-- What an operation changes besides its operands. -/
def clobberedMask (op : Bytes) : Mask :=
  if startsWith op (ascii "call") then callClobberMask else implicitWriteMask op

theorem atSlot_clobber {mask : Mask} (slot : Nat) :
    (atSlot slot ∘ fun state : MemoryProvenance =>
      if setBit mask (registerBit state.register) then
        { state with typeName := [], parameter := [] }
      else state) = atSlot slot := by
  funext state
  simp only [Function.comp_apply, atSlot]
  split <;> rfl

theorem slotType_clobber {mask : Mask} : slotType (states.map fun state =>
      if setBit mask (registerBit state.register) then
        { state with typeName := [], parameter := [] }
      else state) slot =
    if setBit mask (slotBit slot) then [] else slotType states slot := by
  unfold slotType
  rw [find?_map, atSlot_clobber]
  cases found : states.find? (atSlot slot) with
  | none => simp
  | some state =>
    have here : registerSlot state.register = some slot := by
      simpa [atSlot] using find?_some found
    rw [← registerBit_of_slot here]
    by_cases lost : setBit mask (registerBit state.register) = true
    · simp [lost]
    · simp [lost]

theorem typeAt_transfer_other {flow : ProvenanceFlow} (full : flow.types.length = 16)
    (plain : clobberedMask inst.op = 0) (exchange : startsWith inst.op (ascii "xchg") = false)
    (elsewhere : registerSlot (registerOperand inst.destination) ≠ some slot) :
    (provenanceTransfer inst flow).typeAt slot = flow.typeAt slot := by
  unfold provenanceTransfer
  extract_lets op clobbers destination source wide base
  rw [if_neg (show ¬clobbers ≠ 0 from not_not.2 plain)]
  split
  next => rfl
  rw [if_neg (show ¬startsWith op (ascii "xchg") = true by rw [exchange]; exact Bool.false_ne_true)]
  cases target : registerSlot destination with
  | none => rfl
  | some other =>
    have differs : other ≠ slot := by
      rintro rfl
      exact elsewhere target
    have kept (typeName : Bytes) (ambiguous : Bool) :
        (flow.assign other typeName ambiguous).typeAt slot = flow.typeAt slot :=
      (typeAt_assign full (registerSlot_lt target)).trans (if_neg differs)
    dsimp only
    repeat' split
    all_goals first
      | rfl
      | exact kept _ _

/-- What a slot has by some states of the text is what another slot had before, and a flow
copies from there. -/
def CopiedFrom (states next : List MemoryProvenance) (inst : Instruction) (slot : Nat) : Prop :=
  ∃ from_, slotType next slot = slotType states from_ ∧
    ∀ flow : ProvenanceFlow, flow.types.length = 16 →
      (provenanceTransfer inst flow).typeAt slot = flow.typeAt from_

theorem copied_of_clobber (machine : inst.pseudo = false) (clobbers : clobberedMask inst.op ≠ 0)
    (carries : slotType (updateMemoryProvenance states inst) slot ≠ []) :
    CopiedFrom states (updateMemoryProvenance states inst) inst slot := by
  have text : slotType (updateMemoryProvenance states inst) slot =
      if setBit (clobberedMask inst.op) (slotBit slot) then [] else slotType states slot := by
    rw [← slotType_clobber, updateMemoryProvenance, machine, if_neg Bool.false_ne_true]
    dsimp only
    rw [if_pos (show (if startsWith inst.op (ascii "call") then callClobberMask
      else implicitWriteMask inst.op) ≠ 0 from clobbers)]
    rfl
  rw [text] at carries
  split at carries
  next => simp at carries
  rename_i kept
  refine ⟨slot, by rw [text, if_neg kept], fun flow full => ?_⟩
  unfold provenanceTransfer
  dsimp only
  rw [if_pos (show (if startsWith inst.op (ascii "call") then callClobberMask
    else implicitWriteMask inst.op) ≠ 0 from clobbers), typeAt_clobber]
  exact if_neg kept

theorem update_eq (machine : inst.pseudo = false) (plain : clobberedMask inst.op = 0)
    (exchange : startsWith inst.op (ascii "xchg") = false) :
    updateMemoryProvenance states inst =
      let destination := registerOperand inst.destination
      let source := registerOperand inst.source
      let copy (carrier : Bytes) := provenanceSetParameter states destination
        (provenanceType states carrier) (provenanceParameter states carrier)
      let wide := addressRegisterWidth destination = .width64
      if destination = [] then states
      else if oneOf inst.op ["mov", "movq"] ∧ wide ∧
          (source = [] ∨ addressRegisterWidth source = .width64) then copy source
      else if oneOf inst.op ["lea", "leaq"] ∧ wide ∧
          addressRegisterWidth (memoryBaseRegister inst.source) = .width64 then
        copy (memoryBaseRegister inst.source)
      else if keepsCarrier inst.op ∧ wide then copy destination
      else provenanceSetParameter states destination [] [] := by
  unfold updateMemoryProvenance
  dsimp only
  rw [machine, if_neg Bool.false_ne_true, if_neg (show ¬(if startsWith inst.op (ascii "call") then
    callClobberMask else implicitWriteMask inst.op) ≠ 0 from not_not.2 plain), exchange,
    if_neg Bool.false_ne_true]

theorem transfer_eq {flow : ProvenanceFlow} (plain : clobberedMask inst.op = 0)
    (exchange : startsWith inst.op (ascii "xchg") = false)
    (writes : oneOf inst.op ["mov", "movq"] || oneOf inst.op ["lea", "leaq"] ||
      keepsCarrier inst.op)
    (target : registerSlot (registerOperand inst.destination) = some slot) :
    provenanceTransfer inst flow =
      let source := registerOperand inst.source
      let base := memoryBaseRegister inst.source
      let wide := addressRegisterWidth (registerOperand inst.destination) = .width64
      if oneOf inst.op ["mov", "movq"] ∧ wide ∧
          (registerSlot source = none ∨ addressRegisterWidth source = .width64) then
        match registerSlot source with
        | some from_ => flow.assign slot (flow.typeAt from_) (flow.ambiguousAt from_)
        | none => flow.erase slot
      else if oneOf inst.op ["lea", "leaq"] ∧ wide then
        match registerSlot base with
        | some from_ =>
          if addressRegisterWidth base = .width64 then
            flow.assign slot (flow.typeAt from_) (flow.ambiguousAt from_)
          else flow.erase slot
        | none => flow.erase slot
      else if keepsCarrier inst.op ∧ wide then flow
      else flow.erase slot := by
  have late : (startsWith inst.op (ascii "cmp") || startsWith inst.op (ascii "test") ||
      startsWith inst.op (ascii "push") || startsWith inst.op (ascii "jmp") ||
      startsWith inst.op (ascii "ret")) = false := by
    have listed : oneOf inst.op (["mov", "movq"] ++ ["lea", "leaq"] ++ ["add", "addq", "sub",
        "subq", "inc", "incq", "dec", "decq"]) = true := by
      simpa [oneOf, keepsCarrier, or_assoc] using writes
    obtain ⟨word, mem, equal⟩ := any_eq_true.1 listed
    rw [beq_iff_eq.1 equal]
    clear equal
    revert word
    decide
  unfold provenanceTransfer
  dsimp only
  rw [if_neg (show ¬(if startsWith inst.op (ascii "call") then callClobberMask
    else implicitWriteMask inst.op) ≠ 0 from not_not.2 plain), late, exchange,
    if_neg Bool.false_ne_true, if_neg Bool.false_ne_true]
  generalize registerSlot (registerOperand inst.destination) = place at target ⊢
  subst target
  rfl

theorem oneOf_apart {op : Bytes} {words others : List String} (h : oneOf op words = true)
    (apart : (words.all fun word => !oneOf (ascii word) others) = true) :
    oneOf op others = false := by
  obtain ⟨word, mem, equal⟩ := any_eq_true.1 h
  rw [beq_iff_eq.1 equal]
  simpa using all_eq_true.1 apart word mem

theorem slot_of_provenanceType {register : Bytes} (carries : provenanceType states register ≠ []) :
    ∃ slot, registerSlot register = some slot := by
  rw [← Option.isSome_iff_exists, Option.isSome_iff_ne_none]
  intro none
  exact carries (provenanceType_of_none none)

theorem copied_of_plain (machine : inst.pseudo = false) (plain : clobberedMask inst.op = 0)
    (exchange : startsWith inst.op (ascii "xchg") = false)
    (carries : slotType (updateMemoryProvenance states inst) slot ≠ []) :
    CopiedFrom states (updateMemoryProvenance states inst) inst slot := by
  by_cases here : registerSlot (registerOperand inst.destination) = some slot
  · have within := registerSlot_lt here
    have written : registerOperand inst.destination ≠ [] := by
      intro none
      simp [none, registerSlot_nil] at here
    unfold CopiedFrom
    rw [update_eq machine plain exchange] at carries ⊢
    dsimp only at carries ⊢
    rw [if_neg written] at carries ⊢
    split_ifs at carries ⊢ with moves leas keeps
    · -- a move: both copy the type of the source
      rw [slotType_set, if_pos here] at carries
      obtain ⟨from_, source⟩ := slot_of_provenanceType carries
      have width := moves.2.2.resolve_left (by rintro none; simp [none, registerSlot_nil] at source)
      refine ⟨from_, by rw [slotType_set, if_pos here, provenanceType_of_slot source], ?_⟩
      intro flow full
      rw [transfer_eq plain exchange (by simp [moves.1]) here]
      dsimp only
      rw [if_pos ⟨moves.1, moves.2.1, .inr width⟩, source]
      exact (typeAt_assign full within).trans (if_pos rfl)
    · -- an address: both copy the type of its base
      rw [slotType_set, if_pos here] at carries
      obtain ⟨from_, base⟩ := slot_of_provenanceType carries
      refine ⟨from_, by rw [slotType_set, if_pos here, provenanceType_of_slot base], ?_⟩
      intro flow full
      rw [transfer_eq plain exchange (by simp [leas.1]) here]
      dsimp only
      have noMove : oneOf inst.op ["mov", "movq"] = false := oneOf_apart leas.1 (by decide)
      rw [if_neg (by simp [noMove]), if_pos ⟨leas.1, leas.2.1⟩, base]
      dsimp only
      rw [if_pos leas.2.2]
      exact (typeAt_assign full within).trans (if_pos rfl)
    · -- an addition: both keep the type
      rw [slotType_set, if_pos here, provenanceType_of_slot here]
      refine ⟨slot, rfl, fun flow full => ?_⟩
      rw [transfer_eq plain exchange (by simp [keeps.1]) here]
      dsimp only
      have noMove : oneOf inst.op ["mov", "movq"] = false := oneOf_apart keeps.1 (by decide)
      have noLea : oneOf inst.op ["lea", "leaq"] = false := oneOf_apart keeps.1 (by decide)
      rw [if_neg (by simp [noMove]), if_neg (by simp [noLea]), if_pos keeps]
    · rw [slotType_set, if_pos here] at carries
      exact absurd rfl carries
  · refine ⟨slot, ?_, fun flow full => typeAt_transfer_other full plain exchange here⟩
    rw [update_eq machine plain exchange]
    dsimp only
    split_ifs
    · rfl
    all_goals rw [slotType_set, if_neg here]

theorem slot_of_wide {register : Bytes} (wide : addressRegisterWidth register = .width64) :
    ∃ slot, registerSlot register = some slot := by
  unfold addressRegisterWidth at wide
  split_ifs at wide with named
  obtain ⟨word, mem, equal⟩ := any_eq_true.1 named
  rw [beq_iff_eq.1 equal, ← Option.isSome_iff_exists]
  clear equal
  revert word
  decide

theorem slotType_exchange (machine : inst.pseudo = false) (plain : clobberedMask inst.op = 0)
    (exchange : startsWith inst.op (ascii "xchg") = true) :
    slotType (updateMemoryProvenance states inst) slot =
      let destination := registerOperand inst.destination
      let source := registerOperand inst.source
      let wide := addressRegisterWidth destination = .width64 ∧
        addressRegisterWidth source = .width64 ∧ oneOf inst.op ["xchgq", "xchg"]
      if registerSlot destination = some slot then
        if wide then provenanceType states source else []
      else if registerSlot source = some slot then
        if wide then provenanceType states destination else []
      else slotType states slot := by
  have erased (states : List MemoryProvenance) (register : Bytes) :
      slotType (if register ≠ [] then provenanceSetParameter states register [] [] else states)
        slot = if registerSlot register = some slot then [] else slotType states slot := by
    split
    next => rw [slotType_set]
    next none =>
      rw [not_not] at none
      rw [none, registerSlot_nil, if_neg (by simp)]
  unfold updateMemoryProvenance
  dsimp only
  rw [machine, if_neg Bool.false_ne_true, if_neg (show ¬(if startsWith inst.op (ascii "call") then
    callClobberMask else implicitWriteMask inst.op) ≠ 0 from not_not.2 plain), exchange, if_pos rfl]
  split
  next wide =>
    rw [slotType_set, slotType_set]
  next narrow =>
    rw [erased, erased]

theorem typeAt_exchange {flow : ProvenanceFlow} (full : flow.types.length = 16)
    (plain : clobberedMask inst.op = 0) (exchange : startsWith inst.op (ascii "xchg") = true) :
    (provenanceTransfer inst flow).typeAt slot =
      let destination := registerOperand inst.destination
      let source := registerOperand inst.source
      let wide := addressRegisterWidth destination = .width64 ∧
        addressRegisterWidth source = .width64 ∧ oneOf inst.op ["xchgq", "xchg"]
      if registerSlot destination = some slot then
        if wide then (registerSlot source).elim [] flow.typeAt else []
      else if registerSlot source = some slot then
        if wide then (registerSlot destination).elim [] flow.typeAt else []
      else flow.typeAt slot := by
  have head := head?_of_startsWith exchange (by decide)
  have late : (startsWith inst.op (ascii "cmp") || startsWith inst.op (ascii "test") ||
      startsWith inst.op (ascii "push") || startsWith inst.op (ascii "jmp") ||
      startsWith inst.op (ascii "ret")) = false := by
    rw [Bool.eq_false_iff]
    intro early
    simp only [Bool.or_eq_true] at early
    rcases early with (((early | early) | early) | early) | early <;>
      exact absurd (head.symm.trans (head?_of_startsWith early (by decide))) (by decide)
  unfold provenanceTransfer
  dsimp only
  rw [if_neg (show ¬(if startsWith inst.op (ascii "call") then callClobberMask
    else implicitWriteMask inst.op) ≠ 0 from not_not.2 plain), late, exchange,
    if_neg Bool.false_ne_true, if_pos rfl]
  unfold exchangeTypes
  dsimp only
  generalize registerOperand inst.destination = destination
  generalize registerOperand inst.source = source
  cases second : registerSlot source with
  | none =>
    have narrow : addressRegisterWidth source ≠ .width64 := by
      intro wide
      obtain ⟨slot, some⟩ := slot_of_wide wide
      simp [some] at second
    cases first : registerSlot destination with
    | none => simp
    | some to_ => simp [typeAt_erase full (registerSlot_lt first), narrow]
  | some from_ =>
    cases first : registerSlot destination with
    | none =>
      have narrow : addressRegisterWidth destination ≠ .width64 := by
        intro wide
        obtain ⟨slot, some⟩ := slot_of_wide wide
        simp [some] at first
      simp [typeAt_erase full (registerSlot_lt second), narrow]
    | some to_ =>
      simp only [Option.some.injEq, Option.elim_some]
      split
      next wide =>
        rw [typeAt_assign (by simp [full]) (registerSlot_lt first),
          typeAt_assign full (registerSlot_lt second)]
      next narrow =>
        rw [typeAt_erase (by simp [full]) (registerSlot_lt first),
          typeAt_erase full (registerSlot_lt second)]

theorem copied_of_exchange (machine : inst.pseudo = false) (plain : clobberedMask inst.op = 0)
    (exchange : startsWith inst.op (ascii "xchg") = true)
    (carries : slotType (updateMemoryProvenance states inst) slot ≠ []) :
    CopiedFrom states (updateMemoryProvenance states inst) inst slot := by
  unfold CopiedFrom
  rw [slotType_exchange machine plain exchange] at carries ⊢
  dsimp only at carries ⊢
  split at carries
  next first =>
    split at carries
    next wide =>
      obtain ⟨from_, second⟩ := slot_of_provenanceType carries
      refine ⟨from_, by rw [if_pos first, if_pos wide, provenanceType_of_slot second], ?_⟩
      intro flow full
      rw [typeAt_exchange full plain exchange]
      dsimp only
      rw [if_pos first, if_pos wide, second, Option.elim_some]
    next => simp at carries
  rename_i elsewhere
  split at carries
  next second =>
    split at carries
    next wide =>
      obtain ⟨from_, first⟩ := slot_of_provenanceType carries
      refine ⟨from_, ?_, ?_⟩
      · rw [if_neg elsewhere, if_pos second, if_pos wide, provenanceType_of_slot first]
      · intro flow full
        rw [typeAt_exchange full plain exchange]
        dsimp only
        rw [if_neg elsewhere, if_pos second, if_pos wide, first, Option.elim_some]
    next => simp at carries
  rename_i untouched
  refine ⟨slot, by rw [if_neg elsewhere, if_neg untouched], fun flow full => ?_⟩
  rw [typeAt_exchange full plain exchange]
  dsimp only
  rw [if_neg elsewhere, if_neg untouched]

/-- What a slot has by the text behind an instruction it has got from some slot before it, and a
run copies from there as well. -/
theorem carrier_copied (machine : inst.pseudo = false)
    (carries : slotType (updateMemoryProvenance states inst) slot ≠ []) :
    CopiedFrom states (updateMemoryProvenance states inst) inst slot := by
  by_cases plain : clobberedMask inst.op = 0
  · cases exchange : startsWith inst.op (ascii "xchg") with
    | false => exact copied_of_plain machine plain exchange carries
    | true => exact copied_of_exchange machine plain exchange carries
  · exact copied_of_clobber machine plain carries

end Instructions

/-! ## Bodies -/

def textTypes (fn : Function) (index : Nat) : List MemoryProvenance :=
  (fn.instructions.take index).foldl updateMemoryProvenance (inputProvenance fn)

/-- The types that a run brings: those of the inputs, as the machine instructions that it has
executed have changed them.  A pseudo instruction is not executed. -/
def carriers (fn : Function) (executed : List Nat) : ProvenanceFlow :=
  executed.foldl
    (fun flow index =>
      match fn.instructions[index]? with
      | some inst => if inst.pseudo then flow else provenanceTransfer inst flow
      | none => flow)
    (initialProvenance fn)

/-- A type that a base may carry. -/
def PointerType (typeName : Bytes) : Prop := typeName ≠ [] ∧ rawScalarType typeName = false

/-- Where a line that is executed next knows a pointer by the text, the text behind the line
before it knows one. -/
def Agrees (fn : Function) (index next : Nat) : Prop :=
  ∀ slot < 16, PointerType (slotType (textTypes fn next) slot) →
    PointerType (slotType (textTypes fn (index + 1)) slot)

instance : DecidablePred PointerType := fun _ => inferInstanceAs (Decidable (_ ∧ _))

instance (fn : Function) : DecidableRel (Agrees fn) := fun _ _ =>
  inferInstanceAs (Decidable (∀ slot < 16, _ → _))

section Bodies

variable {fn : Function} {index : Nat} {inst : Instruction} {slot : Nat}

theorem textTypes_succ (found : fn.instructions[index]? = some inst) :
    textTypes fn (index + 1) = updateMemoryProvenance (textTypes fn index) inst := by
  simp [textTypes, take_add_one, found]

theorem slotType_inputProvenance (fn : Function) (slot : Nat) :
    (initialProvenance fn).types.length = 16 ∧
      slotType (inputProvenance fn) slot = (initialProvenance fn).typeAt slot := by
  have bind : ∀ (inputs : List Bytes) (states : List MemoryProvenance) (flow : ProvenanceFlow),
      flow.types.length = 16 → (∀ slot, slotType states slot = flow.typeAt slot) →
      let states := inputs.foldl (fun states input =>
        if bindingRegister input = [] then states
        else provenanceSetParameter states (bindingRegister input)
          (paramType fn (bindingName input)) (bindingName input)) states
      let flow := inputs.foldl (fun flow input =>
        match registerSlot (bindingRegister input) with
        | some slot =>
          { flow with types := flow.types.set slot (paramType fn (bindingName input)) }
        | none => flow) flow
      flow.types.length = 16 ∧ ∀ slot, slotType states slot = flow.typeAt slot := by
    intro inputs
    induction inputs with
    | nil => exact fun states flow full same => ⟨full, same⟩
    | cons input rest ih =>
      intro states flow full same
      cases target : registerSlot (bindingRegister input) with
      | none =>
        refine ih _ _ (by simpa [target] using full) fun slot => ?_
        simp only [target, ← same slot]
        split
        next => rfl
        next => rw [slotType_set, target, if_neg (by simp)]
      | some other =>
        have written : bindingRegister input ≠ [] := by
          intro none
          simp [none, registerSlot_nil] at target
        refine ih _ _ (by simpa [target] using full) fun slot => ?_
        simp only [target, if_neg written, slotType_set, Option.some.injEq, same]
        have assigned := @typeAt_assign flow slot other (paramType fn (bindingName input))
          (flow.ambiguousAt other) full (registerSlot_lt target)
        exact assigned.symm
  have none : ∀ slot, slotType [] slot = ({ ProvenanceFlow.empty with valid := true } :
      ProvenanceFlow).typeAt slot := by
    intro slot
    exact (@getElem?_getD_replicate_default_eq _ [] 16 slot).symm
  obtain ⟨full, same⟩ := bind fn.inputs [] _ (by simp [ProvenanceFlow.empty]) none
  exact ⟨full, same slot⟩

theorem any_atSlot_update {states : List MemoryProvenance}
    (bound : states.any (atSlot slot) = true) :
    (updateMemoryProvenance states inst).any (atSlot slot) = true := by
  simp only [updateMemoryProvenance, apply_ite (any · (atSlot slot)), any_atSlot_set, any_map,
    atSlot_clobber, bound, Bool.or_true, ite_self]

theorem baseIssues_of_scan {layouts : List Layout} {states : List MemoryProvenance}
    {body : List Instruction} (none : memoryRoleScan fn layouts states body = [])
    (found : body[index]? = some inst) (machine : inst.pseudo = false)
    (access : startsWith inst.op (ascii "lea") = false) {operand : Bytes}
    (mem : operand ∈ addressOperands inst) :
    baseIssues fn layouts ((body.take index).foldl updateMemoryProvenance states) inst operand =
      [] := by
  induction body generalizing states index with
  | nil => simp at found
  | cons first rest ih =>
    rw [memoryRoleScan, append_eq_nil_iff] at none
    cases index with
    | zero =>
      obtain rfl : first = inst := by simpa using found
      have all := none.1
      rw [machine, access] at all
      simpa using flatMap_eq_nil_iff.1 all operand mem
    | succ index => exact ih none.2 found

theorem any_atSlot_textTypes {input : Bytes} (mem : input ∈ fn.inputs)
    (bound : registerSlot (bindingRegister input) = some slot) (index : Nat) :
    (textTypes fn index).any (atSlot slot) = true := by
  have run : ∀ (body : List Instruction) (states : List MemoryProvenance),
      states.any (atSlot slot) = true →
      (body.foldl updateMemoryProvenance states).any (atSlot slot) = true := by
    intro body
    induction body with
    | nil => exact fun states same => same
    | cons inst rest ih => exact fun states same => ih _ (any_atSlot_update same)
  have bind : ∀ (inputs : List Bytes) (states : List MemoryProvenance),
      input ∈ inputs ∨ states.any (atSlot slot) = true →
      (inputs.foldl (fun states input =>
        if bindingRegister input = [] then states
        else provenanceSetParameter states (bindingRegister input)
          (paramType fn (bindingName input)) (bindingName input)) states).any
            (atSlot slot) = true := by
    intro inputs
    induction inputs with
    | nil => simp
    | cons first rest ih =>
      intro states some
      refine ih _ ?_
      rw [mem_cons] at some
      rcases some with (rfl | later) | already
      · right
        have written : bindingRegister input ≠ [] := by
          intro none
          simp [none, registerSlot_nil] at bound
        dsimp only
        rw [if_neg written, any_atSlot_set, bound]
        simp
      · exact .inl later
      right
      dsimp only
      split
      next => exact already
      next => rw [any_atSlot_set, already, Bool.or_true]
  exact run _ _ (bind _ _ (.inl mem))

theorem baseType_of_slot {base : Bytes} (found : registerSlot base = some slot) (index : Nat) :
    baseType fn (textTypes fn index) base = slotType (textTypes fn index) slot := by
  rw [baseType, provenanceEntry_of_slot found, slotType]
  cases entry : (textTypes fn index).find? (atSlot slot) with
  | some state => rfl
  | none =>
    dsimp only [Option.map_none, Option.getD_none]
    unfold inputTypeForRegister
    cases chosen : fn.inputs.find? _ with
    | none => rfl
    | some input =>
      have binds := find?_some chosen
      rw [Bool.and_eq_true, decide_eq_true_iff, beq_iff_eq] at binds
      have bound : bindingRegister input = base := by
        rw [bindingRegister, if_neg (not_le.2 binds.1), binds.2]
      have present := any_atSlot_textTypes (mem_of_find?_eq_some chosen) (bound ▸ found) index
      obtain ⟨state, mem, here⟩ := any_eq_true.1 present
      exact absurd here (find?_eq_none.1 entry state mem)

theorem pointerType_of_scan {layouts : List Layout} (verified : verifyMemoryRoles fn layouts = [])
    (typed : hasWord fn.requires "memory.base.untyped" = false)
    (found : fn.instructions[index]? = some inst) (machine : inst.pseudo = false)
    (access : startsWith inst.op (ascii "lea") = false) {operand : Bytes}
    (mem : operand ∈ addressOperands inst) (memory : memoryOperand operand = true)
    (base : registerSlot (memoryBaseRegister operand) = some slot)
    (notStack : memoryBaseRegister operand ≠ ascii "rsp") :
    PointerType (slotType (textTypes fn index) slot) := by
  have special : specialMemoryBase (memoryBaseRegister operand) = false := by
    rw [Bool.eq_false_iff]
    intro special
    simp only [specialMemoryBase, Bool.or_eq_true, beq_iff_eq] at special
    rcases special with (none | stack) | counter
    · rw [none] at base
      exact absurd (registerSlot_nil.symm.trans base) (by simp)
    · exact notStack stack
    · rw [counter] at base
      exact absurd ((show registerSlot (ascii "rip") = none by decide).symm.trans base) (by simp)
  unfold verifyMemoryRoles at verified
  simp only [append_eq_nil_iff] at verified
  have none := baseIssues_of_scan verified.1.1.2 found machine access mem
  rw [show (fn.instructions.take index).foldl updateMemoryProvenance (inputProvenance fn) =
    textTypes fn index from rfl, baseIssues, baseType_of_slot base, memory, special, typed] at none
  simp only [Bool.not_true, Bool.or_self, Bool.false_eq_true, if_false, Bool.not_false,
    Bool.and_true, append_eq_nil_iff] at none
  obtain ⟨⟨some, pointer⟩, -⟩ := none
  constructor
  · intro empty
    simp [empty, issueIf] at some
  · rw [Bool.eq_false_iff]
    intro raw
    simp [raw, issueIf] at pointer

end Bodies

/-! ## Runs -/

section Runs

variable {fn : Function} {executed : List Nat} {index next : Nat}

theorem carriers_concat (fn : Function) (executed : List Nat) {inst : Instruction}
    (found : fn.instructions[index]? = some inst) : carriers fn (executed ++ [index]) =
      if inst.pseudo then carriers fn executed
      else provenanceTransfer inst (carriers fn executed) := by
  simp [carriers, found]

theorem length_transfer (inst : Instruction) (flow : ProvenanceFlow) :
    (provenanceTransfer inst flow).types.length = flow.types.length := by
  unfold provenanceTransfer exchangeTypes
  dsimp only
  cases registerSlot (registerOperand inst.destination) <;>
    cases registerSlot (registerOperand inst.source) <;>
    cases registerSlot (memoryBaseRegister inst.source)
  all_goals simp [apply_ite ProvenanceFlow.types, apply_ite length]

theorem pointerType_of_run (run : Run fn.instructions executed index)
    (agree : (executed ++ [index]).IsChain (Agrees fn)) :
    (carriers fn executed).types.length = 16 ∧
      ∀ slot, PointerType (slotType (textTypes fn index) slot) →
        PointerType ((carriers fn executed).typeAt slot) := by
  induction run with
  | entry =>
    refine ⟨(slotType_inputProvenance fn 0).1, fun slot pointer => ?_⟩
    exact (slotType_inputProvenance fn slot).2 ▸ pointer
  | @step executed index next run mem ih =>
    rw [isChain_append] at agree
    obtain ⟨earlier, -, last⟩ := agree
    obtain ⟨full, invariant⟩ := ih earlier
    have lands : Agrees fn index next := last index (by simp) next (by simp)
    obtain ⟨inst, found, -⟩ := mem_successors_iff.1 mem
    rw [carriers_concat fn executed found]
    have bound (slot : Nat) (pointer : PointerType (slotType (textTypes fn next) slot)) :
        PointerType (slotType (updateMemoryProvenance (textTypes fn index) inst) slot) := by
      rw [← textTypes_succ found]
      exact lands slot (lt_of_slotType pointer.1) pointer
    cases machine : inst.pseudo with
    | true =>
      refine ⟨full, fun slot pointer => invariant slot ?_⟩
      simpa [updateMemoryProvenance, machine] using bound slot pointer
    | false =>
      rw [if_neg Bool.false_ne_true, length_transfer]
      refine ⟨full, fun slot pointer => ?_⟩
      have behind := bound slot pointer
      obtain ⟨from_, text, flow⟩ := carrier_copied machine behind.1
      rw [flow _ full]
      exact invariant from_ (text ▸ behind)

theorem scanInstruction_one {text : Bytes} (one : (scanInstruction text).count = 1) :
    (scanInstruction text).firstSeparator = text.length ∧
      (scanInstruction text).lastSeparator = text.length := by
  unfold scanInstruction at one ⊢
  extract_lets length start at one ⊢
  split_ifs at one ⊢
  · simp [emptyScanResult] at one
  cases group : addressGroup text start with
  | none => simp [group, invalidScanResult] at one
  | some parts =>
    simp only [group] at one ⊢
    split_ifs at one ⊢
    · exact ⟨rfl, rfl⟩
    all_goals simp [invalidScanResult] at one

theorem mem_addressOperands {inst : Instruction} {operand : Bytes}
    (mem : operand ∈ [inst.source, inst.destination]) : operand ∈ addressOperands inst := by
  unfold addressOperands
  dsimp only
  split
  next single =>
    rw [Bool.and_eq_true, beq_iff_eq] at single
    obtain ⟨first, last⟩ := scanInstruction_one single.2
    have same : inst.destination = inst.source := by
      simp [Instruction.destination, Instruction.source, lastOperand, firstOperand, first, last]
    simpa [same] using mem
  next => exact mem

/-- On every run whose jumps land only where the text knows of no pointer that it did not know of
at the jump, each access goes through a register that has got a pointer on the way. -/
theorem base_typed {layouts : List Layout} {inst : Instruction} {operand : Bytes} {slot : Nat}
    (verified : verifyMemoryRoles fn layouts = [])
    (typed : hasWord fn.requires "memory.base.untyped" = false)
    (run : Run fn.instructions executed index)
    (agree : (executed ++ [index]).IsChain (Agrees fn))
    (found : fn.instructions[index]? = some inst) (machine : inst.pseudo = false)
    (access : startsWith inst.op (ascii "lea") = false)
    (mem : operand ∈ [inst.source, inst.destination]) (memory : memoryOperand operand = true)
    (base : registerSlot (memoryBaseRegister operand) = some slot)
    (notStack : memoryBaseRegister operand ≠ ascii "rsp") :
    PointerType ((carriers fn executed).typeAt slot) := by
  refine (pointerType_of_run run agree).2 slot ?_
  exact pointerType_of_scan verified typed found machine access
    (mem_addressOperands mem) memory base
    notStack

/-- An access behind a jump over a line that changes no pointer. -/
def typedSource : Bytes := ascii
  "export def f(p: HostPtr) -> void
  inputs:
    p = rdi
  requires:
    control.direct
  clobbers:
    rax, rcx, memory
  body:
    mov %rdi, %rax
    jmp access
    mov $0, %rcx
    access:
    mov (%rax), %rcx
    ret
"

set_option maxRecDepth 10000 in
theorem typedSource_typed : ∃ m fn, parseModule typedSource [] = some m ∧ m.issues = [] ∧
    fn ∈ m.functions ∧ verifyMemoryRoles fn m.layouts = [] ∧ Run fn.instructions [0, 1, 3] 4 ∧
      PointerType ((carriers fn [0, 1, 3]).typeAt 0) := by
  have checked : ((parseModule typedSource []).any fun m => m.issues.isEmpty &&
      m.functions.any fun fn =>
      (verifyMemoryRoles fn m.layouts).isEmpty && !hasWord fn.requires "memory.base.untyped" &&
        isWalk fn.instructions [0, 1, 3, 4] &&
        decide (([0, 1, 3] ++ [4]).IsChain (Agrees fn)) &&
        (fn.instructions[4]?.any fun inst => !inst.pseudo && !startsWith inst.op (ascii "lea") &&
          memoryOperand inst.source && memoryBaseRegister inst.source == ascii "rax")) = true := by
    rw [show typedSource = _ from ascii_ofList _]
    decide +kernel
  obtain ⟨m, fn, parsed, none, mem, found⟩ := exists_function checked
  simp only [Bool.and_eq_true, Bool.not_eq_true', Option.any_eq_true, List.isEmpty_iff,
    beq_iff_eq, decide_eq_true_iff] at found
  obtain ⟨⟨⟨⟨verified, typed⟩, walk⟩, agree⟩, inst, fourth, ⟨⟨machine, access⟩, memory⟩, base⟩ :=
    found
  have run : Run fn.instructions [0, 1, 3] 4 := Run.entry.walk walk
  exact ⟨m, fn, parsed, List.isEmpty_iff.1 none, mem, verified, run, base_typed verified typed run
    agree fourth machine access (mem_cons_self ..) memory (by rw [base]; decide)
    (by rw [base]; decide)⟩

/-- A block that stands in the text behind a move of a pointer, but is executed behind a move of
a number. -/
def untypedSource : Bytes := ascii
  "export def f(p: HostPtr) -> void
  inputs:
    p = rdi
  requires:
    control.direct
  clobbers:
    rax, rcx, memory
  body:
    mov %rdi, %rax
    jmp number
    access:
    mov (%rax), %rcx
    ret
    number:
    mov $0, %rax
    jmp access
"

set_option maxRecDepth 10000 in
theorem untypedSource_untyped : ∃ m fn inst, parseModule untypedSource [] = some m ∧
    m.issues = [] ∧ fn ∈ m.functions ∧ verifyMemoryRoles fn m.layouts = [] ∧
      hasWord fn.requires "memory.base.untyped" = false ∧
      Run fn.instructions [0, 1, 5, 6, 7, 2] 3 ∧ fn.instructions[3]? = some inst ∧
      inst.pseudo = false ∧ startsWith inst.op (ascii "lea") = false ∧
      memoryOperand inst.source = true ∧ memoryBaseRegister inst.source = ascii "rax" ∧
      registerSlot (ascii "rax") = some 0 ∧
        (carriers fn [0, 1, 5, 6, 7, 2]).typeAt 0 = [] := by
  have checked : ((parseModule untypedSource []).any fun m => m.issues.isEmpty &&
      m.functions.any fun fn =>
      (verifyMemoryRoles fn m.layouts).isEmpty && !hasWord fn.requires "memory.base.untyped" &&
        isWalk fn.instructions [0, 1, 5, 6, 7, 2, 3] &&
        (fn.instructions[3]?.any fun inst => !inst.pseudo && !startsWith inst.op (ascii "lea") &&
          memoryOperand inst.source && memoryBaseRegister inst.source == ascii "rax") &&
        (carriers fn [0, 1, 5, 6, 7, 2]).typeAt 0 == []) = true := by
    rw [show untypedSource = _ from ascii_ofList _]
    decide +kernel
  obtain ⟨m, fn, parsed, none, mem, found⟩ := exists_function checked
  simp only [Bool.and_eq_true, Bool.not_eq_true', Option.any_eq_true, List.isEmpty_iff,
    beq_iff_eq] at found
  obtain ⟨⟨⟨⟨verified, typed⟩, walk⟩, inst, third, ⟨⟨machine, access⟩, memory⟩, base⟩, untyped⟩ :=
    found
  exact ⟨m, fn, inst, parsed, List.isEmpty_iff.1 none, mem, verified, typed, Run.entry.walk walk,
    third, machine, access, memory, base, by decide, untyped⟩

end Runs

end Elisa.Easm
