import Elisa.Easm.FlowFixpoint
import Elisa.Easm.ProvenanceSoundness

/-!
# The rounds over the types of registers

Here the parts of a state do depend on one another: a move copies the type of a register, so that a
disagreement at the target of a jump back can take a round for each register that it travels
through.  A state can change twice for each of the 16 registers, and the rounds of
`verifyProvenanceMerges` settle where they are enough for 33 changes at each target of a jump back
(`provenance_settles`); see `unsettledSource_unsettled`.  Then the result is the meet over all edges
(`provenance_solution`).
-/

namespace Elisa.Easm

open Lib.Dataflow List

/-! ## What is known of one register -/

/-- The type of a register, and whether edges have disagreed on it. -/
abbrev Carrier := Bytes × Bool

namespace Carrier

def unknown : Carrier := ([], false)

def meet (s t : Carrier) : Carrier := if s.1 = t.1 then (s.1, s.2 || t.2) else ([], true)

/-- How often what is known can still change. -/
def height (s : Carrier) : Nat := (if s.1 = [] then 0 else 1) + if s.2 then 0 else 1

variable {s t r : Carrier}

theorem meet_self : s.meet s = s := by simp [meet]

theorem meet_comm : s.meet t = t.meet s := by
  by_cases same : s.1 = t.1
  · simp [meet, same, Bool.or_comm]
  · simp [meet, same, Ne.symm same]

theorem meet_assoc : (s.meet t).meet r = s.meet (t.meet r) := by
  obtain ⟨type, ambiguous⟩ := s
  obtain ⟨type', ambiguous'⟩ := t
  obtain ⟨type'', ambiguous''⟩ := r
  simp only [meet]
  split_ifs <;> simp_all [Bool.or_assoc]

theorem height_le : s.height ≤ 2 := by
  unfold height
  split <;> split <;> omega

theorem height_meet_le : (s.meet t).height ≤ s.height := by
  obtain ⟨type, ambiguous⟩ := s
  obtain ⟨type', ambiguous'⟩ := t
  by_cases same : type = type'
  · cases ambiguous <;> cases ambiguous' <;> simp [meet, height, same]
  · simp [meet, height, same]

theorem height_meet_lt (changed : s.meet t ≠ s) : (s.meet t).height < s.height := by
  obtain ⟨type, ambiguous⟩ := s
  obtain ⟨type', ambiguous'⟩ := t
  by_cases same : type = type'
  · subst same
    cases ambiguous <;> cases ambiguous' <;> simp [meet, height] at changed ⊢
  · cases type <;> cases ambiguous <;> simp_all [meet, height]

end Carrier

/-! ## States -/

namespace ProvenanceFlow

def carrier (flow : ProvenanceFlow) (slot : Nat) : Carrier :=
  (flow.typeAt slot, flow.ambiguous.getLsbD slot)

/-- The states that come up: of the 16 registers, and of no others. -/
structure Good (flow : ProvenanceFlow) : Prop where
  valid : flow.valid = true
  full : flow.types.length = 16
  clear : ∀ bit, 16 ≤ bit → flow.ambiguous.getLsbD bit = false

variable {flow flow' other : ProvenanceFlow} {slot target bit : Nat}

theorem Good.ext (good : flow.Good) (good' : flow'.Good)
    (same : ∀ slot < 16, flow.carrier slot = flow'.carrier slot) : flow = flow' := by
  have types : flow.types = flow'.types := by
    apply ext_getElem (good.full.trans good'.full.symm)
    intro slot within within'
    have here := congrArg Prod.fst (same slot (good.full ▸ within))
    simpa [carrier, typeAt, within, within'] using here
  have ambiguous : flow.ambiguous = flow'.ambiguous := by
    apply BitVec.eq_of_getLsbD_eq
    intro bit _
    by_cases within : bit < 16
    · exact congrArg Prod.snd (same bit within)
    · rw [good.clear bit (Nat.le_of_not_lt within), good'.clear bit (Nat.le_of_not_lt within)]
  have valid := good.valid.trans good'.valid.symm
  cases flow
  cases flow'
  simp_all

theorem getLsbD_slotBit (within : slot < 16) :
    (slotBit slot).getLsbD bit = decide (slot = bit) := by
  rw [slotBit, BitVec.getLsbD_shiftLeft, BitVec.getLsbD_one]
  by_cases here : slot = bit
  · subst here
    simp
    omega
  · simp [here]
    omega

theorem setBit_slotBit {mask : Mask} (within : slot < 16) :
    setBit mask (slotBit slot) = mask.getLsbD slot := by
  rw [setBit]
  cases known : mask.getLsbD slot with
  | true =>
    rw [bne_iff_ne]
    intro zero
    have bit := congrArg (BitVec.getLsbD · slot) zero
    simp [BitVec.getLsbD_and, known, getLsbD_slotBit within] at bit
  | false =>
    rw [bne_eq_false_iff_eq]
    apply BitVec.eq_of_getLsbD_eq
    intro bit _
    rw [BitVec.getLsbD_and, getLsbD_slotBit within]
    by_cases here : slot = bit
    · subst here
      simp [known]
    · simp [here]

theorem getLsbD_without {mask lost : Mask} :
    (mask &&& ~~~lost).getLsbD bit = (mask.getLsbD bit && !lost.getLsbD bit) := by
  rw [BitVec.getLsbD_and, BitVec.getLsbD_not]
  by_cases within : bit < 64
  · rw [decide_eq_true within, Bool.true_and]
  · rw [BitVec.getLsbD_of_ge mask bit (Nat.le_of_not_lt within), Bool.false_and, Bool.false_and]

/-! ### Joins -/

theorem getLsbD_foldl_or (masks : List Mask) (mask : Mask) :
    (masks.foldl (· ||| ·) mask).getLsbD bit =
      (mask.getLsbD bit || masks.any fun mask => mask.getLsbD bit) := by
  induction masks generalizing mask with
  | nil => simp
  | cons first masks ih => rw [foldl_cons, ih, BitVec.getLsbD_or, any_cons, Bool.or_assoc]

theorem getLsbD_disagreements {types types' : List Bytes} (full : types.length = 16)
    (full' : types'.length = 16) :
    (((types.zip types').zipIdx.map fun entry : (Bytes × Bytes) × Nat =>
        if entry.1.1 = entry.1.2 then 0 else slotBit entry.2).foldl (· ||| ·) 0).getLsbD bit =
      decide (types.getD bit [] ≠ types'.getD bit []) := by
  rw [getLsbD_foldl_or, show (0 : Mask).getLsbD bit = false from BitVec.getLsbD_zero, Bool.false_or,
    any_map, Bool.eq_iff_iff, any_eq_true, decide_eq_true_iff]
  constructor
  · rintro ⟨⟨⟨old, new⟩, slot⟩, mem, set⟩
    rw [mem_zipIdx_iff_getElem?] at mem
    obtain ⟨foundOld, foundNew⟩ := getElem?_zip_eq_some.1 mem
    have within : slot < 16 := full ▸ (List.getElem?_eq_some_iff.1 foundOld).1
    simp only [Function.comp_apply] at set
    split at set
    next => simp at set
    rename_i differ
    rw [getLsbD_slotBit within, decide_eq_true_iff] at set
    subst set
    rwa [getD_eq_getElem?_getD, getD_eq_getElem?_getD, foundOld, foundNew]
  · intro differ
    have within : bit < 16 := by
      by_contra out
      rw [getD_eq_default _ _ (by omega), getD_eq_default _ _ (by omega)] at differ
      exact differ rfl
    refine ⟨((types[bit], types'[bit]), bit), ?_, ?_⟩
    · rw [mem_zipIdx_iff_getElem?, getElem?_zip_eq_some]
      exact ⟨getElem?_eq_getElem _, getElem?_eq_getElem _⟩
    · have here : types[bit] ≠ types'[bit] := by simpa [full, full', within] using differ
      simp [here, getLsbD_slotBit within]

theorem carrier_join (good : flow.Good) (good' : flow'.Good) (within : slot < 16) :
    (flow.join flow').carrier slot = (flow.carrier slot).meet (flow'.carrier slot) := by
  have first : (flow.join flow').typeAt slot =
      if flow.typeAt slot = flow'.typeAt slot then flow.typeAt slot else [] := by
    simp [join, typeAt, good.full, good'.full, within]
  have second : (flow.join flow').ambiguous.getLsbD slot = (flow.ambiguous.getLsbD slot ||
      flow'.ambiguous.getLsbD slot || decide (flow.typeAt slot ≠ flow'.typeAt slot)) := by
    rw [join, BitVec.getLsbD_or, BitVec.getLsbD_or, getLsbD_disagreements good.full good'.full]
    rfl
  rw [carrier, first, second]
  unfold Carrier.meet carrier
  by_cases same : flow.typeAt slot = flow'.typeAt slot <;> simp [same]

theorem Good.join (good : flow.Good) (good' : flow'.Good) : (flow.join flow').Good where
  valid := rfl
  full := by simp [ProvenanceFlow.join, good.full, good'.full]
  clear bit far := by
    rw [ProvenanceFlow.join, BitVec.getLsbD_or, BitVec.getLsbD_or,
      getLsbD_disagreements good.full good'.full, good.clear bit far, good'.clear bit far,
      getD_eq_default _ _ (good.full ▸ far), getD_eq_default _ _ (good'.full ▸ far)]
    rfl

theorem join_self (good : flow.Good) : flow.join flow = flow :=
  (good.join good).ext good fun _ within => by rw [carrier_join good good within, Carrier.meet_self]

theorem join_comm (good : flow.Good) (good' : flow'.Good) : flow.join flow' = flow'.join flow :=
  (good.join good').ext (good'.join good) fun _ within => by
    rw [carrier_join good good' within, carrier_join good' good within, Carrier.meet_comm]

theorem join_assoc (good : flow.Good) (good' : flow'.Good) (goodOther : other.Good) :
    (flow.join flow').join other = flow.join (flow'.join other) :=
  ((good.join good').join goodOther).ext (good.join (good'.join goodOther)) fun _ within => by
    rw [carrier_join (good.join good') goodOther within, carrier_join good good' within,
      carrier_join good (good'.join goodOther) within, carrier_join good' goodOther within,
      Carrier.meet_assoc]

/-! ### Heights -/

def height (flow : ProvenanceFlow) : Nat :=
  ((List.range 16).map fun slot => (flow.carrier slot).height).sum

theorem height_le : flow.height ≤ 32 :=
  sum_le_card_nsmul ((List.range 16).map fun slot => (flow.carrier slot).height) 2
    (by simp [Carrier.height_le])

theorem height_join_lt (good : flow.Good) (good' : flow'.Good) (changed : flow.join flow' ≠ flow) :
    (flow.join flow').height < flow.height := by
  have exists_changed : ∃ slot < 16, (flow.join flow').carrier slot ≠ flow.carrier slot := by
    by_contra none
    push Not at none
    exact changed ((good.join good').ext good none)
  obtain ⟨slot, within, here⟩ := exists_changed
  refine sum_lt_sum _ _ (fun slot mem => ?_) ⟨slot, mem_range.2 within, ?_⟩
  · rw [carrier_join good good' (mem_range.1 mem)]
    exact Carrier.height_meet_le
  · rw [carrier_join good good' within] at here ⊢
    exact Carrier.height_meet_lt here

/-! ### Transfers -/

/-- A change of states gives each register what one register had before, or nothing. -/
def Copies (change : ProvenanceFlow → ProvenanceFlow) : Prop :=
  ∃ source : Nat → Option Nat, (∀ slot < 16, ∀ from_, source slot = some from_ → from_ < 16) ∧
    ∀ flow : ProvenanceFlow, flow.Good → (change flow).Good ∧
      ∀ slot < 16, (change flow).carrier slot = (source slot).elim Carrier.unknown flow.carrier

theorem copies_id : Copies id :=
  ⟨some, fun _ within _ h => Option.some.inj h ▸ within, fun _ good => ⟨good, fun _ _ => rfl⟩⟩

theorem Good.assign (good : flow.Good) (within : target < 16) (typeName : Bytes)
    (ambiguous : Bool) : (flow.assign target typeName ambiguous).Good where
  valid := good.valid
  full := length_assign.trans good.full
  clear bit far := by
    have apart : (slotBit target).getLsbD bit = false := by
      rw [getLsbD_slotBit within, decide_eq_false_iff_not]
      omega
    cases ambiguous <;>
      simp [ProvenanceFlow.assign, BitVec.getLsbD_or, BitVec.getLsbD_and, good.clear bit far, apart]

theorem carrier_assign (good : flow.Good) (target_lt : target < 16)
    (typeName : Bytes) (ambiguous : Bool) :
    (flow.assign target typeName ambiguous).carrier slot =
      if target = slot then (typeName, ambiguous) else flow.carrier slot := by
  have bit : (flow.assign target typeName ambiguous).ambiguous.getLsbD slot =
      if target = slot then ambiguous else flow.ambiguous.getLsbD slot := by
    cases ambiguous with
    | false =>
      simp only [assign, Bool.false_eq_true, if_false, getLsbD_without, getLsbD_slotBit target_lt]
      by_cases here : target = slot <;> simp [here]
    | true =>
      simp only [assign, if_true, BitVec.getLsbD_or, getLsbD_slotBit target_lt]
      by_cases here : target = slot <;> simp [here]
  rw [carrier, bit, typeAt_assign good.full target_lt]
  split <;> rfl

theorem copies_erase (target_lt : target < 16) : Copies fun flow => flow.erase target := by
  refine ⟨fun slot => if target = slot then none else some slot, ?_,
    fun flow good => ⟨good.assign target_lt _ _, fun slot within => ?_⟩⟩
  · intro slot within from_ found
    dsimp only at found
    split at found
    next => cases found
    next => exact Option.some.inj found ▸ within
  · refine (carrier_assign good target_lt [] false).trans ?_
    dsimp only
    split <;> rfl

theorem copies_assign {from_ : Nat} (from_lt : from_ < 16) (target_lt : target < 16) :
    Copies fun flow => flow.assign target (flow.typeAt from_) (flow.ambiguousAt from_) := by
  refine ⟨fun slot => some (if target = slot then from_ else slot), ?_,
    fun flow good => ⟨good.assign target_lt _ _, fun slot within => ?_⟩⟩
  · intro slot within other found
    obtain rfl := Option.some.inj found
    split
    · exact from_lt
    · exact within
  · rw [carrier_assign good target_lt, ambiguousAt, setBit_slotBit from_lt, Option.elim_some]
    split <;> rfl

theorem copies_exchange {from_ : Nat} (from_lt : from_ < 16) (target_lt : target < 16) :
    Copies fun flow => (flow.assign from_ (flow.typeAt target) (flow.ambiguousAt target)).assign
      target (flow.typeAt from_) (flow.ambiguousAt from_) := by
  refine ⟨fun slot => some (if target = slot then from_ else if from_ = slot then target else slot),
    ?_, fun flow good => ⟨(good.assign from_lt _ _).assign target_lt _ _, fun slot within => ?_⟩⟩
  · intro slot within other found
    obtain rfl := Option.some.inj found
    split_ifs
    · exact from_lt
    · exact target_lt
    · exact within
  · rw [carrier_assign (good.assign from_lt _ _) target_lt,
      carrier_assign good from_lt, ambiguousAt, ambiguousAt, setBit_slotBit from_lt,
      setBit_slotBit target_lt,
      Option.elim_some]
    split_ifs <;> rfl

theorem Copies.comp {first second : ProvenanceFlow → ProvenanceFlow} (h : Copies first)
    (h' : Copies second) : Copies fun flow => second (first flow) := by
  obtain ⟨source, inside, before⟩ := h
  obtain ⟨source', inside', after⟩ := h'
  refine ⟨fun slot => (source' slot).bind source, ?_, fun flow good => ?_⟩
  · intro slot within from_ found
    obtain ⟨between, found', found⟩ := Option.bind_eq_some_iff.1 found
    exact inside between (inside' slot within between found') from_ found
  obtain ⟨good', before⟩ := before flow good
  obtain ⟨good'', after⟩ := after (first flow) good'
  refine ⟨good'', fun slot within => ?_⟩
  rw [after slot within]
  dsimp only
  cases found : source' slot with
  | none => rfl
  | some between => exact before between (inside' slot within between found)

theorem copies_clobber (mask : Mask) : Copies fun flow => flow.clobber mask := by
  refine ⟨fun slot => if mask.getLsbD slot = true then none else some slot, ?_,
    fun flow good => ⟨⟨good.valid, length_clobber.trans good.full, ?_⟩, fun slot within => ?_⟩⟩
  · intro slot within from_ found
    dsimp only at found
    split at found
    next => cases found
    next => exact Option.some.inj found ▸ within
  · intro bit far
    simp [clobber, BitVec.getLsbD_and, good.clear bit far]
  have bit : (flow.clobber mask).ambiguous.getLsbD slot =
      (flow.ambiguous.getLsbD slot && !mask.getLsbD slot) := getLsbD_without
  rw [carrier, typeAt_clobber, setBit_slotBit within, bit]
  dsimp only
  cases mask.getLsbD slot <;> simp [Carrier.unknown, carrier]

end ProvenanceFlow

open ProvenanceFlow

theorem copies_exchangeTypes (op source destination : Bytes) :
    Copies fun flow => exchangeTypes flow op source destination := by
  unfold exchangeTypes
  dsimp only
  cases first : registerSlot source with
  | none =>
    cases second : registerSlot destination with
    | none => exact copies_id
    | some to_ => exact copies_erase (registerSlot_lt second)
  | some from_ =>
    cases second : registerSlot destination with
    | none => exact copies_erase (registerSlot_lt first)
    | some to_ =>
      dsimp only
      split
      · exact copies_exchange (registerSlot_lt first) (registerSlot_lt second)
      · exact (copies_erase (registerSlot_lt first)).comp (copies_erase (registerSlot_lt second))

theorem copies_transfer (inst : Instruction) : Copies (provenanceTransfer inst) := by
  unfold provenanceTransfer
  extract_lets op clobbers destination source wide base
  by_cases clobber : clobbers ≠ 0
  · simp only [if_pos clobber]
    exact copies_clobber clobbers
  simp only [if_neg clobber]
  split
  · exact copies_id
  split
  · exact copies_exchangeTypes op source destination
  cases target : registerSlot destination with
  | none => exact copies_id
  | some slot =>
    have slot_lt := registerSlot_lt target
    dsimp only
    split
    · cases found : registerSlot source with
      | none => exact copies_erase slot_lt
      | some from_ => exact copies_assign (registerSlot_lt found) slot_lt
    split
    · cases found : registerSlot base with
      | none => exact copies_erase slot_lt
      | some from_ =>
        dsimp only
        split
        · exact copies_assign (registerSlot_lt found) slot_lt
        · exact copies_erase slot_lt
    · split
      · exact copies_id
      · exact copies_erase slot_lt

/-! ## The analysis -/

def provenanceAnalysis (body : List Instruction) : Analysis ProvenanceFlow where
  count := body.length
  successors := successors body
  transfer := lineTransfer provenanceTransfer body
  meet := ProvenanceFlow.join
  good := Good
  inside := successors_inside
  good_transfer {_ s} good := lineTransfer_rel (R := fun s _ => s.Good) (t := s)
    (fun inst => by
      obtain ⟨_, _, copies⟩ := copies_transfer inst
      exact (copies s good).1) good
  good_meet := Good.join

section
variable (body : List Instruction)

/-- The types of the registers, as one component: moves make them depend on one another. -/
def provenanceComponent : Component (provenanceAnalysis body) where
  same s t := s = t
  height := height
  refl _ := rfl
  symm := Eq.symm
  trans := Eq.trans
  height_eq := congrArg height
  transfer_congr := congrArg _
  meet_congr := by
    rintro s _ t _ rfl rfl taken
    exact taken
  meet_lt := by
    intro s t good good'
    by_cases taken : s.join t = s
    · exact Or.inl taken
    · exact Or.inr (height_join_lt good good' taken)
  meet_idem := join_self
  meet_again := by
    intro s t good good'
    change (s.join t).join t = s.join t
    rw [join_assoc good good' good', join_self good']
  meet_later := by
    intro s t r good good' other taken
    change (s.join r).join t = s.join r
    have taken : s.join t = s := taken
    rw [join_assoc good other good', join_comm other good', ← join_assoc good good' other, taken]

def ProvenanceFlow.le (s t : ProvenanceFlow) : Prop :=
  ∀ slot < 16, (s.carrier slot).meet (t.carrier slot) = s.carrier slot

def provenanceOrder : Order (provenanceAnalysis body) where
  le := ProvenanceFlow.le
  refl _ _ _ := Carrier.meet_self
  trans := by
    intro s t r low high slot within
    rw [← low slot within, Carrier.meet_assoc, high slot within]
  meet_left := by
    intro s t good good' slot within
    change ((s.join t).carrier slot).meet _ = (s.join t).carrier slot
    rw [carrier_join good good' within, Carrier.meet_comm, ← Carrier.meet_assoc, Carrier.meet_self]
  meet_right := by
    intro s t good good' slot within
    change ((s.join t).carrier slot).meet _ = (s.join t).carrier slot
    rw [carrier_join good good' within, Carrier.meet_assoc, Carrier.meet_self]
  le_meet := by
    intro s t r good good' low low' slot within
    change (r.carrier slot).meet ((s.join t).carrier slot) = _
    rw [carrier_join good good' within, ← Carrier.meet_assoc, low slot within, low' slot within]
  transfer {u s t} good good' low := by
    refine lineTransfer_rel (fun inst slot within => ?_) low
    obtain ⟨source, inside, copies⟩ := copies_transfer inst
    rw [(copies s good).2 slot within, (copies t good').2 slot within]
    cases found : source slot with
    | none => exact Carrier.meet_self
    | some from_ => exact low from_ (inside slot within from_ found)

end

/-! ## Rounds of the pass -/

def ProvenanceTable.states (table : ProvenanceTable) : Table ProvenanceFlow :=
  fun v => table.entries[v]?.filter ProvenanceFlow.valid

def ProvenanceTable.Full (count : Nat) (table : ProvenanceTable) : Prop :=
  table.entries.length = count ∧ table.counts.length = count

section
variable {body : List Instruction} {table : ProvenanceTable}

theorem filter_valid_set {entries : List ProvenanceFlow} {target : Nat} {state : ProvenanceFlow}
    (within : target < entries.length) (valid : state.valid = true) :
    (fun v => (entries.set target state)[v]?.filter ProvenanceFlow.valid) =
      Function.update (fun v => entries[v]?.filter ProvenanceFlow.valid) target (some state) := by
  funext v
  by_cases here : v = target
  · subst here
    simp [within, valid]
  · simp [getElem?_set_ne (Ne.symm here), Function.update_of_ne here]

theorem propagateProvenance_arrive (full : table.Full body.length) {incoming : ProvenanceFlow}
    (good : incoming.Good) {target : Nat} (within : target < body.length) (flag : Bool) :
    (propagateProvenance incoming table target).1.Full body.length ∧
      ((propagateProvenance incoming table target).1.states,
          (propagateProvenance incoming table target).2 || flag) =
        arrive (provenanceAnalysis body) incoming (table.states, flag) target := by
  have inEntries : target < table.entries.length := full.1.symm ▸ within
  have entry := getElem?_eq_getElem inEntries
  have number := getElem?_eq_getElem (full.2.symm ▸ within : target < table.counts.length)
  generalize table.entries[target] = current at entry
  unfold propagateProvenance
  simp only [entry, number]
  refine ⟨⟨by simpa using full.1, by simpa using full.2⟩, ?_⟩
  cases valid : current.valid with
  | false =>
    have fresh : table.states target = none := by simp [ProvenanceTable.states, entry, valid]
    simp only [arrive, fresh, Bool.not_false, Bool.true_or, Bool.false_eq_true, if_false]
    exact congrArg (·, true) (filter_valid_set inEntries good.valid)
  | true =>
    have old : table.states target = some current := by
      simp [ProvenanceTable.states, entry, valid]
    simp only [arrive, old, Bool.not_true, Bool.false_or, if_true]
    exact congrArg (·, _) (filter_valid_set inEntries rfl)

theorem provenanceLine_line (full : table.Full body.length)
    (good : GoodTable (provenanceAnalysis body) table.states) (flag : Bool) (u : Nat) :
    (provenanceLine body (table, flag) u).1.Full body.length ∧
      (provenanceLine body (table, flag) u).map ProvenanceTable.states id =
        line (provenanceAnalysis body) (table.states, flag) u := by
  cases found : body[u]? with
  | none =>
    have out : table.entries[u]? = none :=
      List.getElem?_eq_none_iff.2 (full.1 ▸ List.getElem?_eq_none_iff.1 found)
    have unreached : table.states u = none := by simp [ProvenanceTable.states, out]
    simp only [provenanceLine, found, line, unreached]
    exact ⟨full, rfl⟩
  | some inst =>
    have within : u < body.length := (List.getElem?_eq_some_iff.1 found).1
    have entry := getElem?_eq_getElem (full.1.symm ▸ within : u < table.entries.length)
    generalize getElem table.entries u _ = state at entry
    simp only [provenanceLine, found, entry]
    cases valid : state.valid with
    | false =>
      have unreached : table.states u = none := by simp [ProvenanceTable.states, entry, valid]
      simp only [line, unreached, Bool.false_eq_true, if_false]
      exact ⟨full, rfl⟩
    | true =>
      have reached : table.states u = some state := by
        simp [ProvenanceTable.states, entry, valid]
      have incoming : (provenanceAnalysis body).transfer u state =
        provenanceTransfer inst state := by
        simp only [provenanceAnalysis, lineTransfer, found]
      have goodIncoming : (provenanceTransfer inst state).Good :=
        incoming ▸ (provenanceAnalysis body).good_transfer (good u state reached)
      simp only [line, reached, if_true, incoming]
      refine foldl_follows (P := ProvenanceTable.Full body.length) ?_ full flag
      intro table full flag target mem
      exact propagateProvenance_arrive full goodIncoming (successors_inside mem).2 flag

theorem provenanceRound_round (full : table.Full body.length)
    (good : GoodTable (provenanceAnalysis body) table.states) :
    (provenanceRound body table).1.Full body.length ∧
      (provenanceRound body table).map ProvenanceTable.states id =
        round (provenanceAnalysis body) table.states :=
  linesUpTo_follows provenanceLine_line full good _

end

/-! ## Where the rounds settle -/

section
variable {fn : Function}

def startTypes (fn : Function) : ProvenanceTable where
  entries := (List.replicate fn.instructions.length .empty).set 0 (initialProvenance fn)
  counts := (List.replicate fn.instructions.length 0).set 0 1

theorem full_startTypes (fn : Function) : (startTypes fn).Full fn.instructions.length := by
  simp [ProvenanceTable.Full, startTypes]

theorem good_initialProvenance (fn : Function) : (initialProvenance fn).Good := by
  unfold initialProvenance
  have start : ({ ProvenanceFlow.empty with valid := true } : ProvenanceFlow).Good :=
    ⟨rfl, rfl, fun _ _ => BitVec.getLsbD_zero⟩
  generalize ({ ProvenanceFlow.empty with valid := true } : ProvenanceFlow) = flow at start
  induction fn.inputs generalizing flow with
  | nil => exact start
  | cons input inputs ih =>
    refine ih _ ?_
    dsimp only
    cases registerSlot (bindingRegister input) with
    | none => exact start
    | some slot => exact ⟨start.valid, (length_set ..).trans start.full, start.clear⟩

theorem states_startTypes (lines : fn.instructions ≠ []) :
    (startTypes fn).states = startStates (initialProvenance fn) := by
  have within : 0 < (List.replicate fn.instructions.length ProvenanceFlow.empty).length := by
    simpa using length_pos_iff.2 lines
  refine (filter_valid_set within (good_initialProvenance fn).valid).trans ?_
  funext v
  by_cases first : v = 0
  · subst first
    rw [Function.update_self]
    rfl
  rw [Function.update_of_ne first]
  cases found : (List.replicate fn.instructions.length ProvenanceFlow.empty)[v]? with
  | none => simp [startStates, first]
  | some entry =>
    obtain rfl := eq_of_mem_replicate (mem_of_getElem? found)
    simp [startStates, first, ProvenanceFlow.empty]

theorem provenance_settles (few : 33 * (backTargets (provenanceAnalysis fn.instructions)).length <
      fn.instructions.length) :
    Settles (provenanceRound fn.instructions) (fn.instructions.length + 1) (startTypes fn) := by
  have lines : fn.instructions ≠ [] := by
    intro none
    simp [none] at few
  have good : GoodTable (provenanceAnalysis fn.instructions) (startStates (initialProvenance fn)) :=
    good_startStates (good_initialProvenance fn)
  refine settles_of_follows provenanceRound_round (full_startTypes fn)
    (states_startTypes lines ▸ good) ?_
  rw [states_startTypes lines]
  have bounded : ∀ s, (provenanceAnalysis fn.instructions).good s →
      (provenanceComponent fn.instructions).height s ≤ 32 := fun _ _ => height_le
  refine settles (ι := Unit) (fun _ _ same => same ()) (fun _ => bounded) good fun _ => ?_
  have measure : (provenanceComponent fn.instructions).measure 32
      (startStates (initialProvenance fn)) ≤
        33 * (backTargets (provenanceAnalysis fn.instructions)).length := by
    refine (sum_le_card_nsmul _ 33 ?_).trans (by simp [Nat.mul_comm])
    intro left mem
    obtain ⟨v, -, rfl⟩ := mem_map.1 mem
    simp only [startStates]
    split
    · exact Nat.le_succ_of_le height_le
    · exact Nat.le_refl _
  omega

theorem provenance_solution
    (h : Settles (provenanceRound fn.instructions) (fn.instructions.length + 1) (startTypes fn)) :
    (provenanceRound fn.instructions (provenanceTable fn)).2 = false ∧
      Solution (provenanceAnalysis fn.instructions) (provenanceOrder fn.instructions)
        (startTypes fn).states (provenanceTable fn).states := by
  cases lines : fn.instructions with
  | nil =>
    have unreached : ∀ v, (startTypes fn).states v = none := by
      simp [ProvenanceTable.states, startTypes, lines]
    have table : provenanceTable fn = startTypes fn := by
      rw [provenanceTable, startTypes, lines]
      rfl
    rw [table]
    exact ⟨rfl, solution_of_unreached unreached⟩
  | cons first rest =>
    have some : fn.instructions ≠ [] := by simp [lines]
    rw [← lines]
    refine (solution_of_follows provenanceRound_round (full_startTypes fn) (Sound.initial ?_) h).2
    rw [states_startTypes some]
    exact good_startStates (good_initialProvenance fn)

/-! ## Both passes -/

/-- The rounds over the flow state settle, with the greatest lower bound of what the lines before a
line bring; its stack delta is what each of them brings, unless it is 0.  The rounds over the types
of registers do the same where jumps back have few targets. -/
theorem mergeRounds_spec (fn : Function) :
    Settles (flowRound fn.instructions) (fn.instructions.length + 1) (initialFlow fn) ∧
    Solution (flowAnalysis fn.instructions) (flowOrder fn.instructions) (initialFlow fn).states
      (flowTable fn).states ∧
    (∀ (v : Nat) entry meet, (flowTable fn).entries[v]? = some entry → entry.valid = true →
      (flowTable fn).meets[v]? = some meet → meet = entry.live) ∧
    (∀ u s v t, (flowTable fn).states u = some s → v ∈ successors fn.instructions u →
      (flowTable fn).states v = some t →
      t.stackDelta = 0 ∨ t.stackDelta =
        (lineTransfer flowTransfer fn.instructions u s).stackDelta) ∧
    (Settles (provenanceRound fn.instructions) (fn.instructions.length + 1) (startTypes fn) →
      Solution (provenanceAnalysis fn.instructions) (provenanceOrder fn.instructions)
        (startTypes fn).states (provenanceTable fn).states) ∧
    (33 * (backTargets (provenanceAnalysis fn.instructions)).length < fn.instructions.length →
      Settles (provenanceRound fn.instructions) (fn.instructions.length + 1) (startTypes fn)) := by
  obtain ⟨settles, consistent, solution⟩ := flow_solution fn
  refine ⟨settles, solution, ?_, ?_, fun h => (provenance_solution h).2, provenance_settles⟩
  · intro v entry meet found valid foundMeet
    exact consistent.meet_eq v entry meet found foundMeet valid
  intro u s v t found edge foundT
  have taken := congrArg FlowState.stackDelta (solution.takes u s found v edge t foundT)
  change (if t.stackDelta = (lineTransfer flowTransfer fn.instructions u s).stackDelta
    then t.stackDelta else 0) = t.stackDelta at taken
  split at taken
  next same => exact Or.inr same
  next => exact Or.inl taken.symm

/-- A chain of moves in a loop: jumps back lead through six labels, and a disagreement on the
type of the first register takes five rounds for each of the moves. -/
def unsettledSource : Bytes := ascii
  "export def f(p: HostPtr, x: u64, y: u64, z: u64) -> void
  inputs:
    p = rdi
    x = rax
    y = rcx
    z = rdx
  requires:
    control.direct
  clobbers:
    rax, rcx, rdx, cc
  body:
    jmp first
    fifth:
    mov %rcx, %rdx
    mov %rax, %rcx
    mov %rdi, %rax
    jmp first
    fourth:
    jmp fifth
    third:
    jmp fourth
    second:
    jmp third
    first:
    jmp second
"

/-- A label that a jump back reaches with another stack delta than the line before it. -/
def driftingSource : Bytes := ascii
  "export def f(x: u64) -> void
  inputs:
    x = rax
  clobbers:
    rcx, cc, memory
  body:
    push %rax
    again:
    pop %rcx
    jne again
    push %rax
    pop %rcx
    ret
"

set_option maxRecDepth 10000 in
/-- The rounds over the types do not settle; and there is a line whose stack delta is not that
which its only predecessor brings. -/
theorem unsettledSource_unsettled :
    (∃ m fn, parseModule unsettledSource [] = some m ∧ m.issues = [] ∧ verifyModule m = [] ∧
      fn ∈ m.functions ∧ ¬Settles (provenanceRound fn.instructions) (fn.instructions.length + 1)
        (startTypes fn)) ∧
    ∃ m fn s t, parseModule driftingSource [] = some m ∧ m.issues = [] ∧ verifyModule m = [] ∧
      fn ∈ m.functions ∧ (∀ u, 3 ∈ successors fn.instructions u → u = 2) ∧
      (initialFlow fn).states 3 = none ∧ 3 ∈ successors fn.instructions 2 ∧
      (flowTable fn).states 2 = some s ∧ (flowTable fn).states 3 = some t ∧
      t.stackDelta ≠ (lineTransfer flowTransfer fn.instructions 2 s).stackDelta := by
  constructor
  · have checked : ((parseModule unsettledSource []).any fun m => m.issues.isEmpty &&
        (verifyModule m).isEmpty && m.functions.any fun fn =>
          (provenanceRound fn.instructions (provenanceTable fn)).2) = true := by
      rw [unsettledSource, ascii_ofList]
      decide +kernel
    obtain ⟨m, fn, parsed, sound, mem, changes⟩ := exists_function checked
    simp only [Bool.and_eq_true, List.isEmpty_iff] at sound
    obtain ⟨none, verified⟩ := sound
    refine ⟨m, fn, parsed, none, verified, mem, fun settles => ?_⟩
    cases changes.symm.trans (provenance_solution settles).1
  · have checked : ((parseModule driftingSource []).any fun m => m.issues.isEmpty &&
        (verifyModule m).isEmpty && m.functions.any fun fn =>
          decide (fn.instructions.length = 7) &&
          ((List.range 7).all fun u => decide (3 ∈ successors fn.instructions u → u = 2)) &&
          ((initialFlow fn).states 3).isNone && decide (3 ∈ successors fn.instructions 2) &&
          ((flowTable fn).states 2).any fun s => ((flowTable fn).states 3).any fun t =>
            decide (t.stackDelta ≠ (lineTransfer flowTransfer fn.instructions 2 s).stackDelta)) =
          true := by
      rw [driftingSource, ascii_ofList]
      decide +kernel
    obtain ⟨m, fn, parsed, sound, mem, found⟩ := exists_function checked
    simp only [Bool.and_eq_true, List.isEmpty_iff] at sound
    obtain ⟨none, verified⟩ := sound
    simp only [Bool.and_eq_true, decide_eq_true_iff, all_eq_true, mem_range,
      Option.isNone_iff_eq_none, Option.any_eq_true] at found
    obtain ⟨⟨⟨⟨length, single⟩, fresh⟩, edge⟩, s, foundS, t, foundT, differs⟩ := found
    refine ⟨m, fn, s, t, parsed, none, verified, mem, fun u into => ?_, fresh, edge, foundS,
      foundT, differs⟩
    exact single u (length ▸ (successors_inside into).1) into

end

end Elisa.Easm
