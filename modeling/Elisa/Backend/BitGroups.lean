import Elisa.Bytes
import Elisa.Lib.BitSlices
import Mathlib.Data.List.Nodup
import Mathlib.Data.List.Pairwise

/-!
# Bit groups

A struct may have members that are groups of bits: the flags of a `bitset`, one bit each, or the
members of a `bitfield`.  The backend keeps a group in one unsigned integer, as wide as the widths
of the members add up to (`codegen_bitfields.elisa`), and masks and shifts at an assignment and at a
read (`codegen_stmt_assign_place.elisa`, `codegen_expr_field_read.elisa`).

A group that needs more than 64 bits gets 64.  The members are separate slices of their integers,
and a write to one leaves the others as they are, if and only if no group does
(`bitGroups_separate`).
-/

namespace Elisa.Backend.BitGroups

open Elisa.Lib List

/-! ## Types -/

inductive TypeKind where
  | unmodeled
  | unsigned
  | signed
  | other
  deriving DecidableEq

structure ValueType where
  kind : TypeKind
  bits : Nat
  deriving DecidableEq

/-- A type annotation; only names are looked at here. -/
inductive TypeExpression where
  | ident (name : Bytes)
  | other (text : Bytes)
  deriving DecidableEq

/-- What the backend knows about types: the meaning of an annotation, and the backing of a const
enum, which is an integer type. -/
structure Types where
  annotationValueType : TypeExpression → ValueType
  enumBacking : Bytes → Option ValueType
  backed : ∀ name backing, enumBacking name = some backing → 0 < backing.bits

inductive BitGroupKind where
  | none
  | bitset
  | bitfield
  deriving DecidableEq

structure BitGroupMember where
  name : Bytes
  typeExpression : TypeExpression
  deriving DecidableEq

structure StructMember where
  name : Bytes
  bitGroupKind : BitGroupKind
  bitGroupMembers : List BitGroupMember
  deriving DecidableEq

/-! ## Widths -/

def readDigit (maximum : Nat) (read : Nat × Bool) (digit : UInt8) : Nat × Bool :=
  if digit < 48 ∨ digit > 57 then (read.1, false)
  else
    let digitValue := (digit - 48).toNat
    if digitValue > maximum then (read.1, false)
    else if read.1 > (maximum - digitValue) / 10 then (read.1, false)
    else if read.2 then (read.1 * 10 + digitValue, true)
    else read

def parseBitWidth (name : Bytes) (maximum : Nat) (allowSigned : Bool) : Nat :=
  match name with
  | [] | [_] => 0
  | head :: digits =>
    if head ≠ 117 ∧ (!allowSigned ∨ head ≠ 105) then 0
    else
      let read := digits.foldl (readDigit maximum) (0, true)
      if read.2 && decide (read.1 > 0) then read.1 else 0

def memberWidth (types : Types) (kind : BitGroupKind) (flag : BitGroupMember) : Nat :=
  if kind = .bitfield then
    let declared := types.annotationValueType flag.typeExpression
    let width := if declared.bits > 0 then declared.bits else 1
    if declared.kind = .unmodeled ∨ declared.bits = 0 then
      match flag.typeExpression with
      | .ident name =>
        match types.enumBacking name with
        | some backing => backing.bits
        | none =>
          let subByte := parseBitWidth name 64 false
          if subByte > 0 then subByte else width
      | .other _ => width
    else width
  else 1

/-! ## The layout -/

def u32 (n : Nat) : Nat := n % 2 ^ 32

def bitGroupPackBits (types : Types) (member : StructMember) : Nat :=
  let total := member.bitGroupMembers.foldl
    (fun total flag => u32 (total + memberWidth types member.bitGroupKind flag)) 0
  if total ≤ 8 then 8 else if total ≤ 16 then 16 else if total ≤ 32 then 32 else 64

structure LayoutRow where
  owner : Nat
  field : Bytes
  member : Bytes
  offset : Nat
  width : Nat
  isFlag : Bool
  deriving DecidableEq

def bitGroupRows (types : Types) (ownerSlot : Nat) (fieldName : Bytes) (kind : BitGroupKind) :
    Nat → List BitGroupMember → List LayoutRow
  | _, [] => []
  | offset, flag :: flags =>
    let width := memberWidth types kind flag
    { owner := ownerSlot, field := fieldName, member := flag.name, offset, width,
      isFlag := decide (kind = .bitset) } ::
      bitGroupRows types ownerSlot fieldName kind (u32 (offset + width)) flags

def recordBitGroupMembers (types : Types) (ownerSlot : Nat) (fieldName : Bytes)
    (member : StructMember) (rows : List LayoutRow) : List LayoutRow :=
  rows ++ bitGroupRows types ownerSlot fieldName member.bitGroupKind 0 member.bitGroupMembers

def setStructBody (types : Types) (slot : Nat) (members : List StructMember)
    (rows : List LayoutRow) : List LayoutRow :=
  members.foldl (fun rows member =>
    if member.bitGroupKind = .none then rows
    else recordBitGroupMembers types slot member.name member rows) rows

def bitGroupMemberIndex (rows : List LayoutRow) (ownerSlot : Nat) (fieldName memberName : Bytes) :
    Option LayoutRow :=
  rows.find? fun row =>
    decide (row.owner = ownerSlot) && decide (row.field = fieldName) &&
      decide (row.member = memberName)

/-! ## Emitted code

A shift by the width of its operand or more has no defined result, here as in the compiler: `poison`
stands for what it gives. -/

/-- The results of shifts that have none: by the bits, the operand and the count. -/
abbrev Poison := Nat → Nat → Nat → Nat

def constInt (bits value : Nat) : Nat := value % 2 ^ bits

def shl (poison : Poison) (bits value count : Nat) : Nat :=
  constInt bits (if count < bits then value <<< count else poison bits value count)

def lshr (poison : Poison) (bits value count : Nat) : Nat :=
  if count < bits then value >>> count else constInt bits (poison bits value count)

def bitMask (poison : Poison) (width : Nat) : Nat :=
  constInt 64 (shl poison 64 1 width + (2 ^ 64 - 1))

def assignBits (poison : Poison) (pack : Nat) (row : LayoutRow) (value current : Nat) : Nat :=
  let mask := bitMask poison row.width
  let clamped := constInt pack value &&& constInt pack mask
  let placed := shl poison pack clamped (constInt pack row.offset)
  let cleared := current &&& constInt pack (2 ^ 64 - 1 - shl poison 64 mask row.offset)
  cleared ||| placed

/-- The value of a member in an integer. -/
def readBits (poison : Poison) (pack : Nat) (row : LayoutRow) (current : Nat) : Nat :=
  lshr poison pack current (constInt pack row.offset) &&& constInt pack (bitMask poison row.width)

abbrev Packs := Bytes → Nat

def packBitsOf (types : Types) (members : List StructMember) (field : Bytes) : Option Nat :=
  (members.find? fun member => decide (member.name = field)).map (bitGroupPackBits types)

/-- `owner.field.member <- value`. -/
def assignMember (poison : Poison) (types : Types) (slot : Nat) (members : List StructMember)
    (rows : List LayoutRow) (field member : Bytes) (value : Nat)
    (packs : Packs) : Option Packs := do
  let row ← bitGroupMemberIndex rows slot field member
  let pack ← packBitsOf types members field
  return Function.update packs field (assignBits poison pack row value (packs field))

/-- `owner.field.member`. -/
def readMember (poison : Poison) (types : Types) (slot : Nat) (members : List StructMember)
    (rows : List LayoutRow) (field member : Bytes) (packs : Packs) : Option Nat := do
  let row ← bitGroupMemberIndex rows slot field member
  let pack ← packBitsOf types members field
  return readBits poison pack row (packs field)

/-! ## Separate members -/

def LayoutRow.span (row : LayoutRow) : Nat × Nat := (row.offset, row.width)

def rowsOf (rows : List LayoutRow) (slot : Nat) (field : Bytes) : List LayoutRow :=
  rows.filter fun row => decide (row.owner = slot) && decide (row.field = field)

/-- The members of every group are disjoint slices of an integer of a size that there is, and an
assignment to one of them is not seen by any other member of the struct. -/
structure Separate (types : Types) (slot : Nat) (members : List StructMember)
    (rows : List LayoutRow) : Prop where
  represented : ∀ member ∈ members, member.bitGroupKind ≠ .none →
    bitGroupPackBits types member ∈ [8, 16, 32, 64]
  apart : ∀ member ∈ members, member.bitGroupKind ≠ .none →
    (rowsOf rows slot member.name).Pairwise fun a b => Apart a.span b.span
  inside : ∀ member ∈ members, member.bitGroupKind ≠ .none →
    ∀ row ∈ rowsOf rows slot member.name, row.offset + row.width ≤ bitGroupPackBits types member
  framed : ∀ poison packs packs' field name value field' name', (field', name') ≠ (field, name) →
    assignMember poison types slot members rows field name value packs = some packs' →
    readMember poison types slot members rows field' name' packs' =
      readMember poison types slot members rows field' name' packs

def neededBits (types : Types) (member : StructMember) : Nat :=
  (member.bitGroupMembers.map (memberWidth types member.bitGroupKind)).sum

/-! ## Widths and offsets -/

section Layout

variable {types : Types}

theorem memberWidth_pos (types : Types) (kind : BitGroupKind) (flag : BitGroupMember) :
    0 < memberWidth types kind flag := by
  rw [memberWidth]
  split
  next =>
    have hwidth : 0 < if (types.annotationValueType flag.typeExpression).bits > 0 then
        (types.annotationValueType flag.typeExpression).bits else 1 := by
      split
      next h => exact h
      next => exact Nat.one_pos
    dsimp only
    generalize (if (types.annotationValueType flag.typeExpression).bits > 0 then
      (types.annotationValueType flag.typeExpression).bits else 1) = width at hwidth ⊢
    split
    next =>
      cases flag.typeExpression with
      | other text => exact hwidth
      | ident name =>
        dsimp only
        split
        next backing hbacking => exact types.backed name backing hbacking
        split
        next h => exact h
        next => exact hwidth
    next => exact hwidth
  next => exact Nat.one_pos

theorem u32_eq {n : Nat} (h : n ≤ 64) : u32 n = n := Nat.mod_eq_of_lt (by omega)

theorem total_eq (widths : List Nat) (total : Nat) (h : total + widths.sum ≤ 64) :
    widths.foldl (fun total width => u32 (total + width)) total = total + widths.sum := by
  induction widths generalizing total with
  | nil => rfl
  | cons width widths ih =>
    rw [sum_cons] at h ⊢
    rw [foldl_cons, u32_eq (by omega), ih (total + width) (by omega)]
    omega

theorem neededBits_le_pack {member : StructMember} (h : neededBits types member ≤ 64) :
    neededBits types member ≤ bitGroupPackBits types member := by
  have htotal := total_eq (member.bitGroupMembers.map (memberWidth types member.bitGroupKind)) 0
    (by rw [Nat.zero_add]; exact h)
  rw [foldl_map, Nat.zero_add] at htotal
  rw [bitGroupPackBits, htotal]
  change neededBits types member ≤ if neededBits types member ≤ 8 then 8
    else if neededBits types member ≤ 16 then 16
      else if neededBits types member ≤ 32 then 32 else 64
  split
  next h => exact h
  split
  next h => exact h
  split
  next h => exact h
  next => exact h

theorem pack_mem (types : Types) (member : StructMember) :
    bitGroupPackBits types member ∈ [8, 16, 32, 64] := by
  rw [bitGroupPackBits]
  split
  next => simp
  split
  next => simp
  next => split <;> simp

theorem pack_le (types : Types) (member : StructMember) : bitGroupPackBits types member ≤ 64 := by
  have h := pack_mem types member
  simp only [mem_cons, not_mem_nil, or_false] at h
  omega

variable {offset : Nat} {flags : List BitGroupMember}

theorem rows_owned {slot : Nat} {field : Bytes} {kind : BitGroupKind} {row : LayoutRow}
    (h : row ∈ bitGroupRows types slot field kind offset flags) :
    row.owner = slot ∧ row.field = field := by
  induction flags generalizing offset with
  | nil => cases h
  | cons flag flags ih =>
    rcases mem_cons.mp h with rfl | h
    · exact ⟨rfl, rfl⟩
    · exact ih h

theorem rows_spans (slot : Nat) (field : Bytes) {kind : BitGroupKind}
    (h : offset + (flags.map (memberWidth types kind)).sum ≤ 64) :
    (bitGroupRows types slot field kind offset flags).map LayoutRow.span =
      spans offset (flags.map (memberWidth types kind)) := by
  induction flags generalizing offset with
  | nil => rfl
  | cons flag flags ih =>
    rw [map_cons, sum_cons] at h
    rw [bitGroupRows, map_cons, map_cons, spans, u32_eq (by omega), ih (by omega)]
    rfl

theorem rows_overflow (slot : Nat) (field : Bytes) {kind : BitGroupKind} (start : offset ≤ 64)
    (h : 64 < offset + (flags.map (memberWidth types kind)).sum) :
    ∃ row ∈ bitGroupRows types slot field kind offset flags, 64 < row.offset + row.width := by
  induction flags generalizing offset with
  | nil => exact absurd h (Nat.not_lt.mpr start)
  | cons flag flags ih =>
    rw [map_cons, sum_cons] at h
    rw [bitGroupRows]
    rcases Nat.lt_or_ge 64 (offset + memberWidth types kind flag) with hlt | hle
    · exact ⟨_, mem_cons_self, hlt⟩
    · rw [u32_eq hle]
      obtain ⟨row, hrow, hend⟩ := ih hle (by omega)
      exact ⟨row, mem_cons_of_mem _ hrow, hend⟩

/-! ## The rows of a struct -/

theorem rowsOf_append (rows rows' : List LayoutRow) (slot : Nat) (field : Bytes) :
    rowsOf (rows ++ rows') slot field = rowsOf rows slot field ++ rowsOf rows' slot field :=
  filter_append ..

theorem rowsOf_group (types : Types) (slot : Nat) (field field' : Bytes) (kind : BitGroupKind)
    (offset : Nat) (flags : List BitGroupMember) :
    rowsOf (bitGroupRows types slot field' kind offset flags) slot field =
      if field = field' then bitGroupRows types slot field' kind offset flags else [] := by
  split
  next h =>
    refine filter_eq_self.mpr fun row hrow => ?_
    obtain ⟨howner, hfield⟩ := rows_owned hrow
    simp [howner, hfield, h]
  rename_i h
  refine filter_eq_nil_iff.mpr fun row hrow => ?_
  obtain ⟨-, hfield⟩ := rows_owned hrow
  simp [hfield, Ne.symm h]

theorem rowsOf_struct (slot : Nat) (field : Bytes) {members : List StructMember}
    (distinct : (members.map StructMember.name).Nodup) (rows : List LayoutRow) :
    rowsOf (setStructBody types slot members rows) slot field = rowsOf rows slot field ++
      match members.find? fun member => decide (member.name = field) with
      | some member => if member.bitGroupKind = .none then []
          else bitGroupRows types slot field member.bitGroupKind 0 member.bitGroupMembers
      | none => [] := by
  induction members generalizing rows with
  | nil => simp [setStructBody]
  | cons member members ih =>
    rw [map_cons, nodup_cons] at distinct
    have hstep : setStructBody types slot (member :: members) rows =
        setStructBody types slot members (if member.bitGroupKind = .none then rows
          else recordBitGroupMembers types slot member.name member rows) := rfl
    rw [hstep, ih distinct.2, find?_cons]
    cases hname : decide (member.name = field) with
    | true =>
      rw [decide_eq_true_eq] at hname
      have hnone : members.find? (fun other => decide (other.name = field)) = none := by
        refine find?_eq_none.mpr fun other hother hsame => ?_
        exact distinct.1 (hname ▸ mem_map.mpr ⟨other, hother, of_decide_eq_true hsame⟩)
      rw [hnone, append_nil]
      dsimp only
      split
      next => rw [append_nil]
      next => rw [recordBitGroupMembers, rowsOf_append, rowsOf_group, if_pos hname.symm, hname]
    | false =>
      rw [decide_eq_false_iff_not] at hname
      congr 1
      split
      next => rfl
      next =>
        rw [recordBitGroupMembers, rowsOf_append, rowsOf_group, if_neg (Ne.symm hname),
          append_nil]

theorem rowsOf_member (types : Types) {slot : Nat} {members : List StructMember}
    {rows : List LayoutRow}
    (fresh : ∀ row ∈ rows, row.owner ≠ slot) (distinct : (members.map StructMember.name).Nodup)
    {member : StructMember} (hmember : member ∈ members) (hkind : member.bitGroupKind ≠ .none) :
    members.find? (fun other => decide (other.name = member.name)) = some member ∧
      rowsOf (setStructBody types slot members rows) slot member.name =
        bitGroupRows types slot member.name member.bitGroupKind 0 member.bitGroupMembers := by
  have hfind : members.find? (fun other => decide (other.name = member.name)) = some member := by
    cases hfind : members.find? (fun other => decide (other.name = member.name)) with
    | none =>
      have := find?_eq_none.mp hfind member hmember
      simp at this
    | some other =>
      have hsame := find?_some hfind
      rw [decide_eq_true_eq] at hsame
      rw [inj_on_of_nodup_map distinct (mem_of_find?_eq_some hfind) hmember hsame]
  have hnone : rowsOf rows slot member.name = [] := by
    refine filter_eq_nil_iff.mpr fun row hrow => ?_
    simp [fresh row hrow]
  refine ⟨hfind, ?_⟩
  rw [rowsOf_struct slot member.name distinct rows, hnone, hfind, nil_append]
  exact if_neg hkind

end Layout

/-! ## Emitted slices -/

section Emitted

variable (poison : Poison)

theorem bitMask_eq {width : Nat} (h : width < 64) : bitMask poison width = 2 ^ width - 1 := by
  have hpos := Nat.two_pow_pos width
  have hlt : 2 ^ width < 2 ^ 64 := Nat.pow_lt_pow_right (by decide) h
  rw [bitMask, shl, if_pos h, constInt, constInt, Nat.one_shiftLeft, Nat.mod_eq_of_lt hlt]
  omega

theorem constInt_eq {bits value : Nat} (h : value < 2 ^ bits) : constInt bits value = value :=
  Nat.mod_eq_of_lt h

theorem constInt_complement {bits mask : Nat} (hbits : bits ≤ 64) (h : mask < 2 ^ bits) :
    constInt bits (2 ^ 64 - 1 - mask) = 2 ^ bits - 1 - mask := by
  have hmask : mask < 2 ^ 64 :=
    Nat.lt_of_lt_of_le h (Nat.pow_le_pow_right (by decide) hbits)
  apply Nat.eq_of_testBit_eq
  intro i
  rw [constInt, Nat.testBit_mod_two_pow, Nat.sub_sub, Nat.sub_sub, Nat.add_comm 1,
    Nat.testBit_two_pow_sub_succ hmask, Nat.testBit_two_pow_sub_succ h]
  cases hi : decide (i < bits) with
  | false => rfl
  | true =>
    rw [decide_eq_true_eq] at hi
    simp [Nat.lt_of_lt_of_le hi hbits]

variable {pack : Nat}

theorem offset_lt {row : LayoutRow} (inside : row.offset + row.width ≤ pack)
    (wide : 0 < row.width) : row.offset < pack ∧ constInt pack row.offset = row.offset := by
  have hlt : row.offset < pack := by omega
  exact ⟨hlt, constInt_eq (Nat.lt_trans hlt Nat.lt_two_pow_self)⟩

theorem readBits_eq {row : LayoutRow} (current : Nat) (inside : row.offset + row.width ≤ pack)
    (wide : 0 < row.width) (narrow : row.width < 64) :
    readBits poison pack row current = slice row.offset row.width current := by
  obtain ⟨hlt, hoffset⟩ := offset_lt inside wide
  have hmask := mask_lt (show 0 + row.width ≤ pack by omega)
  rw [Nat.shiftLeft_zero] at hmask
  rw [readBits, bitMask_eq poison narrow, constInt_eq hmask, hoffset, lshr, if_pos hlt, slice]

theorem assignBits_eq {row : LayoutRow} (value current : Nat)
    (inside : row.offset + row.width ≤ pack) (hpack : pack ≤ 64) (wide : 0 < row.width)
    (narrow : row.width < 64) :
    assignBits poison pack row value current =
      splice pack row.offset row.width (constInt pack value) current := by
  obtain ⟨hlt, hoffset⟩ := offset_lt inside wide
  have hmask := mask_lt (show 0 + row.width ≤ pack by omega)
  rw [Nat.shiftLeft_zero] at hmask
  have hplaced := mask_lt inside
  have hplaced64 := mask_lt (Nat.le_trans inside hpack)
  have hclamped : ((constInt pack value &&& (2 ^ row.width - 1)) <<< row.offset) < 2 ^ pack := by
    refine Nat.lt_of_le_of_lt ?_ hplaced
    rw [Nat.shiftLeft_eq, Nat.shiftLeft_eq]
    exact Nat.mul_le_mul_right _ Nat.and_le_right
  rw [assignBits, bitMask_eq poison narrow, constInt_eq hmask, hoffset, shl, shl, if_pos hlt,
    if_pos (Nat.lt_of_lt_of_le hlt hpack), constInt_eq hplaced64, constInt_eq hclamped,
    constInt_complement hpack hplaced, splice]

end Emitted

/-! ## Assignments -/

section Assignments

variable {types : Types} {slot : Nat} {members : List StructMember} {rows : List LayoutRow}

theorem mem_of_index {field name : Bytes} {row : LayoutRow}
    (h : bitGroupMemberIndex rows slot field name = some row) :
    row ∈ rowsOf rows slot field ∧ row.member = name := by
  have htest := find?_some h
  rw [Bool.and_eq_true, decide_eq_true_eq] at htest
  exact ⟨mem_filter.mpr ⟨mem_of_find?_eq_some h, htest.1⟩, htest.2⟩

section Fields

variable (fresh : ∀ row ∈ rows, row.owner ≠ slot) (distinct : (members.map StructMember.name).Nodup)
include fresh distinct

theorem row_inside {member : StructMember} (hmember : member ∈ members)
    (hkind : member.bitGroupKind ≠ .none) (fits : neededBits types member ≤ 64) :
    ((rowsOf (setStructBody types slot members rows) slot member.name).Pairwise fun a b =>
      Apart a.span b.span) ∧
    ∀ row ∈ rowsOf (setStructBody types slot members rows) slot member.name,
      row.offset + row.width ≤ bitGroupPackBits types member ∧ 0 < row.width := by
  have hspans := rows_spans slot member.name (show 0 + (member.bitGroupMembers.map
    (memberWidth types member.bitGroupKind)).sum ≤ 64 by rw [Nat.zero_add]; exact fits)
  rw [(rowsOf_member types fresh distinct hmember hkind).2]
  constructor
  · have := spans_apart 0 (member.bitGroupMembers.map (memberWidth types member.bitGroupKind))
    rwa [← hspans, pairwise_map] at this
  · intro row hrow
    have hspan : row.span ∈ spans 0
        (member.bitGroupMembers.map (memberWidth types member.bitGroupKind)) := by
      rw [← hspans]
      exact mem_map_of_mem hrow
    obtain ⟨-, hend, hwidth⟩ := spans_bounds hspan
    rw [Nat.zero_add] at hend
    obtain ⟨flag, -, hflag⟩ := mem_map.mp hwidth
    have hpos : 0 < row.span.2 := hflag ▸ memberWidth_pos types _ flag
    exact ⟨Nat.le_trans hend (neededBits_le_pack fits), hpos⟩

theorem member_of_row {field : Bytes} {row : LayoutRow}
    (h : row ∈ rowsOf (setStructBody types slot members rows) slot field) :
    ∃ member ∈ members, member.bitGroupKind ≠ .none ∧ member.name = field := by
  have hnone : rowsOf rows slot field = [] := by
    refine filter_eq_nil_iff.mpr fun row hrow => ?_
    simp [fresh row hrow]
  rw [rowsOf_struct slot field distinct rows, hnone, nil_append] at h
  split at h
  next member hfind =>
    have hname := find?_some hfind
    rw [decide_eq_true_eq] at hname
    refine ⟨member, mem_of_find?_eq_some hfind, fun hkind => ?_, hname⟩
    rw [if_pos hkind] at h
    cases h
  next => cases h

theorem readMember_assignMember
    (fits : ∀ member ∈ members, member.bitGroupKind ≠ .none → neededBits types member ≤ 64)
    {poison : Poison} {packs packs' : Packs} {field name field' name' : Bytes} {value : Nat}
    (different : (field', name') ≠ (field, name)) (assigned : assignMember poison types slot members
      (setStructBody types slot members rows) field name value packs = some packs') :
    readMember poison types slot members (setStructBody types slot members rows)
      field' name' packs' =
      readMember poison types slot members (setStructBody types slot members rows) field' name'
        packs := by
  simp only [assignMember, Option.bind_eq_bind, Option.bind_eq_some_iff, Option.pure_def,
    Option.some.injEq] at assigned
  obtain ⟨row, hrow, pack, hpack, rfl⟩ := assigned
  rcases eq_or_ne field' field with rfl | hfield
  · -- Both members are slices of one integer.
    have hname : name' ≠ name := fun e => different (e ▸ rfl)
    cases hrow' : bitGroupMemberIndex (setStructBody types slot members rows) slot field' name' with
    | none => simp [readMember, hrow']
    | some row' =>
      obtain ⟨hmem, hown⟩ := mem_of_index hrow
      obtain ⟨hmem', hown'⟩ := mem_of_index hrow'
      obtain ⟨member, hmember, hkind, rfl⟩ := member_of_row fresh distinct hmem
      obtain ⟨apart, inside⟩ := row_inside fresh distinct hmember hkind
        (fits member hmember hkind)
      rw [packBitsOf, (rowsOf_member types fresh distinct hmember hkind).1,
        Option.map_some, Option.some.injEq] at hpack
      subst hpack
      obtain ⟨hinside, hwide⟩ := inside row hmem
      obtain ⟨hinside', hwide'⟩ := inside row' hmem'
      have hne : row ≠ row' := fun e => hname (by rw [← hown', ← hown, e])
      have symmetric : Std.Symm fun a b : LayoutRow => Apart a.span b.span :=
        ⟨fun _ _ h => Or.symm h⟩
      have hapart : Apart row.span row'.span := apart.forall hmem hmem' hne
      have hle := pack_le types member
      have hapart' : row.offset + row.width ≤ row'.offset ∨
          row'.offset + row'.width ≤ row.offset := hapart
      simp only [readMember, hrow', packBitsOf,
        (rowsOf_member types fresh distinct hmember hkind).1, Option.map_some,
        Option.bind_eq_bind, Option.bind_some, Function.update_self, Option.pure_def]
      rw [readBits_eq poison _ hinside' hwide' (by omega),
        readBits_eq poison _ hinside' hwide' (by omega),
        assignBits_eq poison value _ hinside hle hwide (by omega),
        slice_splice _ _ hinside hinside' hapart']
  · simp only [readMember, Function.update_of_ne hfield]

end Fields

/-- The exact condition: no group needs more than 64 bits. -/
theorem bitGroups_separate (types : Types) (slot : Nat) (members : List StructMember)
    (rows : List LayoutRow) (fresh : ∀ row ∈ rows, row.owner ≠ slot)
    (distinct : (members.map StructMember.name).Nodup) :
    Separate types slot members (setStructBody types slot members rows) ↔
      ∀ member ∈ members, member.bitGroupKind ≠ .none → neededBits types member ≤ 64 := by
  constructor
  · intro separate member hmember hkind
    refine Nat.le_of_not_lt fun wide => ?_
    rw [← Nat.zero_add (neededBits types member)] at wide
    obtain ⟨row, hrow, hend⟩ :=
      rows_overflow slot member.name (Nat.zero_le 64) wide
    rw [← (rowsOf_member types fresh distinct hmember hkind).2] at hrow
    have hle := separate.inside member hmember hkind row hrow
    have := pack_le types member
    omega
  · intro fits
    constructor
    · exact fun member _ _ => pack_mem types member
    · exact fun member hmember hkind =>
        (row_inside fresh distinct hmember hkind (fits member hmember hkind)).1
    · exact fun member hmember hkind row hrow =>
        ((row_inside fresh distinct hmember hkind (fits member hmember hkind)).2 row hrow).1
    · exact fun _ _ _ _ _ _ _ _ different assigned =>
        readMember_assignMember fresh distinct fits different assigned

/-! ## A group that is too wide -/

def unsignedTypes : Types where
  annotationValueType
    | .ident [117, 56] => ⟨.unsigned, 8⟩
    | .ident [117, 54, 52] => ⟨.unsigned, 64⟩
    | _ => ⟨.unmodeled, 0⟩
  enumBacking _ := none
  backed := nofun

/-- `layout: bitfield:` with `a: u64` and `b: u8`. -/
def wideGroup : StructMember :=
  ⟨ascii "layout", .bitfield, [⟨ascii "a", .ident (ascii "u64")⟩, ⟨ascii "b", .ident (ascii "u8")⟩]⟩

/-- The second member lies behind the 64 bits of the integer. -/
theorem wideGroup_overflows :
    bitGroupPackBits unsignedTypes wideGroup = 64 ∧
      (rowsOf (setStructBody unsignedTypes 0 [wideGroup] []) 0 (ascii "layout")).map
        LayoutRow.span = [(0, 64), (64, 8)] ∧
      ¬ Separate unsignedTypes 0 [wideGroup] (setStructBody unsignedTypes 0 [wideGroup] []) := by
  refine ⟨by decide, by decide, fun separate => ?_⟩
  have hinside := separate.inside wideGroup mem_cons_self (by decide)
    ⟨0, ascii "layout", ascii "b", 64, 8, false⟩ (by decide)
  exact absurd hinside (by decide)

/-- `layout: bitfield:` with `tag: u4`, `mode: u8` and `active: u1`. -/
theorem bitGroups_separate_header :
    Separate unsignedTypes 3
      [⟨ascii "layout", .bitfield, [⟨ascii "tag", .ident (ascii "u4")⟩,
        ⟨ascii "mode", .ident (ascii "u8")⟩, ⟨ascii "active", .ident (ascii "u1")⟩]⟩]
      (setStructBody unsignedTypes 3
        [⟨ascii "layout", .bitfield, [⟨ascii "tag", .ident (ascii "u4")⟩,
          ⟨ascii "mode", .ident (ascii "u8")⟩, ⟨ascii "active", .ident (ascii "u1")⟩]⟩] []) :=
  (bitGroups_separate unsignedTypes 3 _ [] (fun _ h => nomatch h) (by decide)).mpr (by decide)

end Assignments

end Elisa.Backend.BitGroups
