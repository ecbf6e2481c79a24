import Elisa.Bytes
import Elisa.Lib.LittleEndian
import Elisa.Lib.Steps

/-!
# Templates

A template image is assembled code with holes, and its patches say where the value of a hole goes
(`easm_verify_provenance.elisa`).  `deriveTemplatePatches` compares an image with another one in
which the bytes of a hole are flipped, and adds a patch for each stretch that differs.
`instantiateTemplate` appends an image to a buffer and writes the values, least significant byte
first.

The patches count from the start of the buffer, not of the image, and the image stays in the buffer
where one of them fails.  `inverts_iff` says when patching does what it should (`Inverts`).
-/

namespace Elisa.Easm

open Elisa.Lib List

/-! ## The code -/

structure PatchByte where
  hole : Bytes
  offset : Int
  width : Int
deriving DecidableEq

structure TemplateImage where
  bytes : Bytes
  patches : List PatchByte
deriving DecidableEq

structure PatchValue where
  hole : Bytes
  value : UInt64
deriving DecidableEq

def suppliedValue (values : List PatchValue) (hole : Bytes) : Option UInt64 :=
  values.foldl (fun supplied candidate =>
    if candidate.hole = hole then some candidate.value else supplied) none

/-- The byte that is shifted down to the lowest place.  A shift by 64 or more is not defined. -/
def shiftedByte (value : UInt64) (byteIndex : Nat) : Option UInt8 :=
  if byteIndex * 8 < 64 then some (UInt8.ofNat (value.toNat >>> (byteIndex * 8))) else none

def writePatch (value : UInt64) (offset width : Nat) (out : Bytes) : Option Bytes :=
  (List.range width).foldlM
    (fun out byteIndex => (shiftedByte value byteIndex).map (out.set (offset + byteIndex))) out

/-- The patches of an image, until one of them fails.  An offset and a width whose sum leaves its
type are out of range here. -/
def applyPatches (values : List PatchValue) : List PatchByte → Bytes → Option (Bool × Bytes)
  | [], out => some (true, out)
  | patch :: patches, out =>
    match suppliedValue values patch.hole with
    | none => some (false, out)
    | some value =>
      if patch.offset < 0 ∨ patch.width < 0 ∨ (out.length : Int) < patch.offset + patch.width then
        some (false, out)
      else do
        let out ← writePatch value patch.offset.toNat patch.width.toNat out
        applyPatches values patches out

/-- Whether the image was patched, and the buffer with it.  Nothing where a shift is not defined. -/
def instantiateTemplate (image : TemplateImage) (values : List PatchValue) (out : Bytes) :
    Option (Bool × Bytes) :=
  applyPatches values image.patches (out ++ image.bytes)

section Derive

variable (base flipped : Bytes)

def changedEnd (start : Nat) : Nat :=
  runSteps (fun cursor =>
      if cursor < base.length ∧ base[cursor]? ≠ flipped[cursor]? then some (cursor + 1) else none)
    (base.length - start) start

def deriveStep (hole : Bytes) (s : Nat × List PatchByte) : Option (Nat × List PatchByte) :=
  if s.1 < base.length then
    if base[s.1]? = flipped[s.1]? then some (s.1 + 1, s.2)
    else
      let stop := changedEnd base flipped s.1
      some (stop, s.2 ++ [⟨hole, s.1, (stop : Int) - s.1⟩])
  else none

def deriveTemplatePatches (hole : Bytes) (patches : List PatchByte) : Bool × List PatchByte :=
  if base.length ≠ flipped.length then (false, patches)
  else
    let derived := (runSteps (deriveStep base flipped hole) base.length (0, patches)).2
    (decide (0 < derived.length), derived)

end Derive

/-! ## What it is for -/

/-- Two images differ in some bytes, in each of them, and nowhere else. -/
structure DiffersAt (base flipped : Bytes) (offset width : Nat) : Prop where
  length_eq : flipped.length = base.length
  within : offset + width ≤ base.length
  differs : ∀ i, base[i]? ≠ flipped[i]? ↔ offset ≤ i ∧ i < offset + width

def patched (base : Bytes) (offset width : Nat) (value : UInt64) : Bytes :=
  base.take offset ++ LittleEndian.put width value.toNat ++ base.drop (offset + width)

/-- Derivation adds one patch, and instantiation appends the image with the value in the bytes of
the patch, or leaves the buffer as it was. -/
def Inverts (base flipped hole : Bytes) (offset width : Nat) (patches : List PatchByte)
    (out : Bytes) (value : UInt64) : Prop :=
  let derived := deriveTemplatePatches base flipped hole patches
  derived = (true, patches ++ [⟨hole, offset, width⟩]) ∧
    ∃ result, instantiateTemplate { bytes := base, patches := derived.2 } [{ hole, value }] out =
        some result ∧
      (result.1 = true → result.2 = out ++ patched base offset width value) ∧
      (result.1 = false → result.2 = out)

/-! ## Derivation -/

section Derivation

variable {base flipped hole : Bytes} {offset width : Nat}

theorem changedEnd_eq (differs : DiffersAt base flipped offset width) :
    changedEnd base flipped offset = offset + width := by
  have within := differs.within
  have kept : offset ≤ changedEnd base flipped offset ∧
      changedEnd base flipped offset ≤ offset + width := by
    refine runSteps_keeps (fun cursor => offset ≤ cursor ∧ cursor ≤ offset + width) ?_
      ⟨Nat.le_refl _, Nat.le_add_right _ _⟩
    rintro cursor next ⟨low, high⟩ h
    split at h
    · rename_i changed
      have := (differs.differs cursor).1 changed.2
      have := Option.some.inj h
      omega
    · exact absurd h (by simp)
  have halts := @runSteps_halts Nat
    (fun cursor => if cursor < base.length ∧ base[cursor]? ≠ flipped[cursor]? then
      some (cursor + 1) else none) (base.length - offset) offset
        (fun cursor => base.length - cursor)
    (fun cursor next h => by
      split at h
      · have := Option.some.inj h
        omega
      · exact absurd h (by simp))
    (Nat.le_refl _)
  by_contra other
  have inside : changedEnd base flipped offset < offset + width := by omega
  have changed := (differs.differs _).2 ⟨kept.1, inside⟩
  exact absurd
    (ite_eq_right_iff.1 halts ⟨by exact Nat.lt_of_lt_of_le inside within, changed⟩) (by simp)

theorem lt_changedEnd {start : Nat} (more : start < base.length)
    (changed : base[start]? ≠ flipped[start]?) : start < changedEnd base flipped start := by
  obtain ⟨fuel, left⟩ : ∃ fuel, base.length - start = fuel + 1 :=
    ⟨base.length - start - 1, by omega⟩
  have step : (if start < base.length ∧ base[start]? ≠ flipped[start]? then some (start + 1)
      else none) = some (start + 1) := if_pos ⟨more, changed⟩
  rw [changedEnd, left, runSteps_of_some step]
  refine runSteps_keeps (fun cursor => start < cursor) ?_ (Nat.lt_succ_self _)
  intro cursor next lt h
  split at h
  · have := Option.some.inj h
    omega
  · exact absurd h (by simp)

theorem deriveTemplatePatches_eq (hole : Bytes) (differs : DiffersAt base flipped offset width)
    (some_ : 0 < width)
    (patches : List PatchByte) :
    deriveTemplatePatches base flipped hole patches =
      (true, patches ++ [⟨hole, offset, width⟩]) := by
  have within := differs.within
  have kept : ∀ {s : Nat × List PatchByte}, s = runSteps (deriveStep base flipped hole) base.length
      (0, patches) → (s.1 ≤ offset ∧ s.2 = patches) ∨
        (offset + width ≤ s.1 ∧ s.2 = patches ++ [⟨hole, offset, width⟩]) := by
    rintro s rfl
    refine runSteps_keeps (fun s : Nat × List PatchByte => (s.1 ≤ offset ∧ s.2 = patches) ∨
      (offset + width ≤ s.1 ∧ s.2 = patches ++ [⟨hole, offset, width⟩])) ?_ ?_
    swap
    · exact .inl ⟨Nat.zero_le _, rfl⟩
    rintro ⟨cursor, found⟩ next before h
    simp only [deriveStep] at h
    simp only at before
    have here := differs.differs cursor
    split_ifs at h with more same
    · have outside : ¬ (offset ≤ cursor ∧ cursor < offset + width) := fun inside =>
        here.2 inside same
      rw [← Option.some.inj h]
      rcases before with ⟨le, eq⟩ | ⟨le, eq⟩
      · exact .inl ⟨by show cursor + 1 ≤ offset; omega, eq⟩
      · exact .inr ⟨Nat.le_succ_of_le le, eq⟩
    · obtain ⟨low, high⟩ := here.1 same
      rw [← Option.some.inj h]
      rcases before with ⟨le, eq⟩ | ⟨le, -⟩
      · obtain rfl : cursor = offset := Nat.le_antisymm le low
        have stop := changedEnd_eq differs
        refine .inr ⟨Nat.le_of_eq stop.symm, ?_⟩
        rw [stop, eq, Nat.cast_add, add_sub_cancel_left]
      · omega
  have halts : deriveStep base flipped hole
      (runSteps (deriveStep base flipped hole) base.length (0, patches)) = none := by
    refine runSteps_halts (fun s => base.length - s.1) (fun s next h => ?_) (Nat.le_refl _)
    simp only [deriveStep] at h
    split_ifs at h with more same
    · rw [← Option.some.inj h]
      show base.length - (s.1 + 1) < base.length - s.1
      omega
    · have := lt_changedEnd more same
      rw [← Option.some.inj h]
      show base.length - changedEnd base flipped s.1 < base.length - s.1
      omega
  have last := kept rfl
  unfold deriveTemplatePatches
  rw [if_neg (not_not.2 differs.length_eq.symm)]
  generalize runSteps (deriveStep base flipped hole) base.length (0, patches) = s at halts last
  simp only [deriveStep] at halts
  split_ifs at halts with more
  rcases last with ⟨le, -⟩ | ⟨-, found⟩
  · omega
  · simp [found]

end Derivation

/-! ## Instantiation -/

section Instantiation

variable {values : List PatchValue} {value : UInt64} {out written : Bytes}

theorem shiftedByte_eq (value : UInt64) {index : Nat} (low : index < 8) :
    shiftedByte value index = some (UInt8.ofNat (value.toNat >>> (index * 8))) :=
  if_pos (by omega)

theorem writePatch_eq (offset : Nat) {width : Nat}
    (wrote : writePatch value offset width out = some written) :
    (0 < width → (width - 1) * 8 < 64) ∧ written.length = out.length ∧ ∀ i, written[i]? =
      if offset ≤ i ∧ i < offset + width then
        out[i]?.map fun _ => UInt8.ofNat (value.toNat >>> ((i - offset) * 8))
      else out[i]? := by
  induction width generalizing written with
  | zero =>
    have same : out = written := Option.some.inj wrote
    subst same
    refine ⟨by omega, rfl, fun i => ?_⟩
    rw [if_neg (by omega)]
  | succ width ih =>
    simp only [writePatch, range_succ, foldlM_append, foldlM_cons, foldlM_nil,
      Option.bind_eq_bind, Option.pure_def, Option.bind_eq_some_iff] at wrote
    obtain ⟨before, first, after, last, same⟩ := wrote
    obtain rfl := Option.some.inj same
    obtain ⟨-, length, at_⟩ := ih first
    obtain ⟨byte, shifted, rfl⟩ := Option.map_eq_some_iff.1 last
    unfold shiftedByte at shifted
    split at shifted
    · rename_i low
      have byte_eq := Option.some.inj shifted
      refine ⟨fun _ => low, by rw [length_set, length], fun i => ?_⟩
      rw [getElem?_set, at_, length]
      by_cases here : offset + width = i
      · subst here
        have last : offset ≤ offset + width ∧ offset + width < offset + (width + 1) := by omega
        rw [if_pos rfl, if_pos last, Nat.add_sub_cancel_left, byte_eq]
        split
        · rename_i within
          rw [getElem?_eq_getElem within]
          rfl
        · rename_i outside
          rw [getElem?_eq_none (Nat.not_lt.1 outside)]
          rfl
      · rw [if_neg here]
        have same : (offset ≤ i ∧ i < offset + width) ↔
          (offset ≤ i ∧ i < offset + (width + 1)) := by
          omega
        simp only [same]
    · exact absurd shifted (by simp)

theorem writePatch_isSome (value : UInt64) (out : Bytes) (offset : Nat) {width : Nat}
    (short : width ≤ 8) :
    ∃ written, writePatch value offset width out = some written := by
  induction width with
  | zero => exact ⟨out, rfl⟩
  | succ width ih =>
    obtain ⟨before, wrote⟩ := ih (by omega)
    refine ⟨before.set (offset + width) (UInt8.ofNat (value.toNat >>> (width * 8))), ?_⟩
    simp only [writePatch] at wrote ⊢
    rw [range_succ, foldlM_append, wrote]
    simp [shiftedByte_eq value (by omega : width < 8)]

theorem suppliedValue_one {hole other : Bytes} {supplied : UInt64} :
    suppliedValue [{ hole, value }] other = some supplied ↔ hole = other ∧ value = supplied := by
  simp [suppliedValue]

variable {patches : List PatchByte}

theorem applyPatches_cons {patch : PatchByte} {ok : Bool}
    (applied : applyPatches values (patch :: patches) out = some (ok, written)) :
    (ok = false ∧ written = out) ∨
      ∃ value next, suppliedValue values patch.hole = some value ∧ 0 ≤ patch.offset ∧
        0 ≤ patch.width ∧ patch.offset + patch.width ≤ out.length ∧
        writePatch value patch.offset.toNat patch.width.toNat out = some next ∧
        applyPatches values patches next = some (ok, written) := by
  rw [applyPatches] at applied
  split at applied
  · obtain ⟨rfl, rfl⟩ := Prod.mk.inj (Option.some.inj applied)
    exact .inl ⟨rfl, rfl⟩
  rename_i value supplied
  split_ifs at applied with outside
  · obtain ⟨rfl, rfl⟩ := Prod.mk.inj (Option.some.inj applied)
    exact .inl ⟨rfl, rfl⟩
  · obtain ⟨next, wrote, rest⟩ := Option.bind_eq_some_iff.1 applied
    exact .inr ⟨value, next, supplied, by omega, by omega, by omega, wrote, rest⟩

theorem applyPatches_of_wrote {patch : PatchByte}
    (supplied : suppliedValue values patch.hole = some value) (low : 0 ≤ patch.offset)
    (wide : 0 ≤ patch.width) (high : patch.offset + patch.width ≤ out.length)
    (wrote : writePatch value patch.offset.toNat patch.width.toNat out = some written) :
    applyPatches values (patch :: patches) out = applyPatches values patches written := by
  have inside : ¬ (patch.offset < 0 ∨ patch.width < 0 ∨
      (out.length : Int) < patch.offset + patch.width) := by omega
  rw [applyPatches, supplied]
  simp only [if_neg inside, wrote, Option.bind_eq_bind, Option.bind_some]

theorem applyPatches_length {ok : Bool}
    (applied : applyPatches values patches out = some (ok, written)) :
    written.length = out.length := by
  induction patches generalizing out with
  | nil =>
    obtain ⟨-, rfl⟩ := Prod.mk.inj (Option.some.inj applied)
    rfl
  | cons patch patches ih =>
    rcases applyPatches_cons applied with ⟨-, rfl⟩ | ⟨_, _, -, -, -, -, wrote, rest⟩
    · rfl
    · rw [ih rest, (writePatch_eq _ wrote).2.1]

/-! ### A value whose bytes are the same -/

def PatchByte.covers (patch : PatchByte) (i : Nat) : Prop :=
  patch.offset ≤ i ∧ (i : Int) < patch.offset + patch.width

variable {hole : Bytes} {byte : UInt8}

theorem applyPatches_kept (same : ∀ index < 8, UInt8.ofNat (value.toNat >>> (index * 8)) = byte)
    {ok : Bool} {i : Nat}
    (applied : applyPatches [{ hole, value }] patches out = some (ok, written))
    (here : out[i]? = some byte) : written[i]? = some byte := by
  induction patches generalizing out with
  | nil =>
    obtain ⟨-, rfl⟩ := Prod.mk.inj (Option.some.inj applied)
    exact here
  | cons patch patches ih =>
    rcases applyPatches_cons applied with ⟨-, rfl⟩ | ⟨other, next, supplied, -, -, -, wrote, rest⟩
    · exact here
    refine ih rest ?_
    obtain ⟨-, rfl⟩ := suppliedValue_one.1 supplied
    obtain ⟨short, -, at_⟩ := writePatch_eq _ wrote
    rw [at_, here]
    split_ifs with inside
    · rw [Option.map_some, same _ (by omega)]
    · rfl

theorem applyPatches_written (same : ∀ index < 8, UInt8.ofNat (value.toNat >>> (index * 8)) = byte)
    (applied : applyPatches [{ hole, value }] patches out = some (true, written)) :
    ∀ patch ∈ patches, patch.hole = hole ∧ 0 ≤ patch.offset ∧ 0 ≤ patch.width ∧
      patch.offset + patch.width ≤ out.length ∧ ∀ i, patch.covers i → written[i]? = some byte := by
  induction patches generalizing out with
  | nil => simp
  | cons patch patches ih =>
    rcases applyPatches_cons applied with ⟨no, -⟩ |
      ⟨other, next, supplied, low, wide, high, wrote, rest⟩
    · exact absurd no (by simp)
    obtain ⟨rfl, rfl⟩ := suppliedValue_one.1 supplied
    obtain ⟨short, length, at_⟩ := writePatch_eq _ wrote
    intro one mem
    rcases mem_cons.1 mem with rfl | mem
    · refine ⟨rfl, low, wide, high, fun i ⟨first, last⟩ => applyPatches_kept same rest ?_⟩
      rw [at_, if_pos (by omega), same _ (by omega), getElem?_eq_getElem (by omega)]
      rfl
    · have := ih rest one mem
      rwa [length] at this

theorem bytes_zero : ∀ index < 8, UInt8.ofNat ((0 : UInt64).toNat >>> (index * 8)) = 0 := by decide

theorem bytes_ones :
    ∀ index < 8, UInt8.ofNat ((0x0101010101010101 : UInt64).toNat >>> (index * 8)) = 1 := by decide

end Instantiation

/-! ## When patching inverts derivation -/

section Inversion

variable {base flipped hole out : Bytes} {offset width : Nat} {patches : List PatchByte}
  {value : UInt64}

structure PatchByte.Within (base hole : Bytes) (offset width : Nat) (patch : PatchByte) : Prop where
  hole_eq : patch.hole = hole
  offset_nonneg : 0 ≤ patch.offset
  width_nonneg : 0 ≤ patch.width
  in_range : patch.offset + patch.width ≤ base.length
  covered : patch.width = 0 ∨ offset ≤ patch.offset ∧ patch.offset + patch.width ≤ offset + width

theorem patched_getElem? (within : offset + width ≤ base.length) (value : UInt64) (i : Nat) :
    (patched base offset width value)[i]? =
      if offset ≤ i ∧ i < offset + width then
        some (UInt8.ofNat (value.toNat >>> ((i - offset) * 8)))
      else base[i]? := by
  have front : (base.take offset).length = offset := by
    rw [length_take]
    omega
  rw [patched, append_assoc, getElem?_append, front]
  split
  · rw [if_neg (by omega), getElem?_take_of_lt ‹_›]
  rw [getElem?_append, LittleEndian.length_put]
  split
  · have mask : ∀ n : Nat, UInt8.ofNat (n &&& 255) = UInt8.ofNat n := fun n => by
      rw [Nat.and_two_pow_sub_one_eq_mod n 8]
      exact UInt8.toNat.inj (Nat.mod_mod _ _)
    rw [if_pos (by omega), LittleEndian.put, getElem?_map, getElem?_range ‹_›]
    simp [mask]
  · rw [if_neg (by omega), getElem?_drop]
    congr 1
    omega

theorem applyPatches_within (value : UInt64) (out : Bytes) (length : out.length = base.length)
    (short : width ≤ 8) (all : ∀ patch ∈ patches, patch.Within base hole offset width)
    (more : List PatchByte) :
    ∃ next, applyPatches [{ hole, value }] (patches ++ more) out =
        applyPatches [{ hole, value }] more next ∧ next.length = base.length ∧
      ∀ i, ¬ (offset ≤ i ∧ i < offset + width) → next[i]? = out[i]? := by
  induction patches generalizing out with
  | nil => exact ⟨out, rfl, length, fun _ _ => rfl⟩
  | cons patch patches ih =>
    obtain ⟨hole_eq, low, wide, high, covered⟩ := all patch (.head _)
    obtain ⟨written, wrote⟩ := writePatch_isSome value out patch.offset.toNat
      (show patch.width.toNat ≤ 8 by omega)
    obtain ⟨-, written_length, at_⟩ := writePatch_eq _ wrote
    obtain ⟨next, rest, next_length, kept⟩ := ih written (written_length.trans length)
      fun patch mem => all patch (.tail _ mem)
    refine ⟨next, ?_, next_length, fun i outside => ?_⟩
    · rw [cons_append, applyPatches_of_wrote (suppliedValue_one.2 ⟨hole_eq.symm, rfl⟩) low wide
        (by omega) wrote, rest]
    · rw [kept i outside, at_, if_neg (by omega)]

/-- Patching inverts derivation for an empty buffer, when the patches that were there before are
within the hole, and only then. -/
theorem inverts_iff (differs : DiffersAt base flipped offset width) (some_ : 0 < width)
    (short : width ≤ 8) :
    (∀ value, Inverts base flipped hole offset width patches out value) ↔
      out = [] ∧ ∀ patch ∈ patches, patch.Within base hole offset width := by
  have within := differs.within
  have derived := deriveTemplatePatches_eq hole differs some_ patches
  simp only [Inverts, derived, true_and]
  constructor
  · intro inverts
    -- A patch that fails leaves the image in the buffer.
    have succeeds : ∀ value, applyPatches [{ hole, value }] (patches ++ [⟨hole, offset, width⟩])
        (out ++ base) = some (true, out ++ patched base offset width value) := by
      intro value
      obtain ⟨⟨ok, written⟩, applied, yes, no⟩ := inverts value
      cases ok with
      | true => rw [← yes rfl]; exact applied
      | false =>
        have length := applyPatches_length applied
        have left : written = out := no rfl
        rw [left, length_append] at length
        have : 0 < base.length := by omega
        simp only at length
        omega
    have zero := applyPatches_written bytes_zero (succeeds 0)
    have ones := applyPatches_written bytes_ones (succeeds 0x0101010101010101)
    -- A byte that a patch covers depends on the value.
    have covered : ∀ patch ∈ patches ++ [⟨hole, offset, width⟩], ∀ i, patch.covers i →
        out.length + offset ≤ i ∧ i < out.length + (offset + width) := by
      intro patch mem i covers
      obtain ⟨-, -, -, -, zero⟩ := zero patch mem
      obtain ⟨-, -, -, -, ones⟩ := ones patch mem
      have zero := zero i covers
      have ones := ones i covers
      rw [getElem?_append] at zero ones
      split at zero
      next before =>
        rw [if_pos before, zero] at ones
        exact absurd ones (by decide)
      rename_i after
      rw [if_neg after, patched_getElem? within] at ones
      rw [patched_getElem? within] at zero
      split at zero
      · omega
      next outside =>
        rw [if_neg outside, zero] at ones
        exact absurd ones (by decide)
    have empty : out.length = 0 := by
      have := covered _ (mem_append_right _ (mem_singleton_self _)) offset
        ⟨Int.le_refl _, by show (offset : Int) < offset + width; omega⟩
      omega
    refine ⟨eq_nil_of_length_eq_zero empty, fun patch mem => ?_⟩
    have mem : patch ∈ patches ++ [⟨hole, offset, width⟩] := mem_append_left _ mem
    obtain ⟨hole_eq, low, wide, high, -⟩ := zero patch mem
    rw [length_append, empty, Nat.zero_add] at high
    refine ⟨hole_eq, low, wide, high, ?_⟩
    rcases Int.lt_or_eq_of_le wide with some_ | none_
    · have first := covered patch mem patch.offset.toNat ⟨by omega, by omega⟩
      have last := covered patch mem (patch.offset + patch.width - 1).toNat ⟨by omega, by omega⟩
      omega
    · exact .inl none_.symm
  · rintro ⟨rfl, all⟩ value
    obtain ⟨next, rest, length, kept⟩ :=
      applyPatches_within value base rfl short all [⟨hole, offset, width⟩]
    obtain ⟨written, wrote⟩ := writePatch_isSome value next offset short
    obtain ⟨-, written_length, at_⟩ := writePatch_eq _ wrote
    refine ⟨(true, written), ?_, fun _ => ?_, fun no => absurd no (by simp)⟩
    · have last : applyPatches [{ hole, value }] [⟨hole, offset, width⟩] next =
          applyPatches [{ hole, value }] [] written :=
        applyPatches_of_wrote (suppliedValue_one.2 ⟨rfl, rfl⟩) (Int.natCast_nonneg _)
          (Int.natCast_nonneg _) (by show (offset : Int) + width ≤ next.length; omega) wrote
      exact rest.trans last
    · refine ext_getElem? fun i => ?_
      rw [nil_append, at_, patched_getElem? within]
      split_ifs with inside
      · rw [getElem?_eq_getElem (by omega)]
        rfl
      · exact kept i inside

theorem inverts_word :
    DiffersAt [1, 2, 3, 4] [1, 253, 252, 4] 1 2 ∧
      ((∀ value, Inverts [1, 2, 3, 4] [1, 253, 252, 4] [118] 1 2 [] [] value) ↔
        ([] : Bytes) = [] ∧ ∀ patch ∈ ([] : List PatchByte),
          patch.Within [1, 2, 3, 4] [118] 1 2) := by
  have differs : DiffersAt [1, 2, 3, 4] [1, 253, 252, 4] 1 2 := by
    refine ⟨rfl, by decide, fun i => ?_⟩
    match i with
    | 0 => decide
    | 1 => decide
    | 2 => decide
    | 3 => decide
    | i + 4 => simp
  exact ⟨differs, inverts_iff differs (by decide) (by decide)⟩

/-- The buffer holds one byte, and the value goes over it and not into the image. -/
theorem inverts_absolute :
    DiffersAt [1, 2] [254, 2] 0 1 ∧ ¬ Inverts [1, 2] [254, 2] [118] 0 1 [] [7] 9 := by
  refine ⟨⟨rfl, by decide, fun i => ?_⟩, ?_⟩
  · match i with
    | 0 => decide
    | 1 => decide
    | i + 2 => simp
  · rintro ⟨-, ⟨ok, written⟩, applied, yes, no⟩
    have patched_ : instantiateTemplate
        ⟨[1, 2], (deriveTemplatePatches [1, 2] [254, 2] [118] []).2⟩ [⟨[118], 9⟩] [7] =
          some (true, [9, 1, 2]) := by
      decide +kernel
    obtain ⟨rfl, rfl⟩ := Prod.mk.inj (Option.some.inj (patched_.symm.trans applied))
    exact absurd (yes rfl) (by decide)

end Inversion

end Elisa.Easm
