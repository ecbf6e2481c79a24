import Mathlib.Tactic.Ring
import Elisa.Lib.OccursAt
import Elisa.Driver.FrontendIrRead

/-!
# Written bundles are read back

Each reader is compared with its writer at any place of any input: where the bytes of a number, a
text, a descriptor, a row or a node occur, it returns what was written and the cursor behind it.
`irBundle_read_back` puts this together with what acceptance means for arbitrary bytes.
-/

namespace Elisa.Driver

open Outcome Elisa.Lib List Parsed

/-! ## Numbers -/

section Numbers

variable {data : Bytes}

theorem irUvarintOutLoop_eq (groups n : Nat) :
    irUvarintOutLoop (groups + 1) n = if n < 128 then [UInt8.ofNat n]
      else UInt8.ofNat (n % 128 + 128) :: irUvarintOutLoop groups (n / 128) := by
  have low : n &&& 127 = n % 128 := Nat.and_two_pow_sub_one_eq_mod n 7
  have high : n >>> 7 = n / 128 := Nat.shiftRight_eq_div_pow n 7
  have small : n % 128 < 2 ^ 7 := Nat.mod_lt _ (by decide)
  have chunk : UInt8.ofNat (n % 128) ||| 128 = UInt8.ofNat (n % 128 + 128) := by
    have bits : n % 128 ||| 128 = n % 128 + 128 := by
      have := Nat.shiftLeft_add_eq_or_of_lt small 1
      rw [Nat.or_comm, Nat.add_comm]
      exact this.symm
    have value : (UInt8.ofNat (n % 128)).toNat = n % 128 := by
      rw [UInt8.toNat_ofNat']
      omega
    have value' : (UInt8.ofNat (n % 128 + 128)).toNat = n % 128 + 128 := by
      rw [UInt8.toNat_ofNat']
      omega
    rw [← UInt8.toNat_inj, UInt8.toNat_or, value, value']
    exact bits
  rw [irUvarintOutLoop, low, high]
  by_cases last : n < 128
  · rw [if_pos (Nat.div_eq_of_lt last), if_pos last, Nat.mod_eq_of_lt last]
  · rw [if_neg (by omega), if_neg last, chunk]

theorem length_irUvarintOut_pos (n : Nat) : 0 < (irUvarintOut n).length := by
  rw [irUvarintOut, irUvarintOutLoop_eq]
  split
  · exact Nat.one_pos
  · exact Nat.succ_pos _

variable {fuel position shift result : Nat}

theorem irUvarintLoop_last {byte : UInt8} (found : data[position]? = some byte)
    (last : byte.toNat < 128) (hresult : result < 2 ^ shift)
    (fits : byte.toNat * 2 ^ shift < 2 ^ 64) :
    irUvarintLoop data (fuel + 1) position shift result =
      .ok (result + byte.toNat * 2 ^ shift, position + 1) := by
  have inside : position < data.length := (List.getElem?_eq_some_iff.mp found).1
  have payload : (byte &&& 127).toNat = byte.toNat := by
    rw [payload_toNat, Nat.mod_eq_of_lt last]
  have fit : varintPayloadFits shift byte.toNat = true := by
    refine decide_eq_true ?_
    by_cases top : shift = 63
    · right
      rw [top] at fits
      omega
    · exact .inl top
  rw [irUvarintLoop, if_pos inside, index, found]
  dsimp only [Outcome.ok_bind]
  rw [payload, fit, require_true, Outcome.ok_bind, if_pos ((continues_iff byte).mpr last),
    or_group hresult fits]
  rfl

theorem irUvarintLoop_more {byte : UInt8} (found : data[position]? = some byte)
    (more : 128 ≤ byte.toNat) (hresult : result < 2 ^ shift) (hshift : shift + 7 ≤ 63) :
    irUvarintLoop data (fuel + 1) position shift result =
      irUvarintLoop data fuel (position + 1) (shift + 7)
        (result + (byte.toNat - 128) * 2 ^ shift) := by
  have inside : position < data.length := (List.getElem?_eq_some_iff.mp found).1
  have bound : byte.toNat < 256 := byte.toNat_lt
  have payload : (byte &&& 127).toNat = byte.toNat - 128 := by
    rw [payload_toNat]
    omega
  have fit : varintPayloadFits shift (byte.toNat - 128) = true := decide_eq_true (.inl (by omega))
  have fits := group_fits (.inr (by omega)) (by omega) fit
  have goes : ¬ byte &&& 128 = 0 := by
    rw [continues_iff]
    omega
  rw [irUvarintLoop, if_pos inside, index, found]
  dsimp only [Outcome.ok_bind]
  rw [payload, fit, require_true, Outcome.ok_bind, if_neg goes,
    show varintContinuedShiftFits (shift + 7) = true from decide_eq_true hshift, require_true,
    Outcome.ok_bind, or_group hresult fits]

theorem irUvarintLoop_final {groups n : Nat} (last : n < 128)
    (occurs : OccursAt data position (irUvarintOutLoop (groups + 1) n))
    (hfuel : (irUvarintOutLoop (groups + 1) n).length ≤ fuel)
    (hresult : result < 2 ^ shift) (fits : n * 2 ^ shift < 2 ^ 64) :
    irUvarintLoop data fuel position shift result =
      .ok (result + n * 2 ^ shift, position + (irUvarintOutLoop (groups + 1) n).length) := by
  have value : (UInt8.ofNat n).toNat = n := by
    rw [UInt8.toNat_ofNat']
    omega
  rw [irUvarintOutLoop_eq, if_pos last] at occurs hfuel ⊢
  obtain ⟨fuel, rfl⟩ := Nat.exists_eq_add_of_le' hfuel
  rw [length_singleton, irUvarintLoop_last occurs.getElem?_eq (by omega) hresult
    (by rwa [value]), value]

/-- Reading the groups that the writer wrote, above `shift` bits that were read before.
The induction is on the number of groups the writer has left. -/
theorem irUvarintLoop_out {groups n : Nat}
    (occurs : OccursAt data position (irUvarintOutLoop (groups + 1) n))
    (hn : n < 128 ^ (groups + 1)) (hfuel : (irUvarintOutLoop (groups + 1) n).length ≤ fuel)
    (hresult : result < 2 ^ shift) (fits : n * 2 ^ shift < 2 ^ 64) :
    irUvarintLoop data fuel position shift result =
      .ok (result + n * 2 ^ shift, position + (irUvarintOutLoop (groups + 1) n).length) := by
  induction groups generalizing fuel position shift result n with
  | zero => exact irUvarintLoop_final (by omega) occurs hfuel hresult fits
  | succ groups ih =>
    by_cases last : n < 128
    · exact irUvarintLoop_final last occurs hfuel hresult fits
    · have value : (UInt8.ofNat (n % 128 + 128)).toNat = n % 128 + 128 := by
        rw [UInt8.toNat_ofNat']
        omega
      have split : n = n % 128 + 128 * (n / 128) := (Nat.mod_add_div n 128).symm
      have shifted : 2 ^ (shift + 7) = 128 * 2 ^ shift := by ring
      have room : shift + 7 < 64 := by
        apply (Nat.pow_lt_pow_iff_right (show 1 < 2 by decide)).mp
        rw [shifted]
        exact Nat.lt_of_le_of_lt (Nat.mul_le_mul_right _ (Nat.le_of_not_lt last)) fits
      have total : result + n * 2 ^ shift =
          result + n % 128 * 2 ^ shift + n / 128 * 2 ^ (shift + 7) := by
        rw [shifted]
        calc result + n * 2 ^ shift
            = result + (n % 128 + 128 * (n / 128)) * 2 ^ shift := by rw [← split]
          _ = result + n % 128 * 2 ^ shift + n / 128 * (128 * 2 ^ shift) := by ring
      have below : result + n % 128 * 2 ^ shift < 2 ^ (shift + 7) := by
        have : n % 128 * 2 ^ shift ≤ 127 * 2 ^ shift := Nat.mul_le_mul_right _ (by omega)
        omega
      rw [irUvarintOutLoop_eq, if_neg last] at occurs hfuel ⊢
      obtain ⟨fuel, rfl⟩ := Nat.exists_eq_add_of_le' (Nat.le_trans (Nat.succ_pos _) hfuel)
      rw [irUvarintLoop_more occurs.getElem?_eq (by omega) hresult (by omega), value,
        Nat.add_sub_cancel, ih occurs.tail (by omega) (by simpa using hfuel) below
        (by omega), total]
      simp [Nat.add_assoc, Nat.add_comm 1]

variable {p : Nat}

theorem irUvarint_out {n : Nat} (occurs : OccursAt data p (irUvarintOut n)) (hn : n < 2 ^ 64) :
    irUvarint data p = .ok (n, p + (irUvarintOut n).length) := by
  have inside := occurs.add_length_le
  have room : (irUvarintOutLoop (9 + 1) n).length ≤ data.length - p := by
    change (irUvarintOut n).length ≤ _
    omega
  have zero : 0 < 2 ^ 0 := Nat.one_pos
  unfold irUvarint
  rw [irUvarintLoop_out occurs (by omega) room zero (by omega), Nat.zero_add, Nat.pow_zero,
    Nat.mul_one]
  rfl

theorem irVarint_out {value : Int} (occurs : OccursAt data p (irVarintOut value))
    (low : -2 ^ 63 ≤ value) (high : value < 2 ^ 63) :
    irVarint data p = .ok (value, p + (irVarintOut value).length) := by
  have even : ∀ m : Nat, m <<< 1 = 2 * m :=
    fun m => by rw [Nat.shiftLeft_eq, Nat.pow_one, Nat.mul_comm]
  have odd : ∀ m : Nat, (m <<< 1) ||| 1 = 2 * m + 1 := fun m => by
    rw [← Nat.shiftLeft_add_eq_or_of_lt (show 1 < 2 ^ 1 by decide), even]
  have half : ∀ m : Nat, m >>> 1 = m / 2 := fun m => Nat.shiftRight_eq_div_pow m 1
  have bit : ∀ m : Nat, m &&& 1 = m % 2 := fun m => Nat.and_two_pow_sub_one_eq_mod m 1
  unfold irVarintOut at occurs ⊢
  unfold irVarint
  by_cases negative : value < 0
  · rw [if_pos negative, odd] at occurs ⊢
    rw [irUvarint_out occurs (by omega), Outcome.ok_bind]
    dsimp only
    rw [half, bit, if_pos (by omega)]
    have : (0 - (((2 * (0 - (value + 1)).toNat + 1) / 2 : Nat) : Int)) - 1 = value := by omega
    rw [this]
    rfl
  · rw [if_neg negative, even] at occurs ⊢
    rw [irUvarint_out occurs (by omega), Outcome.ok_bind]
    dsimp only
    rw [half, bit, if_neg (by omega)]
    have : ((2 * value.toNat / 2 : Nat) : Int) = value := by omega
    rw [this]
    rfl

variable (size : data.length < 2 ^ 64)

include size in
theorem irSpan_eq {text : Bytes} (occurs : OccursAt data p (irBlobOut text)) :
    irSpan data p = .ok (p + (irUvarintOut text.length).length, text.length,
      p + (irBlobOut text).length) := by
  have inside := occurs.add_length_le
  have length : (irBlobOut text).length = (irUvarintOut text.length).length + text.length := by
    simp [irBlobOut]
  have number : irUvarint data p = .ok (text.length, p + (irUvarintOut text.length).length) :=
    irUvarint_out occurs.left (by omega)
  unfold irSpan
  rw [number, Outcome.ok_bind]
  dsimp only
  rw [decide_eq_true (by omega), require_true, Outcome.ok_bind, decide_eq_true (by omega),
    require_true, Outcome.ok_bind, length, Nat.add_assoc]
  rfl

include size in
theorem irSpan_out {text : Bytes} (occurs : OccursAt data p (irBlobOut text)) :
    ∃ start, irSpan data p = .ok (start, text.length, p + (irBlobOut text).length) ∧
      (data.drop start).take text.length = text :=
  ⟨_, irSpan_eq size occurs, occurs.right.slice_eq⟩

end Numbers

/-! ## The type table -/

def IrSchema.kind : IrSchema → UInt8
  | .leaf kind _ => kind
  | .list _ => 5
  | .map _ _ => 6
  | .inline _ => 7

section TypeTable

variable {data : Bytes} (size : data.length < 2 ^ 64)

variable {p : Nat}

include size in
theorem irSkipValueSchema_out {depth : Nat} {schema : IrSchema}
    (occurs : OccursAt data p schema.out) (deep : schema.out.length ≤ depth) :
    irSkipValueSchema data depth p = .ok (schema.kind, p + schema.out.length) := by
  induction schema generalizing p depth with
  | leaf kind plain =>
    obtain ⟨depth, rfl⟩ := Nat.exists_eq_add_of_le' deep
    have inside : p < data.length := occurs.add_length_le
    simp only [IrSchema.out, length_singleton] at occurs ⊢
    rw [irSkipValueSchema, if_pos inside, index, occurs.getElem?_eq]
    dsimp only [Outcome.ok_bind]
    rw [if_neg plain.1, if_neg plain.2.1, if_neg plain.2.2]
    rfl
  | list element ih =>
    have inside := occurs.add_length_le
    simp only [IrSchema.out, length_cons] at occurs inside deep ⊢
    obtain ⟨depth, rfl⟩ := Nat.exists_eq_add_of_le' (Nat.le_trans (Nat.succ_pos _) deep)
    have step := ih occurs.tail (show _ ≤ depth by omega)
    rw [irSkipValueSchema, if_pos (by omega), index, occurs.getElem?_eq]
    dsimp only [Outcome.ok_bind]
    rw [if_pos rfl, step]
    simp [IrSchema.kind, Nat.add_assoc, Nat.add_comm 1]
  | map key value ihKey ihValue =>
    have inside := occurs.add_length_le
    simp only [IrSchema.out, length_cons, length_append] at occurs inside deep ⊢
    obtain ⟨depth, rfl⟩ := Nat.exists_eq_add_of_le' (Nat.le_trans (Nat.succ_pos _) deep)
    have first := ihKey occurs.tail.left (show _ ≤ depth by omega)
    have second := ihValue occurs.tail.right (show _ ≤ depth by omega)
    rw [irSkipValueSchema, if_pos (by omega), index, occurs.getElem?_eq]
    dsimp only [Outcome.ok_bind]
    rw [if_neg (by decide), if_pos rfl, first, Outcome.ok_bind]
    dsimp only
    rw [second]
    simp [IrSchema.kind, Nat.add_assoc, Nat.add_comm 1]
  | inline name =>
    have inside := occurs.add_length_le
    simp only [IrSchema.out, length_cons] at occurs inside deep ⊢
    obtain ⟨depth, rfl⟩ := Nat.exists_eq_add_of_le' (Nat.le_trans (Nat.succ_pos _) deep)
    obtain ⟨start, span, -⟩ := irSpan_out size occurs.tail
    rw [irSkipValueSchema, if_pos (by omega), index, occurs.getElem?_eq]
    dsimp only [Outcome.ok_bind]
    rw [if_neg (by decide), if_neg (by decide), if_pos rfl, span]
    simp [IrSchema.kind, Nat.add_assoc, Nat.add_comm 1]

theorem u32ValueFits_of_lt {n : Nat} (h : n < 2 ^ 32) : u32ValueFits n = true :=
  decide_eq_true (by omega)

theorem length_le_flatMap {α β : Type} {f : α → List β} (nonempty : ∀ a, 0 < (f a).length)
    (l : List α) : l.length ≤ (l.flatMap f).length := by
  induction l with
  | nil => exact Nat.zero_le _
  | cons a l ih =>
    have := nonempty a
    rw [flatMap_cons, length_append, length_cons]
    omega

theorem length_typeFieldRow_pos (row : TypeFieldRow) : 0 < row.out.length := by
  have := length_irUvarintOut_pos row.id
  simp only [TypeFieldRow.out, length_append]
  omega

theorem length_typeRow_pos (row : TypeRow) : 0 < row.out.length := by
  have := length_irUvarintOut_pos row.id
  simp only [TypeRow.out, length_append]
  omega

def TypeRow.Numbered (row : TypeRow) : Prop := row.id < 2 ^ 32 ∧ ∀ f ∈ row.fields, f.id < 2 ^ 32

include size in
theorem irReadTypeFields_out {rows : List TypeFieldRow} (bundle : IrBundle)
    (occurs : OccursAt data p (rows.flatMap TypeFieldRow.out)) (ids : ∀ f ∈ rows, f.id < 2 ^ 32) :
    ∃ bundle', irReadTypeFields data rows.length p bundle =
      .ok (p + (rows.flatMap TypeFieldRow.out).length, bundle') := by
  induction rows generalizing p bundle with
  | nil => exact ⟨bundle, rfl⟩
  | cons row rows ih =>
    have small : row.id < 2 ^ 32 := ids row (mem_cons_self ..)
    have later : ∀ f ∈ rows, f.id < 2 ^ 32 := fun f mem => ids f (mem_cons_of_mem _ mem)
    rw [flatMap_cons, TypeFieldRow.out, append_assoc, append_assoc] at occurs ⊢
    have number := irUvarint_out occurs.left (by omega)
    obtain ⟨start, span, -⟩ := irSpan_out size occurs.right.left
    have schema := occurs.right.right.left
    have skip := irSkipValueSchema_out size schema
      (Nat.le_trans (Nat.le_add_left ..) schema.add_length_le)
    obtain ⟨bundle', rest⟩ := ih { bundle with typeFields := bundle.typeFields ++
      [⟨start, row.name.length, row.id, row.schema.kind⟩] } occurs.right.right.right later
    refine ⟨bundle', ?_⟩
    rw [length_cons, irReadTypeFields, number, expect_ok, Parsed.ok_bind]
    dsimp only
    rw [span, expect_ok, Parsed.ok_bind]
    dsimp only
    rw [skip, expect_ok, Parsed.ok_bind]
    dsimp only
    rw [u32ValueFits_of_lt small, require_true, expect_ok, Parsed.ok_bind, rest]
    simp [Nat.add_assoc]

include size in
theorem irReadTypes_out {rows : List TypeRow} (bundle : IrBundle)
    (occurs : OccursAt data p (rows.flatMap TypeRow.out)) (ids : ∀ row ∈ rows, row.Numbered) :
    ∃ bundle', irReadTypes data rows.length p bundle =
      .ok (p + (rows.flatMap TypeRow.out).length, bundle') := by
  induction rows generalizing p bundle with
  | nil => exact ⟨bundle, rfl⟩
  | cons row rows ih =>
    obtain ⟨small, fieldIds⟩ := ids row (mem_cons_self ..)
    have later : ∀ row ∈ rows, row.Numbered := fun r mem => ids r (mem_cons_of_mem _ mem)
    rw [flatMap_cons, TypeRow.out, append_assoc, append_assoc,
      append_assoc] at occurs ⊢
    have number := irUvarint_out occurs.left (by omega)
    obtain ⟨start, span, -⟩ := irSpan_out size occurs.right.left
    have fields := occurs.right.right.right.left
    have inside := fields.add_length_le
    have few := length_le_flatMap length_typeFieldRow_pos row.fields
    have count := irUvarint_out occurs.right.right.left (by omega)
    obtain ⟨filled, own⟩ := irReadTypeFields_out size bundle fields fieldIds
    obtain ⟨bundle', rest⟩ := ih { filled with types := filled.types ++
      [⟨start, row.name.length, bundle.typeFields.length, row.fields.length, row.id⟩] }
      occurs.right.right.right.right later
    have checks : (u32ValueFits row.id && countFitsInput row.fields.length data.length) = true := by
      rw [u32ValueFits_of_lt small, Bool.true_and]
      exact decide_eq_true (by omega)
    refine ⟨bundle', ?_⟩
    rw [length_cons, irReadTypes, irReadOneType, number, expect_ok, Parsed.ok_bind]
    dsimp only
    rw [span, expect_ok, Parsed.ok_bind]
    dsimp only
    rw [count, expect_ok, Parsed.ok_bind]
    dsimp only
    rw [checks, require_true, expect_ok, Parsed.ok_bind, own, Parsed.ok_bind]
    dsimp only [Parsed.pure_eq, Parsed.ok_bind]
    rw [rest]
    simp [Nat.add_assoc]

include size in
theorem irReadTypeTable_out {table : List TypeRow} (bundle : IrBundle)
    (occurs : OccursAt data p (irTypeTableOut table)) (ids : ∀ row ∈ table, row.Numbered) :
    ∃ bundle', irReadTypeTable data p bundle = .ok (p + (irTypeTableOut table).length, bundle') ∧
      bundle'.nodes = bundle.nodes ∧ bundle'.fields = bundle.fields := by
  have inside := occurs.right.add_length_le
  have few := length_le_flatMap length_typeRow_pos table
  have count := irUvarint_out occurs.left (by omega)
  obtain ⟨bundle', rows⟩ := irReadTypes_out size bundle occurs.right ids
  obtain ⟨types, fields, shape, -⟩ := irReadTypes_ok rows
  refine ⟨bundle', ?_, by rw [shape], by rw [shape]⟩
  unfold irReadTypeTable
  rw [count, expect_ok, Parsed.ok_bind]
  dsimp only
  rw [show countFitsInput table.length data.length = true from decide_eq_true (by omega),
    require_true, expect_ok, Parsed.ok_bind, rows]
  simp [irTypeTableOut, Nat.add_assoc]

end TypeTable

/-! ## Nodes -/

/-- The payload that a call writes; a call at its zero value writes nothing. -/
def IrPut.payload : IrPut → Option Bytes
  | .bool value => if value then some [1] else none
  | .int value => if value = 0 then none else some (irVarintOut value)
  | .str text => if text.length = 0 then none else some (irBlobOut text)
  | .node nodeId => if nodeId = 0 then none else some (irUvarintOut nodeId)
  | .nodeList nodeIds => if nodeIds.length = 0 then none
      else some (irUvarintOut nodeIds.length ++ nodeIds.flatMap irUvarintOut)
  | .raw payload => if payload.length = 0 then none else some payload
  | .pos position filename => some (irPosOut position filename)
  | .strList texts => if texts.length = 0 then none
      else some (irUvarintOut texts.length ++ texts.flatMap irBlobOut)

def NodeCalls.written (node : NodeCalls) : List (Nat × Bytes) :=
  node.puts.filterMap fun put => put.2.payload.map fun payload => (put.1, payload)

def fieldOut (field : Nat × Bytes) : Bytes := irUvarintOut field.1 ++ irBlobOut field.2

def NodeCalls.out (node : NodeCalls) : Bytes :=
  irBlobOut (irUvarintOut node.typeId ++ (irUvarintOut node.written.length ++
    node.written.flatMap fieldOut))

def NodeCalls.Numbered (node : NodeCalls) : Prop :=
  node.typeId < 2 ^ 32 ∧ node.written.length < 2 ^ 32 ∧ ∀ field ∈ node.written, field.1 < 2 ^ 32

theorem irPutRaw_of_pos (buffer : FieldBuffer) (fieldId : Nat) {payload : Bytes}
    (h : 0 < payload.length) : irPutRaw buffer fieldId payload =
      ⟨buffer.fields ++ irUvarintOut fieldId ++ irBlobOut payload, (buffer.live + 1) % 2 ^ 32⟩ :=
  if_neg (by omega)

theorem IrPut.apply_eq (buffer : FieldBuffer) (fieldId : Nat) (put : IrPut) :
    put.apply buffer fieldId = match put.payload with
      | some payload => ⟨buffer.fields ++ fieldOut (fieldId, payload), (buffer.live + 1) % 2 ^ 32⟩
      | none => buffer := by
  cases put with
  | bool value =>
    cases value with
    | true => simp [IrPut.apply, irPutBool, IrPut.payload, fieldOut, irBlobOut]
    | false => rfl
  | int value =>
    simp only [IrPut.apply, irPutInt, IrPut.payload, fieldOut]
    split <;> simp
  | str text =>
    simp only [IrPut.apply, irPutStr, IrPut.payload, fieldOut]
    split <;> simp
  | node nodeId =>
    simp only [IrPut.apply, irPutNode, IrPut.payload, fieldOut]
    split <;> simp
  | nodeList nodeIds =>
    simp only [IrPut.apply, irPutNodeList, IrPut.payload, fieldOut]
    split <;> simp
  | raw payload =>
    simp only [IrPut.apply, irPutRaw, IrPut.payload, fieldOut]
    split <;> simp
  | pos position filename =>
    have nonempty : 0 < (irPosOut position filename).length := by
      have := length_irUvarintOut_pos 278
      simp only [irPosOut, length_append]
      omega
    simp only [IrPut.apply, irPutPos, IrPut.payload, fieldOut, irPutRaw_of_pos _ _ nonempty]
    simp
  | strList texts =>
    have nonempty : 0 < (irUvarintOut texts.length ++ texts.flatMap irBlobOut).length := by
      have := length_irUvarintOut_pos texts.length
      simp only [length_append]
      omega
    simp only [IrPut.apply, irPutStrList, IrPut.payload, fieldOut, irPutRaw_of_pos _ _ nonempty]
    split <;> simp

theorem foldl_apply_eq (puts : List (Nat × IrPut)) (buffer : FieldBuffer)
    (h : buffer.live < 2 ^ 32) :
    puts.foldl (fun buffer put => put.2.apply buffer put.1) buffer =
      ⟨buffer.fields ++ (NodeCalls.written ⟨0, puts⟩).flatMap fieldOut,
        (buffer.live + (NodeCalls.written ⟨0, puts⟩).length) % 2 ^ 32⟩ := by
  induction puts generalizing buffer with
  | nil =>
    have same : buffer.live % 2 ^ 32 = buffer.live := Nat.mod_eq_of_lt h
    simp only [NodeCalls.written, filterMap_nil, flatMap_nil, append_nil,
      length_nil, Nat.add_zero, same, foldl_nil]
  | cons put puts ih =>
    rw [foldl_cons, IrPut.apply_eq]
    cases payload : put.2.payload with
    | none =>
      dsimp only
      rw [ih buffer h]
      simp [NodeCalls.written, payload]
    | some bytes =>
      dsimp only
      rw [ih _ (Nat.mod_lt _ (by decide))]
      simp only [NodeCalls.written, filterMap_cons, payload, Option.map_some,
        flatMap_cons, length_cons, append_assoc, FieldBuffer.mk.injEq, true_and]
      omega

theorem NodeCalls.fields_eq (node : NodeCalls) :
    node.fields = ⟨node.written.flatMap fieldOut, node.written.length % 2 ^ 32⟩ := by
  unfold NodeCalls.fields
  rw [foldl_apply_eq _ _ (by decide)]
  simp [FieldBuffer.empty, NodeCalls.written]

theorem irEmitNodes_eq {nodes : List NodeCalls} (numbered : ∀ node ∈ nodes, node.Numbered)
    (few : nodes.length < 2 ^ 32) : irEmitNodes nodes =
      ⟨nodes.flatMap NodeCalls.out, nodes.length⟩ := by
  have run : ∀ (nodes : List NodeCalls) (buffer : NodeBuffer),
      (∀ node ∈ nodes, node.Numbered) → buffer.nodes + nodes.length < 2 ^ 32 →
      nodes.foldl (fun buffer node => irEmitNode buffer node.typeId node.fields) buffer =
        ⟨buffer.bodies ++ nodes.flatMap NodeCalls.out, buffer.nodes + nodes.length⟩ := by
    intro nodes
    induction nodes with
    | nil => intro buffer _ _; simp
    | cons node nodes ih =>
      intro buffer numbered few
      obtain ⟨-, live, -⟩ := numbered node (mem_cons_self ..)
      rw [length_cons] at few
      rw [foldl_cons, ih _ (fun n mem => numbered n (mem_cons_of_mem _ mem))]
      · simp only [irEmitNode, NodeCalls.fields_eq, Nat.mod_eq_of_lt live, flatMap_cons,
          NodeCalls.out, append_assoc, length_cons, NodeBuffer.mk.injEq, true_and]
        omega
      · simp only [irEmitNode]
        omega
  simpa [irEmitNodes] using run nodes ⟨[], 0⟩ numbered (by simpa using few)

def IrField.decode (data : Bytes) (field : IrField) : Nat × Bytes :=
  (field.id, (data.drop field.start).take field.length)

/-- The nodes that were read, with their fields from index `first` on, are the nodes that
were written. -/
def ReadAs (data : Bytes) (first : Nat) :
    List IrNode → List IrField → List NodeCalls → Prop
  | [], [], [] => True
  | node :: nodes, fields, call :: calls => ∃ own rest, fields = own ++ rest ∧
      node = ⟨call.typeId, first, own.length⟩ ∧ own.map (IrField.decode data) = call.written ∧
      ReadAs data (first + own.length) nodes rest calls
  | _, _, _ => False

section Nodes

variable {data : Bytes} (size : data.length < 2 ^ 64)

include size in
theorem irReadNodeFields_out {limit p : Nat} {written : List (Nat × Bytes)} (bundle : IrBundle)
    (occurs : OccursAt data p (written.flatMap fieldOut))
    (ids : ∀ field ∈ written, field.1 < 2 ^ 32)
    (ends : p + (written.flatMap fieldOut).length ≤ limit) :
    ∃ new, irReadNodeFields data limit written.length p bundle =
        .ok { bundle with fields := bundle.fields ++ new } ∧
      new.map (IrField.decode data) = written := by
  induction written generalizing p bundle with
  | nil => exact ⟨[], by simp [irReadNodeFields], rfl⟩
  | cons field written ih =>
    have small : field.1 < 2 ^ 32 := ids field (mem_cons_self ..)
    rw [flatMap_cons, fieldOut, append_assoc] at occurs ends
    simp only [length_append] at ends
    have number := irUvarint_out occurs.left (by omega)
    obtain ⟨start, span, bytes⟩ := irSpan_out size occurs.right.left
    obtain ⟨new, rest, decoded⟩ := ih { bundle with fields := bundle.fields ++
      [⟨field.1, start, field.2.length⟩] } occurs.right.right
      (fun f mem => ids f (mem_cons_of_mem _ mem)) (by omega)
    have checks :
      (decide (p + (irUvarintOut field.1).length + (irBlobOut field.2).length ≤ limit) &&
        u32ValueFits field.1) = true := by
      rw [u32ValueFits_of_lt small, Bool.and_true]
      exact decide_eq_true (by omega)
    refine ⟨⟨field.1, start, field.2.length⟩ :: new, ?_, ?_⟩
    · rw [length_cons, irReadNodeFields, number, expect_ok, Parsed.ok_bind]
      dsimp only
      rw [span, expect_ok, Parsed.ok_bind]
      dsimp only
      rw [checks, require_true, expect_ok, Parsed.ok_bind, rest]
      simp
    · rw [map_cons, decoded, IrField.decode, bytes]

include size in
theorem irReadNodeBody_out {start : Nat} {node : NodeCalls} (bundle : IrBundle)
    (numbered : node.Numbered)
    (occurs : OccursAt data start (irUvarintOut node.typeId ++
      (irUvarintOut node.written.length ++ node.written.flatMap fieldOut))) :
    ∃ own, irReadNodeBody data start (start + (irUvarintOut node.typeId ++
        (irUvarintOut node.written.length ++ node.written.flatMap fieldOut)).length) bundle =
        .ok { bundle with fields := bundle.fields ++ own
                          nodes := bundle.nodes ++
                            [⟨node.typeId, bundle.fields.length, own.length⟩] } ∧
      own.map (IrField.decode data) = node.written := by
  obtain ⟨typeSmall, live, ids⟩ := numbered
  have number := irUvarint_out occurs.left (by omega)
  have count := irUvarint_out occurs.right.left (by omega)
  have fields := occurs.right.right
  have inside := fields.add_length_le
  have few : node.written.length ≤ (node.written.flatMap fieldOut).length := by
    apply length_le_flatMap
    intro field
    have := length_irUvarintOut_pos field.1
    simp only [fieldOut, length_append]
    omega
  obtain ⟨own, rest, decoded⟩ := irReadNodeFields_out size bundle fields ids
    (show _ ≤ start + (irUvarintOut node.typeId ++ (irUvarintOut node.written.length ++
      node.written.flatMap fieldOut)).length by simp only [length_append]; omega)
  have length : own.length = node.written.length := by rw [← decoded, length_map]
  have checks :
    (u32ValueFits node.typeId && countFitsInput node.written.length data.length) = true := by
    rw [u32ValueFits_of_lt typeSmall, Bool.true_and]
    exact decide_eq_true (by omega)
  refine ⟨own, ?_, decoded⟩
  rw [irReadNodeBody, number, expect_ok, Parsed.ok_bind]
  dsimp only
  rw [count, expect_ok, Parsed.ok_bind]
  dsimp only
  rw [checks, require_true, expect_ok, Parsed.ok_bind, rest, Parsed.ok_bind, length]
  rfl

include size in
theorem irReadNodes_out {p : Nat} {calls : List NodeCalls} (bundle : IrBundle)
    (numbered : ∀ node ∈ calls, node.Numbered)
    (occurs : OccursAt data p (calls.flatMap NodeCalls.out)) :
    ∃ nodes fields, irReadNodes data calls.length p bundle =
        .ok (p + (calls.flatMap NodeCalls.out).length,
          { bundle with nodes := bundle.nodes ++ nodes, fields := bundle.fields ++ fields }) ∧
      ReadAs data bundle.fields.length nodes fields calls := by
  induction calls generalizing p bundle with
  | nil => exact ⟨[], [], by simp [irReadNodes], trivial⟩
  | cons node calls ih =>
    rw [flatMap_cons] at occurs ⊢
    have span := irSpan_eq size occurs.left
    have body := occurs.left.right
    obtain ⟨own, read, decoded⟩ := irReadNodeBody_out size bundle
      (numbered node (mem_cons_self ..)) body
    obtain ⟨nodes, fields, rest, stand⟩ := ih { bundle with
        fields := bundle.fields ++ own
        nodes := bundle.nodes ++ [⟨node.typeId, bundle.fields.length, own.length⟩] }
      (fun n mem => numbered n (mem_cons_of_mem _ mem)) occurs.right
    refine ⟨⟨node.typeId, bundle.fields.length, own.length⟩ :: nodes, own ++ fields, ?_, ?_⟩
    · rw [length_cons, irReadNodes, span, expect_ok, Parsed.ok_bind]
      dsimp only
      rw [read, Parsed.ok_bind]
      exact Eq.trans rest (by simp [Nat.add_assoc])
    · exact ⟨own, fields, rfl, rfl, decoded, by simpa using stand⟩

end Nodes

/-! ## Bundles -/

/-- The nodes of a bundle as they are read: types, field numbers and payload bytes. -/
def IrBundle.decoded (data : Bytes) (bundle : IrBundle) : List (Nat × List (Nat × Bytes)) :=
  bundle.nodes.map fun node => (node.typeId, (bundle.fieldsOf node).map (IrField.decode data))

theorem readAs_decoded {data : Bytes} {nodes : List IrNode} {before fields : List IrField}
    {calls : List NodeCalls} (h : ReadAs data before.length nodes fields calls) :
    nodes.map (fun node => (node.typeId, (((before ++ fields).drop node.fieldStart).take
        node.fieldCount).map (IrField.decode data))) =
      calls.map fun call => (call.typeId, call.written) := by
  induction nodes generalizing before fields calls with
  | nil =>
    cases calls with
    | nil => rfl
    | cons call calls => cases fields <;> cases h
  | cons node nodes ih =>
    cases calls with
    | nil => cases h
    | cons call calls =>
      obtain ⟨own, rest, rfl, rfl, decoded, h⟩ := h
      have next : ReadAs data (before ++ own).length nodes rest calls := by simpa using h
      rw [map_cons, map_cons, ← ih next]
      simp [← decoded]

theorem readAs_length {data : Bytes} {first : Nat} {nodes : List IrNode} {fields : List IrField}
    {calls : List NodeCalls} (h : ReadAs data first nodes fields calls) :
    nodes.length = calls.length := by
  induction nodes generalizing first fields calls with
  | nil =>
    cases calls with
    | nil => rfl
    | cons call calls => cases fields <;> cases h
  | cons node nodes ih =>
    cases calls with
    | nil => cases h
    | cons call calls =>
      obtain ⟨own, rest, -, -, -, h⟩ := h
      rw [length_cons, length_cons, ih h]

/-- What can be written: the numbers are 32-bit ones, the root is one of the nodes and the
image has a 64-bit length. -/
structure Writable (table : List TypeRow) (filename source : Bytes) (nodes : List NodeCalls)
    (root : Nat) : Prop where
  rowsNumbered : ∀ row ∈ table, row.Numbered
  nodesNumbered : ∀ node ∈ nodes, node.Numbered
  few : nodes.length < 2 ^ 32
  rootExists : 0 < root ∧ root ≤ nodes.length
  size : (irImage table filename source nodes root).length < 2 ^ 64

section Bundle

variable {data : Bytes} (size : data.length < 2 ^ 64)

include size in
theorem irReadPrologue_out {table : List TypeRow} {filename source rest : Bytes}
    (ids : ∀ row ∈ table, row.Numbered)
    (occurs : OccursAt data 0 (irMagic ++ (irUvarintOut 2 ++ (irBlobOut filename ++
      (irBlobOut source ++ (irTypeTableOut table ++ rest)))))) :
    ∃ offset bundle, irReadPrologue data = .ok (offset, bundle) ∧ bundle.nodes = [] ∧
      bundle.fields = [] ∧ OccursAt data offset rest := by
  have magic : irMagicMatches data = true := by
    have inside : 0 + 9 ≤ data.length := occurs.left.add_length_le
    have start : (data.drop 0).take 9 = irMagic := occurs.left.slice_eq
    rw [drop_zero] at start
    unfold irMagicMatches
    rw [start, decide_eq_true (by omega)]
    decide
  have version : irUvarint data 9 = .ok (2, 9 + (irUvarintOut 2).length) :=
    irUvarint_out occurs.right.left (by decide)
  obtain ⟨nameStart, name, -⟩ := irSpan_out size occurs.right.right.left
  obtain ⟨sourceStart, text, -⟩ := irSpan_out size occurs.right.right.right.left
  obtain ⟨bundle, types, nodes, fields⟩ := irReadTypeTable_out size
    ⟨[], [], [], [], nameStart, filename.length, sourceStart, source.length, 2, 0⟩
    occurs.right.right.right.right.left ids
  refine ⟨_, bundle, ?_, nodes, fields, occurs.right.right.right.right.right⟩
  rw [irReadPrologue, magic, require_true, expect_ok, Parsed.ok_bind, version,
    expect_ok, Parsed.ok_bind]
  dsimp only
  rw [show versionIsSupported 2 = true from rfl, require_true, expect_ok, Parsed.ok_bind,
    irReadHeader]
  have name' : irSpan data (9 + (irUvarintOut 2).length) = _ := name
  rw [name', expect_ok, Parsed.ok_bind]
  dsimp only
  have text' : irSpan data (0 + irMagic.length + (irUvarintOut 2).length +
    (irBlobOut filename).length) = _ := text
  rw [text', expect_ok, Parsed.ok_bind]
  exact types

end Bundle

theorem irBundleParse_irImage {table : List TypeRow} {filename source : Bytes}
    {nodes : List NodeCalls} {root : Nat} (h : Writable table filename source nodes root) :
    ∃ bundle, irBundleParse (irImage table filename source nodes root) = .ok bundle ∧
      bundle.nodes.length = nodes.length ∧ bundle.root = root ∧
      bundle.decoded (irImage table filename source nodes root) =
        nodes.map fun node => (node.typeId, node.written) := by
  have size := h.size
  have few := h.few
  obtain ⟨positive, known⟩ := h.rootExists
  generalize hdata : irImage table filename source nodes root = data at size ⊢
  unfold irImage at hdata
  rw [irEmitNodes_eq h.nodesNumbered h.few] at hdata
  simp only [append_assoc] at hdata
  have occurs := OccursAt.whole data
  nth_rewrite 2 [← hdata] at occurs
  obtain ⟨offset, start, prologue, noNodes, noFields, behind⟩ :=
    irReadPrologue_out size h.rowsNumbered occurs
  have count := irUvarint_out behind.left (by omega)
  obtain ⟨read, fields, rows, stand⟩ := irReadNodes_out size start h.nodesNumbered behind.right.left
  have rootNumber := irUvarint_out behind.right.right (by omega)
  have inside := behind.right.left.add_length_le
  have fits : nodes.length ≤ (nodes.flatMap NodeCalls.out).length := by
    apply length_le_flatMap
    intro node
    have := length_irUvarintOut_pos
      (irUvarintOut node.typeId ++ (irUvarintOut node.written.length ++
        node.written.flatMap fieldOut)).length
    simp only [NodeCalls.out, irBlobOut, length_append] at this ⊢
    omega
  have length : read.length = nodes.length := readAs_length stand
  refine ⟨{ start with nodes := read, fields := fields, root := root }, ?_, length, rfl, ?_⟩
  · rw [irBundleParse, prologue, Parsed.ok_bind]
    dsimp only
    rw [irReadNodeTable, count, expect_ok, Parsed.ok_bind]
    dsimp only
    rw [show countFitsInput nodes.length data.length = true from decide_eq_true (by omega),
      require_true, expect_ok, Parsed.ok_bind, rows, Parsed.ok_bind]
    dsimp only
    rw [irReadRoot, rootNumber, expect_ok, Parsed.ok_bind]
    dsimp only
    rw [u32ValueFits_of_lt (by omega), require_true, expect_ok, Parsed.ok_bind]
    have valid : rootIsValid root (start.nodes ++ read).length = true := by
      rw [noNodes, nil_append, length]
      exact decide_eq_true ⟨positive, known⟩
    rw [valid, require_true, expect_ok, Parsed.ok_bind, noNodes, noFields]
    rfl
  · rw [noFields] at stand
    exact @readAs_decoded data read [] fields nodes stand

/-- The container is read back exactly, its payloads decode to what was written, and no
input is misread except that a node without fields may have its header behind its body. -/
theorem irBundle_read_back (data : Bytes) :
    (∀ (table : List TypeRow) (filename source : Bytes) (nodes : List NodeCalls) (root : Nat),
      Writable table filename source nodes root →
      ∃ bundle, irBundleParse (irImage table filename source nodes root) = .ok bundle ∧
        bundle.nodes.length = nodes.length ∧ bundle.root = root ∧
        bundle.decoded (irImage table filename source nodes root) =
          nodes.map fun node => (node.typeId, node.written)) ∧
    (∀ (before after : Bytes) (value : Nat), value < 2 ^ 64 →
      irUvarint (before ++ irUvarintOut value ++ after) before.length =
        .ok (value, before.length + (irUvarintOut value).length)) ∧
    (∀ (before after : Bytes) (value : Int), -2 ^ 63 ≤ value → value < 2 ^ 63 →
      irVarint (before ++ irVarintOut value ++ after) before.length =
        .ok (value, before.length + (irVarintOut value).length)) ∧
    (∀ before after text : Bytes, (before ++ irBlobOut text ++ after).length < 2 ^ 64 →
      ∃ start, irSpan (before ++ irBlobOut text ++ after) before.length =
          .ok (start, text.length, before.length + (irBlobOut text).length) ∧
        ((before ++ irBlobOut text ++ after).drop start).take text.length = text) ∧
    (irBundleParse data).Safe ∧
    ∀ bundle, irBundleParse data = .ok bundle →
      WellFramed data bundle ∧ (NodesInside data bundle ↔ EmptyNodesFit data) := by
  refine ⟨?_, ?_, ?_, ?_, irBundleParse_safe, ?_⟩
  · intro table filename source nodes root writable
    exact irBundleParse_irImage writable
  · intro before after value small
    exact irUvarint_out (.of_append before _ after) small
  · intro before after value low high
    exact irVarint_out (.of_append before _ after) low high
  · intro before after text size
    exact irSpan_out size (.of_append before _ after)
  · intro bundle accepted
    exact ⟨(irBundleParse_ok accepted).1, nodesInside_iff accepted⟩

/-- A bundle of two nodes, the second of them the root. -/
theorem irBundle_read_back_two_nodes :
    Writable [] (ascii "a") [] [⟨71, [(20, .str (ascii "f")), (15, .bool false)]⟩,
      ⟨66, [(2, .nodeList [1]), (3, .int (-300))]⟩] 2 ∧
    ∃ bundle, irBundleParse (irImage [] (ascii "a") [] [⟨71, [(20, .str (ascii "f")),
      (15, .bool false)]⟩, ⟨66, [(2, .nodeList [1]), (3, .int (-300))]⟩] 2) = .ok bundle ∧
        bundle.nodes.length = 2 := by
  have writable : Writable [] (ascii "a") [] [⟨71, [(20, .str (ascii "f")), (15, .bool false)]⟩,
      ⟨66, [(2, .nodeList [1]), (3, .int (-300))]⟩] 2 := by
    refine ⟨fun _ mem => (nomatch mem), ?_, by decide, by decide, by decide⟩
    unfold NodeCalls.Numbered
    decide
  obtain ⟨bundle, parsed, count, -⟩ := (irBundle_read_back []).1 _ _ _ _ _ writable
  exact ⟨writable, bundle, parsed, count⟩

/-- One node with an empty body: the root number is read as its type, and the byte behind
it as its field count. -/
def overlappingBundle : Bytes := irMagic ++ [2, 0, 0, 0, 1, 0, 1, 0]

theorem header_behind_its_body : ∃ bundle, irBundleParse overlappingBundle = .ok bundle ∧
    ¬ NodesInside overlappingBundle bundle := by
  have accepted : irBundleParse overlappingBundle =
      .ok ⟨[], [], [⟨1, 0, 0⟩], [], 11, 0, 12, 0, 2, 1⟩ := by decide
  refine ⟨_, accepted, ?_⟩
  rw [nodesInside_iff accepted]
  intro fit
  have behind : 17 ≤ 15 := fit (15, 15) (by decide) 1 17 (by decide)
  exact absurd behind (by decide)

end Elisa.Driver
