import Mathlib.Data.Nat.Bitwise
import Elisa.Driver.FrontendIr

/-!
# Reading untrusted bundles

What a reader returns lies in its input, whatever the input is: a cursor that is given back is
behind the one that went in and not behind the end (`irUvarint_ok`, `irSpan_ok`), and no reader
faults.

A node is described by its body (`nodeBodies`), its header (`irNodeHeader`) and the run of its
fields (`FieldsAt`).  `irReadNodeFields` compares the cursor with the end of the body behind every
field, but nothing compares it behind the header: a node without fields may have its header behind
its body.
-/

namespace Elisa.Driver

open Outcome

/-! ## Parsing steps -/

namespace Parsed

variable {α β : Type}

@[simp] theorem pure_eq (a : α) : (pure a : Parsed α) = ok a := rfl

@[simp] theorem ok_bind (a : α) (next : α → Parsed β) : (ok a >>= next) = next a := rfl

@[simp] theorem expect_ok (errorLine : String) (a : α) :
    expect errorLine (Outcome.ok a) = ok a := rfl

theorem bind_eq_ok {x : Parsed α} {next : α → Parsed β} {b : β} :
    (x >>= next) = ok b ↔ ∃ a, x = ok a ∧ next a = ok b := by
  cases x with
  | ok a => simp
  | refused errorLine =>
    constructor
    · intro h
      cases h
    · rintro ⟨a, h, -⟩
      cases h
  | fault f =>
    constructor
    · intro h
      cases h
    · rintro ⟨a, h, -⟩
      cases h

@[simp] theorem expect_eq_ok {errorLine : String} {x : Outcome α} {a : α} :
    expect errorLine x = ok a ↔ x = .ok a := by
  cases x <;> simp [expect]

def Safe (x : Parsed α) : Prop := ∀ f, x ≠ fault f

theorem safe_ok (a : α) : (ok a).Safe := by
  intro f h
  cases h

theorem safe_expect {errorLine : String} {x : Outcome α} (h : x.Safe) :
    (expect errorLine x).Safe := by
  intro f hf
  cases x with
  | ok a => cases hf
  | invalid => cases hf
  | fault g => exact h g rfl

theorem Safe.bind {x : Parsed α} {next : α → Parsed β} (hx : x.Safe)
    (hnext : ∀ a, (next a).Safe) : (x >>= next).Safe := by
  cases x with
  | ok a => exact hnext a
  | refused errorLine =>
    intro f h
    cases h
  | fault f => exact absurd rfl (hx f)

end Parsed

open Parsed

/-! ## Cursors -/

section Cursors

variable {data : Bytes}

theorem payload_toNat (b : UInt8) : (b &&& 127).toNat = b.toNat % 128 := by
  rw [UInt8.toNat_and]
  exact Nat.and_two_pow_sub_one_eq_mod b.toNat 7

theorem continues_iff (b : UInt8) : b &&& 128 = 0 ↔ b.toNat < 128 := by
  have bound : b.toNat < 256 := b.toNat_lt
  have mask : b.toNat &&& 128 = (b.toNat / 2 ^ 7 % 2) * 2 ^ 7 := by
    rw [show (128 : Nat) = 2 ^ 7 from rfl, Nat.and_two_pow, Nat.testBit_eq_decide_div_mod_eq]
    have : b.toNat / 2 ^ 7 % 2 < 2 := Nat.mod_lt _ (by decide)
    cases bit : decide (b.toNat / 2 ^ 7 % 2 = 1) with
    | true =>
      have := of_decide_eq_true bit
      simp only [Bool.toNat_true]
      omega
    | false =>
      have := of_decide_eq_false bit
      simp only [Bool.toNat_false]
      omega
  have value : (b &&& 128).toNat = (b.toNat / 2 ^ 7 % 2) * 2 ^ 7 := by
    rw [UInt8.toNat_and]
    exact mask
  rw [← UInt8.toNat_inj, value, UInt8.toNat_zero]
  omega

variable {result shift : Nat}

theorem or_group {payload : Nat} (hresult : result < 2 ^ shift)
    (fits : payload * 2 ^ shift < wordLimit) :
    result ||| ((payload <<< shift) % wordLimit) = result + payload * 2 ^ shift := by
  rw [Nat.shiftLeft_eq, Nat.mod_eq_of_lt fits, ← Nat.shiftLeft_eq, Nat.or_comm,
    ← Nat.shiftLeft_add_eq_or_of_lt hresult, Nat.shiftLeft_eq, Nat.add_comm]

theorem group_fits {payload : Nat} (hshift : shift = 63 ∨ shift ≤ 56) (hpayload : payload < 128)
    (fits : varintPayloadFits shift payload = true) : payload * 2 ^ shift < wordLimit := by
  cases hshift with
  | inl last =>
    have := of_decide_eq_true fits
    subst last
    have small : payload ≤ 1 := by omega
    calc payload * 2 ^ 63 ≤ 1 * 2 ^ 63 := Nat.mul_le_mul_right _ small
      _ < wordLimit := by decide
  | inr early =>
    calc payload * 2 ^ shift ≤ payload * 2 ^ 56 :=
          Nat.mul_le_mul_left _ (Nat.pow_le_pow_right (by decide) early)
      _ < 128 * 2 ^ 56 := Nat.mul_lt_mul_of_pos_right hpayload (by decide)
      _ < wordLimit := by decide

theorem irUvarintLoop_safe {fuel position : Nat} :
    (irUvarintLoop data fuel position shift result).Safe := by
  induction fuel generalizing position shift result with
  | zero => exact safe_invalid
  | succ fuel ih =>
    rw [irUvarintLoop]
    split
    next inside =>
      rw [index_eq inside, Outcome.ok_bind]
      refine safe_require_bind fun _ => ?_
      split
      · exact Outcome.safe_ok _
      · exact safe_require_bind fun _ => ih
    next => exact safe_invalid

variable {next : Nat}

theorem irUvarintLoop_ok {fuel position value : Nat}
    (h : irUvarintLoop data fuel position shift result = .ok (value, next)) :
    position < next ∧ next ≤ data.length := by
  induction fuel generalizing position shift result with
  | zero => cases h
  | succ fuel ih =>
    rw [irUvarintLoop] at h
    split at h
    next inside =>
      rw [index_eq inside, Outcome.ok_bind] at h
      obtain ⟨-, -, h⟩ := Outcome.bind_eq_ok.mp h
      split at h
      · cases h
        omega
      · obtain ⟨-, -, h⟩ := Outcome.bind_eq_ok.mp h
        have := ih h
        omega
    next => cases h

theorem irUvarint_safe (offset : Nat) : (irUvarint data offset).Safe := irUvarintLoop_safe

variable {offset : Nat}

theorem irUvarint_ok {value : Nat} (h : irUvarint data offset = .ok (value, next)) :
    offset < next ∧ next ≤ data.length := irUvarintLoop_ok h

theorem irSpan_safe (offset : Nat) : (irSpan data offset).Safe := by
  refine (irUvarint_safe offset).bind fun a _ => ?_
  exact safe_require_bind fun _ => safe_require_bind fun _ => Outcome.safe_ok _

/-- A span lies between the two cursors and in the input. -/
theorem irSpan_ok {start length : Nat} (h : irSpan data offset = .ok (start, length, next)) :
    offset < start ∧ start + length = next ∧ next ≤ data.length := by
  obtain ⟨⟨len, mid⟩, read, h⟩ := Outcome.bind_eq_ok.mp h
  obtain ⟨_, -, h⟩ := Outcome.bind_eq_ok.mp h
  obtain ⟨_, fits, h⟩ := Outcome.bind_eq_ok.mp h
  have fits := of_decide_eq_true (require_eq_ok.mp fits)
  have moved := irUvarint_ok read
  cases h
  omega

theorem irSkipValueSchema_safe {depth : Nat} : (irSkipValueSchema data depth offset).Safe := by
  induction depth generalizing offset with
  | zero => exact safe_invalid
  | succ depth ih =>
    rw [irSkipValueSchema]
    split
    next inside =>
      rw [index_eq inside, Outcome.ok_bind]
      split
      · exact ih.bind fun _ _ => Outcome.safe_ok _
      split
      · exact ih.bind fun _ _ => ih.bind fun _ _ => Outcome.safe_ok _
      · split
        · exact (irSpan_safe _).bind fun _ _ => Outcome.safe_ok _
        · exact Outcome.safe_ok _
    next => exact safe_invalid

end Cursors

/-! ## Nothing is read past the input -/

section Safety

variable {data : Bytes} {count position : Nat} {bundle : IrBundle}

theorem irReadTypeFields_safe : (irReadTypeFields data count position bundle).Safe := by
  induction count generalizing position bundle with
  | zero => exact Parsed.safe_ok _
  | succ count ih =>
    refine (safe_expect (irUvarint_safe _)).bind fun _ => ?_
    refine (safe_expect (irSpan_safe _)).bind fun _ => ?_
    refine (safe_expect irSkipValueSchema_safe).bind fun _ => ?_
    exact (safe_expect (safe_require _)).bind fun _ => ih

theorem irReadOneType_safe {offset : Nat} : (irReadOneType data offset bundle).Safe := by
  refine (safe_expect (irUvarint_safe _)).bind fun _ => ?_
  refine (safe_expect (irSpan_safe _)).bind fun _ => ?_
  refine (safe_expect (irUvarint_safe _)).bind fun _ => ?_
  refine (safe_expect (safe_require _)).bind fun _ => ?_
  exact irReadTypeFields_safe.bind fun _ => Parsed.safe_ok _

theorem irReadTypes_safe : (irReadTypes data count position bundle).Safe := by
  induction count generalizing position bundle with
  | zero => exact Parsed.safe_ok _
  | succ count ih => exact irReadOneType_safe.bind fun _ => ih

theorem irReadNodeFields_safe {limit : Nat} :
    (irReadNodeFields data limit count position bundle).Safe := by
  induction count generalizing position bundle with
  | zero => exact Parsed.safe_ok _
  | succ count ih =>
    refine (safe_expect (irUvarint_safe _)).bind fun _ => ?_
    refine (safe_expect (irSpan_safe _)).bind fun _ => ?_
    exact (safe_expect (safe_require _)).bind fun _ => ih

theorem irReadNodeBody_safe {start limit : Nat} :
    (irReadNodeBody data start limit bundle).Safe := by
  refine (safe_expect (irUvarint_safe _)).bind fun _ => ?_
  refine (safe_expect (irUvarint_safe _)).bind fun _ => ?_
  refine (safe_expect (safe_require _)).bind fun _ => ?_
  exact irReadNodeFields_safe.bind fun _ => Parsed.safe_ok _

theorem irReadNodes_safe : (irReadNodes data count position bundle).Safe := by
  induction count generalizing position bundle with
  | zero => exact Parsed.safe_ok _
  | succ count ih =>
    refine (safe_expect (irSpan_safe _)).bind fun _ => ?_
    exact irReadNodeBody_safe.bind fun _ => ih

theorem irReadPrologue_safe : (irReadPrologue data).Safe := by
  refine (safe_expect (safe_require _)).bind fun _ => ?_
  refine (safe_expect (irUvarint_safe _)).bind fun _ => ?_
  refine (safe_expect (safe_require _)).bind fun _ => ?_
  refine Parsed.Safe.bind ?_ fun _ => ?_
  · refine (safe_expect (irSpan_safe _)).bind fun _ => ?_
    exact (safe_expect (irSpan_safe _)).bind fun _ => Parsed.safe_ok _
  · refine (safe_expect (irUvarint_safe _)).bind fun _ => ?_
    exact (safe_expect (safe_require _)).bind fun _ => irReadTypes_safe

theorem irBundleParse_safe : (irBundleParse data).Safe := by
  refine irReadPrologue_safe.bind fun _ => ?_
  refine Parsed.Safe.bind ?_ fun _ => ?_
  · refine (safe_expect (irUvarint_safe _)).bind fun _ => ?_
    exact (safe_expect (safe_require _)).bind fun _ => irReadNodes_safe
  · refine (safe_expect (irUvarint_safe _)).bind fun _ => ?_
    refine (safe_expect (safe_require _)).bind fun _ => ?_
    exact (safe_expect (safe_require _)).bind fun _ => Parsed.safe_ok _

end Safety

/-! ## Where things stand -/

/-- Ranges, each a start and a count, that follow each other from `first` to `last`. -/
def Tiles (first : Nat) : List (Nat × Nat) → Nat → Prop
  | [], last => first = last
  | (start, count) :: ranges, last => start = first ∧ Tiles (first + count) ranges last

def FieldsAt (data : Bytes) (position : Nat) : List IrField → Nat → Prop
  | [], stop => position = stop
  | field :: fields, stop => ∃ middle next, irUvarint data position = .ok (field.id, middle) ∧
      irSpan data middle = .ok (field.start, field.length, next) ∧ FieldsAt data next fields stop

def irNodeHeader (data : Bytes) (start : Nat) : Outcome (Nat × Nat × Nat) := do
  let (typeId, position) ← irUvarint data start
  let (fieldCount, position) ← irUvarint data position
  return (typeId, fieldCount, position)

/-- The bodies in a row of `count` spans, by start and end. -/
def irBodies (data : Bytes) : (count position : Nat) → List (Nat × Nat)
  | 0, _ => []
  | count + 1, position =>
    match irSpan data position with
    | .ok (start, length, next) => (start, start + length) :: irBodies data count next
    | _ => []

def nodeBodies (data : Bytes) : List (Nat × Nat) :=
  match irReadPrologue data with
  | .ok (offset, _) =>
    match irUvarint data offset with
    | .ok (count, position) => irBodies data count position
    | _ => []
  | _ => []

/-- A node stands with its header and its fields where its body starts, and ends at `stop`. -/
def NodeAt (data : Bytes) (body : Nat × Nat) (node : IrNode) (fields : List IrField) (stop : Nat) :
    Prop :=
  ∃ headerEnd, irNodeHeader data body.1 = .ok (node.typeId, node.fieldCount, headerEnd) ∧
    fields.length = node.fieldCount ∧ FieldsAt data headerEnd fields stop

/-- The nodes of a row of bodies, with their fields from index `first` on.  Only a node
with fields is known to end in its body. -/
def NodesAt (data : Bytes) (first : Nat) :
    List (Nat × Nat) → List IrNode → List IrField → Prop
  | [], [], [] => True
  | body :: bodies, node :: nodes, fields => ∃ own rest stop, fields = own ++ rest ∧
      node.fieldStart = first ∧ NodeAt data body node own stop ∧ (own ≠ [] → stop ≤ body.2) ∧
      NodesAt data (first + node.fieldCount) bodies nodes rest
  | _, _, _ => False

section Tables

variable {data : Bytes} {count position next : Nat} {bundle bundle' : IrBundle}

theorem irReadTypeFields_ok (h : irReadTypeFields data count position bundle = .ok
    (next, bundle')) :
    ∃ new, bundle' = { bundle with typeFields := bundle.typeFields ++ new } ∧ new.length = count ∧
      ∀ f ∈ new, f.nameStart + f.nameLength ≤ data.length := by
  induction count generalizing position bundle with
  | zero =>
    cases h
    exact ⟨[], by simp, rfl, fun _ mem => (nomatch mem)⟩
  | succ count ih =>
    obtain ⟨⟨fieldId, p⟩, -, h⟩ := Parsed.bind_eq_ok.mp h
    obtain ⟨⟨start, length, p'⟩, span, h⟩ := Parsed.bind_eq_ok.mp h
    obtain ⟨⟨kind, p''⟩, -, h⟩ := Parsed.bind_eq_ok.mp h
    obtain ⟨_, -, h⟩ := Parsed.bind_eq_ok.mp h
    obtain ⟨new, rfl, size, bounds⟩ := ih h
    have inside := irSpan_ok (expect_eq_ok.mp span)
    refine ⟨⟨start, length, fieldId, kind⟩ :: new, by simp, by simp [size], ?_⟩
    intro f mem
    cases mem with
    | head => exact inside.2.1 ▸ inside.2.2
    | tail _ mem => exact bounds f mem

theorem irReadTypes_ok (h : irReadTypes data count position bundle = .ok (next, bundle')) :
    ∃ types fields, bundle' = { bundle with
        types := bundle.types ++ types, typeFields := bundle.typeFields ++ fields } ∧
      Tiles bundle.typeFields.length (types.map fun t => (t.fieldStart, t.fieldCount))
        (bundle.typeFields.length + fields.length) ∧
      (∀ t ∈ types, t.nameStart + t.nameLength ≤ data.length) ∧
      ∀ f ∈ fields, f.nameStart + f.nameLength ≤ data.length := by
  induction count generalizing position bundle with
  | zero =>
    cases h
    exact ⟨[], [], by simp, rfl, fun _ mem => (nomatch mem), fun _ mem => (nomatch mem)⟩
  | succ count ih =>
    obtain ⟨⟨p, middle⟩, one, h⟩ := Parsed.bind_eq_ok.mp h
    obtain ⟨⟨typeId, q⟩, -, one⟩ := Parsed.bind_eq_ok.mp one
    obtain ⟨⟨start, length, q'⟩, span, one⟩ := Parsed.bind_eq_ok.mp one
    obtain ⟨⟨fieldCount, q''⟩, -, one⟩ := Parsed.bind_eq_ok.mp one
    obtain ⟨_, -, one⟩ := Parsed.bind_eq_ok.mp one
    obtain ⟨⟨r, filled⟩, rows, one⟩ := Parsed.bind_eq_ok.mp one
    obtain ⟨own, rfl, size, ownBounds⟩ := irReadTypeFields_ok rows
    cases one
    obtain ⟨types, fields, rfl, tiles, typeBounds, fieldBounds⟩ := ih h
    have inside := irSpan_ok (expect_eq_ok.mp span)
    refine ⟨⟨start, length, bundle.typeFields.length, fieldCount, typeId⟩ :: types, own ++ fields,
      by simp, ⟨rfl, ?_⟩, ?_, ?_⟩
    · simpa [size, Nat.add_assoc] using tiles
    · intro t mem
      cases mem with
      | head => exact inside.2.1 ▸ inside.2.2
      | tail _ mem => exact typeBounds t mem
    · intro f mem
      cases List.mem_append.mp mem with
      | inl mem => exact ownBounds f mem
      | inr mem => exact fieldBounds f mem

theorem irReadNodeFields_ok {limit : Nat}
    (h : irReadNodeFields data limit count position bundle = .ok bundle') :
    ∃ new stop, bundle' = { bundle with fields := bundle.fields ++ new } ∧ new.length = count ∧
      FieldsAt data position new stop ∧ (new ≠ [] → stop ≤ limit) := by
  induction count generalizing position bundle with
  | zero =>
    cases h
    exact ⟨[], position, by simp, rfl, rfl, fun h => absurd rfl h⟩
  | succ count ih =>
    obtain ⟨⟨fieldId, p⟩, number, h⟩ := Parsed.bind_eq_ok.mp h
    obtain ⟨⟨start, length, p'⟩, span, h⟩ := Parsed.bind_eq_ok.mp h
    obtain ⟨_, checked, h⟩ := Parsed.bind_eq_ok.mp h
    obtain ⟨new, stop, rfl, size, stand, ends⟩ := ih h
    have checked := require_eq_ok.mp (expect_eq_ok.mp checked)
    rw [Bool.and_eq_true, decide_eq_true_iff] at checked
    refine ⟨⟨fieldId, start, length⟩ :: new, stop, by simp, by simp [size],
      ⟨p, p', expect_eq_ok.mp number, expect_eq_ok.mp span, stand⟩, fun _ => ?_⟩
    -- the last field was compared with the limit, whether it is this one or not
    cases new with
    | nil =>
      have : p' = stop := stand
      omega
    | cons f new => exact ends (List.cons_ne_nil f new)

theorem irReadNodes_ok (h : irReadNodes data count position bundle = .ok (next, bundle')) :
    ∃ nodes fields, bundle' = { bundle with
        nodes := bundle.nodes ++ nodes, fields := bundle.fields ++ fields } ∧
      NodesAt data bundle.fields.length (irBodies data count position) nodes fields := by
  induction count generalizing position bundle with
  | zero =>
    cases h
    exact ⟨[], [], by simp, trivial⟩
  | succ count ih =>
    obtain ⟨⟨start, length, p⟩, span, h⟩ := Parsed.bind_eq_ok.mp h
    obtain ⟨middle, one, h⟩ := Parsed.bind_eq_ok.mp h
    obtain ⟨⟨typeId, q⟩, number, one⟩ := Parsed.bind_eq_ok.mp one
    obtain ⟨⟨fieldCount, q'⟩, number', one⟩ := Parsed.bind_eq_ok.mp one
    obtain ⟨_, -, one⟩ := Parsed.bind_eq_ok.mp one
    obtain ⟨filled, rows, one⟩ := Parsed.bind_eq_ok.mp one
    obtain ⟨own, stop, rfl, size, stand, ends⟩ := irReadNodeFields_ok rows
    cases one
    obtain ⟨nodes, fields, rfl, rest⟩ := ih h
    have header : irNodeHeader data start = .ok (typeId, fieldCount, q') := by
      unfold irNodeHeader
      rw [expect_eq_ok.mp number, Outcome.ok_bind]
      dsimp only
      rw [expect_eq_ok.mp number', Outcome.ok_bind]
      rfl
    refine ⟨⟨typeId, bundle.fields.length, fieldCount⟩ :: nodes, own ++ fields, by simp, ?_⟩
    rw [irBodies, expect_eq_ok.mp span]
    refine ⟨own, fields, stop, rfl, rfl, ⟨q', header, size, stand⟩, ends, ?_⟩
    simpa [size] using rest

variable {fields : List IrField}

theorem fieldsAt_bounds {stop : Nat} (h : FieldsAt data position fields stop) :
    ∀ f ∈ fields, f.start + f.length ≤ data.length := by
  induction fields generalizing position with
  | nil => exact fun _ mem => nomatch mem
  | cons field fields ih =>
    obtain ⟨middle, next, -, span, rest⟩ := h
    have inside := irSpan_ok span
    intro f mem
    cases mem with
    | head => exact inside.2.1 ▸ inside.2.2
    | tail _ mem => exact ih rest f mem

theorem NodesAt.tables {first : Nat} {bodies : List (Nat × Nat)} {nodes : List IrNode}
    (h : NodesAt data first bodies nodes fields) :
    bodies.length = nodes.length ∧
      Tiles first (nodes.map fun node => (node.fieldStart, node.fieldCount))
        (first + fields.length) ∧
      ∀ f ∈ fields, f.start + f.length ≤ data.length := by
  induction nodes generalizing first bodies fields with
  | nil =>
    cases bodies with
    | nil =>
      cases fields with
      | nil => exact ⟨rfl, rfl, fun _ mem => nomatch mem⟩
      | cons f fields => cases h
    | cons body bodies => cases h
  | cons node nodes ih =>
    cases bodies with
    | nil => cases h
    | cons body bodies =>
      obtain ⟨own, rest, stop, rfl, start, ⟨headerEnd, -, size, stand⟩, -, h⟩ := h
      obtain ⟨lengths, tiles, bounds⟩ := ih h
      refine ⟨by simp [lengths], ⟨start, ?_⟩, ?_⟩
      · simpa [size, Nat.add_assoc] using tiles
      · intro f mem
        cases List.mem_append.mp mem with
        | inl mem => exact fieldsAt_bounds stand f mem
        | inr mem => exact bounds f mem

/-- One node of a row, with its fields taken from the table by its range. -/
theorem NodesAt.get {first : Nat} {bodies : List (Nat × Nat)} {nodes : List IrNode}
    (h : NodesAt data first bodies nodes fields) {j : Nat} {node : IrNode} {body : Nat × Nat}
    (hnode : nodes[j]? = some node) (hbody : bodies[j]? = some body) :
    first ≤ node.fieldStart ∧
      ∃ stop, NodeAt data body node
          ((fields.drop (node.fieldStart - first)).take node.fieldCount) stop ∧
        (node.fieldCount ≠ 0 → stop ≤ body.2) := by
  induction nodes generalizing first bodies fields j with
  | nil => cases hnode
  | cons head nodes ih =>
    cases bodies with
    | nil => cases h
    | cons headBody bodies =>
      obtain ⟨own, rest, stop, rfl, start, stand, ends, h⟩ := h
      cases j with
      | zero =>
        cases hbody
        obtain rfl : head = node := Option.some.inj hnode
        have size : own.length = head.fieldCount := stand.choose_spec.2.1
        refine ⟨le_of_eq start.symm, stop, ?_, ?_⟩
        · rw [start, Nat.sub_self, List.drop_zero, ← size, List.take_left]
          exact stand
        · intro some
          exact ends (fun none => some (by rw [← size, none]; rfl))
      | succ j =>
        obtain ⟨le, stop', stand', ends'⟩ := ih h hnode hbody
        refine ⟨by omega, stop', ?_, ends'⟩
        have size : own.length = head.fieldCount := stand.choose_spec.2.1
        have skip : node.fieldStart - first = own.length +
          (node.fieldStart - (first + head.fieldCount)) := by
          omega
        rw [skip, ← List.drop_drop, List.drop_left]
        exact stand'

end Tables

/-! ## What acceptance means -/

/-- The spans of an accepted bundle lie in the input, its ranges tile its tables and its
root is one of its nodes. -/
structure WellFramed (data : Bytes) (bundle : IrBundle) : Prop where
  sourceName : bundle.sourceNameStart + bundle.sourceNameLength ≤ data.length
  resolved : bundle.resolvedStart + bundle.resolvedLength ≤ data.length
  fieldSpans : ∀ f ∈ bundle.fields, f.start + f.length ≤ data.length
  typeSpans : ∀ t ∈ bundle.types, t.nameStart + t.nameLength ≤ data.length
  typeFieldSpans : ∀ f ∈ bundle.typeFields, f.nameStart + f.nameLength ≤ data.length
  nodeRanges : Tiles 0 (bundle.nodes.map fun node => (node.fieldStart, node.fieldCount))
    bundle.fields.length
  typeRanges : Tiles 0 (bundle.types.map fun t => (t.fieldStart, t.fieldCount))
    bundle.typeFields.length
  root : 0 < bundle.root ∧ bundle.root ≤ bundle.nodes.length

def IrBundle.fieldsOf (bundle : IrBundle) (node : IrNode) : List IrField :=
  (bundle.fields.drop node.fieldStart).take node.fieldCount

/-- Every node stands with its header and its fields in its own body. -/
def NodesInside (data : Bytes) (bundle : IrBundle) : Prop :=
  (nodeBodies data).length = bundle.nodes.length ∧
    ∀ (j : Nat) (node : IrNode) (body : Nat × Nat), bundle.nodes[j]? = some node →
      (nodeBodies data)[j]? = some body →
      ∃ stop, NodeAt data body node (bundle.fieldsOf node) stop ∧ stop ≤ body.2

/-- No body is shorter than the header of a node without fields that starts with it. -/
def EmptyNodesFit (data : Bytes) : Prop :=
  ∀ body ∈ nodeBodies data, ∀ typeId headerEnd : Nat,
    irNodeHeader data body.1 = .ok (typeId, 0, headerEnd) → headerEnd ≤ body.2

section Acceptance

variable {data : Bytes} {bundle : IrBundle}

theorem irReadPrologue_ok {offset : Nat} (h : irReadPrologue data = .ok (offset, bundle)) :
    bundle.nodes = [] ∧ bundle.fields = [] ∧
      bundle.sourceNameStart + bundle.sourceNameLength ≤ data.length ∧
      bundle.resolvedStart + bundle.resolvedLength ≤ data.length ∧
      Tiles 0 (bundle.types.map fun t => (t.fieldStart, t.fieldCount)) bundle.typeFields.length ∧
      (∀ t ∈ bundle.types, t.nameStart + t.nameLength ≤ data.length) ∧
      ∀ f ∈ bundle.typeFields, f.nameStart + f.nameLength ≤ data.length := by
  obtain ⟨_, -, h⟩ := Parsed.bind_eq_ok.mp h
  obtain ⟨⟨version, p⟩, -, h⟩ := Parsed.bind_eq_ok.mp h
  obtain ⟨_, -, h⟩ := Parsed.bind_eq_ok.mp h
  obtain ⟨⟨p', headed⟩, header, h⟩ := Parsed.bind_eq_ok.mp h
  obtain ⟨⟨nameStart, nameLength, q⟩, name, header⟩ := Parsed.bind_eq_ok.mp header
  obtain ⟨⟨sourceStart, sourceLength, q'⟩, source, header⟩ := Parsed.bind_eq_ok.mp header
  cases header
  obtain ⟨⟨count, r⟩, -, h⟩ := Parsed.bind_eq_ok.mp h
  obtain ⟨_, -, h⟩ := Parsed.bind_eq_ok.mp h
  obtain ⟨types, fields, rfl, tiles, typeBounds, fieldBounds⟩ := irReadTypes_ok h
  have nameInside := irSpan_ok (expect_eq_ok.mp name)
  have sourceInside := irSpan_ok (expect_eq_ok.mp source)
  refine ⟨rfl, rfl, ?_, ?_, ?_, ?_, ?_⟩
  · exact nameInside.2.1 ▸ nameInside.2.2
  · exact sourceInside.2.1 ▸ sourceInside.2.2
  · simpa [IrBundle.empty] using tiles
  · simpa [IrBundle.empty] using typeBounds
  · simpa [IrBundle.empty] using fieldBounds

theorem irBundleParse_ok (h : irBundleParse data = .ok bundle) :
    WellFramed data bundle ∧ NodesAt data 0 (nodeBodies data) bundle.nodes bundle.fields := by
  obtain ⟨⟨offset, start⟩, prologue, h⟩ := Parsed.bind_eq_ok.mp h
  obtain ⟨⟨p, filled⟩, table, h⟩ := Parsed.bind_eq_ok.mp h
  obtain ⟨⟨count, q⟩, number, table⟩ := Parsed.bind_eq_ok.mp table
  obtain ⟨_, -, table⟩ := Parsed.bind_eq_ok.mp table
  obtain ⟨nodes, fields, rfl, stand⟩ := irReadNodes_ok table
  obtain ⟨⟨root, r⟩, -, h⟩ := Parsed.bind_eq_ok.mp h
  obtain ⟨_, -, h⟩ := Parsed.bind_eq_ok.mp h
  obtain ⟨_, valid, h⟩ := Parsed.bind_eq_ok.mp h
  cases h
  obtain ⟨noNodes, noFields, sourceName, resolved, types, typeSpans, typeFieldSpans⟩ :=
    irReadPrologue_ok prologue
  have bodies : nodeBodies data = irBodies data count q := by
    unfold nodeBodies
    rw [prologue]
    dsimp only
    rw [expect_eq_ok.mp number]
  have valid := of_decide_eq_true (require_eq_ok.mp (expect_eq_ok.mp valid))
  rw [noFields] at stand
  obtain ⟨-, tiles, bounds⟩ := stand.tables
  have fieldsEq : start.fields ++ fields = fields := by rw [noFields, List.nil_append]
  have nodesEq : start.nodes ++ nodes = nodes := by rw [noNodes, List.nil_append]
  refine ⟨⟨sourceName, resolved, ?_, typeSpans, typeFieldSpans, ?_, types, valid⟩, ?_⟩
  · simpa only [fieldsEq] using bounds
  · simpa [fieldsEq, nodesEq] using tiles
  · simpa only [bodies, fieldsEq, nodesEq, List.length_nil] using stand

theorem nodesInside_iff (h : irBundleParse data = .ok bundle) :
    NodesInside data bundle ↔ EmptyNodesFit data := by
  obtain ⟨-, stand⟩ := irBundleParse_ok h
  obtain ⟨lengths, -, -⟩ := stand.tables
  have taken : ∀ node : IrNode, (bundle.fields.drop (node.fieldStart - 0)).take node.fieldCount =
      bundle.fieldsOf node := fun _ => rfl
  constructor
  · rintro ⟨-, inside⟩ body mem typeId headerEnd header
    obtain ⟨j, hj, hbody⟩ := List.mem_iff_getElem.mp mem
    have hbody : (nodeBodies data)[j]? = some body := by rw [List.getElem?_eq_getElem hj, hbody]
    have hnode : ∃ node, bundle.nodes[j]? = some node :=
      ⟨_, List.getElem?_eq_getElem (by omega)⟩
    obtain ⟨node, hnode⟩ := hnode
    obtain ⟨stop, ⟨found, header', size, fields⟩, ends⟩ := inside j node body hnode hbody
    rw [header] at header'
    simp only [Outcome.ok.injEq, Prod.mk.injEq] at header'
    obtain ⟨-, count, rfl⟩ := header'
    rw [← count] at size
    rw [List.length_eq_zero_iff.mp size] at fields
    exact (show headerEnd = stop from fields) ▸ ends
  · intro fit
    refine ⟨lengths, ?_⟩
    intro j node body hnode hbody
    obtain ⟨-, stop, nodeAt, ends⟩ := stand.get hnode hbody
    rw [taken] at nodeAt
    refine ⟨stop, nodeAt, ?_⟩
    obtain ⟨headerEnd, header, size, fields⟩ := nodeAt
    cases count : node.fieldCount with
    | zero =>
      rw [count] at header size
      rw [List.length_eq_zero_iff.mp size] at fields
      exact (show headerEnd = stop from fields) ▸
        fit body (List.mem_of_getElem? hbody) node.typeId headerEnd header
    | succ k => exact ends (by omega)

end Acceptance

end Elisa.Driver
