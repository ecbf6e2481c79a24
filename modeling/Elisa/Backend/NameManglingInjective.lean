import Mathlib.Data.List.NodupEquivFin
import Elisa.Lib.Separated
import Elisa.Backend.NameMangling

/-!
# What a symbol shows of an instantiation

Of each of the first four type arguments a symbol shows a name or a kind with a number, and below it
the same of the first four inner arguments of an instantiated struct (`showArg`); structs of one
name in two modules look alike.  Where the names that are shown keep clear of the separators and of
the words that spell types (`Instantiation.Hygienic`, `Instantiation.Aligned`), two symbols are
equal exactly when what they show is equal (`Instantiation.symbol_eq_iff`).
-/

namespace Elisa.Backend

open Elisa.Lib List

/-! ## Decimal numbers are readable -/

def digitsValue : Bytes → Nat
  | [] => 0
  | c :: digits => (c.toNat - 48) + 10 * digitsValue digits

def IsDigit (c : UInt8) : Prop := 48 ≤ c.toNat ∧ c.toNat ≤ 57

theorem toNat_digit (n : Nat) : ((48 + n % 10).toUInt8).toNat = 48 + n % 10 := by
  have small : n % 10 < 10 := Nat.mod_lt _ (by decide)
  simp only [Nat.toUInt8_eq, UInt8.toNat_ofNat']
  omega

variable {n : Nat}

theorem digitsValue_decimalDigits {steps : Nat} (h : n < 10 ^ steps) :
    digitsValue (decimalDigits steps n) = n := by
  induction steps generalizing n with
  | zero =>
    have : n = 0 := by omega
    subst this
    rfl
  | succ steps ih =>
    unfold decimalDigits
    split
    next zero => exact zero.symm
    have quotient : n / 10 < 10 ^ steps :=
      Nat.div_lt_of_lt_mul (by rw [Nat.pow_succ'] at h; exact h)
    rw [digitsValue, ih quotient, toNat_digit]
    omega

variable {c : UInt8}

theorem isDigit_of_mem_decimalDigits {steps : Nat} (h : c ∈ decimalDigits steps n) : IsDigit c := by
  induction steps generalizing n with
  | zero => cases h
  | succ steps ih =>
    unfold decimalDigits at h
    split at h
    · cases h
    cases h with
    | head =>
      have small : n % 10 < 10 := Nat.mod_lt _ (by decide)
      unfold IsDigit
      rw [toNat_digit]
      omega
    | tail _ h => exact ih h

theorem isDigit_of_mem_appendUsizeDecimal (h : c ∈ appendUsizeDecimal n) : IsDigit c := by
  unfold appendUsizeDecimal at h
  split at h
  · cases mem_singleton.mp h
    exact ⟨by decide, by decide⟩
  · exact isDigit_of_mem_decimalDigits (mem_reverse.mp h)

theorem digitsValue_appendUsizeDecimal (h : n < 2 ^ 64) :
    digitsValue (appendUsizeDecimal n).reverse = n := by
  unfold appendUsizeDecimal
  split
  next zero =>
    rw [zero]
    rfl
  next =>
    rw [reverse_reverse]
    exact digitsValue_decimalDigits (by omega)

theorem appendUsizeDecimal_injective {m : Nat} (hm : m < 2 ^ 64) (hn : n < 2 ^ 64)
    (h : appendUsizeDecimal m = appendUsizeDecimal n) : m = n := by
  rw [← digitsValue_appendUsizeDecimal hm, h, digitsValue_appendUsizeDecimal hn]

theorem appendUsizeDecimal_ne_nil (h : n < 2 ^ 64) : appendUsizeDecimal n ≠ [] := by
  intro nil
  have value := digitsValue_appendUsizeDecimal h
  rw [nil] at value
  subst value
  cases nil

/-! ## What the spelling of a type keeps -/

/-- The type with the `bits` that its spelling distinguishes. -/
def canonicalType (valueType : ValueType) : ValueType where
  kind := valueType.kind
  bits :=
    match valueType.kind with
    | .unmodeled => builtinStateMarkerTag (builtinStateMarkerName valueType.bits)
    | .float => if valueType.bits = 32 then 32 else 64
    | .signed | .unsigned =>
      if valueType.bits = 8 then 8
      else if valueType.bits = 16 then 16
      else if valueType.bits = 32 then 32
      else 64
    | .bool | .void | .arena | .cstr | .sview | .pyObject => 0
    | _ => valueType.bits

/-- The letters a spelling starts with. -/
def typeStem (valueType : ValueType) : Bytes :=
  match valueType.kind with
  | .float => ascii "f"
  | .signed => ascii "i"
  | .unsigned => ascii "u"
  | _ => (typeText valueType).1

def typeNumber (valueType : ValueType) : Option Nat :=
  match valueType.kind with
  | .float | .signed | .unsigned => some (canonicalType valueType).bits.toNat
  | _ => if (typeText valueType).2 then some valueType.bits.toNat else none

def numberText : Option Nat → Bytes
  | some n => appendUsizeDecimal n
  | none => []

theorem pushTypeName_eq (t : ValueType) :
    pushTypeName t = typeStem t ++ numberText (typeNumber t) := by
  obtain ⟨kind, bits, enumId⟩ := t
  cases kind with
  | float =>
    simp only [pushTypeName, typeText, typeStem, typeNumber, canonicalType, numberText]
    split <;> rfl
  | signed | unsigned =>
    simp only [pushTypeName, typeText, typeStem, typeNumber, canonicalType, numberText]
    split
    · rfl
    · split
      · rfl
      · split <;> rfl
  | _ => rfl

def spelledKinds : List TypeKind :=
  [.signed, .unsigned, .bool, .float, .void, .struct, .array, .packedEnum, .packedStore, .arena,
    .payloadEnum, .cstr, .pyObject, .ref, .optional, .errorUnion, .dArray, .view, .sview, .fn,
    .guestCarrier, .constUsize]

def kindOfStem (stem : Bytes) : TypeKind :=
  (spelledKinds.find? fun kind => typeStem ⟨kind, 0, 0⟩ == stem).getD .unmodeled

theorem kindOfStem_typeStem (t : ValueType) : kindOfStem (typeStem t) = t.kind := by
  obtain ⟨kind, bits, enumId⟩ := t
  cases kind with
  | unmodeled =>
    simp only [typeStem, typeText, builtinStateMarkerName]
    repeat' split
    all_goals decide
  | _ => rfl

def isLetters (text : Bytes) : Bool := text.all fun c => decide (c.toNat < 48 ∨ 57 < c.toNat)

theorem not_isDigit_of_isLetters {text : Bytes} (h : isLetters text = true) (mem : c ∈ text) :
    ¬ IsDigit c := by
  have outside := all_eq_true.mp h c mem
  simp only [decide_eq_true_eq] at outside
  unfold IsDigit
  omega

variable {t : ValueType}

theorem not_isDigit_of_mem_typeStem (h : c ∈ typeStem t) : ¬ IsDigit c := by
  have clean : isLetters (typeStem t) = true := by
    obtain ⟨kind, bits, enumId⟩ := t
    cases kind with
    | unmodeled =>
      simp only [typeStem, typeText, builtinStateMarkerName]
      repeat' split
      all_goals decide
    | _ => rfl
  exact not_isDigit_of_isLetters clean h


theorem numberText_startsWith {number : Option Nat} : StartsWith IsDigit (numberText number) := by
  cases number with
  | none => exact Or.inl rfl
  | some n =>
    cases h : appendUsizeDecimal n with
    | nil => exact Or.inl h
    | cons c digits =>
      have mem : c ∈ appendUsizeDecimal n := by
        rw [h]
        exact mem_cons_self
      exact Or.inr ⟨c, digits, isDigit_of_mem_appendUsizeDecimal mem, h⟩

theorem numberText_injective {m n : Option Nat} (hm : ∀ x ∈ m, x < 2 ^ 64)
    (hn : ∀ x ∈ n, x < 2 ^ 64) (h : numberText m = numberText n) : m = n := by
  cases m with
  | none =>
    cases n with
    | none => rfl
    | some n => exact absurd h.symm (appendUsizeDecimal_ne_nil (hn n rfl))
  | some m =>
    cases n with
    | none => exact absurd h (appendUsizeDecimal_ne_nil (hm m rfl))
    | some n => rw [appendUsizeDecimal_injective (hm m rfl) (hn n rfl) h]

theorem typeNumber_lt (h : n ∈ typeNumber t) : n < 2 ^ 64 := by
  have word : ∀ bits : UInt32, bits.toNat < 2 ^ 64 := fun bits => by
    have := bits.toNat_lt
    omega
  unfold typeNumber at h
  split at h
  all_goals first
    | (cases h; exact word _)
    | (split at h
       · cases h
         exact word _
       · cases h)

def stateMarkerNames : List Bytes :=
  [ascii "Local", ascii "Frozen", ascii "Joinable", ascii "Pending", ascii "Held", ascii "unknown"]

theorem builtinStateMarkerName_mem (tag : UInt32) :
    builtinStateMarkerName tag ∈ stateMarkerNames := by
  unfold builtinStateMarkerName
  repeat' split
  all_goals decide

theorem builtinStateMarkerName_tag (tag : UInt32) :
    builtinStateMarkerName (builtinStateMarkerTag (builtinStateMarkerName tag)) =
      builtinStateMarkerName tag := by
  have closed : ∀ name ∈ stateMarkerNames,
      builtinStateMarkerName (builtinStateMarkerTag name) = name := by decide
  exact closed _ (builtinStateMarkerName_mem tag)

theorem pushTypeName_canonicalType (t : ValueType) :
    pushTypeName (canonicalType t) = pushTypeName t := by
  obtain ⟨kind, bits, enumId⟩ := t
  cases kind with
  | unmodeled =>
    simp only [pushTypeName, typeText, canonicalType, builtinStateMarkerName_tag]
    rfl
  | float =>
    simp only [pushTypeName, typeText, canonicalType]
    split <;> rfl
  | signed | unsigned =>
    simp only [pushTypeName, typeText, canonicalType]
    split
    · rfl
    · split
      · rfl
      · split <;> rfl
  | _ => rfl

/-- Two types are spelled alike exactly when they are the same up to the `bits`
that spelling does not distinguish. -/
theorem pushTypeName_eq_iff {u : ValueType} :
    pushTypeName t = pushTypeName u ↔ canonicalType t = canonicalType u := by
  constructor
  · intro h
    rw [pushTypeName_eq, pushTypeName_eq] at h
    obtain ⟨stems, numbers⟩ := append_inj_of_startsWith
      (fun _ => not_isDigit_of_mem_typeStem) (fun _ => not_isDigit_of_mem_typeStem)
      numberText_startsWith numberText_startsWith h
    have number := numberText_injective (fun _ => typeNumber_lt) (fun _ => typeNumber_lt) numbers
    have kinds : t.kind = u.kind := by
      rw [← kindOfStem_typeStem t, stems, kindOfStem_typeStem]
    obtain ⟨kind, bits, enumId⟩ := t
    obtain ⟨kind', bits', enumId'⟩ := u
    obtain rfl : kind = kind' := kinds
    cases kind with
    | unmodeled =>
      have name : builtinStateMarkerName bits = builtinStateMarkerName bits' := stems
      simp only [canonicalType, name]
    | bool | void | arena | cstr | sview | pyObject => rfl
    | _ =>
      have same := UInt32.toNat_inj.mp (Option.some.inj number)
      simpa only [canonicalType, ValueType.mk.injEq, and_true, true_and] using same
  · intro h
    rw [← pushTypeName_canonicalType t, h, pushTypeName_canonicalType]

theorem canonicalType_idem (t : ValueType) : canonicalType (canonicalType t) = canonicalType t :=
  pushTypeName_eq_iff.mp (pushTypeName_canonicalType t)

theorem isWord_pushTypeName (t : ValueType) : IsWord underscore (pushTypeName t) := by
  have stem : (typeStem t).all (fun c => c != underscore) = true ∧ typeStem t ≠ [] := by
    obtain ⟨kind, bits, enumId⟩ := t
    cases kind with
    | unmodeled =>
      simp only [typeStem, typeText, builtinStateMarkerName]
      repeat' split
      all_goals decide
    | _ => exact ⟨rfl, cons_ne_nil _ _⟩
  rw [pushTypeName_eq]
  refine ⟨fun nil => stem.2 (append_eq_nil_iff.mp nil).1, fun mem => ?_⟩
  rcases mem_append.mp mem with mem | mem
  · simpa using all_eq_true.mp stem.1 _ mem
  cases number : typeNumber t with
  | none =>
    rw [number] at mem
    cases mem
  | some n =>
    rw [number] at mem
    exact absurd (isDigit_of_mem_appendUsizeDecimal mem).2 (by decide)

/-! ## What a symbol shows -/

/-- A word of a symbol: a registered name, or a type up to what its spelling
distinguishes. -/
inductive ShownWord where
  | named (name : Bytes)
  | typed (type : ValueType)
deriving DecidableEq

/-- What a symbol shows of a type argument. -/
@[ext] structure ShownArg where
  head : ShownWord
  inner : List ShownWord
deriving DecidableEq

def showInner (structs : StructTable) (t : ValueType) : ShownWord :=
  if t.kind = .struct then .named (structs.names.getD t.bits.toNat [])
  else .typed (canonicalType t)

def showArg (structs : StructTable) (t : ValueType) : ShownArg :=
  if 0 < t.enumId ∧ t.enumId.toNat - 1 < structs.enumNames.length then
    ⟨.named (structs.enumNames.getD (t.enumId.toNat - 1) []), []⟩
  else if t.kind = .struct then
    ⟨.named (structs.names.getD t.bits.toNat []),
      (((structs.genericInstArgs t.bits.toNat).getD []).take 4).map (showInner structs)⟩
  else ⟨.typed (canonicalType t), []⟩

def ShownWord.spell : ShownWord → Bytes
  | .named name => name
  | .typed type => pushTypeName type

/-- The bytes that stand for a type argument in a symbol. -/
def ShownArg.text (arg : ShownArg) : Bytes :=
  arg.head.spell ++ writeBehind [underscore] (arg.inner.map ShownWord.spell)

theorem pushInstArgName_eq (structs : StructTable) (t : ValueType) :
    pushInstArgName structs t = (showInner structs t).spell := by
  unfold pushInstArgName showInner
  split
  · rfl
  · exact (pushTypeName_canonicalType t).symm

theorem appendInstArgs_eq (structs : StructTable) (args : List ValueType) :
    appendInstArgAt structs args 0 ++ appendInstArgAt structs args 1 ++
        appendInstArgAt structs args 2 ++ appendInstArgAt structs args 3 =
      writeBehind [underscore] ((args.take 4).map fun t => (showInner structs t).spell) := by
  match args with
  | [] => rfl
  | [a] => simp [appendInstArgAt, pushInstArgName_eq]
  | [a, b] => simp [appendInstArgAt, pushInstArgName_eq]
  | [a, b, c] => simp [appendInstArgAt, pushInstArgName_eq]
  | a :: b :: c :: d :: rest => simp [appendInstArgAt, pushInstArgName_eq]

theorem pushGenericArgName_eq (structs : StructTable) (t : ValueType) :
    pushGenericArgName structs t = (showArg structs t).text := by
  unfold pushGenericArgName showArg
  split
  · simp [ShownArg.text, ShownWord.spell]
  split
  · have inner := appendInstArgs_eq structs ((structs.genericInstArgs t.bits.toNat).getD [])
    cases row : structs.genericInstArgs t.bits.toNat with
    | none => simp [ShownArg.text, ShownWord.spell]
    | some args =>
      rw [row, Option.getD_some] at inner
      simp only [inner]
      simp [ShownArg.text, ShownWord.spell, Function.comp_def]
  · simp [ShownArg.text, ShownWord.spell, pushTypeName_canonicalType]

theorem appendMangledArgs_eq (structs : StructTable) (typeArgs : List ValueType) :
    appendMangledArg structs typeArgs 0 ++ appendMangledArg structs typeArgs 1 ++
        appendMangledArg structs typeArgs 2 ++ appendMangledArg structs typeArgs 3 =
      writeBehind [underscore, underscore]
        ((typeArgs.take 4).map fun t => (showArg structs t).text) := by
  match typeArgs with
  | [] => rfl
  | [a] => simp [appendMangledArg, pushGenericArgName_eq]
  | [a, b] => simp [appendMangledArg, pushGenericArgName_eq]
  | [a, b, c] => simp [appendMangledArg, pushGenericArgName_eq]
  | a :: b :: c :: d :: rest => simp [appendMangledArg, pushGenericArgName_eq]

/-! ## Names that keep clear of the spelling -/

def ShownArg.words (arg : ShownArg) : List ShownWord := arg.head :: arg.inner

/-- No type is spelled like the name, and it neither has `__` nor ends in `_`. -/
def IsClear (name : Bytes) : Prop := IsHead underscore name ∧ ∀ t, pushTypeName t ≠ name

/-- The names of the argument have a letter and no `_`. -/
def ShownArg.Plain (arg : ShownArg) : Prop :=
  ∀ name, .named name ∈ arg.words → IsWord underscore name

def ShownWord.Valid : ShownWord → Prop
  | .named name => IsClear name
  | .typed type => canonicalType type = type

theorem isHead_spell {word : ShownWord} (valid : word.Valid) : IsHead underscore word.spell := by
  cases word with
  | named name => exact valid.1
  | typed type => exact (isWord_pushTypeName type).isHead

theorem ShownArg.Plain.isWord_spell {arg : ShownArg} (plain : arg.Plain) {word : ShownWord}
    (mem : word ∈ arg.words) : IsWord underscore word.spell := by
  cases word with
  | named name => exact plain name mem
  | typed type => exact isWord_pushTypeName type

theorem spell_injective {v w : ShownWord} (hv : v.Valid) (hw : w.Valid)
    (h : v.spell = w.spell) : v = w := by
  cases v with
  | named name =>
    cases w with
    | named other => exact congrArg ShownWord.named h
    | typed type => exact absurd h.symm (hv.2 type)
  | typed type =>
    cases w with
    | named other => exact absurd h (hw.2 type)
    | typed other =>
      have canonical := pushTypeName_eq_iff.mp h
      rw [← show canonicalType type = type from hv, canonical,
        show canonicalType other = other from hw]

/-- The types that are shown are shown up to what spelling distinguishes. -/
theorem canonicalType_of_shown {structs : StructTable} {type : ValueType}
    (mem : .typed type ∈ (showArg structs t).words) : canonicalType type = type := by
  unfold showArg at mem
  split at mem
  · simp [ShownArg.words] at mem
  split at mem
  · rw [ShownArg.words, mem_cons] at mem
    obtain ⟨argument, -, shown⟩ := mem_map.mp (mem.resolve_left nofun)
    unfold showInner at shown
    split at shown
    · cases shown
    · cases shown
      exact canonicalType_idem argument
  · rw [ShownArg.words, mem_singleton] at mem
    cases mem
    exact canonicalType_idem t

theorem map_injective_zip {α β : Type} {f : α → β} {as bs : List α}
    (inj : ∀ p ∈ as.zip bs, f p.1 = f p.2 → p.1 = p.2) (h : as.map f = bs.map f) : as = bs := by
  induction as generalizing bs with
  | nil => exact (map_eq_nil_iff.mp h.symm).symm
  | cons a as ih =>
    cases bs with
    | nil => cases h
    | cons b bs =>
      obtain ⟨first, rest⟩ := List.cons.inj h
      obtain rfl : a = b := inj (a, b) mem_cons_self first
      rw [ih (fun p hp => inj p (mem_cons_of_mem _ hp)) rest]

theorem isHead_text {arg : ShownArg} (valid : ∀ word ∈ arg.words, word.Valid)
    (plain : arg.inner ≠ [] → arg.Plain) : IsHead underscore arg.text := by
  refine (isHead_spell (valid _ mem_cons_self)).append_writeBehind fun text mem => ?_
  obtain ⟨word, wordMem, rfl⟩ := mem_map.mp mem
  exact (plain (ne_nil_of_mem wordMem)).isWord_spell (mem_cons_of_mem _ wordMem)

/-- Names without `_` show where the arguments of a struct instance start. -/
theorem text_injective {v w : ShownArg} (hv : ∀ word ∈ v.words, word.Valid)
    (hw : ∀ word ∈ w.words, word.Valid)
    (plain : v.inner ≠ [] ∨ w.inner ≠ [] → v.Plain ∧ w.Plain) (h : v.text = w.text) : v = w := by
  by_cases instances : v.inner ≠ [] ∨ w.inner ≠ []
  · obtain ⟨plainV, plainW⟩ := plain instances
    have spelled : v.words.map ShownWord.spell = w.words.map ShownWord.spell := by
      refine writeBehind_injective (c := underscore) ?_ ?_ (congrArg (underscore :: ·) h)
      · exact forall_mem_map.mpr fun word => plainV.isWord_spell
      · exact forall_mem_map.mpr fun word => plainW.isWord_spell
    have words : v.words = w.words := map_injective_zip (fun p mem =>
      spell_injective (hv _ (of_mem_zip mem).1) (hw _ (of_mem_zip mem).2)) spelled
    exact ShownArg.ext (List.cons.inj words).1 (List.cons.inj words).2
  · obtain ⟨innerV, innerW⟩ := not_or.mp instances
    rw [not_not] at innerV innerW
    have heads : v.head.spell = w.head.spell := by
      simpa only [ShownArg.text, innerV, innerW, map_nil, writeBehind_nil, append_nil] using h
    exact ShownArg.ext (spell_injective (hv _ mem_cons_self) (hw _ mem_cons_self) heads)
      (innerV.trans innerW.symm)

/-! ## Symbols -/

namespace Instantiation

variable {generics : GenericTable} {structs : StructTable}

def shown (inst : Instantiation generics structs) : List ShownArg :=
  (inst.typeArgs.take 4).map (showArg structs)

/-- The template's name has no `__` and does not end in `_`, and the struct and enum names that the
symbol shows are clear, in an instance of a generic struct also plain. -/
structure Hygienic (inst : Instantiation generics structs) : Prop where
  base : IsHead underscore inst.base
  names : ∀ arg ∈ inst.shown, ∀ name, .named name ∈ arg.words → IsClear name
  instances : ∀ arg ∈ inst.shown, arg.inner ≠ [] → arg.Plain

/-- A name that stands where the other symbol shows an instance of a generic struct is plain. -/
def Aligned (a b : Instantiation generics structs) : Prop :=
  ∀ p ∈ a.shown.zip b.shown, p.1.inner ≠ [] ∨ p.2.inner ≠ [] → p.1.Plain ∧ p.2.Plain

theorem Hygienic.valid {inst : Instantiation generics structs} (hygienic : inst.Hygienic) :
    ∀ arg ∈ inst.shown, ∀ word ∈ arg.words, word.Valid := by
  intro arg mem word wordMem
  cases word with
  | named name => exact hygienic.names arg mem name wordMem
  | typed type =>
    obtain ⟨t, -, rfl⟩ := mem_map.mp mem
    exact canonicalType_of_shown wordMem

def slotWords (inst : Instantiation generics structs) : List Bytes :=
  match inst.slotSuffix with
  | some slot => [ascii "ov" ++ appendUsizeDecimal slot]
  | none => []

def texts (inst : Instantiation generics structs) : List Bytes :=
  inst.shown.map ShownArg.text ++ inst.slotWords

theorem symbol_eq (inst : Instantiation generics structs) :
    inst.symbol = inst.base ++ writeBehind [underscore, underscore] inst.texts ++ [0] := by
  unfold symbol mangledNameMultiInto texts shown slotWords
  rw [appendMangledArgs_eq]
  cases inst.slotSuffix with
  | none => simp [map_map, Function.comp_def]
  | some slot =>
    simp [map_map, Function.comp_def]
    rfl

theorem slot_lt (inst : Instantiation generics structs) : inst.slot.val < 2 ^ 64 :=
  Nat.lt_trans inst.slot.isLt generics.count_lt

theorem isWord_slot (inst : Instantiation generics structs) {text : Bytes}
    (mem : text ∈ inst.slotWords) : IsWord underscore text := by
  unfold slotWords slotSuffix at mem
  split at mem
  next slot _ =>
    rw [mem_singleton] at mem
    subst mem
    refine ⟨cons_ne_nil _ _, fun under => ?_⟩
    rcases mem_append.mp under with under | under
    · exact absurd under (by decide)
    · exact absurd (isDigit_of_mem_appendUsizeDecimal under).2 (by decide)
  next => cases mem

theorem isHead_texts {inst : Instantiation generics structs} (hygienic : inst.Hygienic) :
    ∀ text ∈ inst.texts, IsHead underscore text := by
  intro text mem
  rcases mem_append.mp mem with mem | mem
  · obtain ⟨arg, argMem, rfl⟩ := mem_map.mp mem
    exact isHead_text (hygienic.valid arg argMem) (hygienic.instances arg argMem)
  · exact (inst.isWord_slot mem).isHead

variable {a b : Instantiation generics structs}

theorem slot_eq_of_count (bases : a.base = b.base) (h : ¬ 1 < generics.genericSlotCount a.base) :
    a.slot = b.slot := by
  by_contra ne
  have duplicate : List.Duplicate a.base generics.names := by
    rw [duplicate_iff_exists_distinct_get]
    rcases Nat.lt_or_gt_of_ne (fun eq => ne (Fin.ext eq)) with lt | gt
    · exact ⟨a.slot, b.slot, lt, rfl, bases⟩
    · exact ⟨b.slot, a.slot, gt, bases, rfl⟩
  apply h
  have twice := duplicate_iff_two_le_count.mp duplicate
  rwa [lawful_beq_subsingleton instBEqOfDecidableEq List.instBEq] at twice

theorem slot_eq_of_slotWords (bases : a.base = b.base) (h : a.slotWords = b.slotWords) :
    a.slot = b.slot := by
  by_cases overloaded : 1 < generics.genericSlotCount a.base
  · have suffixA : a.slotSuffix = some a.slot.val := if_pos overloaded
    have suffixB : b.slotSuffix = some b.slot.val := if_pos (bases ▸ overloaded)
    simp only [slotWords, suffixA, suffixB, List.cons.injEq, and_true,
      append_cancel_left_eq] at h
    exact Fin.ext (appendUsizeDecimal_injective a.slot_lt b.slot_lt h)
  · exact slot_eq_of_count bases overloaded

theorem slotWords_length_eq (bases : a.base = b.base) :
    a.slotWords.length = b.slotWords.length := by
  unfold slotWords slotSuffix
  rw [bases]
  split_ifs <;> rfl

theorem symbol_eq_iff (hygienicA : a.Hygienic) (hygienicB : b.Hygienic) (aligned : a.Aligned b) :
    a.symbol = b.symbol ↔ a.slot = b.slot ∧ a.shown = b.shown := by
  constructor
  · intro h
    rw [a.symbol_eq, b.symbol_eq] at h
    have spelled := append_cancel_right h
    obtain ⟨bases, rests⟩ := head_append_inj hygienicA.base hygienicB.base
      startsDoubled_writeBehind startsDoubled_writeBehind spelled
    obtain ⟨args, slots⟩ := append_inj' (writeBehind_two_injective (isHead_texts hygienicA)
      (isHead_texts hygienicB) rests) (slotWords_length_eq bases)
    refine ⟨slot_eq_of_slotWords bases slots, map_injective_zip (fun p mem => ?_) args⟩
    exact text_injective (hygienicA.valid _ (of_mem_zip mem).1)
      (hygienicB.valid _ (of_mem_zip mem).2) (aligned p mem)
  · rintro ⟨slots, args⟩
    have bases : a.base = b.base := by
      unfold base
      rw [slots]
    have texts : a.texts = b.texts := by
      unfold texts slotWords slotSuffix
      rw [args, bases, slots]
    rw [a.symbol_eq, b.symbol_eq, bases, texts]

end Instantiation

/-! ## Two programs -/

def identityTemplate : GenericTable := ⟨[ascii "identity"], by decide⟩

/-- Two structs of one name, and one whose name has an underscore. -/
def threeStructs : StructTable := ⟨[ascii "Point", ascii "Point", ascii "SDL_Window"], [], []⟩

def identityAt (t : ValueType) : Instantiation identityTemplate threeStructs :=
  ⟨⟨0, by decide⟩, [t]⟩

theorem pushTypeName_ne_of_stem {name : Bytes} (letters : isLetters name = true)
    (stem : ∀ t, typeStem t ≠ name) (t : ValueType) : pushTypeName t ≠ name := by
  intro h
  rw [pushTypeName_eq, ← append_nil name] at h
  exact stem t (append_inj_of_startsWith (fun _ => not_isDigit_of_mem_typeStem)
    (fun _ => not_isDigit_of_isLetters letters) numberText_startsWith (Or.inl rfl) h).1

theorem typeStem_ne_of_kind {name : Bytes} (kind : kindOfStem name = .unmodeled)
    (marker : name ∉ stateMarkerNames) (t : ValueType) : typeStem t ≠ name := by
  intro h
  have unmodeled : t.kind = .unmodeled := by rw [← kindOfStem_typeStem t, h, kind]
  have stem : typeStem t = builtinStateMarkerName t.bits := by
    simp only [typeStem, typeText, unmodeled]
  exact marker (h ▸ stem ▸ builtinStateMarkerName_mem t.bits)

theorem isClear_of_letters {name : Bytes} (head : IsHead underscore name)
    (letters : isLetters name = true) (kind : kindOfStem name = .unmodeled)
    (marker : name ∉ stateMarkerNames) : IsClear name :=
  ⟨head, pushTypeName_ne_of_stem letters (typeStem_ne_of_kind kind marker)⟩

theorem hygienic_identityAt {row : UInt32} {name : Bytes} (clear : IsClear name)
    (shows : showArg threeStructs ⟨.struct, row, 0⟩ = ⟨.named name, []⟩) :
    (identityAt ⟨.struct, row, 0⟩).Hygienic where
  base := show IsHead underscore (ascii "identity") by decide
  names := by
    intro arg mem other named
    obtain rfl := mem_singleton.mp mem
    rw [shows] at named
    cases mem_singleton.mp named
    exact clear
  instances := by
    intro arg mem inner
    obtain rfl := mem_singleton.mp mem
    exact absurd (congrArg ShownArg.inner shows) inner

end Elisa.Backend
