import Elisa.Bytes
import Elisa.Lib.RowChain
import Mathlib.Data.Finset.Card

/-!
# The index of annotation pairs

The backend looks for the annotations of a unit with a given owner and name.  It chains the rows of
the stream by a hash of the pair, in tables of a fixed size (`codegen_annotation_pair_index.elisa`,
`codegen_annotation_pair_hash.elisa`).  The tables serve one stream at a time, told from others by
its address, its length and the lines of its ends; a rebuild clears the buckets that the previous
stream touched.  A stream that does not fit is scanned.

All accesses are checked, and so is the length of a chain.  `annotationPairFind` answers what the
scan answers, in every run in which the key of a stream identifies it (`runRequests_answers`).  Its
callers go over the rows of a pair until one passes a test (`anyPair_spec`).
-/

namespace Elisa.Backend.AnnotationPairs

open RowChain Option

/-! ## The tables -/

/-- The fields of an annotation that a lookup and its callers read. -/
structure EnumAnnotation where
  owner : Bytes
  name : Bytes
  line : Nat
  offset : Nat
  deriving DecidableEq

/-- A stream of annotations, with the address of its buffer. -/
structure Stream where
  base : Nat
  annotations : List EnumAnnotation

def Stream.count (stream : Stream) : Nat := stream.annotations.length

def annotationPairCapacity : Nat := 1048576
def annotationPairBuckets : Nat := 65536

abbrev Table := Nat → Nat

def Table.read (table : Table) (size index : Nat) : Option Nat :=
  if index < size then some (table index) else none

def Table.write (table : Table) (size index value : Nat) : Option Table :=
  if index < size then some (Function.update table index value) else none

def u32 (n : Nat) : Nat := n % 2 ^ 32

/-- The global tables.  The state is `1` while the chains are valid, and `2` for a stream that
overflowed them. -/
structure PairIndex where
  base : Nat
  rows : Nat
  firstLine : Nat
  lastLine : Nat
  state : Nat
  touchedCount : Nat
  touchedBuckets : Table
  heads : Table
  tails : Table
  next : Table

def PairIndex.initial : PairIndex :=
  ⟨0, 0, 0, 0, 0, 0, fun _ => 0, fun _ => 0, fun _ => 0, fun _ => 0⟩

/-! ## The hash -/

def annotationPairHash (text : Bytes) (hash : UInt64) : UInt64 :=
  text.foldl (fun hash byte => (hash ^^^ byte.toUInt64) * 1099511628211) hash

def annotationPairBucket (owner name : Bytes) : Nat :=
  let ownerHash := annotationPairHash owner 14695981039346656037
  let delimitedHash := (ownerHash ^^^ 255) * 1099511628211
  (annotationPairHash name delimitedHash).toNat % annotationPairBuckets

theorem annotationPairBucket_lt (owner name : Bytes) :
    annotationPairBucket owner name < annotationPairBuckets :=
  Nat.mod_lt _ (by decide)

/-! ## Building -/

def annotationPairCacheInvalidate (index : PairIndex) : PairIndex := { index with state := 0 }

/-- The heads of the buckets that the previous stream touched are cleared. -/
def clearTouched (index : PairIndex) : Option Table :=
  (List.range index.touchedCount).foldlM (fun heads touchedRow => do
    let bucket ← index.touchedBuckets.read annotationPairBuckets touchedRow
    heads.write annotationPairBuckets bucket 0) index.heads

/-- A row goes behind the last one of its bucket, or opens it. -/
def pushPair (index : PairIndex) (row : Nat) ( annotation : EnumAnnotation) : Option PairIndex := do
  let bucket := annotationPairBucket annotation.owner annotation.name
  let next ← index.next.write annotationPairCapacity row 0
  let first ← index.heads.read annotationPairBuckets bucket
  if first ≠ 0 then
    let last ← index.tails.read annotationPairBuckets bucket
    let lastRow ← if last = 0 then none else some (last - 1)
    let next ← next.write annotationPairCapacity lastRow (u32 (row + 1))
    let tails ← index.tails.write annotationPairBuckets bucket (u32 (row + 1))
    return { index with next, tails }
  else
    let touchedBuckets ←
      index.touchedBuckets.write annotationPairBuckets index.touchedCount (u32 bucket)
    let heads ← index.heads.write annotationPairBuckets bucket (u32 (row + 1))
    let tails ← index.tails.write annotationPairBuckets bucket (u32 (row + 1))
    return { index with
      next, touchedBuckets, touchedCount := index.touchedCount + 1, heads, tails }

def pushPairs (index : PairIndex) : Nat → List EnumAnnotation → Option PairIndex
  | _, [] => some index
  | row, annotation :: rest => do
    let index ← pushPair index row annotation
    pushPairs index (row + 1) rest

/-- Whether the chains describe a stream; they are built if needed. -/
def annotationPairsReady (index : PairIndex) (stream : Stream) : Option (Bool × PairIndex) := do
  if stream.count = 0 then return (false, index)
  let first ← stream.annotations[0]?
  let last ← stream.annotations[stream.count - 1]?
  if stream.base = index.base ∧ stream.count = index.rows ∧ first.line = index.firstLine ∧
      last.line = index.lastLine ∧ index.state ≠ 0 then
    return (index.state == 1, index)
  let index := { index with
    base := stream.base, rows := stream.count, firstLine := first.line, lastLine := last.line,
    state := 0 }
  if stream.count > annotationPairCapacity then return (false, { index with state := 2 })
  let heads ← clearTouched index
  let index ← pushPairs { index with heads, touchedCount := 0 } 0 stream.annotations
  return (true, { index with state := 1 })

/-! ## Finding -/

def EnumAnnotation.isPair (owner name : Bytes) ( annotation : EnumAnnotation) : Bool :=
  annotation.owner == owner && annotation.name == name

/-- The rows of a chain up to one of the pair.  A chain that goes on for more rows than the stream
has is no answer. -/
def chainFind (index : PairIndex) (stream : Stream) (owner name : Bytes) : Nat → Nat → Option Int
  | _, 0 => some (-1)
  | 0, _ + 1 => none
  | fuel + 1, row + 1 => do
    let annotation ← stream.annotations[row]?
    if annotation.isPair owner name then return row
    let cursor ← index.next.read annotationPairCapacity row
    chainFind index stream owner name fuel cursor

def scanFind (stream : Stream) (owner name : Bytes) (start : Nat) : Int :=
  match (stream.annotations.drop start).findIdx? ( EnumAnnotation.isPair owner name) with
  | some offset => (start + offset : Nat)
  | none => -1

def startOf (fromRow : Int) : Nat := if fromRow < 0 then 0 else fromRow.toNat + 1

def annotationPairFind (index : PairIndex) (stream : Stream) (owner name : Bytes) (fromRow : Int) :
    Option (Int × PairIndex) := do
  let (ready, index) ← annotationPairsReady index stream
  if ready then
    let cursor ←
      if fromRow < 0 then
        index.heads.read annotationPairBuckets (annotationPairBucket owner name)
      else index.next.read annotationPairCapacity fromRow.toNat
    let row ← chainFind index stream owner name stream.count cursor
    return (row, index)
  else return (scanFind stream owner name (startOf fromRow), index)

/-! ## Runs -/

/-- What a unit does with the index. -/
inductive Request where
  | invalidate
  | find (stream : Stream) (owner name : Bytes) (fromRow : Int)

def runRequests (index : PairIndex) : List Request → Option (List Int)
  | [] => some []
  | .invalidate :: rest => runRequests (annotationPairCacheInvalidate index) rest
  | .find stream owner name fromRow :: rest => do
    let (row, index) ← annotationPairFind index stream owner name fromRow
    let rows ← runRequests index rest
    return row :: rows

def scanRequests : List Request → List Int
  | [] => []
  | .invalidate :: rest => scanRequests rest
  | .find stream owner name fromRow :: rest =>
    scanFind stream owner name (startOf fromRow) :: scanRequests rest

/-! ## The touched buckets -/

/-- The buckets in use are the touched ones, and these are different. -/
structure Touched (index : PairIndex) : Prop where
  bound : ∀ i < index.touchedCount, index.touchedBuckets i < annotationPairBuckets
  distinct : ∀ i < index.touchedCount, ∀ j < index.touchedCount,
    index.touchedBuckets i = index.touchedBuckets j → i = j
  used : ∀ i < index.touchedCount, index.heads (index.touchedBuckets i) ≠ 0
  covers : ∀ bucket, index.heads bucket ≠ 0 →
    ∃ i < index.touchedCount, index.touchedBuckets i = bucket

variable {index : PairIndex} {stream : Stream} {row : Nat}

theorem Table.read_eq {table : Table} {size index : Nat} (h : index < size) :
    table.read size index = some (table index) := if_pos h

theorem Table.write_eq {table : Table} {size index : Nat} (h : index < size) (value : Nat) :
    table.write size index value = some (Function.update table index value) := if_pos h

theorem u32_eq {n : Nat} (h : n < 2 ^ 32) : u32 n = n := Nat.mod_eq_of_lt h

theorem Touched.room (h : Touched index) {bucket : Nat} (hbucket : bucket < annotationPairBuckets)
    (fresh : index.heads bucket = 0) : index.touchedCount < annotationPairBuckets := by
  have hinj : Set.InjOn index.touchedBuckets (Finset.range index.touchedCount) := by
    intro i hi j hj
    rw [Finset.coe_range, Set.mem_Iio] at hi hj
    exact h.distinct i hi j hj
  have hmaps : ∀ i ∈ Finset.range index.touchedCount,
      index.touchedBuckets i ∈ (Finset.range annotationPairBuckets).erase bucket := by
    intro i hi
    rw [Finset.mem_range] at hi
    have hne : index.touchedBuckets i ≠ bucket := fun e => h.used i hi (e ▸ fresh)
    exact Finset.mem_erase.mpr ⟨hne, Finset.mem_range.mpr (h.bound i hi)⟩
  have hcard := Finset.card_le_card_of_injOn _ hmaps hinj
  rw [Finset.card_range, Finset.card_erase_of_mem (Finset.mem_range.mpr hbucket),
    Finset.card_range] at hcard
  omega

theorem Touched.count_le (h : Touched index) : index.touchedCount ≤ annotationPairBuckets := by
  have hinj : Set.InjOn index.touchedBuckets (Finset.range index.touchedCount) := by
    intro i hi j hj
    rw [Finset.coe_range, Set.mem_Iio] at hi hj
    exact h.distinct i hi j hj
  have hmaps : ∀ i ∈ Finset.range index.touchedCount,
      index.touchedBuckets i ∈ Finset.range annotationPairBuckets := by
    intro i hi
    rw [Finset.mem_range] at hi
    exact Finset.mem_range.mpr (h.bound i hi)
  simpa using Finset.card_le_card_of_injOn _ hmaps hinj

theorem clearTouched_eq (h : Touched index) : clearTouched index = some fun _ => 0 := by
  have steps : ∀ count ≤ index.touchedCount, ∃ heads : Table,
      (List.range count).foldlM (fun heads touchedRow => do
        let bucket ← index.touchedBuckets.read annotationPairBuckets touchedRow
        heads.write annotationPairBuckets bucket 0) index.heads = some heads ∧
      ∀ bucket, heads bucket ≠ 0 → index.heads bucket ≠ 0 ∧
        ∀ i < count, index.touchedBuckets i ≠ bucket := by
    intro count hcount
    induction count with
    | zero => exact ⟨_, rfl, fun bucket hne => ⟨hne, fun i hi => absurd hi (Nat.not_lt_zero i)⟩⟩
    | succ count ih =>
      obtain ⟨heads, hheads, hne⟩ := ih (by omega)
      have hread := h.bound count hcount
      have hroom : count < annotationPairBuckets := Nat.lt_of_lt_of_le hcount h.count_le
      refine ⟨Function.update heads (index.touchedBuckets count) 0, ?_, fun bucket hb => ?_⟩
      · rw [List.range_succ, List.foldlM_append, hheads]
        simp [Table.read_eq hroom, Table.write_eq hread]
      cases hb' : decide (bucket = index.touchedBuckets count) with
      | true =>
        rw [decide_eq_true_eq] at hb'
        rw [hb', Function.update_self] at hb
        exact absurd rfl hb
      | false =>
        rw [decide_eq_false_iff_not] at hb'
        rw [Function.update_of_ne hb'] at hb
        refine ⟨(hne bucket hb).1, fun i hi => ?_⟩
        rcases Nat.lt_succ_iff_lt_or_eq.mp hi with hlt | rfl
        · exact (hne bucket hb).2 i hlt
        · exact Ne.symm hb'
  obtain ⟨heads, hheads, hne⟩ := steps index.touchedCount (Nat.le_refl _)
  rw [clearTouched, hheads]
  congr 1
  funext bucket
  rw [← Decidable.not_not (p := heads bucket = 0)]
  intro hb
  obtain ⟨hhead, hfresh⟩ := hne bucket hb
  obtain ⟨i, hi, hbucket⟩ := h.covers bucket hhead
  exact hfresh i hi hbucket

/-! ## The chains -/

/-- A row of a table, stored with one added. -/
def row? : Nat → Option Nat
  | 0 => none
  | row + 1 => some row

theorem row?_eq_none {cursor : Nat} : row? cursor = none ↔ cursor = 0 := by
  cases cursor <;> simp [row?]

def Stream.bucket (stream : Stream) (row : Nat) : Nat :=
  (stream.annotations[row]?).elim 0 fun annotation =>
    annotationPairBucket annotation.owner annotation.name

def Linked (index : PairIndex) (stream : Stream) (n : Nat) : Prop :=
  Chained stream.bucket n (fun bucket => row? (index.heads bucket))
    (fun bucket => if index.heads bucket = 0 then none else row? (index.tails bucket))
    (fun row => row? (index.next row))

/-- Everything but the chains stays. -/
def SameKey (index index' : PairIndex) : Prop :=
  index'.base = index.base ∧ index'.rows = index.rows ∧ index'.firstLine = index.firstLine ∧
    index'.lastLine = index.lastLine ∧ index'.state = index.state

theorem Linked.congr {stream' : Stream} {n : Nat} (h : Linked index stream n)
    (same : stream'.annotations = stream.annotations) : Linked index stream' n :=
  Chained.congr h fun i _ => by rw [Stream.bucket, Stream.bucket, same]

theorem Linked.tail_of_head {n bucket : Nat} (h : Linked index stream n)
    (hfirst : index.heads bucket ≠ 0) : ∃ last, index.tails bucket = last + 1 := by
  have hhead := h.head bucket
  have htail := h.tail bucket
  rw [if_neg hfirst] at htail
  cases hlast : index.tails bucket with
  | zero =>
    rw [hlast] at htail
    rw [List.getLast?_eq_none_iff.mp htail.symm] at hhead
    exact absurd (row?_eq_none.mp hhead) hfirst
  | succ last => exact ⟨last, rfl⟩

theorem Touched.open_bucket (h : Touched index) {bucket : Nat} {next tails : Table}
    (hbucket : bucket < annotationPairBuckets) (fresh : index.heads bucket = 0) :
    Touched { index with
      next, tails,
      touchedBuckets := Function.update index.touchedBuckets index.touchedCount bucket,
      touchedCount := index.touchedCount + 1,
      heads := Function.update index.heads bucket (row + 1) } := by
  have hold : ∀ i < index.touchedCount,
      Function.update index.touchedBuckets index.touchedCount bucket i = index.touchedBuckets i :=
    fun i hi => Function.update_of_ne (Nat.ne_of_lt hi) _ _
  have hne : ∀ i < index.touchedCount, index.touchedBuckets i ≠ bucket :=
    fun i hi e => h.used i hi (e ▸ fresh)
  constructor
  · intro i hi
    rcases Nat.lt_succ_iff_lt_or_eq.mp hi with hlt | rfl
    · dsimp only
      rw [hold i hlt]
      exact h.bound i hlt
    · simpa using hbucket
  · intro i hi j hj hij
    dsimp only at hij
    rcases Nat.lt_succ_iff_lt_or_eq.mp hi with hi | rfl <;>
      rcases Nat.lt_succ_iff_lt_or_eq.mp hj with hj | rfl
    · rw [hold i hi, hold j hj] at hij
      exact h.distinct i hi j hj hij
    · rw [hold i hi, Function.update_self] at hij
      exact absurd hij (hne i hi)
    · rw [hold j hj, Function.update_self] at hij
      exact absurd hij.symm (hne j hj)
    · rfl
  · intro i hi
    dsimp only
    rcases Nat.lt_succ_iff_lt_or_eq.mp hi with hlt | rfl
    · rw [hold i hlt, Function.update_of_ne (hne i hlt)]
      exact h.used i hlt
    · simp
  · intro b hb
    dsimp only at hb ⊢
    rcases eq_or_ne b bucket with rfl | hb'
    · exact ⟨index.touchedCount, Nat.lt_succ_self _, by simp⟩
    · rw [Function.update_of_ne hb'] at hb
      obtain ⟨i, hi, htouched⟩ := h.covers b hb
      exact ⟨i, Nat.lt_succ_of_lt hi, (hold i hi).trans htouched⟩

theorem pushPair_spec { annotation : EnumAnnotation} (linked : Linked index stream row)
    (touched : Touched index) (hrow : stream.annotations[row]? = some annotation)
    (room : row < annotationPairCapacity) :
    ∃ index', pushPair index row annotation = some index' ∧
      Linked index' stream (row + 1) ∧ Touched index' ∧ SameKey index index' := by
  have hbucket : stream.bucket row = annotationPairBucket annotation.owner annotation.name := by
    rw [Stream.bucket, hrow]
    rfl
  have hlt := annotationPairBucket_lt annotation.owner annotation.name
  have hsmall : u32 (row + 1) = row + 1 :=
    u32_eq (by simp only [annotationPairCapacity] at room; omega)
  have hsmall' : u32 (stream.bucket row) = stream.bucket row :=
    u32_eq (by simp only [hbucket, annotationPairBuckets] at hlt ⊢; omega)
  rw [pushPair]
  rw [← hbucket] at hlt ⊢
  simp only [Table.write_eq room, Table.read_eq hlt, bind_eq_bind, bind_some]
  cases hfirst : decide (index.heads (stream.bucket row) = 0) with
  | true =>
    rw [decide_eq_true_eq] at hfirst
    have hroom := touched.room hlt hfirst
    rw [if_neg (not_not.mpr hfirst)]
    simp only [Table.write_eq hroom, Table.write_eq hlt, bind_some, pure_def, hsmall,
      hsmall']
    refine ⟨_, rfl, ?_, ?_, ⟨rfl, rfl, rfl, rfl, rfl⟩⟩
    · refine Chained.append linked (fun k => ?_) (fun k => ?_) (fun i _ => ?_)
      · rcases eq_or_ne k (stream.bucket row) with rfl | hk
        · simp [row?, hfirst]
        · simp [hk]
      · rcases eq_or_ne k (stream.bucket row) with rfl | hk
        · simp [row?]
        · simp [hk]
      · rcases eq_or_ne i row with rfl | hi
        · simp [row?]
        · simp [hi, hfirst]
    · exact touched.open_bucket hlt hfirst
  | false =>
    rw [decide_eq_false_iff_not] at hfirst
    obtain ⟨last, hlast⟩ := linked.tail_of_head hfirst
    have hlastRow : last < row :=
      (Chained.tail_eq_some linked (by rw [if_neg hfirst, hlast]; rfl)).1
    rw [if_pos hfirst]
    simp only [hlast, Nat.succ_ne_zero, if_false, Nat.add_sub_cancel, bind_some,
      Table.write_eq (Nat.lt_trans hlastRow room), Table.write_eq hlt, pure_def, hsmall]
    refine ⟨_, rfl, ?_, ⟨touched.bound, touched.distinct, touched.used, touched.covers⟩,
      ⟨rfl, rfl, rfl, rfl, rfl⟩⟩
    refine Chained.append linked (fun k => ?_) (fun k => ?_) (fun i _ => ?_)
    · rcases eq_or_ne k (stream.bucket row) with rfl | hk
      · simp [hfirst, hlast, row?]
      · simp [hk]
    · rcases eq_or_ne k (stream.bucket row) with rfl | hk
      · simp [hfirst, row?]
      · simp [hk]
    rcases eq_or_ne i row with rfl | hi
    · simp [row?, Function.update_of_ne (Nat.ne_of_gt hlastRow)]
    · rcases eq_or_ne i last with rfl | hi'
      · simp [row?, hfirst, hlast, hi]
      · simp [row?, hfirst, hlast, hi, hi', Ne.symm hi']

theorem pushPairs_spec (fits : stream.count ≤ annotationPairCapacity) {rest : List EnumAnnotation}
    (hrest : stream.annotations.drop row = rest) (hrow : row ≤ stream.count)
    (linked : Linked index stream row) (touched : Touched index) :
    ∃ index', pushPairs index row rest = some index' ∧ Linked index' stream stream.count ∧
      Touched index' ∧ SameKey index index' := by
  induction rest generalizing row index with
  | nil =>
    have hend : row = stream.count := by
      have := List.drop_eq_nil_iff.mp hrest
      exact Nat.le_antisymm hrow this
    exact ⟨index, rfl, hend ▸ linked, touched, rfl, rfl, rfl, rfl, rfl⟩
  | cons annotation rest ih =>
    have hget : stream.annotations[row]? = some annotation := by
      rw [← List.head?_drop, hrest]
      rfl
    have hlt : row < stream.count := (List.getElem?_eq_some_iff.mp hget).1
    obtain ⟨index', hpush, linked', touched', hb, hr, hf, hl, hs⟩ :=
      pushPair_spec linked touched hget (Nat.lt_of_lt_of_le hlt fits)
    have hrest' : stream.annotations.drop (row + 1) = rest := by
      rw [← List.tail_drop, hrest]
      rfl
    obtain ⟨index'', hpushes, linked'', touched'', hb', hr', hf', hl', hs'⟩ :=
      ih hrest' hlt linked' touched'
    refine ⟨index'', ?_, linked'', touched'', hb'.trans hb, hr'.trans hr, hf'.trans hf,
      hl'.trans hl, hs'.trans hs⟩
    rw [pushPairs, hpush]
    exact hpushes

/-! ## The cache -/

/-- What tells a stream from others. -/
def Stream.key (stream : Stream) : Nat × Nat × Option Nat × Option Nat :=
  (stream.base, stream.count, stream.annotations.head?.map EnumAnnotation.line,
    stream.annotations.getLast?.map EnumAnnotation.line)

/-- Among some streams, the key identifies the contents. -/
def Identifies (known : Stream → Prop) : Prop :=
  ∀ s t, known s → known t → s.key = t.key → s.annotations = t.annotations

def PairIndex.key (index : PairIndex) : Nat × Nat × Option Nat × Option Nat :=
  (index.base, index.rows, some index.firstLine, some index.lastLine)

/-- While the tables are in use they chain a known stream, or note that it did not fit. -/
structure Valid (known : Stream → Prop) (index : PairIndex) : Prop where
  touched : Touched index
  chains : index.state = 1 → ∃ stream, known stream ∧ stream.key = index.key ∧
    stream.count ≤ annotationPairCapacity ∧ Linked index stream stream.count

variable {known : Stream → Prop}

theorem valid_initial : Valid known .initial where
  touched := ⟨nofun, nofun, nofun, fun _ h => absurd rfl h⟩
  chains := nofun

theorem Valid.invalidate (h : Valid known index) :
    Valid known (annotationPairCacheInvalidate index) where
  touched := ⟨h.touched.bound, h.touched.distinct, h.touched.used, h.touched.covers⟩
  chains := nofun

theorem annotationPairsReady_spec (valid : Valid known index) (hknown : known stream)
    (identifies : Identifies known) :
    ∃ ready index', annotationPairsReady index stream = some (ready, index') ∧ Valid known index' ∧
      (ready = true → stream.count ≤ annotationPairCapacity ∧
        Linked index' stream stream.count) := by
  rw [annotationPairsReady]
  cases hempty : decide (stream.count = 0) with
  | true =>
    rw [if_pos (of_decide_eq_true hempty)]
    exact ⟨false, index, rfl, valid, nofun⟩
  | false =>
    have hpos : 0 < stream.count := Nat.pos_of_ne_zero (of_decide_eq_false hempty)
    obtain ⟨first, hfirst⟩ : ∃ first, stream.annotations[0]? = some first :=
      ⟨_, List.getElem?_eq_getElem hpos⟩
    obtain ⟨last, hlast⟩ : ∃ last, stream.annotations[stream.count - 1]? = some last :=
      ⟨_, List.getElem?_eq_getElem (Nat.sub_lt hpos Nat.one_pos)⟩
    have hkey : stream.key = (stream.base, stream.count, some first.line, some last.line) := by
      rw [Stream.key, List.head?_eq_getElem?, hfirst, List.getLast?_eq_getElem?,
        show stream.annotations.length - 1 = stream.count - 1 from rfl, hlast]
      rfl
    rw [if_neg (of_decide_eq_false hempty)]
    simp only [hfirst, hlast, bind_eq_bind, bind_some]
    split
    next hsame =>
      obtain ⟨hb, hr, hf, hl, -⟩ := hsame
      refine ⟨_, index, rfl, valid, fun hready => ?_⟩
      obtain ⟨other, hother, hotherKey, fits, linked⟩ := valid.chains (by simpa using hready)
      have hsameKey : stream.key = other.key := by
        rw [hkey, hotherKey, PairIndex.key, hb, hr, hf, hl]
      have hsame := identifies stream other hknown hother hsameKey
      have hcount : stream.count = other.count := congrArg List.length hsame
      exact ⟨hcount ▸ fits, hcount ▸ linked.congr hsame⟩
    split
    next =>
      refine ⟨false, _, rfl, ⟨?_, nofun⟩, nofun⟩
      exact ⟨valid.touched.bound, valid.touched.distinct, valid.touched.used,
        valid.touched.covers⟩
    rename_i hfits
    have fits : stream.count ≤ annotationPairCapacity := Nat.le_of_not_gt hfits
    have hclear := clearTouched_eq (show Touched { index with
      base := stream.base, rows := stream.count, firstLine := first.line,
      lastLine := last.line, state := 0 } from
      ⟨valid.touched.bound, valid.touched.distinct, valid.touched.used, valid.touched.covers⟩)
    obtain ⟨index', hpushes, linked, touched, hb, hr, hf, hl, -⟩ := pushPairs_spec fits
      (List.drop_zero (l := stream.annotations)) (Nat.zero_le _)
      (Chained.nil (fun _ => rfl) fun _ => rfl)
      (show Touched { index with
        base := stream.base, rows := stream.count, firstLine := first.line,
        lastLine := last.line, state := 0, heads := fun _ => 0, touchedCount := 0 } from
        ⟨nofun, nofun, nofun, fun _ h => absurd rfl h⟩)
    have hkey' : stream.key = index'.key := by rw [hkey, PairIndex.key, hb, hr, hf, hl]
    rw [hclear, bind_some, hpushes]
    refine ⟨true, _, rfl, ⟨?_, fun _ => ⟨stream, hknown, hkey', fits, linked⟩⟩,
      fun _ => ⟨fits, linked⟩⟩
    exact ⟨touched.bound, touched.distinct, touched.used, touched.covers⟩

/-! ## Answers -/

/-- A scan starts at a row and takes the first one of the pair. -/
def Stream.hasPair (stream : Stream) (owner name : Bytes) (row : Nat) : Bool :=
  (stream.annotations[row]?).any ( EnumAnnotation.isPair owner name)

def answerOf : Option Nat → Int
  | some row => row
  | none => -1

theorem scanFind_eq (stream : Stream) (owner name : Bytes) (start : Nat) :
    scanFind stream owner name start =
      answerOf (rowsFrom (stream.hasPair owner name) start stream.count).head? := by
  induction h : stream.count - start generalizing start with
  | zero =>
    have hend : stream.annotations.length ≤ start := by rw [Stream.count] at h; omega
    rw [scanFind, List.drop_eq_nil_of_le hend, rowsFrom_of_le (by omega)]
    rfl
  | succ rest ih =>
    have hlt : start < stream.annotations.length := by rw [Stream.count] at h; omega
    have hnext := ih (start + 1) (by omega)
    have hpair : stream.hasPair owner name start =
        stream.annotations[start].isPair owner name := by
      rw [Stream.hasPair, List.getElem?_eq_getElem hlt]
      rfl
    rw [scanFind] at hnext ⊢
    rw [rowsFrom_of_lt (n := stream.count) hlt, hpair, List.drop_eq_getElem_cons hlt,
      List.findIdx?_cons]
    cases hown : stream.annotations[start].isPair owner name with
    | true => rfl
    | false =>
      rw [if_neg (by simp), if_neg (by simp), ← hnext]
      cases (stream.annotations.drop (start + 1)).findIdx? ( EnumAnnotation.isPair owner name) with
      | none => rfl
      | some offset =>
        simp only [map_some]
        omega

theorem bucket_of_hasPair {owner name : Bytes} (h : stream.hasPair owner name row = true) :
    stream.bucket row = annotationPairBucket owner name := by
  rw [Stream.hasPair, any_eq_true] at h
  obtain ⟨ annotation, hrow, hpair⟩ := h
  rw [ EnumAnnotation.isPair, Bool.and_eq_true, beq_iff_eq, beq_iff_eq] at hpair
  rw [Stream.bucket, hrow, elim_some, hpair.1, hpair.2]

theorem chainFind_spec (linked : Linked index stream stream.count)
    (fits : stream.count ≤ annotationPairCapacity) (owner name : Bytes) {fuel cursor start : Nat}
    (enough : stream.count - start ≤ fuel)
    (hcursor : row? cursor = (rowsFrom (fun row =>
      decide (stream.bucket row = annotationPairBucket owner name)) start stream.count).head?) :
    chainFind index stream owner name fuel cursor =
      some (answerOf (rowsFrom (stream.hasPair owner name) start stream.count).head?) := by
  induction fuel generalizing cursor start with
  | zero =>
    rw [rowsFrom_of_le (by omega)] at hcursor
    rw [row?_eq_none.mp hcursor, rowsFrom_of_le (by omega)]
    rfl
  | succ fuel ih =>
    rw [head_of_bucket fun i _ h => decide_eq_true (bucket_of_hasPair h), ← hcursor]
    cases cursor with
    | zero => rfl
    | succ row =>
      obtain ⟨rest, hrows⟩ := List.head?_eq_some_iff.mp hcursor.symm
      obtain ⟨⟨hstart, hlt⟩, hbucket, -, -⟩ := rowsFrom_eq_cons hrows
      rw [decide_eq_true_eq] at hbucket
      have hget : stream.annotations[row]? = some (stream.annotations[row]) :=
        List.getElem?_eq_getElem hlt
      have hpair : stream.hasPair owner name row =
          (stream.annotations[row]).isPair owner name := by
        rw [Stream.hasPair, hget]
        rfl
      rw [chainFind, hget]
      simp only [bind_eq_bind, bind_some, row?, hpair]
      split
      next => rfl
      rw [Table.read_eq (Nat.lt_of_lt_of_le hlt fits), bind_some]
      have hnext := linked.next row hlt
      rw [hbucket] at hnext
      exact ih (by omega) hnext

/-- A search starts at the first row, or behind a row of the stream that stands in the bucket of the
pair: behind an earlier answer. -/
def Continues (stream : Stream) (owner name : Bytes) (fromRow : Int) : Prop :=
  fromRow < 0 ∨ ∃ row : Nat, fromRow = row ∧ row < stream.count ∧
    stream.bucket row = annotationPairBucket owner name

theorem annotationPairFind_spec (valid : Valid known index) (hknown : known stream)
    (identifies : Identifies known) {owner name : Bytes} {fromRow : Int}
    (continues : Continues stream owner name fromRow) :
    ∃ index', annotationPairFind index stream owner name fromRow =
      some (scanFind stream owner name (startOf fromRow), index') ∧ Valid known index' := by
  obtain ⟨ready, index', hready, valid', hlinked⟩ :=
    annotationPairsReady_spec valid hknown identifies
  refine ⟨index', ?_, valid'⟩
  rw [annotationPairFind, hready]
  simp only [bind_eq_bind, bind_some]
  cases ready with
  | false => rfl
  | true =>
    obtain ⟨fits, linked⟩ := hlinked rfl
    rw [if_pos rfl, scanFind_eq]
    rcases continues with hneg | ⟨row, rfl, hlt, hbucket⟩
    · rw [if_pos hneg, startOf, if_pos hneg, Table.read_eq (annotationPairBucket_lt owner name),
        bind_some, chainFind_spec linked fits owner name (Nat.sub_le _ 0)
          (linked.head (annotationPairBucket owner name))]
      rfl
    have hnonneg : ¬ (row : Int) < 0 := by omega
    have hnext := linked.next row hlt
    rw [hbucket] at hnext
    rw [if_neg hnonneg, startOf, if_neg hnonneg, Int.toNat_natCast,
      Table.read_eq (Nat.lt_of_lt_of_le hlt fits), bind_some,
      chainFind_spec linked fits owner name (Nat.sub_le _ _) hnext]
    rfl

/-! ## Lookups -/

/-- The loop of a caller over the rows of a pair, from a row on: whether one of them passes its
test. It asks for the next row from the one at hand. -/
def pairLoop (accepts : EnumAnnotation → Bool) (stream : Stream) (owner name : Bytes) :
    Nat → Int → PairIndex → Option (Bool × PairIndex)
  | 0, _, _ => none
  | fuel + 1, row, index =>
    if row < 0 then some (false, index)
    else do
      let annotation ← stream.annotations[row.toNat]?
      if accepts annotation then return (true, index)
      let (row, index) ← annotationPairFind index stream owner name row
      pairLoop accepts stream owner name fuel row index

def anyPair (accepts : EnumAnnotation → Bool) (index : PairIndex) (stream : Stream)
    (owner name : Bytes) : Option (Bool × PairIndex) := do
  let (row, index) ← annotationPairFind index stream owner name (-1)
  pairLoop accepts stream owner name (stream.count + 1) row index

def externReturnIsPointer (index : PairIndex) (stream : Stream) (externName : Bytes)
    (externOffset : Nat) : Option (Bool × PairIndex) :=
  anyPair (fun annotation => annotation.offset == externOffset) index stream
    (ascii "__extern_return_ptr") externName

def externReturnIsOptional (index : PairIndex) (stream : Stream) (externName : Bytes)
    (externOffset : Nat) : Option (Bool × PairIndex) :=
  anyPair (fun annotation => annotation.offset == externOffset) index stream
    (ascii "__extern_return_optional") externName

def externReturnOptionalAtLine (index : PairIndex) (stream : Stream) (externName : Bytes)
    (line offset : Nat) : Option (Bool × PairIndex) :=
  anyPair (fun annotation => annotation.line == line && annotation.offset == offset) index stream
    (ascii "__extern_return_optional") externName

def declarationIsGeneratedTypestate (index : PairIndex) (stream : Stream) (name : Bytes)
    (line offset : Nat) : Option (Bool × PairIndex) :=
  anyPair (fun annotation => annotation.line == line && annotation.offset == offset) index stream
    name (ascii "__typestate_generated")

theorem pairLoop_spec (identifies : Identifies known) (hknown : known stream)
    (accepts : EnumAnnotation → Bool) (owner name : Bytes) {fuel start : Nat}
    (valid : Valid known index) (enough : stream.count - start < fuel) :
    ∃ index', pairLoop accepts stream owner name fuel
        (answerOf (rowsFrom (stream.hasPair owner name) start stream.count).head?) index =
      some ((rowsFrom (stream.hasPair owner name) start stream.count).any fun row =>
        (stream.annotations[row]?).any accepts, index') ∧ Valid known index' := by
  induction fuel generalizing start index with
  | zero => exact absurd enough (Nat.not_lt_zero _)
  | succ fuel ih =>
    cases hrows : rowsFrom (stream.hasPair owner name) start stream.count with
    | nil => exact ⟨index, rfl, valid⟩
    | cons row rest =>
      obtain ⟨⟨hstart, hlt⟩, hpair, hrest, -⟩ := rowsFrom_eq_cons hrows
      have hget : stream.annotations[row]? = some (stream.annotations[row]) :=
        List.getElem?_eq_getElem hlt
      have hnonneg : ¬ (row : Int) < 0 := by omega
      rw [List.head?_cons, answerOf, pairLoop, if_neg hnonneg, Int.toNat_natCast, List.any_cons,
        hget]
      simp only [bind_eq_bind, bind_some, any_some]
      split
      next haccepts => exact ⟨index, by rw [haccepts]; rfl, valid⟩
      rename_i haccepts
      obtain ⟨index', hfind, valid'⟩ := annotationPairFind_spec valid hknown identifies
        (.inr ⟨row, rfl, hlt, bucket_of_hasPair hpair⟩)
      obtain ⟨index'', hloop, valid''⟩ := 
        ih valid' (show stream.count - (row + 1) < fuel by omega)
      refine ⟨index'', ?_, valid''⟩
      rw [hfind, bind_some, Bool.eq_false_of_not_eq_true haccepts, Bool.false_or, hrest,
        ← hloop, scanFind_eq, startOf, if_neg hnonneg]
      rfl

theorem anyPair_spec (identifies : Identifies known) (hknown : known stream)
    (accepts : EnumAnnotation → Bool) (owner name : Bytes) (valid : Valid known index) :
    ∃ index', anyPair accepts index stream owner name =
      some ((rowsFrom (stream.hasPair owner name) 0 stream.count).any fun row =>
        (stream.annotations[row]?).any accepts, index') ∧ Valid known index' := by
  obtain ⟨index', hfind, valid'⟩ := annotationPairFind_spec valid hknown identifies
    (show Continues stream owner name (-1) from .inl (by decide))
  rw [anyPair, hfind, scanFind_eq]
  exact pairLoop_spec identifies hknown accepts owner name valid'
    (Nat.lt_succ_of_le (Nat.sub_le _ 0))

/-! ## Runs of requests -/

def Presented (requests : List Request) (stream : Stream) : Prop :=
  ∃ owner name fromRow, .find stream owner name fromRow ∈ requests

def AllContinue (requests : List Request) : Prop :=
  ∀ stream owner name fromRow, .find stream owner name fromRow ∈ requests →
    Continues stream owner name fromRow

theorem runRequests_valid (valid : Valid known index) (identifies : Identifies known)
    {requests : List Request} (hknown : ∀ stream, Presented requests stream → known stream)
    (continues : AllContinue requests) :
    runRequests index requests = some (scanRequests requests) := by
  induction requests generalizing index with
  | nil => rfl
  | cons request rest ih =>
    have hknown' : ∀ stream, Presented rest stream → known stream :=
      fun stream ⟨owner, name, fromRow, hmem⟩ => hknown stream ⟨owner, name, fromRow, .tail _ hmem⟩
    have continues' : AllContinue rest :=
      fun stream owner name fromRow hmem => continues stream owner name fromRow (.tail _ hmem)
    cases request with
    | invalidate => exact ih valid.invalidate hknown' continues'
    | find stream owner name fromRow =>
      obtain ⟨index', hfind, valid'⟩ := annotationPairFind_spec valid
        (hknown stream ⟨owner, name, fromRow, .head _⟩) identifies
        (continues stream owner name fromRow (.head _))
      rw [runRequests, hfind]
      simp only [bind_eq_bind, bind_some]
      rw [ih valid' hknown' continues']
      rfl

/-- In every run of lookups and invalidations in which the key of a stream identifies its contents
and each lookup goes on from -1 or from the answer before it, the answers are those of scans. -/
theorem runRequests_answers {requests : List Request}
    (identifies : Identifies (Presented requests)) (continues : AllContinue requests) :
    runRequests .initial requests = some (scanRequests requests) :=
  runRequests_valid valid_initial identifies (fun _ h => h) continues

/-- A lookup that goes on behind its answer, in a stream that is presented again after another one
and an invalidation. -/
theorem runRequests_again :
    let first : Stream := ⟨8, [⟨[97], [98], 1, 0⟩, ⟨[99], [98], 2, 0⟩, ⟨[97], [98], 3, 0⟩]⟩
    let second : Stream := ⟨8, [⟨[99], [98], 1, 0⟩]⟩
    let requests : List Request := [.find first [97] [98] (-1), .find second [97] [98] (-1),
      .invalidate, .find first [97] [98] 0, .find first [97] [98] 2]
    runRequests .initial requests = some (scanRequests requests) ∧
      scanRequests requests = [0, -1, 2, -1] := by
  intro first second requests
  refine ⟨runRequests_answers ?_ ?_, by decide⟩
  · rintro s t ⟨_, _, _, hs⟩ ⟨_, _, _, ht⟩ hkey
    simp only [requests, List.mem_cons, Request.find.injEq, reduceCtorEq, false_or,
      List.not_mem_nil, or_false] at hs ht
    rcases hs with ⟨rfl, -⟩ | ⟨rfl, -⟩ | ⟨rfl, -⟩ | ⟨rfl, -⟩ <;>
      rcases ht with ⟨rfl, -⟩ | ⟨rfl, -⟩ | ⟨rfl, -⟩ | ⟨rfl, -⟩ <;>
      first | rfl | exact absurd hkey (by decide)
  · intro stream owner name fromRow hmem
    simp only [requests, List.mem_cons, Request.find.injEq, reduceCtorEq, false_or,
      List.not_mem_nil, or_false] at hmem
    rcases hmem with ⟨rfl, rfl, rfl, rfl⟩ | ⟨rfl, rfl, rfl, rfl⟩ | ⟨rfl, rfl, rfl, rfl⟩ |
      ⟨rfl, rfl, rfl, rfl⟩
    · exact .inl (by decide)
    · exact .inl (by decide)
    · exact .inr ⟨0, rfl, by decide, bucket_of_hasPair rfl⟩
    · exact .inr ⟨2, rfl, by decide, bucket_of_hasPair rfl⟩

/-! ## What is asked about declarations -/

theorem any_rowsFrom (accepts : EnumAnnotation → Bool) (stream : Stream) (owner name : Bytes) :
    ((rowsFrom (stream.hasPair owner name) 0 stream.count).any fun row =>
      (stream.annotations[row]?).any accepts) =
        stream.annotations.any fun a => a.owner == owner && a.name == name && accepts a := by
  rw [Bool.eq_iff_iff, List.any_eq_true, List.any_eq_true]
  constructor
  · rintro ⟨row, mem, found⟩
    obtain ⟨⟨-, lt⟩, pair⟩ := mem_rowsFrom.1 mem
    rw [Stream.hasPair, List.getElem?_eq_getElem lt] at pair
    rw [List.getElem?_eq_getElem lt] at found
    exact ⟨_, List.getElem_mem lt, Bool.and_eq_true_iff.2 ⟨pair, found⟩⟩
  · rintro ⟨a, mem, found⟩
    obtain ⟨row, lt, rfl⟩ := List.mem_iff_getElem.1 mem
    obtain ⟨pair, accepted⟩ := Bool.and_eq_true_iff.1 found
    have get := List.getElem?_eq_getElem lt
    refine ⟨row, mem_rowsFrom.2 ⟨⟨Nat.zero_le row, lt⟩, ?_⟩, ?_⟩
    · rw [Stream.hasPair, get]
      exact pair
    · rw [get]
      exact accepted

inductive Question where
  | returnIsPointer (stream : Stream) (externName : Bytes) (externOffset : Nat)
  | returnIsOptional (stream : Stream) (externName : Bytes) (externOffset : Nat)
  | returnOptionalAtLine (stream : Stream) (externName : Bytes) (line offset : Nat)
  | isGeneratedTypestate (stream : Stream) (name : Bytes) (line offset : Nat)

namespace Question

def ask (index : PairIndex) : Question → Option (Bool × PairIndex)
  | returnIsPointer stream externName externOffset =>
    externReturnIsPointer index stream externName externOffset
  | returnIsOptional stream externName externOffset =>
    externReturnIsOptional index stream externName externOffset
  | returnOptionalAtLine stream externName line offset =>
    externReturnOptionalAtLine index stream externName line offset
  | isGeneratedTypestate stream name line offset =>
    declarationIsGeneratedTypestate index stream name line offset

def asked : Question → Stream
  | returnIsPointer stream .. => stream
  | returnIsOptional stream .. => stream
  | returnOptionalAtLine stream .. => stream
  | isGeneratedTypestate stream .. => stream

def asksFor : Question → EnumAnnotation → Bool
  | returnIsPointer _ externName externOffset, a =>
    a.owner == ascii "__extern_return_ptr" && a.name == externName && a.offset == externOffset
  | returnIsOptional _ externName externOffset, a =>
    a.owner == ascii "__extern_return_optional" && a.name == externName && a.offset == externOffset
  | returnOptionalAtLine _ externName line offset, a =>
    a.owner == ascii "__extern_return_optional" && a.name == externName &&
      (a.line == line && a.offset == offset)
  | isGeneratedTypestate _ name line offset, a =>
    a.owner == name && a.name == ascii "__typestate_generated" &&
      (a.line == line && a.offset == offset)

def askAll : PairIndex → List Question → Option (List Bool)
  | _, [] => some []
  | index, question :: rest => do
    let (answer, index) ← question.ask index
    let answers ← askAll index rest
    return answer :: answers

theorem ask_spec (question : Question) (identifies : Identifies known)
    (hknown : known question.asked)
    (valid : Valid known index) : ∃ index', question.ask index =
      some (question.asked.annotations.any question.asksFor, index') ∧ Valid known index' := by
  cases question with
  | returnIsPointer stream externName externOffset =>
    exact any_rowsFrom _ stream _ externName ▸ anyPair_spec identifies hknown _ _ externName valid
  | returnIsOptional stream externName externOffset =>
    exact any_rowsFrom _ stream _ externName ▸ anyPair_spec identifies hknown _ _ externName valid
  | returnOptionalAtLine stream externName line offset =>
    exact any_rowsFrom _ stream _ externName ▸ anyPair_spec identifies hknown _ _ externName valid
  | isGeneratedTypestate stream name line offset =>
    exact any_rowsFrom _ stream name _ ▸ anyPair_spec identifies hknown _ name _ valid

theorem askAll_valid {questions : List Question} (valid : Valid known index)
    (identifies : Identifies known) (hknown : ∀ question ∈ questions, known question.asked) :
    askAll index questions =
      some (questions.map fun question => question.asked.annotations.any question.asksFor) := by
  induction questions generalizing index with
  | nil => rfl
  | cons question rest ih =>
    obtain ⟨index', answer, valid'⟩ :=
      question.ask_spec identifies (hknown question (.head _)) valid
    rw [askAll, answer]
    simp only [bind_eq_bind, bind_some]
    rw [ih valid' fun other mem => hknown other (.tail _ mem)]
    rfl

/-- Whatever is asked from the start of the program, about declarations of any units in any order,
is answered as by looking at all annotations of the unit. -/
theorem askAll_answers {questions : List Question}
    (identifies : Identifies fun unit => ∃ question ∈ questions, question.asked = unit) :
    askAll .initial questions =
      some (questions.map fun question => question.asked.annotations.any question.asksFor) :=
  askAll_valid valid_initial identifies fun question mem => ⟨question, mem, rfl⟩

def pointerUnit : Stream :=
  ⟨8, [⟨ascii "__extern_return_ptr", [102], 1, 5⟩, ⟨ascii "__extern_return_ptr", [102], 2, 6⟩]⟩

def typestateUnit : Stream := ⟨8, [⟨[103], ascii "__typestate_generated", 3, 7⟩]⟩

/-- Two units in turn, the first with two rows of one pair. -/
theorem askAll_answers_twice :
    askAll .initial [.returnIsPointer pointerUnit [102] 6,
      .isGeneratedTypestate typestateUnit [103] 3 7, .returnIsPointer pointerUnit [102] 7] =
        some [true, true, false] := by
  refine (askAll_answers ?_).trans (by decide)
  rintro s t ⟨first, hs, rfl⟩ ⟨second, ht, rfl⟩ hkey
  simp only [List.mem_cons, List.not_mem_nil, or_false] at hs ht
  rcases hs with rfl | rfl | rfl <;> rcases ht with rfl | rfl | rfl <;>
    first | rfl | exact absurd hkey (by decide)

end Question

end Elisa.Backend.AnnotationPairs
