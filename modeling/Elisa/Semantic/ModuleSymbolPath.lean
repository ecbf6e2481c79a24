import Elisa.Bytes
import Elisa.Lib.Outcome

/-!
# Matching module paths

A path of segments names a symbol from the root, or relative to a module that encloses the place
where it stands. `SemanticModuleSymbolPathMatcher` (`module_symbol_path_matcher.elisa`) compares
such a path with the full name of a candidate without writing it out: `absolute` behind one module,
and `relative` behind any ancestor of the enclosing one, whose length it computes.

A read or an unsigned operation that leaves the text or the 64 bits is a fault, and an early `return
false` is a requirement that is not met.
-/

namespace Elisa.Semantic.ModuleSymbolPath

open Outcome List

/-! ## Checked views -/

/-- A view into a text; its length is a machine word. -/
structure SView where
  text : Bytes
  small : text.length < 2 ^ 64

def SView.len (view : SView) : Nat := view.text.length

def SView.read (view : SView) (index : Nat) : Outcome UInt8 :=
  match view.text[index]? with
  | some byte => ok byte
  | none => fault .outOfBounds

def add (a b : Nat) : Outcome Nat := if a + b < 2 ^ 64 then ok (a + b) else fault .overflow

def sub (a b : Nat) : Outcome Nat := if b ≤ a then ok (a - b) else fault .overflow

theorem sub_eq {a b : Nat} (h : b ≤ a) : sub a b = ok (a - b) := if_pos h

theorem SView.add_eq (view : SView) {a b : Nat} (h : a + b ≤ view.len) : add a b = ok (a + b) :=
  if_pos (Nat.lt_of_le_of_lt h view.small)

theorem SView.read_eq (view : SView) {index : Nat} (h : index < view.len) :
    view.read index = ok (view.text[index]) := by
  simp [SView.read, show view.text[index]? = _ from getElem?_eq_getElem h]

/-! ## The matcher -/

def separator : Bytes := [58, 58]

def matchText (candidate : SView) : Bytes → Nat → Outcome Nat
  | [], cursor => ok cursor
  | byte :: rest, cursor => do
    require (decide (cursor < candidate.len))
    let own ← candidate.read cursor
    require (own == byte)
    let cursor ← add cursor 1
    matchText candidate rest cursor

def matchSeparator (candidate : SView) (cursor : Nat) : Outcome Nat := do
  require (decide (cursor ≤ candidate.len))
  let left ← sub candidate.len cursor
  require (decide (2 ≤ left))
  let first ← candidate.read cursor
  require (first == 58)
  let next ← add cursor 1
  let second ← candidate.read next
  require (second == 58)
  add cursor 2

/-- The segments stand at the cursor, with colons before all but the first. -/
def matchSegments (candidate : SView) : Bool → List SView → Nat → Outcome Nat
  | _, [], cursor => ok cursor
  | isFirst, segment :: rest, cursor => do
    let cursor ← if isFirst then ok cursor else matchSeparator candidate cursor
    let cursor ← matchText candidate segment.text cursor
    matchSegments candidate false rest cursor

def answer (result : Outcome Bool) : Outcome Bool :=
  match result with
  | invalid => ok false
  | result => result

def absolute (candidate leading : SView) (names : List SView) (first count : Nat) : Outcome Bool :=
  answer do
    require (!(decide (first > count) || decide (count > names.length)))
    let cursor ←
      if leading.len > 0 then do
        let cursor ← matchText candidate leading.text 0
        matchSeparator candidate cursor
      else ok 0
    let cursor ← matchSegments candidate true ((names.take count).drop first) cursor
    return cursor == candidate.len

/-- The length of the segments with their colons, if it fits into the candidate. -/
def pathLength (length : Nat) : List SView → Nat → Outcome Nat
  | [], total => ok total
  | segment :: rest, total => do
    require (decide (total ≤ length))
    let left ← sub length total
    require (decide (segment.len ≤ left))
    let total ← add total segment.len
    if rest = [] then ok total
    else do
      let left ← sub length total
      require (decide (2 ≤ left))
      let total ← add total 2
      pathLength length rest total

def sameBytes (candidate enclosing : SView) : Nat → Nat → Outcome Unit
  | 0, _ => ok ()
  | count + 1, offset => do
    let own ← candidate.read offset
    let other ← enclosing.read offset
    require (own == other)
    sameBytes candidate enclosing count (offset + 1)

/-- Colons in a view, read without a look at its length. -/
def colonsAt (view : SView) (index : Nat) : Outcome Unit := do
  let first ← view.read index
  require (first == 58)
  let next ← add index 1
  let second ← view.read next
  require (second == 58)

def boundary (enclosing : SView) (length : Nat) : Outcome Unit :=
  if enclosing.len > length then do
    let left ← sub enclosing.len length
    require (decide (2 ≤ left))
    colonsAt enclosing length
  else ok ()

def relative (candidate enclosing : SView) (names : List SView) (count : Nat) : Outcome Bool :=
  answer do
    require (!(count == 0 || decide (count > names.length)))
    require (decide (3 ≤ candidate.len))
    let path ← pathLength candidate.len (names.take count) 0
    let most ← sub candidate.len 3
    require (decide (path ≤ most))
    let rest ← sub candidate.len path
    let ancestor ← sub rest 2
    colonsAt candidate ancestor
    require (decide (ancestor ≤ enclosing.len))
    boundary enclosing ancestor
    sameBytes candidate enclosing ancestor 0
    let cursor ← add ancestor 2
    let cursor ← matchSegments candidate true (names.take count) cursor
    return cursor == candidate.len

/-! ## What is matched -/

section
variable {candidate view enclosing leading : SView} {cursor : Nat} {text : Bytes}

theorem matchText_eq (within : cursor ≤ candidate.len) :
    matchText candidate text cursor =
      if text <+: candidate.text.drop cursor then ok (cursor + text.length) else invalid := by
  induction text generalizing cursor with
  | nil => simp [matchText]
  | cons byte rest ih =>
    unfold matchText
    by_cases inside : cursor < candidate.len
    · have starts : byte :: rest <+: candidate.text.drop cursor ↔
          candidate.text[cursor] = byte ∧ rest <+: candidate.text.drop (cursor + 1) := by
        rw [drop_eq_getElem_cons inside, cons_prefix_cons, eq_comm]
      rw [decide_eq_true inside, require_true, ok_bind, candidate.read_eq inside, ok_bind,
        candidate.add_eq inside, ok_bind]
      by_cases same : candidate.text[cursor] = byte
      · rw [beq_iff_eq.2 same, require_true, ok_bind, ih inside]
        by_cases later : rest <+: candidate.text.drop (cursor + 1)
        · rw [if_pos later, if_pos (starts.2 ⟨same, later⟩), length_cons, Nat.succ_add]
          rfl
        · rw [if_neg later, if_neg fun h => later (starts.1 h).2]
      · rw [beq_eq_false_iff_ne.2 same, require_false, invalid_bind,
          if_neg fun h => same (starts.1 h).1]
    · have empty : candidate.text.drop cursor = [] :=
        drop_eq_nil_of_le (Nat.le_of_not_lt inside)
      rw [decide_eq_false inside, require_false, invalid_bind, empty]
      simp

theorem colonsAt_eq {index : Nat} (within : index + 2 ≤ view.len) :
    colonsAt view index = require (decide (separator <+: view.text.drop index)) := by
  have bound : index + 1 < view.text.length := within
  have shape : view.text.drop index = view.text[index] ::
      view.text[index + 1] :: view.text.drop (index + 2) := by
    rw [drop_eq_getElem_cons (Nat.lt_of_succ_lt within), drop_eq_getElem_cons within]
    rfl
  unfold colonsAt
  rw [view.read_eq (Nat.lt_of_succ_lt within), ok_bind, view.add_eq (Nat.le_of_succ_le within),
    ok_bind, view.read_eq within, ok_bind, require_bind_require, shape]
  congr 1
  rw [Bool.eq_iff_iff]
  simp only [separator, cons_prefix_cons, nil_prefix, and_true, Bool.and_eq_true,
    beq_iff_eq, decide_eq_true_iff]
  exact and_congr eq_comm eq_comm

theorem matchSeparator_eq (within : cursor ≤ candidate.len) :
    matchSeparator candidate cursor =
      if separator <+: candidate.text.drop cursor then ok (cursor + 2) else invalid := by
  unfold matchSeparator
  rw [decide_eq_true within, require_true, ok_bind, sub_eq within, ok_bind]
  by_cases two : cursor + 2 ≤ candidate.len
  · rw [decide_eq_true (by omega : 2 ≤ candidate.len - cursor), require_true, ok_bind]
    have after : (do
        let first ← candidate.read cursor
        require (first == 58)
        let next ← add cursor 1
        let second ← candidate.read next
        require (second == 58)
        add cursor 2) = (colonsAt candidate cursor >>= fun _ => add cursor 2) := by
      simp [colonsAt]
    rw [after, colonsAt_eq two, candidate.add_eq two]
    by_cases here : separator <+: candidate.text.drop cursor
    · simp [here]
    · simp [here]
  · have short : ¬separator <+: candidate.text.drop cursor := by
      intro here
      have length := here.length_le
      rw [length_drop] at length
      change 2 ≤ candidate.len - cursor at length
      omega
    rw [decide_eq_false (by omega : ¬2 ≤ candidate.len - cursor), require_false, invalid_bind,
      if_neg short]

/-! ### Segments -/

theorem append_prefix_drop {before after : Bytes} :
    before ++ after <+: candidate.text.drop cursor ↔
      before <+: candidate.text.drop cursor ∧
        after <+: candidate.text.drop (cursor + before.length) := by
  rw [← drop_drop]
  constructor
  · intro both
    have first : before <+: candidate.text.drop cursor := (prefix_append ..).trans both
    refine ⟨first, ?_⟩
    obtain ⟨rest, eq⟩ := first
    rw [← eq, prefix_append_right_inj] at both
    rwa [← eq, drop_left]
  · rintro ⟨⟨rest, eq⟩, later⟩
    rw [← eq, drop_left] at later
    rw [← eq]
    exact (prefix_append_right_inj before).2 later

theorem le_of_prefix_drop (within : cursor ≤ candidate.len)
    (here : text <+: candidate.text.drop cursor) : cursor + text.length ≤ candidate.len := by
  have length := here.length_le
  rw [length_drop] at length
  change _ ≤ candidate.len - cursor at length
  omega

def joined (segments : List SView) : Bytes := separator.intercalate (segments.map SView.text)

def behind (segments : List SView) : Bytes :=
  segments.flatMap fun segment => separator ++ segment.text

theorem joined_cons (segment : SView) (rest : List SView) :
    joined (segment :: rest) = segment.text ++ behind rest := by
  induction rest generalizing segment with
  | nil => simp [joined, behind]
  | cons next rest ih =>
    have more : joined (segment :: next :: rest) = segment.text ++
      (separator ++ joined (next :: rest)) := by
      simp [joined]
    rw [more, ih]
    simp [behind]

theorem matchSegments_behind (segments : List SView) {cursor : Nat}
    (within : cursor ≤ candidate.len) :
    matchSegments candidate false segments cursor =
      if behind segments <+: candidate.text.drop cursor then ok (cursor + (behind segments).length)
      else invalid := by
  induction segments generalizing cursor with
  | nil => simp [matchSegments, behind]
  | cons segment rest ih =>
    have text : behind (segment :: rest) = separator ++ (segment.text ++ behind rest) := by
      simp [behind]
    rw [matchSegments, if_neg Bool.false_ne_true, matchSeparator_eq within, text]
    by_cases colons : separator <+: candidate.text.drop cursor
    · have second : cursor + 2 ≤ candidate.len := le_of_prefix_drop within colons
      rw [if_pos colons, ok_bind]
      dsimp only
      rw [matchText_eq second]
      by_cases named : segment.text <+: candidate.text.drop (cursor + 2)
      · have third := le_of_prefix_drop second named
        rw [if_pos named, ok_bind, ih third]
        by_cases last : behind rest <+: candidate.text.drop (cursor + 2 + segment.text.length)
        · rw [if_pos last, if_pos
            (append_prefix_drop.2 ⟨colons, append_prefix_drop.2 ⟨named, last⟩⟩)]
          simp only [length_append, ok.injEq]
          change cursor + 2 + _ + _ = cursor + (2 + _)
          omega
        · rw [if_neg last, if_neg fun h => last (append_prefix_drop.1 (append_prefix_drop.1 h).2).2]
      · rw [if_neg named, invalid_bind,
          if_neg fun h => named (append_prefix_drop.1 (append_prefix_drop.1 h).2).1]
    · rw [if_neg colons, invalid_bind, if_neg fun h => colons (append_prefix_drop.1 h).1]

theorem matchSegments_eq (segments : List SView) (within : cursor ≤ candidate.len) :
    matchSegments candidate true segments cursor =
      if joined segments <+: candidate.text.drop cursor then ok (cursor + (joined segments).length)
      else invalid := by
  cases segments with
  | nil => simp [matchSegments, joined]
  | cons segment rest =>
    rw [matchSegments, if_pos rfl, ok_bind]
    dsimp only
    rw [matchText_eq within, joined_cons]
    by_cases named : segment.text <+: candidate.text.drop cursor
    · rw [if_pos named, ok_bind, matchSegments_behind rest (le_of_prefix_drop within named)]
      by_cases last : behind rest <+: candidate.text.drop (cursor + segment.text.length)
      · rw [if_pos last, if_pos (append_prefix_drop.2 ⟨named, last⟩), length_append, Nat.add_assoc]
      · rw [if_neg last, if_neg fun h => last (append_prefix_drop.1 h).2]
    · rw [if_neg named, invalid_bind, if_neg fun h => named (append_prefix_drop.1 h).1]

def Answers (result : Outcome Bool) (right : Prop) : Prop := ∃ b, result = ok b ∧ (b = true ↔ right)

theorem Answers.congr {result : Outcome Bool} {p q : Prop} (h : Answers result p) (iff : p ↔ q) :
    Answers result q := by
  obtain ⟨b, eq, right⟩ := h
  exact ⟨b, eq, right.trans iff⟩

theorem Answers.no {p : Prop} (h : ¬p) : Answers (answer invalid) p := ⟨false, rfl, by simp [h]⟩

theorem matchSegments_end (segments : List SView) (within : cursor ≤ candidate.len) :
    Answers (answer do
      let cursor ← matchSegments candidate true segments cursor
      return cursor == candidate.len) (candidate.text.drop cursor = joined segments) := by
  rw [matchSegments_eq segments within]
  by_cases here : joined segments <+: candidate.text.drop cursor
  · rw [if_pos here]
    refine ⟨_, rfl, ?_⟩
    have length : (candidate.text.drop cursor).length = candidate.len - cursor := length_drop ..
    rw [beq_iff_eq]
    constructor
    · intro full
      refine (here.eq_of_length ?_).symm
      omega
    · intro same
      rw [← same]
      omega
  · rw [if_neg here]
    exact .no fun same => here (same.symm ▸ prefix_rfl)

/-! ### Absolute paths -/

/-- A path behind a module, or from the root. -/
def underModule (leading text : Bytes) : Bytes :=
  if leading = [] then text else leading ++ separator ++ text

theorem underModule_of_ne {leading text : Bytes} (some : leading ≠ []) :
    underModule leading text = leading ++ (separator ++ text) := by
  rw [underModule, if_neg some, append_assoc]

theorem drop_eq_iff {leading : Bytes} {length : Nat} (size : leading.length = length)
    (start : leading <+: candidate.text) (colons : separator <+: candidate.text.drop length) :
    candidate.text.drop (length + 2) = text ↔ candidate.text = leading ++ (separator ++ text) := by
  subst size
  obtain ⟨rest, eq⟩ := start
  rw [← eq, drop_left] at colons
  obtain ⟨last, rfl⟩ := colons
  rw [← eq, append_cancel_left_eq, append_cancel_left_eq, ← drop_drop, drop_left]
  rfl

theorem absolute_answers (candidate leading : SView) (names : List SView) (first count : Nat) :
    Answers (absolute candidate leading names first count) (first ≤ count ∧ count ≤ names.length ∧
      candidate.text = underModule leading.text (joined ((names.take count).drop first))) := by
  unfold absolute
  by_cases bounds : first ≤ count ∧ count ≤ names.length
  · have inside : (!(decide (first > count) || decide (count > names.length))) = true := by
      simpa using bounds
    rw [inside, require_true, ok_bind]
    generalize (names.take count).drop first = segments
    simp only [bounds, true_and]
    by_cases named : leading.text = []
    · have empty : ¬leading.len > 0 := by simp [SView.len, named]
      rw [if_neg empty, ok_bind, underModule, if_pos named]
      exact matchSegments_end segments (Nat.zero_le _)
    have some : leading.len > 0 := length_pos_iff.2 named
    rw [if_pos some, underModule_of_ne named, matchText_eq (Nat.zero_le _), Nat.zero_add]
    by_cases start : leading.text <+: candidate.text.drop 0
    · have second : leading.text.length ≤ candidate.len := by
        simpa using le_of_prefix_drop (Nat.zero_le _) start
      rw [if_pos start, ok_bind, matchSeparator_eq second]
      by_cases colons : separator <+: candidate.text.drop leading.text.length
      · rw [if_pos colons, ok_bind]
        exact (matchSegments_end segments (le_of_prefix_drop second colons)).congr
          (drop_eq_iff rfl start colons)
      · rw [if_neg colons]
        refine .no fun same => colons ?_
        rw [same, drop_left]
        exact prefix_append ..
    · rw [if_neg start]
      refine .no fun same => start ?_
      rw [same]
      exact prefix_append ..
  · have outside : (!(decide (first > count) || decide (count > names.length))) = false := by
      simpa using bounds
    rw [outside]
    exact .no fun h => bounds ⟨h.1, h.2.1⟩

/-! ### Relative paths -/

theorem behind_of_ne {segments : List SView} (some : segments ≠ []) :
    behind segments = separator ++ joined segments := by
  cases segments with
  | nil => exact absurd rfl some
  | cons segment rest => simp [joined_cons, behind]

theorem pathLength_eq (candidate : SView) (segments : List SView) {total : Nat}
    (within : total ≤ candidate.len) : pathLength candidate.len segments total =
      if total + (joined segments).length ≤ candidate.len then ok (total + (joined segments).length)
      else invalid := by
  induction segments generalizing total with
  | nil => simp [pathLength, joined, within]
  | cons segment rest ih =>
    unfold pathLength
    rw [decide_eq_true within, require_true, ok_bind, sub_eq within, ok_bind, joined_cons,
      length_append]
    by_cases named : segment.len ≤ candidate.len - total
    · have second : total + segment.len ≤ candidate.len := by omega
      rw [decide_eq_true named, require_true, ok_bind, candidate.add_eq second, ok_bind]
      by_cases last : rest = []
      · subst last
        rw [if_pos rfl]
        simp only [behind, flatMap_nil, length_nil, Nat.add_zero]
        exact (if_pos second).symm
      rw [if_neg last, sub_eq second, ok_bind, behind_of_ne last, length_append]
      change _ = if total + (segment.len + (2 + _)) ≤ _ then
        ok (total + (segment.len + (2 + _))) else _
      by_cases two : 2 ≤ candidate.len - (total + segment.len)
      · have third : total + segment.len + 2 ≤ candidate.len := by omega
        rw [decide_eq_true two, require_true, ok_bind, candidate.add_eq third, ok_bind, ih third]
        simp only [Nat.add_assoc]
      · rw [decide_eq_false two, require_false, invalid_bind, if_neg (by omega)]
    · rw [decide_eq_false named, require_false, invalid_bind, if_neg]
      change ¬total + (segment.len + _) ≤ _
      omega

theorem sameBytes_eq {count offset : Nat} (own : offset + count ≤ candidate.len)
    (other : offset + count ≤ enclosing.len) : sameBytes candidate enclosing count offset =
      require (decide ((candidate.text.drop offset).take count =
        (enclosing.text.drop offset).take count)) := by
  induction count generalizing offset with
  | zero => simp [sameBytes]
  | succ count ih =>
    have own_lt : offset < candidate.len := by omega
    have other_lt : offset < enclosing.len := by omega
    unfold sameBytes
    rw [candidate.read_eq own_lt, ok_bind, enclosing.read_eq other_lt, ok_bind,
      ih (by omega) (by omega), require_bind_require]
    congr 1
    rw [Bool.eq_iff_iff, Bool.and_eq_true, decide_eq_true_iff, decide_eq_true_iff, beq_iff_eq,
      drop_eq_getElem_cons own_lt, drop_eq_getElem_cons other_lt, take_succ_cons,
      take_succ_cons, List.cons.injEq]

/-- A module that encloses another one, or is it. -/
def IsAncestor (ancestor enclosing : Bytes) : Prop :=
  ancestor = enclosing ∨ ancestor ++ separator <+: enclosing

theorem isAncestor_take {length : Nat} (within : length ≤ enclosing.len) :
    IsAncestor (enclosing.text.take length) enclosing.text ↔
      enclosing.len > length → separator <+: enclosing.text.drop length := by
  have split := take_append_drop length enclosing.text
  constructor
  · intro ancestor longer
    rcases ancestor with same | colons
    · have size := congrArg List.length same
      rw [length_take] at size
      change min length enclosing.len = enclosing.len at size
      omega
    · conv at colons => rhs; rw [← split]
      exact (prefix_append_right_inj _).1 colons
  · intro colons
    rcases Nat.lt_or_eq_of_le within with longer | rfl
    · right
      conv => rhs; rw [← split]
      exact (prefix_append_right_inj _).2 (colons longer)
    · exact Or.inl (take_length ..)

theorem boundary_eq {length : Nat} (within : length ≤ enclosing.len) :
    boundary enclosing length =
      require (decide (enclosing.len > length → separator <+: enclosing.text.drop length)) := by
  unfold boundary
  by_cases longer : enclosing.len > length
  · rw [if_pos longer, sub_eq within, ok_bind]
    by_cases two : 2 ≤ enclosing.len - length
    · rw [decide_eq_true two, require_true, ok_bind, colonsAt_eq (by omega)]
      simp [longer]
    · have short : ¬separator <+: enclosing.text.drop length := fun colons =>
        two (by have := le_of_prefix_drop within colons; change length + 2 ≤ _ at this; omega)
      rw [decide_eq_false two, require_false, invalid_bind]
      simp [longer, short]
  · rw [if_neg longer]
    simp [longer]

theorem relative_answers (candidate enclosing : SView) (names : List SView) (count : Nat) :
    Answers (relative candidate enclosing names count) (count ≠ 0 ∧ count ≤ names.length ∧
      ∃ ancestor : Bytes, ancestor ≠ [] ∧ IsAncestor ancestor enclosing.text ∧
        candidate.text = ancestor ++ (separator ++ joined (names.take count))) := by
  unfold relative
  by_cases bounds : count ≠ 0 ∧ count ≤ names.length
  · have inside : (!(count == 0 || decide (count > names.length))) = true := by simpa using bounds
    rw [inside, require_true, ok_bind]
    generalize names.take count = segments
    simp only [bounds, ne_eq, not_false_eq_true, true_and]
    -- The length of the ancestor is determined by that of the candidate.
    have size : ∀ ancestor : Bytes, candidate.text = ancestor ++ (separator ++ joined segments) →
        candidate.len = ancestor.length + (2 + (joined segments).length) := by
      intro ancestor eq
      rw [SView.len, eq, length_append, length_append]
      rfl
    by_cases three : 3 ≤ candidate.len
    · rw [decide_eq_true three, require_true, ok_bind, pathLength_eq candidate segments
        (Nat.zero_le _), Nat.zero_add]
      by_cases fits : (joined segments).length ≤ candidate.len - 3
      · rw [if_pos (by omega), ok_bind, sub_eq three, ok_bind, decide_eq_true fits, require_true,
          ok_bind, sub_eq (by omega), ok_bind, sub_eq (by omega), ok_bind]
        generalize here : candidate.len - (joined segments).length - 2 = length
        have positive : 0 < length := by omega
        have within : length + 2 ≤ candidate.len := by omega
        have determined : ∀ ancestor : Bytes,
            candidate.text = ancestor ++ (separator ++ joined segments) →
              ancestor.length = length ∧ ancestor = candidate.text.take length ∧
                separator <+: candidate.text.drop length := by
          intro ancestor eq
          have size := size ancestor eq
          have same : ancestor.length = length := by omega
          rw [eq, ← same, take_left, drop_left]
          exact ⟨rfl, rfl, prefix_append ..⟩
        rw [colonsAt_eq within]
        by_cases colons : separator <+: candidate.text.drop length
        · rw [decide_eq_true colons, require_true, ok_bind]
          by_cases long : length ≤ enclosing.len
          · rw [decide_eq_true long, require_true, ok_bind]
            rw [boundary_eq long]
            by_cases ends : enclosing.len > length → separator <+: enclosing.text.drop length
            · rw [decide_eq_true ends, require_true, ok_bind,
                sameBytes_eq (by omega) (by omega), drop_zero, drop_zero]
              by_cases same : candidate.text.take length = enclosing.text.take length
              · rw [decide_eq_true same, require_true, ok_bind, candidate.add_eq within, ok_bind]
                have isAncestor := (isAncestor_take long).2 ends
                rw [← same] at isAncestor
                have taken : (candidate.text.take length).length = length := by
                  rw [length_take]
                  change min length candidate.len = length
                  omega
                refine (matchSegments_end segments within).congr ((drop_eq_iff taken
                  ( take_prefix ..) colons).trans ⟨fun eq => ?_, ?_⟩)
                · exact ⟨_, length_pos_iff.1 (taken.symm ▸ positive), isAncestor, eq⟩
                · rintro ⟨ancestor, -, -, eq⟩
                  rw [← (determined ancestor eq).2.1]
                  exact eq
              · rw [decide_eq_false same, require_false, invalid_bind]
                refine .no ?_
                rintro ⟨ancestor, -, isAncestor, eq⟩
                obtain ⟨size, taken, -⟩ := determined ancestor eq
                refine same (taken.symm.trans ?_)
                rw [← size]
                rcases isAncestor with rfl | start
                · exact (take_length ..).symm
                · exact prefix_iff_eq_take.1 ((prefix_append ..).trans start)
            · rw [decide_eq_false ends, require_false, invalid_bind]
              refine .no ?_
              rintro ⟨ancestor, -, isAncestor, eq⟩
              obtain ⟨size, -, -⟩ := determined ancestor eq
              refine ends ((isAncestor_take long).1 ?_)
              have taken : enclosing.text.take length = ancestor := by
                rw [← size]
                rcases isAncestor with rfl | start
                · exact take_length ..
                · exact (prefix_iff_eq_take.1 ((prefix_append ..).trans start)).symm
              rw [taken]
              exact isAncestor
          · rw [decide_eq_false long, require_false, invalid_bind]
            refine .no ?_
            rintro ⟨ancestor, -, isAncestor, eq⟩
            obtain ⟨same, -, -⟩ := determined ancestor eq
            have le : ancestor.length ≤ enclosing.len := by
              rcases isAncestor with rfl | start
              · exact Nat.le_refl _
              · exact Nat.le_trans (by simp) start.length_le
            omega
        · rw [decide_eq_false colons, require_false, invalid_bind]
          exact .no fun ⟨ancestor, _, _, eq⟩ => colons (determined ancestor eq).2.2
      · have no : ¬∃ ancestor : Bytes, ancestor ≠ [] ∧ IsAncestor ancestor enclosing.text ∧
            candidate.text = ancestor ++ (separator ++ joined segments) := by
          rintro ⟨ancestor, some, -, eq⟩
          have size := size ancestor eq
          have positive := length_pos_iff.2 some
          omega
        by_cases whole : (joined segments).length ≤ candidate.len
        · rw [if_pos whole, ok_bind, sub_eq three, ok_bind, decide_eq_false fits, require_false,
            invalid_bind]
          exact .no no
        · rw [if_neg whole, invalid_bind]
          exact .no no
    · rw [decide_eq_false three, require_false, invalid_bind]
      refine .no ?_
      rintro ⟨ancestor, some, -, eq⟩
      have size := size ancestor eq
      have positive := length_pos_iff.2 some
      omega
  · have outside : (!(count == 0 || decide (count > names.length))) = false := by simpa using bounds
    rw [outside]
    exact .no fun h => bounds ⟨h.1, h.2.1⟩

/-- No read leaves its text and no index wraps. An absolute path is compared with the candidate, and
a relative path of at least one segment with the candidate behind each ancestor of the enclosing
module. -/
theorem relative_spec (candidate enclosing : SView) (names : List SView) (count : Nat) :
    (∀ leading first, Answers (absolute candidate leading names first count)
      (first ≤ count ∧ count ≤ names.length ∧
        candidate.text = underModule leading.text (joined ((names.take count).drop first)))) ∧
    Answers (relative candidate enclosing names count) (count ≠ 0 ∧ ∃ ancestor : SView,
      ancestor.text ≠ [] ∧ IsAncestor ancestor.text enclosing.text ∧
        absolute candidate ancestor names 0 count = ok true) := by
  refine ⟨fun leading first => absolute_answers candidate leading names first count,
    (relative_answers candidate enclosing names count).congr (and_congr_right fun _ => ?_)⟩
  have yes : ∀ ancestor : SView, ancestor.text ≠ [] →
      (absolute candidate ancestor names 0 count = ok true ↔ count ≤ names.length ∧
        candidate.text = ancestor.text ++ (separator ++ joined (names.take count))) := by
    intro ancestor some
    obtain ⟨b, eq, right⟩ := absolute_answers candidate ancestor names 0 count
    rw [underModule_of_ne some, drop_zero] at right
    rw [eq, ok.injEq, right]
    exact and_iff_right (Nat.zero_le count)
  constructor
  · rintro ⟨bound, ancestor, some, isAncestor, eq⟩
    have small : ancestor.length < 2 ^ 64 := by
      refine Nat.lt_of_le_of_lt ?_ candidate.small
      rw [eq]
      simp
    exact ⟨⟨ancestor, small⟩, some, isAncestor, (yes ⟨ancestor, small⟩ some).2 ⟨bound, eq⟩⟩
  · rintro ⟨ancestor, some, isAncestor, accepts⟩
    obtain ⟨bound, eq⟩ := (yes ancestor some).1 accepts
    exact ⟨bound, ancestor.text, some, isAncestor, eq⟩

/-- Without segments, the candidate `a::` is the path behind its module, but not a relative one. -/
theorem relative_empty : absolute ⟨ascii "a::", by decide⟩ ⟨ascii "a", by decide⟩ [] 0 0 = ok true ∧
    relative ⟨ascii "a::", by decide⟩ ⟨ascii "a", by decide⟩ [] 0 = ok false := by
  decide

end

end Elisa.Semantic.ModuleSymbolPath
