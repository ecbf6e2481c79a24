import Elisa.Semantic.SnapshotCodec

/-!
# The snapshot checks never go wrong

Each check first establishes the span it then reads, so no index leaves its array and no length
leaves the machine range, whatever the fields of the snapshot are.
-/

namespace Elisa.Semantic

open Outcome

/-! ## Spans -/

/-- The unsigned test for a span says that it ends within the buffer. -/
theorem iscSpan_eq (start length count : Nat) :
    iscSpan start length count = ok (decide (start + length ≤ count)) := by
  unfold iscSpan
  split
  · next h =>
      rw [subLength_eq h]
      simp only [ok_bind, pure_eq, ok.injEq, decide_eq_decide]
      omega
  · next h =>
      simp only [pure_eq, ok.injEq, Bool.false_eq, decide_eq_false_iff_not]
      omega

theorem requireSpan_eq (start length count : Nat) :
    requireSpan start length count = require (decide (start + length ≤ count)) := by
  rw [requireSpan, iscSpan_eq, ok_bind]

variable {β : Type} {start length : Nat}

/-- Behind a span check, the rest may take the span to lie within the buffer. -/
theorem safe_requireSpan_bind {count : Nat} {next : Unit → Outcome β}
    (hnext : start + length ≤ count → (next ()).Safe) :
    (requireSpan start length count >>= next).Safe := by
  rw [requireSpan_eq]
  refine safe_require_bind ?_
  intro h
  exact hnext (of_decide_eq_true h)

theorem safe_requireSpan (start length count : Nat) : (requireSpan start length count).Safe := by
  rw [requireSpan_eq]
  exact safe_require _

/-! ## Machine operations that stay in range -/

theorem safe_addLength_bind {a b : Nat} {next : Nat → Outcome β} (h : a + b < wordLimit)
    (hnext : (next (a + b)).Safe) : (addLength a b >>= next).Safe := by
  rw [addLength_eq h, ok_bind]
  exact hnext

theorem safe_subLength_bind {a b : Nat} {next : Nat → Outcome β} (h : b ≤ a)
    (hnext : (next (a - b)).Safe) : (subLength a b >>= next).Safe := by
  rw [subLength_eq h, ok_bind]
  exact hnext

theorem safe_index_bind {α : Type} {xs : List α} {i : Nat} {next : α → Outcome β}
    (h : i < xs.length) (hnext : ∀ x, (next x).Safe) : (index xs i >>= next).Safe := by
  rw [index_eq h, ok_bind]
  exact hnext _

section

variable {bytes : Bytes} (hbytes : bytes.length < wordLimit)
include hbytes

/-- A checked word is its four bytes. -/
theorem iscU32_eq (h : start + 4 ≤ bytes.length) :
    iscU32 bytes start = ok (LittleEndian.value ((bytes.drop start).take 4)) :=
  LittleEndian.read_eq hbytes h

theorem safe_iscU32_bind {next : Nat → Outcome β} (h : start + 4 ≤ bytes.length)
    (hnext : ∀ n, iscU32 bytes start = ok n → (next n).Safe) :
    (iscU32 bytes start >>= next).Safe := by
  have heq := iscU32_eq hbytes h
  rw [heq, ok_bind]
  exact hnext _ heq

/-! ## The primitive checks -/

theorem safe_ifcHash (h : start + length ≤ bytes.length) : (ifcHash bytes start length).Safe := by
  refine safe_addLength_bind (by omega) ?_
  refine safe_foldlM _ ?_
  intro hash position hposition
  rw [List.mem_range'_1] at hposition
  exact safe_index_bind (by omega) fun _ => safe_ok _

theorem safe_ifcEqual (leftStart leftLength rightStart rightLength : Nat) :
    (ifcEqual bytes leftStart leftLength bytes rightStart rightLength).Safe := by
  refine safe_require_bind ?_
  intro hlength
  have hlength : leftLength = rightLength := eq_of_beq hlength
  refine safe_requireSpan_bind ?_
  intro hleft
  refine safe_requireSpan_bind ?_
  intro hright
  refine safe_forM ?_
  intro offset hoffset
  rw [List.mem_range] at hoffset
  refine safe_addLength_bind (by omega) ?_
  refine safe_addLength_bind (by omega) ?_
  refine safe_index_bind (by omega) ?_
  intro a
  refine safe_index_bind (by omega) ?_
  intro b
  exact safe_require _

/-- No cursor of the token count leaves the key. -/
theorem safe_iscTokenCountLoop {stop : Nat} (hstop : stop ≤ bytes.length) (fuel : Nat) :
    ∀ cursor count : Nat, (iscTokenCountLoop bytes stop fuel cursor count).Safe := by
  induction fuel with
  | zero =>
    intro cursor count
    unfold iscTokenCountLoop
    split
    · exact safe_invalid
    · exact safe_ok _
  | succ fuel ih =>
    intro cursor count
    unfold iscTokenCountLoop
    split
    · refine safe_requireSpan_bind ?_
      intro hhead
      refine safe_iscU32_bind hbytes (by omega) ?_
      intro kind _
      refine safe_require_bind ?_
      intro _
      refine safe_addLength_bind (by omega) ?_
      refine safe_iscU32_bind hbytes (by omega) ?_
      intro textLength _
      refine safe_addLength_bind (by omega) ?_
      refine safe_requireSpan_bind ?_
      intro htext
      refine safe_addLength_bind (by omega) ?_
      exact ih _ _
    · exact safe_ok _

theorem safe_iscTokenCount (start length : Nat) : (iscTokenCount bytes start length).Safe := by
  refine safe_requireSpan_bind ?_
  intro hspan
  refine safe_addLength_bind (by omega) ?_
  exact safe_iscTokenCountLoop hbytes hspan length start 0

/-- The check of a key reads within the buffer only. -/
theorem safe_iscKey (start length : Nat) : (iscKey bytes start length).Safe := by
  refine safe_requireSpan_bind ?_
  intro hspan
  refine safe_require_bind ?_
  intro height
  have height : 8 ≤ length := of_decide_eq_true height
  refine safe_iscU32_bind hbytes (by omega) ?_
  intro pathLength _
  refine safe_subLength_bind height ?_
  refine safe_require_bind ?_
  intro hpath
  simp only [Bool.and_eq_true, decide_eq_true_eq] at hpath
  refine safe_addLength_bind (by omega) ?_
  refine safe_addLength_bind (by omega) ?_
  refine safe_iscU32_bind hbytes (by omega) ?_
  intro nameLength _
  refine safe_subLength_bind hpath.2 ?_
  exact safe_require _

theorem safe_iscEffectName (start length : Nat) : (iscEffectName bytes start length).Safe := by
  refine safe_require_bind ?_
  intro _
  refine safe_requireSpan_bind ?_
  intro hspan
  refine Safe.bind ?_ fun _ _ => safe_require _
  refine safe_foldlM _ ?_
  intro segmentStart offset hoffset
  rw [List.mem_range] at hoffset
  refine safe_addLength_bind (by omega) ?_
  refine safe_index_bind (by omega) ?_
  intro byte
  unfold iscEffectNameByte
  split
  · exact safe_require_bind fun _ => safe_ok _
  · exact safe_require_bind fun _ => safe_ok _

end

theorem safe_incrementalSemanticOptionsKeyValid (key : Bytes) :
    (incrementalSemanticOptionsKeyValid key).Safe := by
  refine safe_require_bind ?_
  intro hlength
  have hlength : key.length = 26 := eq_of_beq hlength
  refine Safe.bind ?_ ?_
  · refine safe_forM ?_
    intro expected hexpected
    refine safe_index_bind ?_ fun _ => safe_require _
    simp only [List.mem_cons, List.not_mem_nil, or_false] at hexpected
    rcases hexpected with rfl | rfl | rfl | rfl | rfl <;> omega
  · intro _ _
    refine safe_forM ?_
    intro position hposition
    rw [List.mem_range] at hposition
    exact safe_index_bind (by omega) fun _ => safe_require _

theorem span_of_iscKey {u : Unit} (h : iscKey bytes start length = ok u) :
    start + 8 ≤ bytes.length := by
  unfold iscKey at h
  rw [requireSpan_eq] at h
  obtain ⟨_, hspan, h⟩ := bind_eq_ok.1 h
  obtain ⟨_, height, _⟩ := bind_eq_ok.1 h
  simp only [require_eq_ok, decide_eq_true_eq] at hspan height
  omega

/-- A key that is counted has a token. -/
theorem iscTokenCountLoop_pos {bytes : Bytes} {stop : Nat} (fuel : Nat) :
    ∀ {cursor count n : Nat}, iscTokenCountLoop bytes stop fuel cursor count = ok n → 0 < n := by
  induction fuel with
  | zero =>
    intro cursor count n h
    unfold iscTokenCountLoop at h
    split at h
    · cases h
    · cases h
      omega
  | succ fuel ih =>
    intro cursor count n h
    unfold iscTokenCountLoop at h
    split at h
    · iterate 8 obtain ⟨_, _, h⟩ := bind_eq_ok.1 h
      exact ih h
    · cases h
      omega

theorem iscTokenCount_pos {bytes : Bytes} {n : Nat} (h : iscTokenCount bytes start length = ok n) :
    0 < n := by
  unfold iscTokenCount at h
  obtain ⟨_, _, h⟩ := bind_eq_ok.1 h
  obtain ⟨_, _, h⟩ := bind_eq_ok.1 h
  exact iscTokenCountLoop_pos length h

/-! ## Validation -/

section Validation

variable (s : IncrementalSemanticSnapshot) (hbytes : s.bytes.length < wordLimit)
include s hbytes

theorem safe_validateFunction (hfacts : s.directFacts.length < wordLimit) (position : Nat)
    (record : IncrementalFunctionFactRecord) (budgets : SnapshotBudgets) :
    (validateFunction s position record budgets).Safe := by
  refine safe_require_bind ?_
  intro hbody
  refine safe_require_bind ?_
  intro hkey
  refine safe_subLength_bind (of_decide_eq_true hbody) ?_
  refine safe_subLength_bind (of_decide_eq_true hkey) ?_
  refine (safe_iscKey hbytes _ _).bind ?_
  intro _ hkeySpan
  have hkeySpan := span_of_iscKey hkeySpan
  refine safe_iscU32_bind hbytes (by omega) ?_
  intro keyPathLength _
  refine safe_addLength_bind (by omega) ?_
  refine (safe_ifcEqual hbytes _ _ _ _).bind ?_
  intro _ _
  refine safe_requireSpan_bind ?_
  intro hbodySpan
  refine (safe_ifcHash hbytes hbodySpan).bind ?_
  intro hash _
  refine safe_require_bind fun _ => safe_require_bind fun _ => safe_require_bind fun _ =>
    safe_require_bind fun _ => ?_
  refine safe_requireSpan_bind ?_
  intro hfactSpan
  refine (safe_iscTokenCount hbytes _ _).bind ?_
  intro tokenCount htokens
  have htokens := iscTokenCount_pos htokens
  refine safe_require_bind fun _ => ?_
  refine Safe.bind ?_ fun _ _ => safe_ok _
  refine safe_forM ?_
  intro relative hrelative
  rw [List.mem_range] at hrelative
  refine safe_addLength_bind (by omega) ?_
  refine safe_index_bind (by omega) ?_
  intro fact
  exact safe_subLength_bind htokens (safe_require _)

/-- The check of the functions, one by one, stays within the tables. -/
theorem safe_validateFunctions (hfacts : s.directFacts.length < wordLimit)
    (records : List IncrementalFunctionFactRecord) :
    ∀ (position : Nat) (budgets : SnapshotBudgets),
      (validateFunctions s position records budgets).Safe := by
  induction records with
  | nil =>
    intro position budgets
    exact safe_ok _
  | cons record records ih =>
    intro position budgets
    refine (safe_validateFunction s hbytes hfacts position record budgets).bind ?_
    intro budgets' _
    exact ih (position + 1) budgets'

theorem safe_validateSubject (fact : IncrementalDirectFact) : (validateSubject s fact).Safe := by
  unfold validateSubject
  split
  · refine (safe_iscKey hbytes _ _).bind ?_
    intro _ hkey
    have hkey := span_of_iscKey hkey
    refine safe_iscU32_bind hbytes (by omega) ?_
    intro subjectPathLength _
    refine safe_addLength_bind (by omega) ?_
    exact safe_ifcEqual hbytes _ _ _ _
  · exact safe_iscEffectName hbytes _ _

theorem safe_validateFact (position : Nat) (fact : IncrementalDirectFact) (keyBudget : Nat) :
    (validateFact s position fact keyBudget).Safe := by
  refine safe_require_bind ?_
  intro howner
  refine safe_require_bind fun _ => ?_
  refine safe_index_bind (of_decide_eq_true howner) ?_
  intro owner
  refine safe_require_bind ?_
  intro hstart
  refine safe_subLength_bind (of_decide_eq_true hstart) ?_
  refine safe_require_bind fun _ => ?_
  refine safe_requireSpan_bind ?_
  intro hsubject
  refine safe_require_bind fun _ => ?_
  refine safe_require_bind ?_
  intro hbudget
  refine safe_subLength_bind (of_decide_eq_true hbudget) ?_
  refine (safe_validateSubject s hbytes fact).bind fun _ _ => ?_
  exact (safe_requireSpan _ _ _).bind fun _ _ => safe_ok _

theorem safe_validateFacts (facts : List IncrementalDirectFact) :
    ∀ position keyBudget : Nat, (validateFacts s position facts keyBudget).Safe := by
  induction facts with
  | nil =>
    intro position keyBudget
    exact safe_ok _
  | cons fact facts ih =>
    intro position keyBudget
    refine (safe_validateFact s hbytes position fact keyBudget).bind ?_
    intro keyBudget' _
    exact ih (position + 1) keyBudget'

end Validation

theorem safe_validateGrant {bytes : Bytes} (hbytes : bytes.length < wordLimit) (grantBudget : Nat)
    (grant : IncrementalActiveGrant) : (validateGrant bytes grantBudget grant).Safe := by
  refine safe_require_bind fun _ => ?_
  refine safe_require_bind ?_
  intro hbudget
  refine safe_subLength_bind (of_decide_eq_true hbudget) ?_
  exact (safe_iscEffectName hbytes _ _).bind fun _ _ => safe_ok _

/-- A header that passes bounds the counts of rows. -/
theorem counts_of_validateHeader {s : IncrementalSemanticSnapshot} {u : Unit}
    (h : validateHeader s = ok u) :
    s.bytes.length ≤ incrementalSnapshotCodecLimit ∧
      s.functions.length ≤ incrementalSnapshotRowLimit ∧
      s.directFacts.length ≤ incrementalSnapshotRowLimit ∧
      s.activeGrants.length ≤ incrementalSnapshotRowLimit := by
  unfold validateHeader at h
  obtain ⟨_, _, h⟩ := bind_eq_ok.1 h
  obtain ⟨_, _, h⟩ := bind_eq_ok.1 h
  obtain ⟨_, hbytes, h⟩ := bind_eq_ok.1 h
  obtain ⟨_, hrows, _⟩ := bind_eq_ok.1 h
  simp only [require_eq_ok, Bool.and_eq_true, decide_eq_true_eq] at hbytes hrows
  exact ⟨hbytes, hrows.1.1, hrows.1.2, hrows.2⟩

theorem safe_validateHeader (s : IncrementalSemanticSnapshot) : (validateHeader s).Safe := by
  refine safe_require_bind fun _ => ?_
  refine (safe_incrementalSemanticOptionsKeyValid _).bind fun _ _ => ?_
  refine safe_require_bind ?_
  intro hlimit
  have hbytes : s.bytes.length < wordLimit :=
    lt_of_le_of_lt (of_decide_eq_true hlimit) (by decide)
  refine safe_require_bind fun _ => ?_
  refine safe_requireSpan_bind fun _ => ?_
  refine safe_require_bind fun _ => ?_
  refine (safe_iscTokenCount hbytes _ _).bind ?_
  intro tokenCount htokens
  unfold iscTokenCount at htokens
  rw [requireSpan_eq] at htokens
  obtain ⟨_, hspan, _⟩ := bind_eq_ok.1 htokens
  simp only [require_eq_ok, decide_eq_true_eq] at hspan
  exact (safe_ifcHash hbytes hspan).bind fun _ _ => safe_require _

/-- Validation never traps, whatever the snapshot holds. -/
theorem safe_iscValidate (s : IncrementalSemanticSnapshot) : (iscValidate s).Safe := by
  refine (safe_validateHeader s).bind ?_
  intro _ hheader
  obtain ⟨hbytes, -, hfacts, -⟩ := counts_of_validateHeader hheader
  have hbytes : s.bytes.length < wordLimit := lt_of_le_of_lt hbytes (by decide)
  have hfacts : s.directFacts.length < wordLimit := lt_of_le_of_lt hfacts (by decide)
  refine (safe_validateFunctions s hbytes hfacts _ _ _).bind fun _ _ => ?_
  refine (safe_validateFacts s hbytes _ _ _).bind fun _ _ => ?_
  refine (safe_foldlM _ ?_).bind fun _ _ => safe_ok _
  intro grantBudget grant _
  exact safe_validateGrant hbytes grantBudget grant

end Elisa.Semantic
