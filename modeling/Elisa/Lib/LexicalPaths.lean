import Mathlib.Data.List.Basic
import Mathlib.Data.List.Induction
import Mathlib.Algebra.Order.Ring.Int

/-!
# Lexical resolution of paths

A path is a list of segments.  Some are skipped, one leads to the parent, and all others are names.
A segment that leads to the parent cancels the name before it; where there is none it is kept on a
relative path, and dropped at the root of a rooted one.  A resolved path is `Clean`: its names stand
behind all segments that lead up.  Resolving a path behind another one is resolving its own
resolution there, if that is done as for a relative path (`resolve_resolve`).
-/

namespace Elisa.Lib.LexicalPaths

open List

variable {S : Type*} [DecidableEq S] (skip : S → Bool) (parent : S) (rooted : Bool)

/-- What is kept after one more segment. -/
def push (kept : List S) (segment : S) : List S :=
  if skip segment then kept
  else if segment = parent then
    match kept with
    | [] => if rooted then [] else [parent]
    | top :: rest => if top = parent then parent :: top :: rest else rest
  else segment :: kept

def resolve (kept segments : List S) : List S := segments.foldl (push skip parent rooted) kept

/-- Names behind segments that lead up, and none of these at a root. -/
def Clean (kept : List S) : Prop :=
  ∃ names ups, kept = names ++ replicate ups parent ∧
    (∀ name ∈ names, skip name = false ∧ name ≠ parent) ∧ (rooted = true → ups = 0)

variable {skip parent rooted} {kept segments names : List S} {segment top : S} {ups : Nat}

/-! ## One segment -/

theorem push_skip (h : skip segment = true) : push skip parent rooted kept segment = kept := by
  unfold push
  rw [if_pos h]

theorem push_name (h : skip segment = false) (name : segment ≠ parent) :
    push skip parent rooted kept segment = segment :: kept := by
  unfold push
  rw [h, if_neg Bool.false_ne_true, if_neg name]

section
variable (up : skip parent = false)
include up

theorem push_parent_nil : push skip parent rooted [] parent = if rooted then [] else [parent] := by
  rw [push, up, if_neg Bool.false_ne_true, if_pos rfl]

theorem push_parent_cons : push skip parent rooted (top :: kept) parent =
    if top = parent then parent :: top :: kept else kept := by
  rw [push, up, if_neg Bool.false_ne_true, if_pos rfl]

/-- A segment that leads up keeps a list of such segments, on a relative path. -/
theorem push_parent_replicate :
    push skip parent false (replicate ups parent) parent =
      replicate (ups + 1) parent := by
  cases ups with
  | zero => exact push_parent_nil up
  | succ ups =>
    rw [replicate_succ, push_parent_cons up, if_pos rfl]
    rfl

omit up [DecidableEq S] in
theorem Clean.not_skip (h : Clean skip parent rooted kept) (mem : segment ∈ kept)
    (name : segment ≠ parent) : skip segment = false := by
  obtain ⟨names, ups, rfl, named, -⟩ := h
  rcases mem_append.1 mem with mem | mem
  · exact (named segment mem).1
  · exact absurd (eq_of_mem_replicate mem) name

theorem Clean.push (h : Clean skip parent rooted kept) (segment : S) :
    Clean skip parent rooted (push skip parent rooted kept segment) := by
  obtain ⟨names, ups, rfl, named, atRoot⟩ := h
  cases skipped : skip segment with
  | true =>
    rw [push_skip skipped]
    exact ⟨names, ups, rfl, named, atRoot⟩
  | false =>
    by_cases name : segment = parent
    · subst name
      cases names with
      | nil =>
        cases rooted with
        | true =>
          rw [atRoot rfl]
          exact ⟨[], 0, by simp [push_parent_nil up], by simp, fun _ => rfl⟩
        | false => exact ⟨[], ups + 1, push_parent_replicate up, by simp, fun h => by cases h⟩
      | cons top names =>
        rw [cons_append, push_parent_cons up, if_neg (named top (.head _)).2]
        exact ⟨names, ups, rfl, fun name mem => named name (.tail _ mem), atRoot⟩
    · rw [push_name skipped name]
      refine ⟨segment :: names, ups, rfl, fun other mem => ?_, atRoot⟩
      rcases mem_cons.1 mem with rfl | mem
      · exact ⟨skipped, name⟩
      · exact named other mem

/-! ## Whole paths -/

theorem Clean.resolve (h : Clean skip parent rooted kept) (segments : List S) :
    Clean skip parent rooted (resolve skip parent rooted kept segments) := by
  induction segments generalizing kept with
  | nil => exact h
  | cons segment segments ih => exact ih (h.push up segment)

omit up [DecidableEq S] in
theorem clean_nil : Clean skip parent rooted [] := ⟨[], 0, rfl, by simp, fun _ => rfl⟩

omit up in
theorem resolve_append (before after : List S) :
    resolve skip parent rooted kept (before ++ after) =
      resolve skip parent rooted (resolve skip parent rooted kept before) after :=
  foldl_append

omit up in
theorem mem_push {other : S} (mem : other ∈ LexicalPaths.push skip parent rooted kept segment) :
    other ∈ kept ∨ other = segment := by
  unfold LexicalPaths.push at mem
  split at mem
  next => exact Or.inl mem
  split at mem
  next up =>
    split at mem
    next =>
      split at mem
      next => cases mem
      next => exact Or.inr ((mem_singleton.1 mem).trans up.symm)
    split at mem
    next =>
      rcases mem_cons.1 mem with rfl | mem
      · exact Or.inr up.symm
      · exact Or.inl mem
    next => exact Or.inl (.tail _ mem)
  next => exact (mem_cons.1 mem).symm

omit up in
theorem mem_resolve (mem : segment ∈ LexicalPaths.resolve skip parent rooted kept segments) :
    segment ∈ kept ∨ segment ∈ segments := by
  induction segments generalizing kept with
  | nil => exact Or.inl mem
  | cons first segments ih =>
    rcases ih mem with mem | mem
    · rcases mem_push mem with mem | rfl
      · exact Or.inl mem
      · exact Or.inr (.head _)
    · exact Or.inr (.tail _ mem)

omit up in
theorem resolve_names (named : ∀ name ∈ segments, skip name = false ∧ name ≠ parent) :
    resolve skip parent rooted kept segments = segments.reverse ++ kept := by
  induction segments generalizing kept with
  | nil => rfl
  | cons segment segments ih =>
    obtain ⟨skipped, name⟩ := named segment (.head _)
    change resolve skip parent rooted
      (LexicalPaths.push skip parent rooted kept segment) segments = _
    rw [push_name skipped name, ih fun other mem => named other (.tail _ mem), reverse_cons,
      append_assoc]
    rfl

omit up in
theorem resolve_reverse_names (named : ∀ name ∈ names, skip name = false ∧ name ≠ parent) :
    resolve skip parent rooted kept (names ++ replicate ups parent).reverse =
      names ++ resolve skip parent rooted kept (replicate ups parent) := by
  rw [reverse_append, reverse_replicate, resolve_append, resolve_names,
    reverse_reverse]
  simpa using named

theorem resolve_replicate :
    resolve skip parent false [] (replicate ups parent) = replicate ups parent := by
  induction ups with
  | zero => rfl
  | succ ups ih =>
    rw [replicate_succ', resolve_append, ih, ← replicate_succ']
    exact push_parent_replicate up

theorem Clean.resolve_reverse (h : Clean skip parent rooted kept) :
    LexicalPaths.resolve skip parent rooted [] kept.reverse = kept := by
  obtain ⟨names, ups, rfl, named, atRoot⟩ := h
  rw [resolve_reverse_names named]
  cases rooted with
  | true =>
    rw [atRoot rfl]
    rfl
  | false => rw [resolve_replicate up]

/-- A path can be resolved on its own first, as a relative one. -/
theorem resolve_resolve (rooted : Bool) (kept segments : List S) :
    resolve skip parent rooted kept (resolve skip parent false [] segments).reverse =
      resolve skip parent rooted kept segments := by
  induction segments using reverseRecOn with
  | nil => rfl
  | append_singleton segments segment ih =>
    have clean : Clean skip parent false (resolve skip parent false [] segments) :=
      clean_nil.resolve up segments
    rw [resolve_append, resolve_append, ← ih]
    generalize resolve skip parent false [] segments = inner at clean
    change resolve skip parent rooted kept
      (LexicalPaths.push skip parent false inner segment).reverse =
      LexicalPaths.push skip parent rooted (resolve skip parent rooted kept inner.reverse) segment
    -- Unless it cancels a name, the segment goes behind what is kept.
    have behind : LexicalPaths.push skip parent false inner segment = segment :: inner →
        resolve skip parent rooted kept
          (LexicalPaths.push skip parent false inner segment).reverse =
          LexicalPaths.push skip parent rooted
            (resolve skip parent rooted kept inner.reverse) segment := by
      intro kept
      rw [kept, reverse_cons, resolve_append]
      rfl
    cases skipped : skip segment with
    | true => rw [push_skip skipped, push_skip skipped]
    | false =>
      by_cases name : segment = parent
      · subst name
        cases inner with
        | nil => exact behind (push_parent_nil up)
        | cons top inner =>
          by_cases above : top = segment
          · exact behind (by rw [push_parent_cons up, if_pos above])
          · rw [push_parent_cons up, if_neg above, reverse_cons, resolve_append]
            change _ = LexicalPaths.push skip segment rooted
              (LexicalPaths.push skip segment rooted _ top) segment
            rw [push_name (clean.not_skip (.head _) above) above, push_parent_cons up, if_neg above]
      · exact behind (push_name skipped name)

/-! ## Going up -/

/-- How far below the start a path leads. -/
def level (parent : S) (kept : List S) : Int :=
  kept.countP (· ≠ parent) - kept.countP (· = parent)

theorem level_push (h : ¬(rooted = true ∧ kept = [])) :
    level parent (LexicalPaths.push skip parent rooted kept parent) = level parent kept - 1 := by
  cases kept with
  | nil =>
    cases rooted with
    | true => exact absurd ⟨rfl, rfl⟩ h
    | false =>
      rw [push_parent_nil up]
      simp [level]
  | cons top kept =>
    rw [push_parent_cons up]
    by_cases above : top = parent
    · simp [level, above]
      omega
    · simp [level, above]
      omega

theorem level_replicate_le (rooted : Bool) (kept : List S) (ups : Nat) :
    level parent (LexicalPaths.resolve skip parent rooted kept (replicate ups parent)) ≤
      level parent kept := by
  induction ups generalizing kept with
  | zero => exact Int.le_refl _
  | succ ups ih =>
    refine Int.le_trans (ih (LexicalPaths.push skip parent rooted kept parent)) ?_
    by_cases root : rooted = true ∧ kept = []
    · obtain ⟨rfl, rfl⟩ := root
      rw [push_parent_nil up]
      exact Int.le_refl _
    · rw [level_push up root]
      omega

theorem resolve_replicate_eq_self_iff :
    LexicalPaths.resolve skip parent rooted kept (replicate ups parent) = kept ↔
      ups = 0 ∨ (rooted = true ∧ kept = []) := by
  constructor
  · intro same
    cases ups with
    | zero => exact Or.inl rfl
    | succ ups =>
      right
      by_contra root
      have lower := level_replicate_le up rooted
        (LexicalPaths.push skip parent rooted kept parent) ups
      rw [level_push up root] at lower
      have same : level parent (LexicalPaths.resolve skip parent rooted
          (LexicalPaths.push skip parent rooted kept parent) (replicate ups parent)) =
            level parent kept := congrArg (level parent) same
      omega
  · rintro (rfl | ⟨rfl, rfl⟩)
    · rfl
    induction ups with
    | zero => rfl
    | succ ups ih =>
      change LexicalPaths.resolve skip parent true
        (LexicalPaths.push skip parent true [] parent) (replicate ups parent) = []
      rw [push_parent_nil up]
      exact ih

end

end Elisa.Lib.LexicalPaths
