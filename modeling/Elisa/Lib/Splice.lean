import Mathlib.Data.List.Basic

/-!
# Splicing files that name each other

A line of a file may name another file.  Splicing a file copies its lines in order, and in place of
a line that names a file it splices that file, if it comes up for the first time.

`Splices seen file n rest out seen'` is the part of it behind line `n` of a file: with the files
`seen` begun, the lines `rest` become `out` and leave `seen'` begun.  Every file that is begun on
the way has its lines copied once and in order (`own_lines`), and so has every file that it reaches
(`reachable_seen`).
-/

namespace Elisa.Lib

variable {F L : Type*}

/-- A line with the file and the number it comes from. -/
structure Origin (F L : Type*) where
  file : F
  number : Nat
  text : L
deriving DecidableEq

variable (lines : F → List L) (target : F → L → Option F)

inductive Splices : List F → F → Nat → List L → List (Origin F L) → List F → Prop
  | done {seen : List F} {file : F} {n : Nat} : Splices seen file n [] [] seen
  | copy {seen seen' : List F} {file : F} {n : Nat} {line : L} {rest : List L}
      {out : List (Origin F L)} : target file line = none →
      Splices seen file (n + 1) rest out seen' →
      Splices seen file n (line :: rest) (⟨file, n, line⟩ :: out) seen'
  | again {seen seen' : List F} {file other : F} {n : Nat} {line : L} {rest : List L}
      {out : List (Origin F L)} : target file line = some other → other ∈ seen →
      Splices seen file (n + 1) rest out seen' →
      Splices seen file n (line :: rest) out seen'
  | once {seen seen₁ seen' : List F} {file other : F} {n : Nat} {line : L} {rest : List L}
      {inner out : List (Origin F L)} : target file line = some other → other ∉ seen →
      Splices (seen ++ [other]) other 1 (lines other) inner seen₁ →
      Splices seen₁ file (n + 1) rest out seen' →
      Splices seen file n (line :: rest) (inner ++ out) seen'

/-- The lines of a file that name no file, with their numbers. -/
def ownLines (file : F) : Nat → List L → List (Origin F L)
  | _, [] => []
  | n, line :: rest =>
    match target file line with
    | none => ⟨file, n, line⟩ :: ownLines file (n + 1) rest
    | some _ => ownLines file (n + 1) rest

/-- A file that can be reached by following the names. -/
inductive ReachesFile (root : F) : F → Prop
  | root : ReachesFile root root
  | step {file other : F} {line : L} : ReachesFile root file → line ∈ lines file →
      target file line = some other → ReachesFile root other

variable {lines target}

theorem getElem?_of_mem_ownLines {file : F} {n : Nat} {rest : List L} {o : Origin F L}
    (h : o ∈ ownLines target file n rest) :
    o.file = file ∧ n ≤ o.number ∧ rest[o.number - n]? = some o.text := by
  induction rest generalizing n with
  | nil => cases h
  | cons line rest ih =>
    have later : o ∈ ownLines target file (n + 1) rest →
        o.file = file ∧ n ≤ o.number ∧ (line :: rest)[o.number - n]? = some o.text := by
      intro h
      obtain ⟨file, le, text⟩ := ih h
      have step : o.number - n = o.number - (n + 1) + 1 := by omega
      exact ⟨file, by omega, by rw [step]; exact text⟩
    unfold ownLines at h
    split at h
    next =>
      cases h with
      | head => exact ⟨rfl, Nat.le_refl _, by simp⟩
      | tail _ h => exact later h
    next => exact later h

namespace Splices

variable {seen seen' : List F} {file : F} {n : Nat} {rest : List L} {out : List (Origin F L)}

theorem subset (h : Splices lines target seen file n rest out seen') : ∀ f ∈ seen, f ∈ seen' := by
  induction h with
  | done => exact fun f mem => mem
  | copy _ _ ih => exact ih
  | again _ _ _ ih => exact ih
  | once _ _ _ _ ih₁ ih => exact fun f mem => ih f (ih₁ f (List.mem_append_left _ mem))

/-- What is named on the way is begun in the end. -/
theorem closed (h : Splices lines target seen file n rest out seen') :
    (∀ line ∈ rest, ∀ other, target file line = some other → other ∈ seen') ∧
      ∀ f ∈ seen', f ∉ seen → ∀ line ∈ lines f, ∀ other, target f line = some other →
        other ∈ seen' := by
  induction h with
  | done => exact ⟨fun _ mem => (nomatch mem), fun f mem new => absurd mem new⟩
  | @copy seen seen' file n line rest out plain _ ih =>
    refine ⟨fun l mem other named => ?_, ih.2⟩
    cases mem with
    | head => rw [plain] at named; cases named
    | tail _ mem => exact ih.1 l mem other named
  | @again seen seen' file other n line rest out named known tail ih =>
    refine ⟨fun l mem g named' => ?_, ih.2⟩
    cases mem with
    | head =>
      rw [named] at named'
      cases named'
      exact tail.subset _ known
    | tail _ mem => exact ih.1 l mem g named'
  | @once seen seen₁ seen' file other n line rest inner out named new first tail ih₁ ih =>
    have begun : other ∈ seen₁ := first.subset _ (by simp)
    refine ⟨fun l mem g named' => ?_, fun f mem fresh l hl g named' => ?_⟩
    · cases mem with
      | head =>
        rw [named] at named'
        cases named'
        exact tail.subset _ begun
      | tail _ mem => exact ih.1 l mem g named'
    · by_cases early : f ∈ seen₁
      · apply tail.subset
        by_cases same : f = other
        · subst same
          exact ih₁.1 l hl g named'
        · exact ih₁.2 f early (by simp [fresh, same]) l hl g named'
      · exact ih.2 f mem early l hl g named'

/-- Every file that can be reached is begun in the end. -/
theorem reachable_seen {root : F} (h : Splices lines target [root] root 1 (lines root) out seen')
    {f : F} (reach : ReachesFile lines target root f) : f ∈ seen' := by
  induction reach with
  | root => exact h.subset root (by simp)
  | @step file other line _ hline named ih =>
    by_cases same : file = root
    · subst same
      exact h.closed.1 line hline other named
    · exact h.closed.2 file ih (by simpa using same) line hline other named

variable [DecidableEq F]

/-- What each file contributes: nothing if it was begun before, the rest of its lines if
it is the one at hand, all of its own lines if it was begun on the way. -/
theorem own_lines (h : Splices lines target seen file n rest out seen') (current : file ∈ seen) :
    (∀ f, f ≠ file → f ∈ seen ∨ f ∉ seen' → out.filter (fun o => decide (o.file = f)) = []) ∧
      out.filter (fun o => decide (o.file = file)) = ownLines target file n rest ∧
      ∀ f ∈ seen', f ∉ seen →
        out.filter (fun o => decide (o.file = f)) = ownLines target f 1 (lines f) := by
  induction h with
  | done => exact ⟨fun _ _ _ => rfl, rfl, fun f mem new => absurd mem new⟩
  | @copy seen seen' file n line rest out plain _ ih =>
    obtain ⟨others, own, fresh⟩ := ih current
    refine ⟨fun f hne hf => ?_, ?_, fun f mem new => ?_⟩
    · rw [List.filter_cons_of_neg (by simpa using Ne.symm hne)]
      exact others f hne hf
    · rw [List.filter_cons_of_pos (by simp), own, ownLines, plain]
    · have hne : file ≠ f := fun same => new (same ▸ current)
      rw [List.filter_cons_of_neg (by simpa using hne)]
      exact fresh f mem new
  | @again seen seen' file other n line rest out named _ _ ih =>
    obtain ⟨others, own, fresh⟩ := ih current
    refine ⟨others, ?_, fresh⟩
    rw [own, ownLines, named]
  | @once seen seen₁ seen' file other n line rest inner out named new first tail ih₁ ih =>
    obtain ⟨others₁, own₁, fresh₁⟩ := ih₁ (by simp)
    obtain ⟨others, own, fresh⟩ := ih (first.subset _ (by simp [current]))
    have differs : file ≠ other := fun same => new (same ▸ current)
    refine ⟨fun f hne hf => ?_, ?_, fun f mem unseen => ?_⟩
    · rw [List.filter_append, List.append_eq_nil_iff]
      cases hf with
      | inl early =>
        have hother : f ≠ other := fun same => new (same ▸ early)
        exact ⟨others₁ f hother (.inl (by simp [early])),
          others f hne (.inl (first.subset _ (by simp [early])))⟩
      | inr never =>
        have hother : f ≠ other := by
          rintro rfl
          exact never (tail.subset _ (first.subset _ (by simp)))
        exact ⟨others₁ f hother (.inr fun mem => never (tail.subset _ mem)),
          others f hne (.inr never)⟩
    · rw [List.filter_append, others₁ file differs (.inl (by simp [current])), own, List.nil_append,
        ownLines, named]
    have hne : f ≠ file := fun same => unseen (same ▸ current)
    rw [List.filter_append]
    by_cases early : f ∈ seen₁
    · rw [others f hne (.inl early), List.append_nil]
      by_cases same : f = other
      · subst same
        exact own₁
      · exact fresh₁ f early (by simp [unseen, same])
    · have hother : f ≠ other := by
        rintro rfl
        exact early (first.subset _ (by simp))
      rw [others₁ f hother (.inr early), List.nil_append]
      exact fresh f mem early

/-- Every file that can be reached has its own lines copied once and in order. -/
theorem reachable_own_lines {root : F}
    (h : Splices lines target [root] root 1 (lines root) out seen') {f : F}
    (reach : ReachesFile lines target root f) :
    out.filter (fun o => decide (o.file = f)) = ownLines target f 1 (lines f) := by
  obtain ⟨-, own, fresh⟩ := h.own_lines (by simp)
  by_cases same : f = root
  · subst same
    exact own
  · exact fresh f (h.reachable_seen reach) (by simpa using same)

end Splices

end Elisa.Lib
