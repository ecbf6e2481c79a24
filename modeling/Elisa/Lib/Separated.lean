import Mathlib.Data.List.Chain

/-!
# Words behind separators

Words that each stand behind one separator can be taken apart again when none contains it.  Words
behind two separators can be when none has two in a row, nor one at its end.
-/

namespace Elisa.Lib

open List

variable {α : Type*}

/-- A rest is empty or starts with an element of a kind. -/
def StartsWith (p : α → Prop) (rest : List α) : Prop :=
  rest = [] ∨ ∃ a tail, p a ∧ rest = a :: tail

theorem append_inj_of_startsWith {p : α → Prop} {u v r s : List α} (hu : ∀ a ∈ u, ¬ p a)
    (hv : ∀ a ∈ v, ¬ p a) (hr : StartsWith p r) (hs : StartsWith p s) (h : u ++ r = v ++ s) :
    u = v ∧ r = s := by
  induction u generalizing v with
  | nil =>
    cases v with
    | nil => exact ⟨rfl, h⟩
    | cons b v =>
      rcases hr with rfl | ⟨a, tail, ha, rfl⟩
      · cases h
      · exact absurd ha ((cons.inj h).1 ▸ hv b mem_cons_self)
  | cons a u ih =>
    cases v with
    | nil =>
      rcases hs with rfl | ⟨b, tail, hb, rfl⟩
      · cases h
      · exact absurd hb ((cons.inj h).1 ▸ hu a mem_cons_self)
    | cons b v =>
      obtain ⟨rfl, tails⟩ := cons.inj h
      obtain ⟨rfl, rfl⟩ := ih (fun x hx => hu x (mem_cons_of_mem _ hx))
        (fun x hx => hv x (mem_cons_of_mem _ hx)) tails
      exact ⟨rfl, rfl⟩

/-- The words, each behind a separator. -/
def writeBehind (separator : List α) (words : List (List α)) : List α :=
  words.flatMap (separator ++ ·)

variable {separator : List α} {word : List α} {words : List (List α)}

@[simp] theorem writeBehind_nil : writeBehind separator [] = [] := rfl

@[simp] theorem writeBehind_cons :
    writeBehind separator (word :: words) = separator ++ word ++ writeBehind separator words := rfl

@[simp] theorem writeBehind_append {others : List (List α)} :
    writeBehind separator (words ++ others) =
      writeBehind separator words ++ writeBehind separator others :=
  flatMap_append

variable {c : α}

/-! ## One separator -/

/-- A word is not empty and does not contain the separator. -/
def IsWord (c : α) (word : List α) : Prop := word ≠ [] ∧ c ∉ word

theorem startsWith_writeBehind : StartsWith (· = c) (writeBehind [c] words) := by
  cases words with
  | nil => exact Or.inl rfl
  | cons word words => exact Or.inr ⟨c, word ++ writeBehind [c] words, rfl, rfl⟩

theorem writeBehind_injective {us vs : List (List α)} (hu : ∀ u ∈ us, IsWord c u)
    (hv : ∀ v ∈ vs, IsWord c v) (h : writeBehind [c] us = writeBehind [c] vs) : us = vs := by
  induction us generalizing vs with
  | nil =>
    cases vs with
    | nil => rfl
    | cons v vs => cases h
  | cons u us ih =>
    cases vs with
    | nil => cases h
    | cons v vs =>
      have clean : ∀ {w : List α}, IsWord c w → ∀ a ∈ w, ¬ a = c := fun hw a ha eq => hw.2 (eq ▸ ha)
      obtain ⟨rfl, tails⟩ := append_inj_of_startsWith (clean (hu u mem_cons_self))
        (clean (hv v mem_cons_self)) startsWith_writeBehind startsWith_writeBehind
        (cons.inj h).2
      rw [ih (fun x hx => hu x (mem_cons_of_mem _ hx))
        (fun x hx => hv x (mem_cons_of_mem _ hx)) tails]

/-! ## Two separators -/

/-- A word has no two separators in a row, even with one more behind it. -/
def IsHead (c : α) (word : List α) : Prop := (word ++ [c]).IsChain fun a b => ¬ (a = c ∧ b = c)

instance [DecidableEq α] : Decidable (IsHead c word) :=
  inferInstanceAs (Decidable (List.IsChain _ _))

theorem IsWord.isHead (h : IsWord c word) : IsHead c word := by
  refine isChain_append.mpr ⟨List.Pairwise.isChain ?_, .singleton c, ?_⟩
  · exact pairwise_of_forall_mem_list fun a ha _ _ same => h.2 (same.1 ▸ ha)
  · intro a last _ _ same
    exact h.2 (same.1 ▸ mem_of_getLast? last)

/-- Words behind one separator make a head longer. -/
theorem IsHead.append_writeBehind (head : IsHead c word) (rest : ∀ w ∈ words, IsWord c w) :
    IsHead c (word ++ writeBehind [c] words) := by
  induction words generalizing word with
  | nil => rwa [writeBehind_nil, append_nil]
  | cons next words ih =>
    have word_next : IsHead c (word ++ [c] ++ next) := by
      have isWord := rest next mem_cons_self
      unfold IsHead
      rw [append_assoc]
      refine isChain_append.mpr ⟨head, isWord.isHead, ?_⟩
      intro a _ b first same
      obtain ⟨x, xs, rfl⟩ := exists_cons_of_ne_nil isWord.1
      cases first
      exact isWord.2 (same.2 ▸ mem_cons_self)
    have longer := ih word_next fun w hw => rest w (mem_cons_of_mem _ hw)
    simpa only [writeBehind_cons, append_assoc] using longer

/-- A rest is empty or starts with two separators. -/
def StartsDoubled (c : α) (rest : List α) : Prop := rest = [] ∨ ∃ tail, rest = c :: c :: tail

theorem startsDoubled_writeBehind : StartsDoubled c (writeBehind [c, c] words) := by
  cases words with
  | nil => exact Or.inl rfl
  | cons word words => exact Or.inr ⟨word ++ writeBehind [c, c] words, rfl⟩

/-- A head cannot be continued by the beginning of a rest to another head. -/
theorem head_append_eq_nil {u d r s : List α} (hud : IsHead c (u ++ d))
    (hr : StartsDoubled c r) (h : r = d ++ s) : d = [] := by
  have chain : (d ++ [c]).IsChain fun a b => ¬ (a = c ∧ b = c) := by
    unfold IsHead at hud
    rw [append_assoc] at hud
    exact hud.right_of_append
  rcases hr with rfl | ⟨tail, rfl⟩
  · exact (append_eq_nil_iff.mp h.symm).1
  match d with
  | [] => rfl
  | [x] =>
    obtain ⟨rfl, -⟩ := cons.inj h
    simp at chain
  | x :: y :: d =>
    obtain ⟨rfl, tails⟩ := cons.inj h
    obtain ⟨rfl, -⟩ := cons.inj tails
    simp at chain

theorem head_append_inj {u v r s : List α} (hu : IsHead c u) (hv : IsHead c v)
    (hr : StartsDoubled c r) (hs : StartsDoubled c s) (h : u ++ r = v ++ s) : u = v ∧ r = s := by
  rcases append_eq_append_iff.mp h with ⟨d, rfl, eq⟩ | ⟨d, rfl, eq⟩
  · have : d = [] := head_append_eq_nil hv hr eq
    subst this
    exact ⟨(append_nil u).symm, eq⟩
  · have : d = [] := head_append_eq_nil hu hs eq
    subst this
    exact ⟨append_nil v, eq.symm⟩

theorem writeBehind_two_injective {us vs : List (List α)} (hu : ∀ u ∈ us, IsHead c u)
    (hv : ∀ v ∈ vs, IsHead c v) (h : writeBehind [c, c] us = writeBehind [c, c] vs) : us = vs := by
  induction us generalizing vs with
  | nil =>
    cases vs with
    | nil => rfl
    | cons v vs => cases h
  | cons u us ih =>
    cases vs with
    | nil => cases h
    | cons v vs =>
      obtain ⟨rfl, tails⟩ := head_append_inj (hu u mem_cons_self) (hv v mem_cons_self)
        startsDoubled_writeBehind startsDoubled_writeBehind (cons.inj (cons.inj h).2).2
      rw [ih (fun x hx => hu x (mem_cons_of_mem _ hx))
        (fun x hx => hv x (mem_cons_of_mem _ hx)) tails]

end Elisa.Lib
