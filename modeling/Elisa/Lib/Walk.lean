import Mathlib.Data.List.Perm.Subperm

/-!
# Walks of a partial step function

A partial step function `next : σ → Option σ` is followed: `hops next k s` is the state `k` hops
after `s`, if the walk gets that far.  It *halts* at a state that has no next one, and at one only
(`HaltsAt.unique`).  A walk that halts visits no state twice, so a loop bounded by the number of
states never cuts it short (`HaltsAt.hops_le`).
-/

namespace Elisa.Walk

variable {σ : Type*} {next : σ → Option σ}

/-! ## Hops -/

/-- The state `k` hops after `s`, if there is one. -/
def hops (next : σ → Option σ) : Nat → σ → Option σ
  | 0, s => some s
  | k + 1, s => (next s).bind (hops next k)

@[simp] theorem hops_zero (s : σ) : hops next 0 s = some s := rfl

variable {s s' : σ}

theorem hops_succ_some (k : Nat) (h : next s = some s') : hops next (k + 1) s = hops next k s' := by
  simp [hops, h]

theorem hops_succ_none (k : Nat) (h : next s = none) : hops next (k + 1) s = none := by
  simp [hops, h]

theorem hops_add (m : Nat) :
    ∀ (k : Nat) (s : σ), hops next (k + m) s = (hops next k s).bind (hops next m)
  | 0, s => by simp
  | k + 1, s => by
      cases h : next s with
      | none =>
        rw [show k + 1 + m = (k + m) + 1 by omega, hops_succ_none _ h, hops_succ_none _ h]
        rfl
      | some s' =>
        rw [show k + 1 + m = (k + m) + 1 by omega, hops_succ_some _ h, hops_succ_some _ h]
        exact hops_add m k s'

/-! ## Halting -/

/-- The walk from `s` halts at `s'` after `k` hops. -/
def HaltsAt (next : σ → Option σ) (k : Nat) (s s' : σ) : Prop :=
  hops next k s = some s' ∧ next s' = none

theorem haltsAt_zero : HaltsAt next 0 s s' ↔ s = s' ∧ next s = none := by
  constructor
  · rintro ⟨h, hn⟩
    cases h
    exact ⟨rfl, hn⟩
  · rintro ⟨rfl, hn⟩
    exact ⟨rfl, hn⟩

variable {t : σ} {k : Nat}

theorem haltsAt_succ (h : next s = some t) : HaltsAt next (k + 1) s s' ↔ HaltsAt next k t s' := by
  unfold HaltsAt
  rw [hops_succ_some _ h]

/-- A walk that halts after a hop has a first hop. -/
theorem HaltsAt.exists_next (h : HaltsAt next (k + 1) s s') :
    ∃ t, next s = some t ∧ HaltsAt next k t s' := by
  cases hn : next s with
  | none =>
    have := h.1
    rw [hops_succ_none _ hn] at this
    cases this
  | some t => exact ⟨t, rfl, (haltsAt_succ hn).1 h⟩

/-- The length and the end of a halting walk are determined by its start. -/
theorem HaltsAt.unique : ∀ {j k : Nat} {s a b : σ},
    HaltsAt next j s a → HaltsAt next k s b → j = k ∧ a = b
  | 0, 0, _, _, _, h1, h2 => ⟨rfl, (haltsAt_zero.1 h1).1.symm.trans (haltsAt_zero.1 h2).1⟩
  | 0, k + 1, _, _, _, h1, h2 => by
      obtain ⟨t, ht, -⟩ := h2.exists_next
      rw [(haltsAt_zero.1 h1).2] at ht
      cases ht
  | j + 1, 0, _, _, _, h1, h2 => by
      obtain ⟨t, ht, -⟩ := h1.exists_next
      rw [(haltsAt_zero.1 h2).2] at ht
      cases ht
  | j + 1, k + 1, _, _, _, h1, h2 => by
      obtain ⟨t, ht, h1'⟩ := h1.exists_next
      obtain ⟨hjk, hab⟩ := HaltsAt.unique h1' ((haltsAt_succ ht).1 h2)
      exact ⟨by omega, hab⟩

/-- Every state on the way of a halting walk halts at the same end. -/
theorem HaltsAt.of_hops : ∀ {i k : Nat},
    hops next i s = some t → HaltsAt next k s s' → i ≤ k → HaltsAt next (k - i) t s' := by
  intro i k hi h hik
  refine ⟨?_, h.2⟩
  have hsum := @hops_add σ next (k - i) i s
  rw [show i + (k - i) = k by omega, h.1, hi] at hsum
  exact hsum.symm

/-- A walk that still hops after `k` hops has made each of them. -/
theorem hops_isSome_of_le {i : Nat} (h : hops next k s = some t) (hik : i ≤ k) :
    ∃ u, hops next i s = some u := by
  have hsum := @hops_add σ next (k - i) i s
  rw [show i + (k - i) = k by omega, h] at hsum
  cases hi : hops next i s with
  | none => rw [hi] at hsum; cases hsum
  | some u => exact ⟨u, rfl⟩

/-! ## The length of a halting walk -/

/-- The states a walk visits after its start. -/
def trail (next : σ → Option σ) : Nat → σ → List σ
  | 0, _ => []
  | k + 1, s =>
    match next s with
    | none => []
    | some t => t :: trail next k t

/-- Every state of a trail is reached by some hops, at least one and at most
the length of the trail. -/
theorem mem_trail : ∀ {k : Nat} {s t : σ}, t ∈ trail next k s →
    ∃ i, 0 < i ∧ i ≤ k ∧ hops next i s = some t
  | 0, _, _, h => by cases h
  | k + 1, s, t, h => by
      cases hn : next s with
      | none => simp [trail, hn] at h
      | some u =>
        simp only [trail, hn, List.mem_cons] at h
        rcases h with rfl | h
        · exact ⟨1, by omega, by omega, by simp [hops, hn]⟩
        · obtain ⟨i, hi0, hik, hi⟩ := mem_trail h
          exact ⟨i + 1, by omega, by omega, by rw [hops_succ_some _ hn]; exact hi⟩

theorem HaltsAt.trail_nodup : ∀ {k : Nat} {s s' : σ},
    HaltsAt next k s s' → (trail next k s).Nodup ∧ (trail next k s).length = k
  | 0, _, _, _ => ⟨List.nodup_nil, rfl⟩
  | k + 1, s, s', h => by
      obtain ⟨t, ht, h'⟩ := h.exists_next
      obtain ⟨hnd, hlen⟩ := h'.trail_nodup
      simp only [trail, ht, List.nodup_cons, List.length_cons, hlen, and_true]
      refine ⟨?_, hnd⟩
      intro hmem
      obtain ⟨i, hi0, hik, hi⟩ := mem_trail hmem
      have := (h'.of_hops hi hik).unique h'
      omega

/-- A halting walk takes at most as many hops as there are states to step to. -/
theorem HaltsAt.hops_le {L : List σ} (h : HaltsAt next k s s')
    (hL : ∀ a b, next a = some b → b ∈ L) : k ≤ L.length := by
  classical
  obtain ⟨hnd, hlen⟩ := h.trail_nodup
  rw [← hlen]
  refine (hnd.subperm ?_).length_le
  intro t ht
  obtain ⟨i, hi0, -, hi⟩ := mem_trail ht
  obtain ⟨j, rfl⟩ : ∃ j, i = j + 1 := ⟨i - 1, by omega⟩
  obtain ⟨u, hu⟩ := hops_isSome_of_le hi (show j ≤ j + 1 by omega)
  have hsum := @hops_add σ next 1 j s
  rw [hi, hu] at hsum
  cases hn : next u with
  | none => simp [hops, hn] at hsum
  | some v =>
    simp only [hops, hn, Option.bind_some] at hsum
    cases hsum
    exact hL u t hn

end Elisa.Walk
