import Mathlib.Data.List.Basic

/-!
# A list inside a list

`OccursAt data p part` says that `part` stands in `data` from position `p` on.  What was written at
a place is taken apart with `left` and `right`, and read off with `getElem?_eq` and `slice_eq`.
-/

namespace Elisa.Lib

variable {α : Type*}

/-- `part` stands in `data` from position `p` on. -/
def OccursAt (data : List α) (p : Nat) (part : List α) : Prop :=
  ∃ before after, data = before ++ part ++ after ∧ before.length = p

namespace OccursAt

variable {data part a b : List α} {p : Nat}

theorem of_append (before part after : List α) :
    OccursAt (before ++ part ++ after) before.length part := ⟨before, after, rfl, rfl⟩

theorem whole (data : List α) : OccursAt data 0 data := ⟨[], [], by simp, rfl⟩

theorem left (h : OccursAt data p (a ++ b)) : OccursAt data p a := by
  obtain ⟨before, after, rfl, rfl⟩ := h
  exact ⟨before, b ++ after, by simp, rfl⟩

theorem right (h : OccursAt data p (a ++ b)) : OccursAt data (p + a.length) b := by
  obtain ⟨before, after, rfl, rfl⟩ := h
  exact ⟨before ++ a, after, by simp, by simp⟩

theorem tail {x : α} (h : OccursAt data p (x :: b)) : OccursAt data (p + 1) b :=
  right (a := [x]) h

theorem add_length_le (h : OccursAt data p part) : p + part.length ≤ data.length := by
  obtain ⟨before, after, rfl, rfl⟩ := h
  simp only [List.length_append]
  omega

theorem getElem?_eq {x : α} (h : OccursAt data p (x :: b)) : data[p]? = some x := by
  obtain ⟨before, after, rfl, rfl⟩ := h
  simp

theorem slice_eq (h : OccursAt data p part) : (data.drop p).take part.length = part := by
  obtain ⟨before, after, rfl, rfl⟩ := h
  simp

end OccursAt

end Elisa.Lib
