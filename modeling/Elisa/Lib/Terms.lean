import Mathlib.Order.WellFounded

/-!
# Terms and their parts

Finite trees with a tag at every node.  A part of a term is reached by going down at least once;
there is no infinite chain of parts.
-/

namespace Elisa.Lib

/-- A finite tree. -/
inductive Term (Tag : Type) where
  | node (tag : Tag) (parts : List (Term Tag))

namespace Term

variable {Tag : Type}

/-- The terms that a term is built from directly. -/
def parts : Term Tag → List (Term Tag)
  | node _ parts => parts

def Child (inner outer : Term Tag) : Prop := inner ∈ outer.parts

def Part : Term Tag → Term Tag → Prop := Relation.TransGen Child

theorem Part.trans {inner middle outer : Term Tag} (first : Part inner middle)
    (second : Part middle outer) : Part inner outer :=
  Relation.TransGen.trans first second

mutual

theorem acc_child : ∀ term : Term Tag, Acc Child term
  | node _ parts => ⟨_, fun inner (mem : inner ∈ parts) => acc_of_mem parts inner mem⟩

theorem acc_of_mem : ∀ (parts : List (Term Tag)) (inner : Term Tag), inner ∈ parts →
    Acc Child inner
  | first :: rest, inner, mem => by
    rcases List.mem_cons.mp mem with here | later
    · rw [here]
      exact acc_child first
    · exact acc_of_mem rest inner later

end

theorem wellFounded_part : WellFounded (Part : Term Tag → Term Tag → Prop) :=
  WellFounded.transGen ⟨acc_child⟩

end Term

end Elisa.Lib
