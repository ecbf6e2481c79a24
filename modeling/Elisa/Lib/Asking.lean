import Mathlib.Order.WellFounded

/-!
# Procedures that ask each other

Procedures that call each other are one family of queries.  What a query does is an `Asking`: it is
done with a value, or it asks a query and goes on with the answer.  A query returns if some number
of rounds of calls answers it (`Returns`): every query does if it asks smaller ones only
(`returns_of_smaller`), and none of those that always come to ask one of themselves
(`not_returns_of_circle`).
-/

namespace Elisa.Lib

/-- A computation that asks queries. -/
inductive Asking {Query : Type} (Answer : Query → Type) (α : Type) where
  | done (value : α)
  | ask (query : Query) (next : Answer query → Asking Answer α)

namespace Asking

variable {Query : Type} {Answer : Query → Type} {α β : Type}

protected def bind : Asking Answer α → (α → Asking Answer β) → Asking Answer β
  | done value, f => f value
  | ask query next, f => ask query fun answer => (next answer).bind f

instance : Monad (Asking Answer) where
  pure := done
  bind := Asking.bind

@[simp] theorem pure_eq (value : α) : (pure value : Asking Answer α) = done value := rfl

@[simp] theorem done_bind (value : α) (f : α → Asking Answer β) : (done value >>= f) = f value :=
  rfl

@[simp] theorem ask_bind (query : Query) (next : Answer query → Asking Answer α)
    (f : α → Asking Answer β) : (ask query next >>= f) = ask query fun a => next a >>= f := rfl

def call (query : Query) : Asking Answer (Answer query) := ask query done

/-- Whether an element passes a test, asked from the first on and no further than needed. -/
def anyOf (test : β → Asking Answer Bool) : List β → Asking Answer Bool
  | [] => done false
  | x :: rest => do
    if ← test x then return true
    anyOf test rest

def orElse (left right : Asking Answer Bool) : Asking Answer Bool := do
  if ← left then return true
  right

def andAlso (left right : Asking Answer Bool) : Asking Answer Bool := do
  if ← left then right else return false

def negate (inner : Asking Answer Bool) : Asking Answer Bool := do return !(← inner)

/-! ## What is asked -/

/-- Whatever the answers are, only queries with a property are asked. -/
def Asks (P : Query → Prop) : Asking Answer α → Prop
  | done _ => True
  | ask query next => P query ∧ ∀ answer, (next answer).Asks P

section Asks

variable {P : Query → Prop}

@[simp] theorem asks_done (value : α) : (done value : Asking Answer α).Asks P := trivial

@[simp] theorem asks_call (query : Query) : (call query : Asking Answer _).Asks P ↔ P query := by
  simp [call, Asks]

theorem Asks.bind {x : Asking Answer α} {f : α → Asking Answer β} (first : x.Asks P)
    (rest : ∀ value, (f value).Asks P) : (x >>= f).Asks P := by
  induction x with
  | done value => exact rest value
  | ask query next ih => exact ⟨first.1, fun answer => ih answer (first.2 answer)⟩

theorem Asks.ite {c : Prop} [Decidable c] {x y : Asking Answer α} (first : x.Asks P)
    (second : y.Asks P) : (if c then x else y).Asks P := by
  split
  · exact first
  · exact second

theorem Asks.anyOf {test : β → Asking Answer Bool} {list : List β}
    (each : ∀ x ∈ list, (test x).Asks P) : (anyOf test list).Asks P := by
  induction list with
  | nil => trivial
  | cons x rest ih =>
    refine (each x (.head _)).bind fun found => .ite trivial ?_
    exact ih fun y mem => each y (.tail _ mem)

theorem Asks.orElse {left right : Asking Answer Bool} (first : left.Asks P)
    (second : right.Asks P) : (orElse left right).Asks P :=
  first.bind fun _ => .ite trivial second

theorem Asks.andAlso {left right : Asking Answer Bool} (first : left.Asks P)
    (second : right.Asks P) : (andAlso left right).Asks P :=
  first.bind fun _ => .ite second trivial

theorem Asks.negate {inner : Asking Answer Bool} (asks : inner.Asks P) : (negate inner).Asks P :=
  asks.bind fun _ => trivial

theorem Asks.mono {Q : Query → Prop} {x : Asking Answer α} (asks : x.Asks P)
    (le : ∀ query, P query → Q query) : x.Asks Q := by
  induction x with
  | done value => trivial
  | ask query next ih => exact ⟨le query asks.1, fun answer => ih answer (asks.2 answer)⟩

end Asks

/-! ## Answers -/

/-- The value of a computation whose queries have these answers. -/
def eval (answers : (query : Query) → Option (Answer query)) : Asking Answer α → Option α
  | done value => some value
  | ask query next => (answers query).bind fun answer => (next answer).eval answers

theorem eval_mono {answers more : (query : Query) → Option (Answer query)}
    (le : ∀ query answer, answers query = some answer → more query = some answer)
    {x : Asking Answer α} {value : α} (h : x.eval answers = some value) :
    x.eval more = some value := by
  induction x with
  | done _ => exact h
  | ask query next ih =>
    obtain ⟨answer, known, rest⟩ := Option.bind_eq_some_iff.mp h
    exact Option.bind_eq_some_iff.mpr ⟨answer, le query answer known, ih answer rest⟩

end Asking

section Family

variable {Query : Type} {Answer : Query → Type}
variable (body : (query : Query) → Asking Answer (Answer query))

/-- The answer to a query within a number of rounds of calls. -/
def answerWithin : Nat → (query : Query) → Option (Answer query)
  | 0, _ => none
  | rounds + 1, query => (body query).eval (answerWithin rounds)

/-- A query has an answer within some number of rounds. -/
def Answers (query : Query) (answer : Answer query) : Prop :=
  ∃ rounds, answerWithin body rounds query = some answer

def Returns (query : Query) : Prop := ∃ answer, Answers body query answer

variable {body} {query : Query} {rounds more : Nat}

theorem answerWithin_succ {answer : Answer query}
    (h : answerWithin body rounds query = some answer) :
    answerWithin body (rounds + 1) query = some answer := by
  induction rounds generalizing query with
  | zero => cases h
  | succ rounds ih => exact Asking.eval_mono (fun _ _ known => ih known) h

theorem answerWithin_mono (le : rounds ≤ more) {answer : Answer query}
    (h : answerWithin body rounds query = some answer) :
    answerWithin body more query = some answer := by
  induction le with
  | refl => exact h
  | step _ ih => exact answerWithin_succ ih

/-- A computation that asks queries that return only has a value. -/
theorem exists_eval {α : Type} {x : Asking Answer α} (asks : x.Asks (Returns body)) :
    ∃ rounds value, x.eval (answerWithin body rounds) = some value := by
  induction x with
  | done value => exact ⟨0, value, rfl⟩
  | ask asked next ih =>
    obtain ⟨⟨answer, first, known⟩, goOn⟩ := asks
    obtain ⟨second, value, rest⟩ := ih answer (goOn answer)
    refine ⟨max first second, value, Option.bind_eq_some_iff.mpr ⟨answer, ?_, ?_⟩⟩
    · exact answerWithin_mono (Nat.le_max_left _ _) known
    · exact Asking.eval_mono
        (fun _ _ found => answerWithin_mono (Nat.le_max_right _ _) found) rest

theorem returns_of_asks (asks : (body query).Asks (Returns body)) : Returns body query := by
  obtain ⟨rounds, answer, value⟩ := exists_eval asks
  exact ⟨answer, rounds + 1, value⟩

theorem returns_of_smaller {Size : Type} [Preorder Size] [WellFoundedLT Size] {size : Query → Size}
    {P : Query → Prop}
    (smaller : ∀ query, P query → (body query).Asks fun asked => P asked ∧ size asked < size query)
    (holds : P query) : Returns body query := by
  induction hsize : size query using WellFoundedLT.induction generalizing query with
  | ind _ ih =>
    refine returns_of_asks ((smaller query holds).mono fun asked less => ?_)
    exact ih (size asked) (hsize ▸ less.2) less.1 rfl

/-! ## Circles -/

/-- A computation comes to ask a query of a kind, if all it asks before is answered. -/
def ComesTo {α : Type} (body : (query : Query) → Asking Answer (Answer query)) (P : Query → Prop) :
    Asking Answer α → Prop
  | .done _ => False
  | .ask asked next => P asked ∨ ∀ answer, Answers body asked answer → ComesTo body P (next answer)

theorem eval_of_comesTo {α : Type} {P : Query → Prop} {x : Asking Answer α}
    (comes : ComesTo body P x)
    (unanswered : ∀ asked, P asked → answerWithin body rounds asked = none) :
    x.eval (answerWithin body rounds) = none := by
  induction x with
  | done _ => exact comes.elim
  | ask asked next ih =>
    rw [Asking.eval, Option.bind_eq_none_iff]
    intro answer known
    rcases comes with here | later
    · rw [unanswered asked here] at known
      cases known
    · exact ih answer (later answer ⟨rounds, known⟩)

/-- Queries of a kind that all come to ask one of their kind never return. -/
theorem not_returns_of_circle {P : Query → Prop}
    (circle : ∀ query, P query → ComesTo body P (body query)) (holds : P query) :
    ¬ Returns body query := by
  rintro ⟨answer, rounds, found⟩
  have unanswered (rounds : Nat) : ∀ asked, P asked → answerWithin body rounds asked = none := by
    induction rounds with
    | zero => exact fun _ _ => rfl
    | succ rounds ih => exact fun asked here => eval_of_comesTo (circle asked here) ih
  rw [unanswered rounds query holds] at found
  cases found

end Family

end Elisa.Lib
