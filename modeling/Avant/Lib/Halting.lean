import Avant.Lib.Program

/-!
# Readers that throw

A reader takes a position in a text and returns a value with the position behind it, or throws.
Loops of the source without a bound get a number of turns; one that uses them up stops as
`exhausted`, which is not an answer of the program.

`Yields r P` is the postcondition of such a computation: it has not used up its turns, and what it
returns, if it returns, satisfies `P`. A function is then described by one such statement, and the
statements of its parts compose by `Yields.bind`.

* `Yields.ok_or_threw`: a computation with a postcondition ends, by returning or by throwing.
-/

namespace Avant.Lib

/-- How a computation ends without a value. -/
inductive Stop
  /-- `throw std::logic_error(message)` -/
  | threw (message : String)
  /-- the turns given to a loop did not suffice -/
  | exhausted
  deriving DecidableEq

variable {α β : Type}

/-- `throw std::logic_error(message)` -/
def logicError (message : String) : Except Stop α := .error (.threw message)

/-- `r` is an answer, and a returned value satisfies `P`. -/
def Yields (r : Except Stop α) (P : α → Prop) : Prop :=
  match r with
  | .ok a => P a
  | .error (.threw _) => True
  | .error .exhausted => False

namespace Yields

variable {r : Except Stop α} {P Q : α → Prop}

theorem ok {a : α} (h : P a) : Yields (.ok a) P := h

theorem threw (message : String) : Yields (logicError message) P := trivial

theorem mono (h : Yields r P) (hPQ : ∀ a, P a → Q a) : Yields r Q := by
  match r, h with
  | .ok a, h => exact hPQ a h
  | .error (.threw _), _ => trivial

theorem bind {f : α → Except Stop β} {R : β → Prop} (h : Yields r P)
    (hf : ∀ a, P a → Yields (f a) R) : Yields (r >>= f) R := by
  match r, h with
  | .ok a, h => exact hf a h
  | .error (.threw _), _ => trivial

theorem ite {c : Prop} [Decidable c] {x y : Except Stop α} (hx : c → Yields x P)
    (hy : ¬ c → Yields y P) : Yields (if c then x else y) P := by
  split
  · next h => exact hx h
  · next h => exact hy h

/-- **A computation with a postcondition ends**, by returning or by throwing. -/
theorem ok_or_threw (h : Yields r P) :
    (∃ a, r = .ok a ∧ P a) ∨ ∃ message, r = .error (.threw message) := by
  match r, h with
  | .ok a, h => exact .inl ⟨a, rfl, h⟩
  | .error (.threw m), _ => exact .inr ⟨m, rfl⟩

end Yields

end Avant.Lib
