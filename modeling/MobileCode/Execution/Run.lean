import MobileCode.Error

/-! # Computations on a state

A computation can fail, and it can run out of the budget it was given. A failure keeps the state
that was reached; without budget there is no answer at all.
-/
namespace MobileCode

abbrev Run (σ α : Type) : Type := ExceptT Error (StateT σ Option) α

namespace Run
variable {σ τ α : Type}

def ofExcept (x : Except Error α) : Run σ α := fun s => some (x, s)

def outOfBudget : Run σ α := fun _ => none

/-- No answer where there is no value. -/
def ofOption : Option α → Run σ α
  | some x => pure x
  | none => outOfBudget

/-- Runs on a part of the state. -/
def zoom (part : σ → τ) (put : τ → σ → σ) (x : Run τ α) : Run σ α := fun s =>
  match x (part s) with
  | some (r, t) => some (r, put t s)
  | none => none

/-- Turns failure into a value. -/
def attempt (x : Run σ α) : Run σ (Except Error α) := fun s =>
  match x s with
  | some (r, t) => some (.ok r, t)
  | none => none

end Run
end MobileCode
