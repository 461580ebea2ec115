/-!
# Computations that may fail

A computation of several parts succeeds exactly if each part does, and then its value comes
from the values of the parts.  A computation that is opened with these facts is not unfolded.

## Main results

* `except_bind_eq_ok_iff` — two computations in a row
* `except_toOption_eq_some_iff` — a computation whose errors are forgotten
* `mapError_eq_ok_iff` — a computation whose errors are renamed
-/

namespace WordMachine

variable {ε ε' α β : Type}

/-- Two computations in a row succeed exactly if both do. -/
theorem except_bind_eq_ok_iff {x : Except ε α} {f : α → Except ε β} {b : β} :
    x >>= f = .ok b ↔ ∃ a, x = .ok a ∧ f a = .ok b := by
  cases x with
  | error e =>
      constructor
      · intro h
        cases h
      · rintro ⟨a, h, -⟩
        cases h
  | ok a =>
      constructor
      · intro h
        exact ⟨a, rfl, h⟩
      · rintro ⟨a', ha, h⟩
        cases ha
        exact h

/-- A computation that succeeds has a first part that succeeds. -/
theorem except_bind_eq_ok {x : Except ε α} {f : α → Except ε β} {b : β}
    (h : x >>= f = .ok b) : ∃ a, x = .ok a ∧ f a = .ok b :=
  except_bind_eq_ok_iff.mp h

/-- After a first part that succeeds, a computation goes on with its value. -/
theorem except_bind_of_ok {x : Except ε α} {a : α} (h : x = .ok a) (f : α → Except ε β) :
    x >>= f = f a := by
  rw [h]
  rfl

/-- A computation that yields an optional value yields that of a success. -/
theorem except_toOption_eq_some_iff {x : Except ε α} {a : α} :
    x.toOption = some a ↔ x = .ok a := by
  cases x with
  | error e => simp [Except.toOption]
  | ok v => simp [Except.toOption]

theorem mapError_eq_ok_iff {x : Except ε α} {f : ε → ε'} {a : α} :
    x.mapError f = .ok a ↔ x = .ok a := by
  cases x with
  | error e =>
      constructor
      · intro h
        cases h
      · intro h
        cases h
  | ok v =>
      constructor
      · intro h
        cases h
        rfl
      · intro h
        cases h
        rfl

end WordMachine
