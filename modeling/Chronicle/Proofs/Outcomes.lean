import Mathlib
import Chronicle.Fault

/-!
# Outcomes step by step

A computation that may fail has a result when each of its parts has one. The lemmas on `= .ok` take
it apart, whatever its faults are.
-/
namespace Chronicle.Outcome

variable {ε ε' α β : Type} {outcome : Except ε α} {a : α} {b : β}

theorem eq_ok_of_toOption (h : outcome.toOption = some a) : outcome = .ok a := by
  cases outcome with
  | error fault => cases h
  | ok found => exact congrArg _ (Option.some.inj h)

theorem bind_eq_ok {f : α → Except ε β} :
    outcome >>= f = .ok b ↔ ∃ a, outcome = .ok a ∧ f a = .ok b := by
  cases outcome <;> simp [bind, Except.bind]

theorem map_eq_ok {f : α → β} : f <$> outcome = .ok b ↔ ∃ a, outcome = .ok a ∧ f a = b := by
  cases outcome <;> simp [Functor.map, Except.map]

theorem mapError_eq_ok {f : ε → ε'} : outcome.mapError f = .ok a ↔ outcome = .ok a := by
  cases outcome <;> simp [Except.mapError]

/-- A list is gone through element by element. -/
theorem forall₂_of_mapM {f : α → Except ε β} {xs : List α} {ys : List β} (h : xs.mapM f = .ok ys) :
    List.Forall₂ (fun x y => f x = .ok y) xs ys := by
  induction xs generalizing ys with
  | nil =>
    cases h
    exact .nil
  | cons x xs ih =>
    rw [List.mapM_cons] at h
    obtain ⟨y, hx, h⟩ := bind_eq_ok.mp h
    obtain ⟨rest, hxs, h⟩ := bind_eq_ok.mp h
    cases h
    exact .cons hx (ih hxs)

end Chronicle.Outcome
