import Mathlib.Logic.Basic

namespace Ed2kServer.Lib.Failing

variable {E E' A B : Type} {x : Except E A} {f : A → Except E B} {y : A} {z : B} {e bad : E}

theorem bind_ok (h : x >>= f = .ok z) : ∃ y, x = .ok y ∧ f y = .ok z := by
  cases x with
  | error e => cases h
  | ok y => exact ⟨y, rfl, h⟩

theorem mapError_ok {g : E → E'} (h : x.mapError g = .ok y) : x = .ok y := by
  cases x with
  | error e => cases h
  | ok y' =>
    cases h
    rfl

/-- A check that was passed. -/
theorem guard_ok {p : Prop} [Decidable p] {f : PUnit → Except E B}
    (h : (if p then throw e >>= f else f ⟨⟩) = .ok z) : ¬ p ∧ f ⟨⟩ = .ok z := by
  split at h
  · cases h
  · rename_i hp
    exact ⟨hp, h⟩

/-- The computation does not end in this error. -/
def Avoids (bad : E) (x : Except E A) : Prop := x ≠ .error bad

theorem avoids_ok (y : A) : Avoids bad (.ok y) := fun h => by cases h

theorem avoids_error (he : e ≠ bad) : Avoids bad (.error e : Except E A) :=
  fun h => he (Except.error.inj h)

theorem avoids_bind (hx : Avoids bad x) (hf : ∀ y, x = .ok y → Avoids bad (f y)) :
    Avoids bad (x >>= f) := by
  cases x with
  | error e => exact fun h => hx (congrArg _ (Except.error.inj h))
  | ok y => exact hf y rfl

theorem avoids_guard {p : Prop} [Decidable p] {f : PUnit → Except E B} (he : e ≠ bad)
    (hf : ¬ p → Avoids bad (f ⟨⟩)) : Avoids bad (if p then throw e >>= f else f ⟨⟩) := by
  split
  · exact avoids_error he
  · rename_i hp
    exact hf hp

end Ed2kServer.Lib.Failing
