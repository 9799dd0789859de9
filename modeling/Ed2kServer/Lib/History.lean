import Mathlib.Data.List.Induction
import Ed2kServer.Lib.Transition

namespace Ed2kServer.Lib.History

open Ed2kServer.Lib.Transition

variable {S E : Type} {step : S → E → Option S}

theorem along_mono {C D : S → E → Prop} (hCD : ∀ s e, C s e → D s e) {s : S} {es : List E}
    (h : Along step C s es) : Along step D s es := by
  induction es generalizing s with
  | nil => trivial
  | cons e es ih => exact ⟨hCD s e h.1, fun t ht => ih (h.2 t ht)⟩

theorem along_of_append {C : S → E → Prop} {s : S} {es fs : List E}
    (h : Along step C s (es ++ fs)) : Along step C s es :=
  (along_append.mp h).1

/-- What holds at the end of a run and not at its start was brought about by an event of the run,
the last that `Q` tells of. -/
theorem exec_since {P : S → Prop} {Q : S → E → Prop}
    (hstep : ∀ s e t, step s e = some t → P t → P s ∨ Q s e) {s u : S} {es : List E}
    (hs : ¬ P s) (hrun : exec step s es = some u) (hu : P u) :
    ∃ before e after v, es = before ++ e :: after ∧ exec step s before = some v ∧ Q v e := by
  induction es using List.reverseRecOn generalizing u with
  | nil =>
    cases hrun
    exact absurd hu hs
  | append_singleton es e ih =>
    obtain ⟨t, ht, hlast⟩ := exec_concat_eq_some.mp hrun
    obtain hold | hq := hstep t e u hlast hu
    · obtain ⟨before, e', after, v, rfl, hv, hq⟩ := ih ht hold
      exact ⟨before, e', after ++ [e], v, by simp, hv, hq⟩
    · exact ⟨es, e, [], t, rfl, ht, hq⟩

/-- What stands in a log that grew by one event. -/
theorem concat_eq_split {log before after : List E} {x y : E}
    (h : log ++ [x] = before ++ y :: after) :
    (after = [] ∧ log = before ∧ x = y) ∨
      ∃ after', after = after' ++ [x] ∧ log = before ++ y :: after' := by
  obtain rfl | ⟨after', z, rfl⟩ := List.eq_nil_or_concat after
  · obtain ⟨rfl, hxy⟩ := List.append_inj' h rfl
    exact .inl ⟨rfl, rfl, List.singleton_inj.mp hxy⟩
  · rw [List.concat_eq_append, ← List.cons_append, ← List.append_assoc] at h
    obtain ⟨hlog, hxz⟩ := List.append_inj' h rfl
    obtain rfl := List.singleton_inj.mp hxz
    exact .inr ⟨after', List.concat_eq_append, hlog⟩

end Ed2kServer.Lib.History
