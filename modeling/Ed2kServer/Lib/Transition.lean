import Mathlib.Logic.Basic

namespace Ed2kServer.Lib.Transition

variable {S E A : Type}

/-- Run a list of events; `none` when an event is not enabled where it comes. -/
def exec (step : S → E → Option S) : S → List E → Option S
  | s, [] => some s
  | s, e :: es => (step s e).bind (fun t => exec step t es)

@[simp] theorem exec_nil (step : S → E → Option S) (s : S) : exec step s [] = some s := rfl

theorem exec_cons (step : S → E → Option S) (s : S) (e : E) (es : List E) :
    exec step s (e :: es) = (step s e).bind (fun t => exec step t es) := rfl

theorem exec_cons_eq_some {step : S → E → Option S} {s u : S} {e : E} {es : List E} :
    exec step s (e :: es) = some u ↔ ∃ t, step s e = some t ∧ exec step t es = some u := by
  simp only [exec_cons, Option.bind_eq_some_iff]

theorem exec_append (step : S → E → Option S) (s : S) (es fs : List E) :
    exec step s (es ++ fs) = (exec step s es).bind (fun t => exec step t fs) := by
  induction es generalizing s with
  | nil => rfl
  | cons e es ih =>
    cases h : step s e with
    | none => simp [exec_cons, h]
    | some t => simp [exec_cons, h, ih]

theorem exec_concat_eq_some {step : S → E → Option S} {s u : S} {es : List E} {e : E} :
    exec step s (es ++ [e]) = some u ↔ ∃ t, exec step s es = some t ∧ step t e = some u := by
  simp [exec_append, exec_cons, Option.bind_eq_some_iff]

/-- Every step of the run from `s` meets `C`, a condition on the state before it and its event. -/
def Along (step : S → E → Option S) (C : S → E → Prop) : S → List E → Prop
  | _, [] => True
  | s, e :: es => C s e ∧ ∀ t, step s e = some t → Along step C t es

instance Along.decide {step : S → E → Option S} {C : S → E → Prop}
    [∀ s e, Decidable (C s e)] : (s : S) → (es : List E) → Decidable (Along step C s es)
  | _, [] => .isTrue trivial
  | s, e :: es =>
    match h : step s e with
    | none => decidable_of_iff (C s e) (by simp [Along, h])
    | some t =>
      have : Decidable (Along step C t es) := Along.decide t es
      decidable_of_iff (C s e ∧ Along step C t es) (by simp [Along, h])

/-- A property of the start that every guarded step keeps holds at the end of every run whose
steps all meet the guard. -/
theorem exec_invariant_along {step : S → E → Option S} {C : S → E → Prop} {Inv : S → Prop}
    (hstep : ∀ s e t, Inv s → C s e → step s e = some t → Inv t) {s u : S} {es : List E}
    (hs : Inv s) (hc : Along step C s es) (hrun : exec step s es = some u) : Inv u := by
  induction es generalizing s with
  | nil =>
    cases hrun
    exact hs
  | cons e es ih =>
    obtain ⟨t, ht, hu⟩ := exec_cons_eq_some.mp hrun
    exact ih (hstep s e t hs hc.1 ht) (hc.2 t ht) hu

/-- When every guarded step from an invariant state is enabled and keeps the invariant, so is and
does every guarded run. -/
theorem exec_total_along {step : S → E → Option S} {C : S → E → Prop} {Inv : S → Prop}
    (hstep : ∀ s e, Inv s → C s e → ∃ t, step s e = some t ∧ Inv t) {s : S} {es : List E}
    (hs : Inv s) (hc : Along step C s es) : ∃ u, exec step s es = some u ∧ Inv u := by
  induction es generalizing s with
  | nil => exact ⟨s, rfl, hs⟩
  | cons e es ih =>
    obtain ⟨t, ht, hi⟩ := hstep s e hs hc.1
    obtain ⟨u, hu, hi⟩ := ih hi (hc.2 t ht)
    exact ⟨u, exec_cons_eq_some.mpr ⟨t, ht, hu⟩, hi⟩

theorem along_of_forall {step : S → E → Option S} {C : E → Prop} {es : List E} (s : S)
    (h : ∀ e ∈ es, C e) : Along step (fun _ e => C e) s es := by
  induction es generalizing s with
  | nil => trivial
  | cons e es ih =>
    obtain ⟨he, hes⟩ := List.forall_mem_cons.mp h
    exact ⟨he, fun t _ => ih t hes⟩

theorem exec_invariant {step : S → E → Option S} {Inv : S → Prop}
    (hstep : ∀ s e t, Inv s → step s e = some t → Inv t) {s u : S} {es : List E}
    (hs : Inv s) (hrun : exec step s es = some u) : Inv u :=
  exec_invariant_along (C := fun _ _ => True) (fun s e t hi _ ht => hstep s e t hi ht) hs
    (along_of_forall s (fun _ _ => trivial)) hrun

/-- Forward simulation along a guarded run: the abstract state is the fold of the same events. -/
theorem exec_simulation_along {step : S → E → Option S} {C : S → E → Prop} {astep : A → E → A}
    {R : S → A → Prop}
    (hstep : ∀ s a e t, R s a → C s e → step s e = some t → R t (astep a e))
    {s u : S} {a : A} {es : List E} (hs : R s a) (hc : Along step C s es)
    (hrun : exec step s es = some u) : R u (es.foldl astep a) := by
  induction es generalizing s a with
  | nil =>
    cases hrun
    exact hs
  | cons e es ih =>
    obtain ⟨t, ht, hu⟩ := exec_cons_eq_some.mp hrun
    exact ih (hstep s a e t hs hc.1 ht) (hc.2 t ht) hu

theorem along_append {step : S → E → Option S} {C : S → E → Prop} {s : S} {es fs : List E} :
    Along step C s (es ++ fs) ↔
      Along step C s es ∧ ∀ t, exec step s es = some t → Along step C t fs := by
  induction es generalizing s with
  | nil => simp [Along]
  | cons e es ih =>
    simp only [List.cons_append, Along, ih, exec_cons_eq_some]
    grind

/-- Where a step from an invariant state that meets `C` keeps the invariant and one that does not
breaks `P`, the states of a run of events in `G` all satisfy `P` exactly when its steps all meet
`C`. -/
theorem prefix_iff_along_of {step : S → E → Option S} {C : S → E → Prop} {Inv P : S → Prop}
    {G : E → Prop} (hP : ∀ s, Inv s → P s)
    (hkeep : ∀ s e t, G e → Inv s → C s e → step s e = some t → Inv t)
    (hbreak : ∀ s e t, G e → Inv s → ¬ C s e → step s e = some t → ¬ P t) {s u : S} {es : List E}
    (hG : ∀ e ∈ es, G e) (hs : Inv s) (hrun : exec step s es = some u) :
    (∀ pre, pre <+: es → ∀ t, exec step s pre = some t → P t) ↔ Along step C s es := by
  induction es generalizing s with
  | nil =>
    refine ⟨fun _ => trivial, fun _ pre hpre t ht => ?_⟩
    obtain rfl := List.prefix_nil.mp hpre
    cases ht
    exact hP s hs
  | cons e es ih =>
    obtain ⟨v, hv, hu⟩ := exec_cons_eq_some.mp hrun
    obtain ⟨he, hes⟩ := List.forall_mem_cons.mp hG
    constructor
    · intro h
      have hv' := h [e] (List.prefix_append [e] es) v (exec_cons_eq_some.mpr ⟨v, hv, rfl⟩)
      have hc : C s e := Classical.byContradiction (fun hc => hbreak s e v he hs hc hv hv')
      refine ⟨hc, fun t ht => ?_⟩
      obtain rfl : v = t := Option.some.inj (hv.symm.trans ht)
      refine (ih hes (hkeep s e v he hs hc hv) hu).mp (fun pre hpre t ht => ?_)
      exact h (e :: pre) (List.cons_prefix_cons.mpr ⟨rfl, hpre⟩) t
        (exec_cons_eq_some.mpr ⟨v, hv, ht⟩)
    · rintro ⟨hc, hrest⟩ pre hpre t ht
      cases pre with
      | nil =>
        cases ht
        exact hP s hs
      | cons e' pre =>
        obtain ⟨rfl, htail⟩ := List.cons_prefix_cons.mp hpre
        obtain ⟨w, hw, ht⟩ := exec_cons_eq_some.mp ht
        obtain rfl : v = w := Option.some.inj (hv.symm.trans hw)
        exact (ih hes (hkeep s e' v he hs hc hv) hu).mpr (hrest v hv) pre htail t ht

theorem prefix_iff_along {step : S → E → Option S} {C : S → E → Prop} {Inv P : S → Prop}
    (hP : ∀ s, Inv s → P s) (hkeep : ∀ s e t, Inv s → C s e → step s e = some t → Inv t)
    (hbreak : ∀ s e t, Inv s → ¬ C s e → step s e = some t → ¬ P t) {s u : S} {es : List E}
    (hs : Inv s) (hrun : exec step s es = some u) :
    (∀ pre, pre <+: es → ∀ t, exec step s pre = some t → P t) ↔ Along step C s es :=
  prefix_iff_along_of (G := fun _ => True) hP (fun s e t _ => hkeep s e t)
    (fun s e t _ => hbreak s e t) (fun _ _ => trivial) hs hrun

end Ed2kServer.Lib.Transition
