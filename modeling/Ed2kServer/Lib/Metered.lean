import Mathlib

namespace Ed2kServer.Lib.Metered

variable {α β : Type}

/-- A computation that may fail and draws on a budget, also when it fails. -/
def Meter (α : Type) := Nat → Option α × Nat

instance instMonadMeter : Monad Meter where
  pure a := fun budget => (some a, budget)
  bind m f := fun budget =>
    match m budget with
    | (some a, left) => f a left
    | (none, left) => (none, left)

/-- One unit of the budget. -/
def charge : Meter Unit := fun budget =>
  if budget = 0 then (none, budget) else (some (), budget - 1)

def fail : Meter α := fun budget => (none, budget)

/-- `Option`'s own failure. -/
def ofOption (a : Option α) : Meter α := fun budget => (a, budget)

/-- What comes out, with a failure as a value. -/
def attempt (m : Meter α) : Meter (Option α) := fun budget =>
  (some (m budget).1, (m budget).2)

/-- The second where the first fails. -/
def orElse (m m' : Meter α) : Meter α := fun budget =>
  match m budget with
  | (some a, left) => (some a, left)
  | (none, left) => m' left

/-- One computation `n` times, each on the outcome of the one before. -/
def repeated (f : α → Meter α) : Nat → α → Meter α
  | 0, a => pure a
  | n + 1, a => f a >>= repeated f n

/-- With a budget of `cost` the outcome is `r`, and no more than `cost` is drawn. -/
def Gives (m : Meter α) (cost : Nat) (r : Option α) : Prop :=
  ∀ budget, cost ≤ budget → ∃ left, m budget = (r, left) ∧ budget ≤ left + cost

theorem gives_pure (a : α) : Gives (pure a) 0 (some a) := fun budget _ => ⟨budget, rfl, le_refl _⟩

theorem gives_fail : Gives (fail : Meter α) 0 none := fun budget _ => ⟨budget, rfl, le_refl _⟩

theorem gives_ofOption (a : Option α) : Gives (ofOption a) 0 a :=
  fun budget _ => ⟨budget, rfl, le_refl _⟩

theorem gives_charge : Gives charge 1 (some ()) := by
  intro budget hcost
  refine ⟨budget - 1, ?_, by omega⟩
  rw [charge, if_neg (by omega)]

theorem gives_mono {m : Meter α} {cost more : Nat} {r : Option α} (h : Gives m cost r)
    (hle : cost ≤ more) : Gives m more r := by
  intro budget hbudget
  obtain ⟨left, hleft, hcost⟩ := h budget (hle.trans hbudget)
  exact ⟨left, hleft, by omega⟩

theorem bind_apply (m : Meter α) (f : α → Meter β) (budget : Nat) :
    (m >>= f) budget =
      match m budget with
      | (some a, left) => f a left
      | (none, left) => (none, left) := rfl

theorem gives_bind {m : Meter α} {f : α → Meter β} {a : α} {cost total : Nat} {r : Option β}
    (cost' : Nat) (hm : Gives m cost (some a)) (hf : Gives (f a) cost' r)
    (hle : cost + cost' ≤ total) : Gives (m >>= f) total r := by
  intro budget hbudget
  obtain ⟨mid, hmid, hcost⟩ := hm budget (by omega)
  obtain ⟨left, hleft, hcost'⟩ := hf mid (by omega)
  refine ⟨left, ?_, by omega⟩
  rw [bind_apply, hmid]
  exact hleft

theorem gives_bind_none {m : Meter α} (f : α → Meter β) {cost : Nat} (hm : Gives m cost none) :
    Gives (m >>= f) cost none := by
  intro budget hbudget
  obtain ⟨left, hleft, hcost⟩ := hm budget hbudget
  exact ⟨left, by rw [bind_apply, hleft], hcost⟩

/-- A first step that draws on nothing. -/
theorem gives_bind_free {m : Meter α} {f : α → Meter β} {a : α} {cost : Nat} {r : Option β}
    (hm : Gives m 0 (some a)) (hf : Gives (f a) cost r) : Gives (m >>= f) cost r :=
  gives_bind cost hm hf (by omega)

theorem gives_charged {f : Unit → Meter β} {cost : Nat} {r : Option β} (hf : Gives (f ()) cost r) :
    Gives (charge >>= f) (cost + 1) r :=
  gives_bind cost gives_charge hf (by omega)

/-- A last step that draws on nothing. -/
theorem gives_return {m : Meter α} {a : α} {cost : Nat} (h : Gives m cost (some a)) {f : α → β}
    {b : β} (hf : f a = b) : Gives (m >>= fun x => pure (f x)) cost (some b) := by
  subst hf
  exact gives_bind (f := fun x => pure (f x)) 0 h (gives_pure (f a)) (le_refl _)

theorem gives_attempt {m : Meter α} {cost : Nat} {r : Option α} (h : Gives m cost r) :
    Gives (attempt m) cost (some r) := by
  intro budget hbudget
  obtain ⟨left, hleft, hcost⟩ := h budget hbudget
  exact ⟨left, by rw [attempt, hleft], hcost⟩

theorem gives_orElse {m m' : Meter α} {cost cost' : Nat} {r r' : Option α} (h : Gives m cost r)
    (h' : Gives m' cost' r') : Gives (orElse m m') (cost + cost') (r.or r') := by
  intro budget hbudget
  obtain ⟨mid, hmid, hcost⟩ := h budget (by omega)
  obtain ⟨left, hleft, hcost'⟩ := h' mid (by omega)
  cases r with
  | some a => exact ⟨mid, by rw [orElse, hmid]; rfl, by omega⟩
  | none =>
    refine ⟨left, ?_, by omega⟩
    rw [orElse, hmid]
    exact hleft

/-- A walk over places, with the cost of each step. -/
theorem gives_repeated {f : α → Meter α} (place : Nat → α) (costs : List Nat)
    (h : ∀ i (hi : i < costs.length), Gives (f (place i)) costs[i] (some (place (i + 1)))) :
    Gives (repeated f costs.length (place 0)) costs.sum (some (place costs.length)) := by
  induction costs generalizing place with
  | nil => exact gives_pure _
  | cons cost costs ih =>
    have hrest := ih (fun i => place (i + 1)) fun i hi => h (i + 1) (Nat.succ_lt_succ hi)
    rw [List.sum_cons]
    exact gives_bind _ (h 0 (Nat.succ_pos _)) hrest (le_refl _)

end Ed2kServer.Lib.Metered
