import Mathlib.Algebra.Order.Group.Defs
import Mathlib.Algebra.BigOperators.Group.List.Basic
import Mathlib.Algebra.Order.Group.Int

namespace Ed2kServer.Lib.Backlog

/-- A job arrives and takes its time. -/
structure Job (α : Type*) where
  arrival : α
  cost : α

variable {α : Type*}

/-- A job is begun on arrival, or when the jobs before it are done. -/
def begin [LinearOrder α] : Option α → α → α
  | some t, a => max t a
  | none, a => a

theorem arrival_le_begin [LinearOrder α] (t : Option α) (a : α) : a ≤ begin t a := by
  cases t with
  | none => exact le_refl a
  | some t => exact le_max_right t a

section Spent

variable [AddCommMonoid α]

/-- The time of the jobs `i` to `j`. -/
def spent (jobs : List (Job α)) (i j : Nat) : α :=
  (((jobs.drop i).take (j + 1 - i)).map Job.cost).sum

theorem spent_zero_zero (x : Job α) (jobs : List (Job α)) : spent (x :: jobs) 0 0 = x.cost :=
  add_zero x.cost

theorem spent_zero_succ (x : Job α) (jobs : List (Job α)) (j : Nat) :
    spent (x :: jobs) 0 (j + 1) = x.cost + spent jobs 0 j := rfl

theorem spent_succ_succ (x : Job α) (jobs : List (Job α)) (i j : Nat) :
    spent (x :: jobs) (i + 1) (j + 1) = spent jobs i j := by
  rw [spent, spent, List.drop_succ_cons, Nat.succ_sub_succ]

end Spent

section Done

variable [AddCommGroup α] [LinearOrder α] {t : Option α} {d : α} {jobs : List (Job α)} {j : Nat}

/-- When each job is done, one at a time in the order of arrival. -/
def done : Option α → List (Job α) → List α
  | _, [] => []
  | t, x :: jobs => (begin t x.arrival + x.cost) :: done (some (begin t x.arrival + x.cost)) jobs

@[simp] theorem length_done (t : Option α) (jobs : List (Job α)) :
    (done t jobs).length = jobs.length := by
  induction jobs generalizing t with
  | nil => rfl
  | cons x jobs ih => rw [done, List.length_cons, List.length_cons, ih]

/-- There is no idle time since one of the arrivals. -/
theorem exists_done_eq (h : (done t jobs)[j]? = some d) :
    (∃ u, t = some u ∧ d = u + spent jobs 0 j) ∨
      ∃ i x, i ≤ j ∧ jobs[i]? = some x ∧ d = x.arrival + spent jobs i j := by
  induction jobs generalizing t j with
  | nil => cases h
  | cons y jobs ih =>
    have hbegin : (∃ u, t = some u ∧ begin t y.arrival = u) ∨ begin t y.arrival = y.arrival := by
      cases t with
      | none => exact .inr rfl
      | some u => exact (max_choice u y.arrival).imp (fun h => ⟨u, rfl, h⟩) id
    cases j with
    | zero =>
      obtain rfl := Option.some.inj h
      rw [spent_zero_zero]
      rcases hbegin with ⟨u, hu, hb⟩ | hb
      · exact .inl ⟨u, hu, by rw [hb]⟩
      · exact .inr ⟨0, y, le_refl 0, rfl, by rw [hb, spent_zero_zero]⟩
    | succ j =>
      rcases ih h with ⟨u, hu, rfl⟩ | ⟨i, x, hij, hi, rfl⟩
      · obtain rfl := Option.some.inj hu
        rcases hbegin with ⟨u, hu, hb⟩ | hb
        · exact .inl ⟨u, hu, by rw [hb, spent_zero_succ, add_assoc]⟩
        · exact .inr ⟨0, y, Nat.zero_le _, rfl, by rw [hb, spent_zero_succ, add_assoc]⟩
      · exact .inr ⟨i + 1, x, Nat.succ_le_succ hij, hi, by rw [spent_succ_succ]⟩

end Done

variable [AddCommGroup α] [LinearOrder α] [IsOrderedAddMonoid α]
variable {t : Option α} {d : α} {x : Job α} {jobs : List (Job α)} {i j : Nat}

theorem add_spent_le_done {t : α} (h : (done (some t) jobs)[j]? = some d) :
    t + spent jobs 0 j ≤ d := by
  induction jobs generalizing t j with
  | nil => cases h
  | cons x jobs ih =>
    have hbegin : t + x.cost ≤ begin (some t) x.arrival + x.cost :=
      add_le_add_left (le_max_left t x.arrival) x.cost
    cases j with
    | zero =>
      obtain rfl := Option.some.inj h
      rw [spent_zero_zero]
      exact hbegin
    | succ j =>
      rw [spent_zero_succ, ← add_assoc]
      exact (add_le_add_left hbegin _).trans (ih h)

/-- A job is done after all the jobs since any arrival. -/
theorem arrival_add_spent_le_done (hij : i ≤ j) (hi : jobs[i]? = some x)
    (hj : (done t jobs)[j]? = some d) : x.arrival + spent jobs i j ≤ d := by
  induction jobs generalizing t i j with
  | nil => cases hj
  | cons y jobs ih =>
    cases i with
    | zero =>
      obtain rfl := Option.some.inj hi
      have hbegin : y.arrival + y.cost ≤ begin t y.arrival + y.cost :=
        add_le_add_left (arrival_le_begin t y.arrival) y.cost
      cases j with
      | zero =>
        obtain rfl := Option.some.inj hj
        rw [spent_zero_zero]
        exact hbegin
      | succ j =>
        rw [spent_zero_succ, ← add_assoc]
        exact (add_le_add_left hbegin _).trans (add_spent_le_done hj)
    | succ i =>
      cases j with
      | zero => exact absurd hij (Nat.not_succ_le_zero i)
      | succ j =>
        rw [spent_succ_succ]
        exact ih (Nat.le_of_succ_le_succ hij) hi hj

theorem le_of_mem_done {u : α} (hcost : ∀ x ∈ jobs, 0 ≤ x.cost) (h : d ∈ done (some u) jobs) :
    u ≤ d := by
  induction jobs generalizing u with
  | nil => cases h
  | cons x jobs ih =>
    have hbegin : u ≤ begin (some u) x.arrival + x.cost :=
      (le_max_left u x.arrival).trans (le_add_of_nonneg_right (hcost x List.mem_cons_self))
    rcases List.mem_cons.mp h with rfl | h
    · exact hbegin
    · exact hbegin.trans (ih (fun x hx => hcost x (List.mem_cons_of_mem _ hx)) h)

/-- Jobs are done in the order of arrival. -/
theorem pairwise_done (hcost : ∀ x ∈ jobs, 0 ≤ x.cost) : (done t jobs).Pairwise (· ≤ ·) := by
  induction jobs generalizing t with
  | nil => exact List.Pairwise.nil
  | cons x jobs ih =>
    have hrest : ∀ x ∈ jobs, 0 ≤ x.cost := fun x hx => hcost x (List.mem_cons_of_mem _ hx)
    exact List.pairwise_cons.mpr ⟨fun _ => le_of_mem_done hrest, ih hrest⟩

end Ed2kServer.Lib.Backlog
