import Mathlib

namespace Ed2kServer.Lib.Totals

variable {α : Type}

/-- The sum over a list of tasks of what each counts for at its place. -/
def total (f : Nat → α → Nat) (tasks : List α) : Nat := (tasks.mapIdx f).sum

@[simp] theorem total_nil (f : Nat → α → Nat) : total f [] = 0 := rfl

theorem total_concat (f : Nat → α → Nat) (tasks : List α) (a : α) :
    total f (tasks ++ [a]) = total f tasks + f tasks.length a := by
  rw [total, List.mapIdx_concat, List.sum_append, List.sum_singleton, total]

theorem total_cons (f : Nat → α → Nat) (tasks : List α) (a : α) :
    total f (a :: tasks) = f 0 a + total (fun i => f (i + 1)) tasks := by
  rw [total, List.mapIdx_cons, List.sum_cons, total]

/-- What changes with one task. -/
theorem total_set (f : Nat → α → Nat) {tasks : List α} {i : Nat} {a : α} (h : tasks[i]? = some a)
    (b : α) : total f (tasks.set i b) + f i a = total f tasks + f i b := by
  induction tasks generalizing i f with
  | nil => cases h
  | cons c tasks ih =>
    cases i with
    | zero =>
      obtain rfl : c = a := Option.some.inj h
      rw [List.set_cons_zero, total_cons, total_cons]
      omega
    | succ i =>
      have hrest := ih (fun j => f (j + 1)) h
      rw [List.set_cons_succ, total_cons, total_cons]
      omega

theorem total_mono {f g : Nat → α → Nat} {tasks : List α}
    (h : ∀ i a, tasks[i]? = some a → f i a ≤ g i a) : total f tasks ≤ total g tasks := by
  induction tasks generalizing f g with
  | nil => exact Nat.le_refl _
  | cons a tasks ih =>
    rw [total_cons, total_cons]
    exact Nat.add_le_add (h 0 a rfl) (ih fun i b hb => h (i + 1) b hb)

theorem total_eq_zero {f : Nat → α → Nat} {tasks : List α}
    (h : ∀ i a, tasks[i]? = some a → f i a = 0) : total f tasks = 0 := by
  induction tasks generalizing f with
  | nil => rfl
  | cons a tasks ih => rw [total_cons, h 0 a rfl, ih fun i b hb => h (i + 1) b hb]

end Ed2kServer.Lib.Totals
