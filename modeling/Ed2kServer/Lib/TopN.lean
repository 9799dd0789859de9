import Mathlib.Data.List.Sort

namespace Ed2kServer.Lib.TopN

variable {α K : Type} [LinearOrder K] (key : α → K)

/-- Put an element behind everything of at least its key. -/
def insertRanked (x : α) (l : List α) : List α :=
  l.orderedInsert (fun a b => key b < key a) x

/-- The elements by falling key, equal keys in the order they came. -/
def ranked (xs : List α) : List α := xs.foldl (fun l x => insertRanked key x l) []

/-- Insert, and keep the first `n`. -/
def keepBest (n : Nat) (l : List α) (x : α) : List α := (insertRanked key x l).take n

def Falling (l : List α) : Prop := l.Pairwise (fun a b => key b ≤ key a)

variable {key}

theorem insertRanked_cons (x a : α) (l : List α) : insertRanked key x (a :: l) =
    if key a < key x then x :: a :: l else a :: insertRanked key x l := rfl

theorem insertRanked_perm (x : α) (l : List α) : (insertRanked key x l).Perm (x :: l) :=
  List.perm_orderedInsert _ x l

theorem insertRanked_falling {l : List α} (h : Falling key l) (x : α) :
    Falling key (insertRanked key x l) := by
  induction l with
  | nil => exact List.pairwise_singleton _ x
  | cons a l ih =>
    obtain ⟨ha, hl⟩ := List.pairwise_cons.mp h
    rw [insertRanked_cons]
    split
    · rename_i hlt
      refine List.pairwise_cons.mpr ⟨fun b hb => ?_, h⟩
      rcases List.mem_cons.mp hb with rfl | hb
      · exact hlt.le
      · exact (ha b hb).trans hlt.le
    · rename_i hle
      refine List.pairwise_cons.mpr ⟨fun b hb => ?_, ih hl⟩
      rcases List.mem_cons.mp ((insertRanked_perm x l).mem_iff.mp hb) with rfl | hb
      · exact not_lt.mp hle
      · exact ha b hb

/-- Nothing is better than an element that is put last. -/
theorem insertRanked_of_le {l : List α} {x : α} (h : ∀ a ∈ l, key x ≤ key a) :
    insertRanked key x l = l ++ [x] := by
  induction l with
  | nil => rfl
  | cons a l ih =>
    rw [insertRanked_cons, if_neg (not_lt.mpr (h a List.mem_cons_self)),
      ih (fun b hb => h b (List.mem_cons_of_mem a hb)), List.cons_append]

/-- What was cut off before does not come back. -/
theorem keepBest_take (n : Nat) (x : α) (l : List α) :
    keepBest key n (l.take n) x = (insertRanked key x l).take n := by
  induction l generalizing n with
  | nil => rw [keepBest, List.take_nil]
  | cons a l ih =>
    cases n with
    | zero => simp [keepBest]
    | succ n =>
      rw [List.take_succ_cons, keepBest, insertRanked_cons, insertRanked_cons]
      split
      · cases n with
        | zero => rfl
        | succ n => simp [List.take_take]
      · rw [List.take_succ_cons, List.take_succ_cons]
        exact congrArg (a :: ·) (ih n)

theorem foldl_keepBest (n : Nat) (xs l : List α) :
    xs.foldl (keepBest key n) (l.take n) =
      (xs.foldl (fun l x => insertRanked key x l) l).take n := by
  induction xs generalizing l with
  | nil => rfl
  | cons x xs ih => rw [List.foldl_cons, List.foldl_cons, keepBest_take, ih]

/-- Keeping the best `n` all along leaves the best `n` of all. -/
theorem foldl_keepBest_nil (n : Nat) (xs : List α) :
    xs.foldl (keepBest key n) [] = (ranked key xs).take n := by
  have h : xs.foldl (keepBest key n) (List.take n []) = (ranked key xs).take n :=
    foldl_keepBest n xs []
  rwa [List.take_nil] at h

theorem foldl_insert_perm (xs l : List α) :
    (xs.foldl (fun l x => insertRanked key x l) l).Perm (xs ++ l) := by
  induction xs generalizing l with
  | nil => exact List.Perm.refl l
  | cons x xs ih =>
    rw [List.foldl_cons]
    refine (ih _).trans ?_
    exact ((insertRanked_perm x l).append_left xs).trans List.perm_middle

theorem ranked_perm (xs : List α) : (ranked key xs).Perm xs := by
  have h : (ranked key xs).Perm (xs ++ []) := foldl_insert_perm xs []
  rwa [List.append_nil] at h

theorem ranked_falling (xs : List α) : Falling key (ranked key xs) := by
  rw [ranked]
  have h : Falling key ([] : List α) := List.Pairwise.nil
  generalize ([] : List α) = l at h
  induction xs generalizing l with
  | nil => exact h
  | cons x xs ih => exact ih _ (insertRanked_falling h x)

theorem falling_take {l : List α} (h : Falling key l) (n : Nat) : Falling key (l.take n) :=
  h.sublist (List.take_sublist n l)

variable (key) in
/-- Push, and pop the last when there is one too many. -/
theorem push_eq_keepBest {n : Nat} {l : List α} (h : l.length ≤ n) (x : α) :
    (if n < (insertRanked key x l).length then (insertRanked key x l).dropLast
      else insertRanked key x l) = keepBest key n l x := by
  have hpush : (insertRanked key x l).length = l.length + 1 := (insertRanked_perm x l).length_eq
  rw [keepBest]
  split
  · rename_i hlt
    rw [List.dropLast_eq_take, hpush]
    congr 1
    omega
  · rename_i hle
    rw [List.take_of_length_le (Nat.not_lt.mp hle)]

/-- A full list does not take what is no better than its last element. -/
theorem keepBest_of_le {n : Nat} {l : List α} {x last : α} (hf : Falling key l)
    (hlen : l.length = n) (hlast : l.getLast? = some last) (hle : key x ≤ key last) :
    keepBest key n l x = l := by
  have hall : ∀ a ∈ l, key x ≤ key a := by
    intro a ha
    obtain ⟨front, rfl⟩ := List.getLast?_eq_some_iff.mp hlast
    obtain ha | ha := List.mem_append.mp ha
    · exact hle.trans ((List.pairwise_append.mp hf).2.2 a ha last (by simp))
    · rw [List.mem_singleton.mp ha]
      exact hle
  rw [keepBest, insertRanked_of_le hall, List.take_append_of_le_length hlen.ge,
    List.take_of_length_le hlen.le]

/-- The order in which elements come is of no account when equal keys mean equal elements. -/
theorem ranked_eq_of_perm {xs ys : List α} (h : xs.Perm ys)
    (hkey : ∀ a ∈ xs, ∀ b ∈ xs, key a = key b → a = b) : ranked key xs = ranked key ys := by
  have hperm : (ranked key xs).Perm (ranked key ys) :=
    (ranked_perm xs).trans (h.trans (ranked_perm ys).symm)
  apply hperm.eq_of_pairwise _ (ranked_falling xs) (ranked_falling ys)
  intro a b ha hb hab hba
  have ha' := (ranked_perm xs).mem_iff.mp ha
  have hb' := h.mem_iff.mpr ((ranked_perm ys).mem_iff.mp hb)
  exact hkey a ha' b hb' (le_antisymm hba hab)

end Ed2kServer.Lib.TopN
