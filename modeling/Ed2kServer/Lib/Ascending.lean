import Mathlib.Data.List.Sort
import Mathlib.Data.List.TakeWhile

namespace Ed2kServer.Lib.Ascending

variable {α : Type} [LinearOrder α]

/-- Where `x` stands, or would be inserted, in an ascending list. -/
def rank (v : List α) (x : α) : Nat := (v.takeWhile (· < x)).length

/-- Search of an ascending slice: the position of `x`, or the one that keeps the order. -/
def binarySearch (v : List α) (x : α) : Except Nat Nat :=
  if v[rank v x]? = some x then .ok (rank v x) else .error (rank v x)

/-- Insert unless present. -/
def insertSorted (v : List α) (x : α) : List α :=
  match binarySearch v x with
  | .ok _ => v
  | .error pos => v.insertIdx pos x

/-- Remove if present. -/
def removeSorted (v : List α) (x : α) : List α :=
  match binarySearch v x with
  | .ok pos => v.eraseIdx pos
  | .error _ => v

def contains (v : List α) (x : α) : Bool :=
  match binarySearch v x with
  | .ok _ => true
  | .error _ => false

theorem split_rank (v : List α) (x : α) :
    v = v.takeWhile (· < x) ++ v.dropWhile (· < x) := (List.takeWhile_append_dropWhile).symm

theorem lt_of_mem_takeWhile {v : List α} {x y : α} (h : y ∈ v.takeWhile (· < x)) : y < x := by
  simpa using List.mem_takeWhile_imp h

theorem le_of_mem_dropWhile {v : List α} {x y : α} (hv : v.SortedLT)
    (h : y ∈ v.dropWhile (· < x)) : x ≤ y := by
  induction v with
  | nil => simp at h
  | cons a v ih =>
    have hp := List.pairwise_cons.mp hv.pairwise
    by_cases ha : a < x
    · rw [List.dropWhile_cons_of_pos (by simpa using ha)] at h
      exact ih hp.2.sortedLT h
    · rw [List.dropWhile_cons_of_neg (by simpa using ha)] at h
      rcases List.mem_cons.mp h with rfl | hy
      · exact not_lt.mp ha
      · exact (not_lt.mp ha).trans (hp.1 y hy).le

theorem getElem?_rank (v : List α) (x : α) : v[rank v x]? = (v.dropWhile (· < x)).head? := by
  have h : (v.takeWhile (· < x) ++ v.dropWhile (· < x))[rank v x]? =
      (v.dropWhile (· < x)).head? := by
    rw [rank, List.getElem?_append_right le_rfl, Nat.sub_self, List.head?_eq_getElem?]
  rwa [← split_rank v x] at h

theorem getElem?_rank_eq_some {v : List α} (hv : v.SortedLT) (x : α) :
    v[rank v x]? = some x ↔ x ∈ v := by
  rw [getElem?_rank]
  constructor
  · intro h
    exact (List.dropWhile_sublist _).subset (List.mem_of_mem_head? h)
  · intro h
    have hd : x ∈ v.dropWhile (· < x) := by
      rw [split_rank v x, List.mem_append] at h
      exact h.resolve_left (fun hm => lt_irrefl x (lt_of_mem_takeWhile hm))
    cases hw : v.dropWhile (· < x) with
    | nil => simp [hw] at hd
    | cons a w =>
      have hs : (a :: w).Pairwise (· < ·) := hw ▸ hv.pairwise.sublist (List.dropWhile_sublist _)
      have hxa : x ≤ a := le_of_mem_dropWhile hv (by simp [hw])
      rcases List.mem_cons.mp (hw ▸ hd) with rfl | hx
      · rfl
      · exact absurd ((List.pairwise_cons.mp hs).1 x hx) (not_lt.mpr hxa)

theorem contains_iff {v : List α} (hv : v.SortedLT) (x : α) : contains v x = true ↔ x ∈ v := by
  rw [← getElem?_rank_eq_some hv]
  by_cases h : v[rank v x]? = some x <;> simp [contains, binarySearch, h]

omit [LinearOrder α] in
theorem insertIdx_append_length (l m : List α) (x : α) :
    (l ++ m).insertIdx l.length x = l ++ x :: m := by
  induction l with
  | nil => simp
  | cons a l ih => simp [ih]

theorem insertSorted_of_mem {v : List α} (hv : v.SortedLT) {x : α} (hx : x ∈ v) :
    insertSorted v x = v := by
  simp [insertSorted, binarySearch, (getElem?_rank_eq_some hv x).mpr hx]

theorem insertSorted_of_notMem {v : List α} (hv : v.SortedLT) {x : α} (hx : x ∉ v) :
    insertSorted v x = v.takeWhile (· < x) ++ x :: v.dropWhile (· < x) := by
  have hn : v[rank v x]? ≠ some x := fun h => hx ((getElem?_rank_eq_some hv x).mp h)
  have h := insertIdx_append_length (v.takeWhile (· < x)) (v.dropWhile (· < x)) x
  rw [← split_rank v x] at h
  simp only [insertSorted, binarySearch, if_neg hn]
  exact h

theorem mem_insertSorted {v : List α} (hv : v.SortedLT) (x y : α) :
    y ∈ insertSorted v x ↔ y = x ∨ y ∈ v := by
  by_cases hx : x ∈ v
  · rw [insertSorted_of_mem hv hx]
    grind
  · rw [insertSorted_of_notMem hv hx]
    conv_rhs => rw [split_rank v x]
    simp only [List.mem_append, List.mem_cons]
    tauto

theorem insertSorted_sorted {v : List α} (hv : v.SortedLT) (x : α) :
    (insertSorted v x).SortedLT := by
  by_cases hx : x ∈ v
  · rwa [insertSorted_of_mem hv hx]
  · rw [insertSorted_of_notMem hv hx, List.sortedLT_iff_pairwise, List.pairwise_append]
    have hgt : ∀ b ∈ v.dropWhile (· < x), x < b := by
      intro b hb
      refine lt_of_le_of_ne (le_of_mem_dropWhile hv hb) ?_
      rintro rfl
      exact hx ((List.dropWhile_sublist _).subset hb)
    refine ⟨hv.pairwise.sublist (List.takeWhile_sublist _),
      List.pairwise_cons.mpr ⟨hgt, hv.pairwise.sublist (List.dropWhile_sublist _)⟩, ?_⟩
    intro a ha b hb
    have hax := lt_of_mem_takeWhile ha
    rcases List.mem_cons.mp hb with rfl | hb
    · exact hax
    · exact hax.trans (hgt b hb)

theorem foldl_insertSorted (us : List α) {v : List α} (hv : v.SortedLT) :
    (us.foldl insertSorted v).SortedLT ∧
      ∀ y, y ∈ us.foldl insertSorted v ↔ y ∈ v ∨ y ∈ us := by
  induction us generalizing v with
  | nil => exact ⟨hv, by simp⟩
  | cons u us ih =>
    obtain ⟨hs, hm⟩ := ih (insertSorted_sorted hv u)
    refine ⟨hs, fun y => ?_⟩
    rw [List.foldl_cons, hm, mem_insertSorted hv, List.mem_cons]
    tauto

theorem removeSorted_eq_erase {v : List α} (hv : v.SortedLT) (x : α) :
    removeSorted v x = v.erase x := by
  by_cases hx : x ∈ v
  · have hr := (getElem?_rank_eq_some hv x).mpr hx
    simp only [removeSorted, binarySearch, if_pos hr]
    obtain ⟨hlt, hget⟩ := List.getElem?_eq_some_iff.mp hr
    rw [← hv.nodup.idxOf_getElem (rank v x) hlt, hget, List.eraseIdx_idxOf_eq_erase]
  · have hr : v[rank v x]? ≠ some x := fun h => hx ((getElem?_rank_eq_some hv x).mp h)
    simp only [removeSorted, binarySearch, if_neg hr]
    exact (List.erase_of_not_mem hx).symm

theorem mem_removeSorted {v : List α} (hv : v.SortedLT) (x y : α) :
    y ∈ removeSorted v x ↔ y ≠ x ∧ y ∈ v := by
  rw [removeSorted_eq_erase hv, hv.nodup.mem_erase_iff]

theorem removeSorted_sorted {v : List α} (hv : v.SortedLT) (x : α) :
    (removeSorted v x).SortedLT := by
  rw [removeSorted_eq_erase hv]
  exact (hv.pairwise.sublist List.erase_sublist).sortedLT

theorem filter_sorted {v : List α} (hv : v.SortedLT) (p : α → Bool) : (v.filter p).SortedLT :=
  (hv.pairwise.sublist List.filter_sublist).sortedLT

/-- Appending at the top is what insertion does for a new greatest element. -/
theorem insertSorted_of_forall_lt {v : List α} (hv : v.SortedLT) {x : α} (h : ∀ y ∈ v, y < x) :
    insertSorted v x = v ++ [x] := by
  have hx : x ∉ v := fun hm => lt_irrefl x (h x hm)
  have htake : v.takeWhile (· < x) = v := List.takeWhile_eq_self_iff.mpr (by simpa using h)
  have hdrop : v.dropWhile (· < x) = [] := List.dropWhile_eq_nil_iff.mpr (by simpa using h)
  rw [insertSorted_of_notMem hv hx, htake, hdrop]

end Ed2kServer.Lib.Ascending
