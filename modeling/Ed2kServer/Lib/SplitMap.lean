import Mathlib.Data.List.Basic

namespace Ed2kServer.Lib.SplitMap

variable {α β : Type*} {p : α → Bool} {q : β → Bool} {f : α → List β}

/-- A front without separators stays whole, at the front of the first piece. -/
theorem splitOnP_append {front : List β} (h : ∀ b ∈ front, q b = false) (l : List β) :
    (front ++ l).splitOnP q = (l.splitOnP q).modifyHead (front ++ ·) := by
  induction front with
  | nil => cases hl : l.splitOnP q <;> simp [hl]
  | cons b front ih =>
    obtain ⟨hb, hfront⟩ := List.forall_mem_cons.mp h
    rw [List.cons_append, List.splitOnP_cons_eq_if_modifyHead, if_neg (by simp [hb]), ih hfront]
    cases hl : l.splitOnP q with
    | nil => exact absurd hl (List.splitOnP_ne_nil q l)
    | cons first rest => simp

/-- Rewriting the elements one by one keeps the pieces where separators stay separators and
nothing else becomes one. -/
theorem splitOnP_flatMap (hsep : ∀ a, p a = true → ∃ b, f a = [b] ∧ q b = true)
    (hother : ∀ a, p a = false → ∀ b ∈ f a, q b = false) (l : List α) :
    (l.flatMap f).splitOnP q = (l.splitOnP p).map (·.flatMap f) := by
  induction l with
  | nil => simp [List.splitOnP_nil]
  | cons a l ih =>
    rw [List.flatMap_cons, List.splitOnP_cons_eq_if_modifyHead]
    cases ha : p a with
    | true =>
      obtain ⟨b, hb, hq⟩ := hsep a ha
      rw [hb, List.singleton_append, List.splitOnP_cons_eq_if_modifyHead, if_pos hq, ih]
      simp
    | false =>
      rw [splitOnP_append (hother a ha), ih]
      cases hl : l.splitOnP p with
      | nil => exact absurd hl (List.splitOnP_ne_nil p l)
      | cons first rest => simp

theorem mem_of_mem_splitOnP {l piece : List α} (h : piece ∈ l.splitOnP p) {a : α}
    (ha : a ∈ piece) : a ∈ l := by
  induction l generalizing piece with
  | nil =>
    obtain rfl := List.mem_singleton.mp (List.splitOnP_nil ▸ h)
    exact ha
  | cons b l ih =>
    rw [List.splitOnP_cons_eq_if_modifyHead] at h
    split at h
    · obtain rfl | h := List.mem_cons.mp h
      · cases ha
      · exact List.mem_cons_of_mem b (ih h ha)
    · cases hl : l.splitOnP p with
      | nil => exact absurd hl (List.splitOnP_ne_nil p l)
      | cons first rest =>
        rw [hl, List.modifyHead_cons, List.mem_cons] at h
        obtain rfl | h := h
        · obtain rfl | ha := List.mem_cons.mp ha
          · exact List.mem_cons_self
          · exact List.mem_cons_of_mem b (ih (by rw [hl]; exact List.mem_cons_self) ha)
        · exact List.mem_cons_of_mem b (ih (by rw [hl]; exact List.mem_cons_of_mem _ h) ha)

end Ed2kServer.Lib.SplitMap
