import Ed2kServer.Text.ByteSlices

namespace Ed2kServer.Text.Trim

open Ed2kServer.Text.Chars Ed2kServer.Text.ByteSlices

variable {U : Unicode} {s : Str} {c : Char}

theorem head?_dropWhile {p : Char → Bool} (h : (s.dropWhile p).head? = some c) : p c = false := by
  have hnot := List.head?_dropWhile_not p s
  rw [h] at hnot
  simpa using hnot

theorem trim_sublist (U : Unicode) (s : Str) : (U.trim s).Sublist s := by
  have hback := (List.dropWhile_sublist U.isWhitespace (l := (s.dropWhile U.isWhitespace).reverse))
  have hfront := List.dropWhile_sublist U.isWhitespace (l := s)
  exact (List.reverse_reverse (s.dropWhile U.isWhitespace) ▸ hback.reverse).trans hfront

theorem getLast?_trim (h : (U.trim s).getLast? = some c) : U.isWhitespace c = false := by
  rw [Unicode.trim, List.getLast?_reverse] at h
  exact head?_dropWhile h

theorem head?_trim (h : (U.trim s).head? = some c) : U.isWhitespace c = false := by
  obtain ⟨rest, hrest⟩ : U.trim s <+: s.dropWhile U.isWhitespace := by
    rw [Unicode.trim, ← List.reverse_suffix, List.reverse_reverse]
    exact List.dropWhile_suffix _
  refine head?_dropWhile (s := s) ?_
  rw [← hrest, List.head?_append, h]
  rfl

/-- Nothing is cut off between two characters that are no white space. -/
theorem trim_eq_self (hhead : ∀ c, s.head? = some c → U.isWhitespace c = false)
    (hlast : ∀ c, s.getLast? = some c → U.isWhitespace c = false) : U.trim s = s := by
  have hfront : s.dropWhile U.isWhitespace = s := by
    cases s with
    | nil => rfl
    | cons c s => rw [List.dropWhile_cons, if_neg (by rw [hhead c rfl]; exact Bool.false_ne_true)]
  have hback : s.reverse.dropWhile U.isWhitespace = s.reverse := by
    rw [← List.head?_reverse] at hlast
    cases hrev : s.reverse with
    | nil => rfl
    | cons c r =>
      rw [hrev] at hlast
      rw [List.dropWhile_cons, if_neg (by rw [hlast c rfl]; exact Bool.false_ne_true)]
  rw [Unicode.trim, hfront, hback, List.reverse_reverse]

theorem utf8_all_iff {p : UInt8 → Bool} (hp : ∀ b, 128 ≤ b.toNat → p b = false) :
    (utf8 s).all p = true ↔ ∀ c ∈ s, c.toNat < 128 ∧ p (UInt8.ofNat c.toNat) = true := by
  induction s with
  | nil => simp [utf8]
  | cons c s ih =>
    rw [utf8_cons, List.all_append, Bool.and_eq_true, ih, List.forall_mem_cons]
    refine and_congr_left fun _ => ?_
    by_cases hc : c.toNat < 128
    · rw [utf8EncodeChar_ascii hc, and_iff_right hc]
      simp
    · obtain ⟨b, rest, hb, hwide⟩ := utf8EncodeChar_wide (by omega : 128 ≤ c.toNat)
      rw [hb, List.all_cons, hp b hwide]
      simp [hc]

end Ed2kServer.Text.Trim
