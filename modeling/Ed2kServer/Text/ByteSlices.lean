import Ed2kServer.Text.Chars

namespace Ed2kServer.Text.ByteSlices

open Ed2kServer.Text.Chars

/-- `&s[n..]`: nothing, a panic, past the end and inside a character. -/
def sliceFrom : Nat → Str → Option Str
  | 0, s => some s
  | _ + 1, [] => none
  | n + 1, c :: s => if c.utf8Size ≤ n + 1 then sliceFrom (n + 1 - c.utf8Size) s else none

/-- `&s[..n]`. -/
def sliceTo : Nat → Str → Option Str
  | 0, _ => some []
  | _ + 1, [] => none
  | n + 1, c :: s =>
    if c.utf8Size ≤ n + 1 then (sliceTo (n + 1 - c.utf8Size) s).map (c :: ·) else none

def byteToLower (b : UInt8) : UInt8 := if 65 ≤ b ∧ b ≤ 90 then b + 32 else b

/-- Do the bytes of `s` begin with `p`, in any case? -/
def startsIgnoreCase (s : Str) (p : String) : Bool :=
  (utf8 p.toList).length ≤ (utf8 s).length &&
    ((utf8 s).take (utf8 p.toList).length).map byteToLower == (utf8 p.toList).map byteToLower

theorem utf8_cons (c : Char) (s : Str) : utf8 (c :: s) = String.utf8EncodeChar c ++ utf8 s :=
  List.flatMap_cons

theorem length_utf8_cons (c : Char) (s : Str) :
    (utf8 (c :: s)).length = c.utf8Size + (utf8 s).length := by
  rw [utf8_cons, List.length_append, String.length_utf8EncodeChar]

theorem sliceFrom_append (s t : Str) : sliceFrom (utf8 s).length (s ++ t) = some t := by
  induction s with
  | nil => cases t <;> rfl
  | cons c s ih =>
    have hc := c.utf8Size_pos
    obtain ⟨n, hn⟩ : ∃ n, (utf8 (c :: s)).length = n + 1 :=
      Nat.exists_eq_add_one_of_ne_zero (by rw [length_utf8_cons]; omega)
    have hrest : n + 1 - c.utf8Size = (utf8 s).length := by
      rw [← hn, length_utf8_cons, Nat.add_sub_cancel_left]
    rw [hn, List.cons_append, sliceFrom, hrest, if_pos (by rw [← hn, length_utf8_cons]; omega), ih]

theorem sliceTo_append (s t : Str) : sliceTo (utf8 s).length (s ++ t) = some s := by
  induction s with
  | nil => cases t <;> rfl
  | cons c s ih =>
    have hc := c.utf8Size_pos
    obtain ⟨n, hn⟩ : ∃ n, (utf8 (c :: s)).length = n + 1 :=
      Nat.exists_eq_add_one_of_ne_zero (by rw [length_utf8_cons]; omega)
    have hrest : n + 1 - c.utf8Size = (utf8 s).length := by
      rw [← hn, length_utf8_cons, Nat.add_sub_cancel_left]
    rw [hn, List.cons_append, sliceTo, hrest, if_pos (by rw [← hn, length_utf8_cons]; omega), ih,
      Option.map_some]

theorem utf8EncodeChar_ascii {c : Char} (h : c.toNat < 128) :
    String.utf8EncodeChar c = [UInt8.ofNat c.toNat] := by
  have hle : c.val.toNat ≤ 0x7F := Nat.le_of_lt_succ h
  exact if_pos hle

theorem utf8EncodeChar_wide {c : Char} (h : 128 ≤ c.toNat) :
    ∃ b rest, String.utf8EncodeChar c = b :: rest ∧ 128 ≤ b.toNat := by
  have hlt : ¬c.val.toNat ≤ 0x7F := Nat.not_le_of_lt h
  rw [String.utf8EncodeChar, if_neg hlt]
  split_ifs
  all_goals
    refine ⟨_, _, rfl, ?_⟩
    rw [UInt8.toNat_ofNat']
    omega

theorem byteToLower_ascii {c : Char} (h : c.toNat < 128) :
    byteToLower (UInt8.ofNat c.toNat) = UInt8.ofNat c.toLower.toNat := by
  have hall : ∀ n < 128, byteToLower (UInt8.ofNat n) =
      UInt8.ofNat (Char.ofNat n).toLower.toNat := by
    decide
  have hc := hall c.toNat h
  rwa [Char.ofNat_toNat] at hc

theorem toLower_lt_iff (c : Char) : c.toLower.toNat < 128 ↔ c.toNat < 128 := by
  rw [Char.toLower]
  split
  · rename_i hup
    have hhi := UInt32.le_iff_toNat_le.mp hup.2
    have hlo := UInt32.le_iff_toNat_le.mp hup.1
    simp only [Char.toNat, UInt32.toNat_add] at *
    simp at *
    omega
  · rfl

/-- On ASCII the bytes tell what the characters tell. -/
theorem takes_iff {p : Str} (hp : isAscii p = true) (s : Str) :
    ((utf8 s).take (utf8 p).length).map byteToLower = (utf8 p).map byteToLower ↔
      toAsciiLowercase (s.take p.length) = toAsciiLowercase p := by
  induction p generalizing s with
  | nil => simp [utf8, toAsciiLowercase]
  | cons x p ih =>
    rw [isAscii, List.all_cons, Bool.and_eq_true, decide_eq_true_iff] at hp
    obtain ⟨hx, hp⟩ := hp
    have hlx := (toLower_lt_iff x).mpr hx
    cases s with
    | nil => simp [utf8, toAsciiLowercase, utf8EncodeChar_ascii hx]
    | cons c s =>
      rw [utf8_cons x, utf8EncodeChar_ascii hx, utf8_cons c, List.singleton_append,
        List.length_cons, List.map_cons, byteToLower_ascii hx, List.length_cons,
        List.take_succ_cons, toAsciiLowercase, toAsciiLowercase, List.map_cons, List.map_cons,
        List.cons.injEq]
      by_cases hc : c.toNat < 128
      · have hlc := (toLower_lt_iff c).mpr hc
        have hbyte : UInt8.ofNat c.toLower.toNat = UInt8.ofNat x.toLower.toNat ↔
            c.toLower = x.toLower := by
          rw [← UInt8.toNat_inj, UInt8.toNat_ofNat', UInt8.toNat_ofNat',
            Nat.mod_eq_of_lt (by omega), Nat.mod_eq_of_lt (by omega), Char.toNat_inj]
        rw [utf8EncodeChar_ascii hc, List.singleton_append, List.take_succ_cons, List.map_cons,
          byteToLower_ascii hc, List.cons.injEq, hbyte, ih hp]
        rfl
      · obtain ⟨b, rest, hb, hwide⟩ := utf8EncodeChar_wide (by omega : 128 ≤ c.toNat)
        have hlower : byteToLower b = b := by
          rw [byteToLower, if_neg]
          rintro ⟨-, hle⟩
          have := UInt8.le_iff_toNat_le.mp hle
          simp at this
          omega
        have hne : b ≠ UInt8.ofNat x.toLower.toNat := by
          intro heq
          rw [heq, UInt8.toNat_ofNat'] at hwide
          omega
        have hchar : c.toLower ≠ x.toLower := by
          intro heq
          exact hc ((toLower_lt_iff c).mp (heq ▸ hlx))
        rw [hb, List.cons_append, List.take_succ_cons, List.map_cons, hlower, List.cons.injEq]
        exact ⟨fun h => absurd h.1 hne, fun h => absurd h.1 hchar⟩

theorem length_utf8_ascii {s : Str} (h : isAscii s = true) : (utf8 s).length = s.length := by
  induction s with
  | nil => rfl
  | cons c s ih =>
    rw [isAscii, List.all_cons, Bool.and_eq_true, decide_eq_true_iff] at h
    rw [utf8_cons, utf8EncodeChar_ascii h.1, List.length_append, ih h.2, List.length_singleton,
      List.length_cons, Nat.add_comm]

theorem isAscii_of_lowercase_eq {s t : Str} (ht : isAscii t = true)
    (h : toAsciiLowercase s = toAsciiLowercase t) : isAscii s = true := by
  rw [isAscii, List.all_eq_true] at ht ⊢
  intro c hc
  have hlower : c.toLower ∈ toAsciiLowercase t := h ▸ List.mem_map_of_mem hc
  obtain ⟨d, hd, heq⟩ := List.mem_map.mp hlower
  have hlt := (toLower_lt_iff d).mpr (of_decide_eq_true (ht d hd))
  rw [heq] at hlt
  exact decide_eq_true ((toLower_lt_iff c).mp hlt)

end Ed2kServer.Text.ByteSlices
