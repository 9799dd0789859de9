import Ed2kServer.Basic

namespace Ed2kServer.Text.Utf8

/-- May `b₁` follow `b₀`, the first byte of three or four? -/
def secondByteFits (b₀ b₁ : UInt8) : Bool :=
  let between := fun (lo hi : UInt8) => decide (lo ≤ b₁ ∧ b₁ ≤ hi)
  if b₀ = 0xE0 then between 0xA0 0xBF
  else if b₀ = 0xED then between 0x80 0x9F
  else if 0xE1 ≤ b₀ ∧ b₀ ≤ 0xEF then between 0x80 0xBF
  else if b₀ = 0xF0 then between 0x90 0xBF
  else if 0xF1 ≤ b₀ ∧ b₀ ≤ 0xF3 then between 0x80 0xBF
  else if b₀ = 0xF4 then between 0x80 0x8F
  else false

/-- The bytes one replacement character stands for where no character starts. -/
def invalidLength : List UInt8 → Nat
  | b₀ :: b₁ :: rest =>
    if secondByteFits b₀ b₁ then
      if 0xF0 ≤ b₀ ∧ rest.head?.any (fun b₂ => b₂ &&& 0xC0 == 0x80) then 3 else 2
    else 1
  | _ => 1

/-- The character at the front, if a valid encoding starts there. -/
def decodeChar (bytes : List UInt8) : Option Char := bytes.toByteArray.utf8DecodeChar? 0

def lossyFrom : Nat → List UInt8 → Str
  | 0, _ => []
  | n + 1, bytes =>
    if bytes = [] then []
    else
      match decodeChar bytes with
      | some c => c :: lossyFrom n (bytes.drop c.utf8Size)
      | none => '\uFFFD' :: lossyFrom n (bytes.drop (invalidLength bytes))

/-- `String::from_utf8_lossy`. -/
def fromUtf8Lossy (bytes : List UInt8) : Str := lossyFrom bytes.length bytes

theorem decodeChar_encode (c : Char) (rest : List UInt8) :
    decodeChar (String.utf8EncodeChar c ++ rest) = some c := by
  rw [decodeChar, List.toByteArray_append]
  exact ByteArray.utf8DecodeChar?_utf8EncodeChar_append

theorem length_le_utf8 (s : Str) : s.length ≤ (utf8 s).length := by
  induction s with
  | nil => exact Nat.le_refl 0
  | cons c s ih =>
    have hc := c.utf8Size_pos
    rw [utf8, List.flatMap_cons, List.length_append, String.length_utf8EncodeChar]
    rw [utf8] at ih
    simp only [List.length_cons]
    omega

theorem lossyFrom_utf8 {n : Nat} {s : Str} (hn : s.length ≤ n) : lossyFrom n (utf8 s) = s := by
  induction s generalizing n with
  | nil => cases n <;> rfl
  | cons c s ih =>
    obtain ⟨n, rfl⟩ : ∃ m, n = m + 1 := ⟨n - 1, by rw [List.length_cons] at hn; omega⟩
    have hsplit : utf8 (c :: s) = String.utf8EncodeChar c ++ utf8 s := List.flatMap_cons
    have hne : String.utf8EncodeChar c ++ utf8 s ≠ [] := by simp
    rw [lossyFrom, hsplit, if_neg hne, decodeChar_encode]
    simp only [← String.length_utf8EncodeChar, List.drop_left]
    rw [ih (Nat.le_of_succ_le_succ hn)]

/-- The bytes of a string decode to the string. -/
theorem fromUtf8Lossy_utf8 (s : Str) : fromUtf8Lossy (utf8 s) = s :=
  lossyFrom_utf8 (length_le_utf8 s)

theorem decodeChar_invalid (rest : List UInt8) : decodeChar (0xFF :: rest) = none := by
  rw [decodeChar, ← Option.not_isSome_iff_eq_none]
  intro h
  have hfirst := ByteArray.isUTF8FirstByte_of_isSome_utf8DecodeChar? h
  rw [List.getElem_toByteArray, List.getElem_cons_zero] at hfirst
  exact absurd hfirst (by decide)

theorem invalidLength_invalid (rest : List UInt8) : invalidLength (0xFF :: rest) = 1 := by
  cases rest with
  | nil => rfl
  | cons b rest =>
    rw [invalidLength, if_neg]
    simp [secondByteFits]

/-- Every byte of a run of `0xFF` becomes a replacement character. -/
theorem fromUtf8Lossy_replicate (n : Nat) :
    fromUtf8Lossy (List.replicate n 0xFF) = List.replicate n '�' := by
  rw [fromUtf8Lossy, List.length_replicate]
  induction n with
  | zero => rfl
  | succ n ih =>
    rw [List.replicate_succ, lossyFrom, if_neg (List.cons_ne_nil _ _), decodeChar_invalid]
    simp only [invalidLength_invalid, List.drop_succ_cons, List.drop_zero, ih]
    rfl

theorem not_continuation {b : UInt8} (h : b.IsUTF8FirstByte) :
    ¬ (0x80 ≤ b ∧ b ≤ 0xBF) ∧ (b &&& 0xC0 == 0x80) = false := by
  revert h
  revert b
  decide +kernel

theorem secondByteFits_first {b₀ b₁ : UInt8} (h : b₁.IsUTF8FirstByte) :
    secondByteFits b₀ b₁ = false := by
  have hno := (not_continuation h).1
  have hbetween : ∀ lo hi : UInt8, 0x80 ≤ lo → hi ≤ 0xBF → decide (lo ≤ b₁ ∧ b₁ ≤ hi) = false :=
    fun lo hi hlo hhi => decide_eq_false fun hb =>
      hno ⟨UInt8.le_trans hlo hb.1, UInt8.le_trans hb.2 hhi⟩
  rw [secondByteFits]
  split_ifs <;> first | rfl | exact hbetween _ _ (by decide) (by decide)

theorem decodeChar_eq_some {bytes : List UInt8} {c : Char} (h : decodeChar bytes = some c) :
    ∃ rest, bytes = String.utf8EncodeChar c ++ rest := by
  obtain ⟨rest, hrest⟩ := ByteArray.exists_of_utf8DecodeChar?_eq_some h
  refine ⟨rest.data.toList, ?_⟩
  simpa using congrArg (fun b : ByteArray => b.data.toList) hrest

variable {a b : List UInt8}

/-- What the encoding of a character begins ends the one before it. -/
theorem decodeChar_append (hb : b ≠ []) (ha : ∀ x, a.head? = some x → x.IsUTF8FirstByte) :
    decodeChar (b ++ a) = decodeChar b := by
  cases hd : decodeChar b with
  | some c =>
    obtain ⟨rest, rfl⟩ := decodeChar_eq_some hd
    rw [List.append_assoc, decodeChar_encode]
  | none =>
    rw [← Option.not_isSome_iff_eq_none, Option.isSome_iff_exists]
    rintro ⟨c, hc⟩
    obtain ⟨rest, hrest⟩ := decodeChar_eq_some hc
    by_cases hle : (String.utf8EncodeChar c).length ≤ b.length
    · obtain ⟨more, rfl⟩ := List.prefix_of_prefix_length_le (List.prefix_append _ rest)
        (hrest ▸ List.prefix_append b a) hle
      rw [decodeChar_encode] at hd
      cases hd
    · have hlt : b.length < (String.utf8EncodeChar c).length := by omega
      have hx : a.head? = some (String.utf8EncodeChar c)[b.length] := by
        have hget := congrArg (fun l => l[b.length]?) hrest
        simp only [List.getElem?_append_right (le_refl _), Nat.sub_self,
          List.getElem?_append_left hlt, List.getElem?_eq_getElem hlt] at hget
        rw [List.head?_eq_getElem?, hget]
      have hzero := UInt8.isUTF8FirstByte_getElem_utf8EncodeChar.mp (ha _ hx)
      exact hb (List.length_eq_zero_iff.mp hzero)

theorem invalidLength_append (hb : b ≠ []) (ha : ∀ x, a.head? = some x → x.IsUTF8FirstByte) :
    invalidLength (b ++ a) = invalidLength b := by
  cases a with
  | nil => rw [List.append_nil]
  | cons x a =>
    have hx := ha x rfl
    cases b with
    | nil => exact absurd rfl hb
    | cons b₀ b =>
      cases b with
      | nil =>
        rw [List.cons_append, List.nil_append, invalidLength, secondByteFits_first hx]
        rfl
      | cons b₁ b =>
        cases b with
        | nil => simp [invalidLength, (not_continuation hx).2]
        | cons b₂ b => rfl

theorem invalidLength_le (hb : b ≠ []) : invalidLength b ≤ b.length ∧ 0 < invalidLength b := by
  cases b with
  | nil => exact absurd rfl hb
  | cons b₀ b =>
    cases b with
    | nil => exact ⟨le_refl _, Nat.one_pos⟩
    | cons b₁ b =>
      rw [invalidLength]
      split_ifs with h₁ h₂
      · cases b with
        | nil => simp at h₂
        | cons b₂ b => simp
      · simp
      · simp

theorem head?_utf8 (s : Str) (x : UInt8) (h : (utf8 s).head? = some x) : x.IsUTF8FirstByte := by
  cases s with
  | nil => cases h
  | cons c s =>
    have hlen : 0 < (String.utf8EncodeChar c).length := by
      rw [String.length_utf8EncodeChar]
      exact c.utf8Size_pos
    rw [utf8, List.flatMap_cons, List.head?_append_of_ne_nil _ (List.ne_nil_of_length_pos hlen),
      List.head?_eq_getElem?, List.getElem?_eq_getElem hlen] at h
    rw [← Option.some.inj h]
    exact UInt8.isUTF8FirstByte_getElem_utf8EncodeChar.mpr rfl

theorem lossyFrom_append {s : Str} {n m : Nat} (hn : b.length + (utf8 s).length ≤ n)
    (hm : b.length ≤ m) : lossyFrom n (b ++ utf8 s) = lossyFrom m b ++ s := by
  induction n generalizing b m with
  | zero =>
    obtain rfl := List.length_eq_zero_iff.mp (by omega : b.length = 0)
    have hs : s = [] := List.length_eq_zero_iff.mp (Nat.le_zero.mp
      ((length_le_utf8 s).trans (by omega)))
    subst hs
    cases m <;> rfl
  | succ n ih =>
    by_cases hb : b = []
    · subst hb
      have hzero : lossyFrom m [] = [] := by cases m <;> rfl
      rw [hzero, List.nil_append, List.nil_append,
        lossyFrom_utf8 ((length_le_utf8 s).trans (by simpa using hn))]
    · obtain ⟨m, rfl⟩ : ∃ k, m = k + 1 :=
        ⟨m - 1, (Nat.succ_pred_eq_of_pos ((List.length_pos_of_ne_nil hb).trans_le hm)).symm⟩
      have ha := head?_utf8 s
      have hdrop : ∀ k, 0 < k → k ≤ b.length →
          lossyFrom n ((b ++ utf8 s).drop k) = lossyFrom m (b.drop k) ++ s := by
        intro k hk hkb
        rw [List.drop_append_of_le_length hkb]
        refine ih ?_ ?_ <;> rw [List.length_drop] <;> omega
      rw [lossyFrom, lossyFrom, if_neg hb, if_neg (by simp [hb]), decodeChar_append hb ha,
        invalidLength_append hb ha]
      cases hd : decodeChar b with
      | some c =>
        obtain ⟨rest, hrest⟩ := decodeChar_eq_some hd
        have hle : c.utf8Size ≤ b.length := by
          rw [hrest, List.length_append, String.length_utf8EncodeChar]
          exact Nat.le_add_right _ _
        exact congrArg (c :: ·) (hdrop _ c.utf8Size_pos hle)
      | none => exact congrArg (_ :: ·) (hdrop _ (invalidLength_le hb).2 (invalidLength_le hb).1)

/-- Text after any bytes is read as it is. -/
theorem fromUtf8Lossy_append (b : List UInt8) (s : Str) :
    fromUtf8Lossy (b ++ utf8 s) = fromUtf8Lossy b ++ s :=
  lossyFrom_append (by rw [List.length_append]) (le_refl _)

end Ed2kServer.Text.Utf8
