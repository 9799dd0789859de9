import Ed2kServer.Text.ByteSlices

namespace Ed2kServer.Text.Cut

open Ed2kServer.Text.ByteSlices

/-- `str::is_char_boundary`. -/
def isCharBoundary (s : Str) (n : Nat) : Bool := (sliceTo n s).isSome

/-- Down to the nearest boundary. -/
def boundaryBelow (s : Str) : Nat → Nat
  | 0 => 0
  | n + 1 => if isCharBoundary s (n + 1) then n + 1 else boundaryBelow s n

/-- The bytes of `s` up to a boundary at most `max` bytes in. -/
def cutBytes (max : Nat) (s : Str) : List UInt8 :=
  (utf8 s).take (boundaryBelow s (min (utf8 s).length max))

/-- The longest run of whole characters from the front that takes at most `n` bytes. -/
def cutAt : Nat → Str → Str
  | _, [] => []
  | n, c :: s => if c.utf8Size ≤ n then c :: cutAt (n - c.utf8Size) s else []

theorem sliceTo_eq_some {n : Nat} {s p : Str} :
    sliceTo n s = some p ↔ ∃ t, s = p ++ t ∧ (utf8 p).length = n := by
  constructor
  · intro h
    induction s generalizing n p with
    | nil =>
      cases n with
      | zero =>
        obtain rfl := Option.some.inj h
        exact ⟨[], rfl, rfl⟩
      | succ n => cases h
    | cons c s ih =>
      cases n with
      | zero =>
        obtain rfl := Option.some.inj h
        exact ⟨c :: s, rfl, rfl⟩
      | succ n =>
        rw [sliceTo] at h
        split_ifs at h with hc
        obtain ⟨q, hq, rfl⟩ := Option.map_eq_some_iff.mp h
        obtain ⟨t, rfl, hlen⟩ := ih hq
        exact ⟨t, rfl, by rw [length_utf8_cons, hlen]; omega⟩
  · rintro ⟨t, rfl, rfl⟩
    exact sliceTo_append p t

theorem cutAt_isPrefix (n : Nat) (s : Str) : cutAt n s <+: s := by
  induction s generalizing n with
  | nil => exact List.nil_prefix
  | cons c s ih =>
    rw [cutAt]
    split_ifs
    · exact List.cons_prefix_cons.mpr ⟨rfl, ih _⟩
    · exact List.nil_prefix

theorem length_cutAt_le (n : Nat) (s : Str) : (utf8 (cutAt n s)).length ≤ n := by
  induction s generalizing n with
  | nil => exact Nat.zero_le n
  | cons c s ih =>
    rw [cutAt]
    split_ifs with hc
    · have hrest := ih (n - c.utf8Size)
      rw [length_utf8_cons]
      omega
    · exact Nat.zero_le n

/-- No longer run of whole characters fits. -/
theorem prefix_cutAt {n : Nat} {p t : Str} (h : (utf8 p).length ≤ n) : p <+: cutAt n (p ++ t) := by
  induction p generalizing n with
  | nil => exact List.nil_prefix
  | cons c p ih =>
    rw [length_utf8_cons] at h
    rw [List.cons_append, cutAt, if_pos (by omega)]
    exact List.cons_prefix_cons.mpr ⟨rfl, ih (by omega)⟩

theorem cutAt_of_length_le {n : Nat} {s : Str} (h : (utf8 s).length ≤ n) : cutAt n s = s := by
  have hs := prefix_cutAt (t := []) h
  rw [List.append_nil] at hs
  exact (cutAt_isPrefix n s).eq_of_length_le hs.length_le

theorem boundaryBelow_of_none {s : Str} {b n : Nat} (hb : isCharBoundary s b = true) (hle : b ≤ n)
    (hnone : ∀ k, b < k → k ≤ n → isCharBoundary s k = false) : boundaryBelow s n = b := by
  induction n with
  | zero => rw [boundaryBelow, Nat.le_zero.mp hle]
  | succ n ih =>
    rw [boundaryBelow]
    rcases Nat.lt_or_eq_of_le hle with hlt | rfl
    · rw [hnone (n + 1) hlt (Nat.le_refl _), if_neg Bool.false_ne_true]
      exact ih (Nat.le_of_lt_succ hlt) fun k hk hkn => hnone k hk (Nat.le_succ_of_le hkn)
    · rw [if_pos hb]

theorem boundaryBelow_eq (s : Str) (n : Nat) :
    boundaryBelow s n = (utf8 (cutAt n s)).length := by
  obtain ⟨t, ht⟩ := cutAt_isPrefix n s
  have hslice : sliceTo (utf8 (cutAt n s)).length s = some (cutAt n s) :=
    sliceTo_eq_some.mpr ⟨t, ht.symm, rfl⟩
  refine boundaryBelow_of_none (by rw [isCharBoundary, hslice]; rfl) (length_cutAt_le n s)
    fun k hlt hk => ?_
  rw [isCharBoundary, ← Bool.not_eq_true, Option.isSome_iff_exists]
  rintro ⟨p, hp⟩
  obtain ⟨u, rfl, rfl⟩ := sliceTo_eq_some.mp hp
  obtain ⟨v, hv⟩ := prefix_cutAt (t := u) hk
  rw [← hv, utf8_append, List.length_append] at hlt
  omega

/-- The cut bytes are those of whole characters. -/
theorem cutBytes_eq (max : Nat) (s : Str) : cutBytes max s = utf8 (cutAt max s) := by
  have hcut : cutAt (min (utf8 s).length max) s = cutAt max s := by
    rcases Nat.le_total (utf8 s).length max with hle | hle
    · rw [Nat.min_eq_left hle, cutAt_of_length_le (Nat.le_refl _), cutAt_of_length_le hle]
    · rw [Nat.min_eq_right hle]
  obtain ⟨t, ht⟩ := cutAt_isPrefix max s
  rw [cutBytes, boundaryBelow_eq, hcut]
  nth_rewrite 2 [← ht]
  rw [utf8_append, List.take_left]

end Ed2kServer.Text.Cut
