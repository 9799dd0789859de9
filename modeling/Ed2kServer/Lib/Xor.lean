import Mathlib

namespace Ed2kServer.Lib.Xor

variable {m n k : Nat}

/-- A map of words that commutes with exclusive or. -/
def XorLinear (f : BitVec m → BitVec n) : Prop := ∀ a b, f (a ^^^ b) = f a ^^^ f b

theorem XorLinear.id : XorLinear (fun a : BitVec n => a) := fun _ _ => rfl

theorem XorLinear.comp {g : BitVec n → BitVec k} {f : BitVec m → BitVec n} (hg : XorLinear g)
    (hf : XorLinear f) : XorLinear (fun a => g (f a)) := by
  intro a b
  simp only [hf a b, hg (f a) (f b)]

theorem XorLinear.xor {f g : BitVec m → BitVec n} (hf : XorLinear f) (hg : XorLinear g) :
    XorLinear (fun a => f a ^^^ g a) := by
  intro a b
  simp only [hf a b, hg a b]
  ac_rfl

theorem XorLinear.shiftLeft {f : BitVec m → BitVec n} (hf : XorLinear f) (i : Nat) :
    XorLinear (fun a => f a <<< i) := by
  intro a b
  simp only [hf a b, BitVec.shiftLeft_xor_distrib]

theorem XorLinear.shiftRight {f : BitVec m → BitVec n} (hf : XorLinear f) (i : Nat) :
    XorLinear (fun a => f a >>> i) := by
  intro a b
  simp only [hf a b, BitVec.ushiftRight_xor_distrib]

theorem XorLinear.and {f : BitVec m → BitVec n} (hf : XorLinear f) (c : BitVec n) :
    XorLinear (fun a => f a &&& c) := by
  intro a b
  simp only [hf a b]
  ext i
  simp [Bool.and_xor_distrib_right]

theorem XorLinear.zero {f : BitVec m → BitVec n} (hf : XorLinear f) : f 0 = 0 := by
  have h := hf 0 0
  simpa using h

/-- A linear map that is zero on every single bit is zero. -/
theorem XorLinear.eq_zero {f : BitVec m → BitVec n} (hf : XorLinear f)
    (h : ∀ i < m, f (BitVec.twoPow m i) = 0) (a : BitVec m) : f a = 0 := by
  have hlow : ∀ i ≤ m, ∀ a : BitVec m, (∀ j, i ≤ j → a.getLsbD j = false) → f a = 0 := by
    intro i hi
    induction i with
    | zero =>
      intro a ha
      have hz : a = 0 := by
        ext j hj
        simpa [BitVec.getLsbD_eq_getElem hj] using ha j (Nat.zero_le j)
      rw [hz, hf.zero]
    | succ i ih =>
      intro a ha
      have hbit : ∀ b : BitVec m, (∀ j, i ≤ j → b.getLsbD j = false) →
          f (b ^^^ BitVec.twoPow m i) = 0 := by
        intro b hb
        rw [hf, ih (by omega) b hb, h i (by omega)]
        simp
      by_cases hs : a.getLsbD i
      · have hback : a = (a ^^^ BitVec.twoPow m i) ^^^ BitVec.twoPow m i := by
          rw [BitVec.xor_assoc, BitVec.xor_self, BitVec.xor_zero]
        rw [hback]
        apply hbit
        intro j hj
        by_cases hji : j = i
        · subst hji
          simp [hs, show j < m by omega]
        · simp [ha j (by omega), Ne.symm hji]
      · apply ih (by omega) a
        intro j hj
        by_cases hji : j = i
        · subst hji
          simpa using hs
        · exact ha j (by omega)
  apply hlow m (le_refl m) a
  intro j hj
  exact BitVec.getLsbD_of_ge a j hj

/-- Byte by byte exclusive or with a key stream. -/
def xorBytes (data key : List UInt8) : List UInt8 := List.zipWith (· ^^^ ·) data key

theorem length_xorBytes {data key : List UInt8} (h : data.length = key.length) :
    (xorBytes data key).length = data.length := by
  simp [xorBytes, h]

theorem xorBytes_self {data key : List UInt8} (h : data.length = key.length) :
    xorBytes (xorBytes data key) key = data := by
  induction data generalizing key with
  | nil => rfl
  | cons d data ih =>
    cases key with
    | nil => cases h
    | cons c key =>
      have ht : xorBytes (xorBytes data key) key = data := ih (by simpa using h)
      simp only [xorBytes, List.zipWith_cons_cons] at ht ⊢
      rw [ht, UInt8.xor_assoc, UInt8.xor_self, UInt8.xor_zero]

theorem xorBytes_append {data key : List UInt8} (h : data.length = key.length)
    (data' key' : List UInt8) :
    xorBytes (data ++ data') (key ++ key') = xorBytes data key ++ xorBytes data' key' :=
  List.zipWith_append h

theorem take_xorBytes (data key : List UInt8) (i : Nat) :
    (xorBytes data key).take i = xorBytes (data.take i) (key.take i) := List.take_zipWith

theorem drop_xorBytes (data key : List UInt8) (i : Nat) :
    (xorBytes data key).drop i = xorBytes (data.drop i) (key.drop i) := List.drop_zipWith

/-- Text masked with one stream and unmasked with another comes back just when they agree. -/
theorem xorBytes_xorBytes_eq_iff {data key other : List UInt8} (hk : data.length = key.length)
    (ho : data.length = other.length) :
    xorBytes (xorBytes data key) other = data ↔ key = other := by
  constructor
  · intro h
    induction data generalizing key other with
    | nil =>
      rw [List.length_eq_zero_iff.mp hk.symm, List.length_eq_zero_iff.mp ho.symm]
    | cons d data ih =>
      cases key with
      | nil => cases hk
      | cons c key =>
        cases other with
        | nil => cases ho
        | cons o other =>
          simp only [xorBytes, List.zipWith_cons_cons, List.cons.injEq] at h
          have hc : c = o := by
            have hd := congrArg (d ^^^ ·) h.1
            simp only [UInt8.xor_self, ← UInt8.xor_assoc, UInt8.zero_xor] at hd
            have hz := congrArg (· ^^^ o) hd
            simpa [UInt8.xor_assoc] using hz
          rw [hc, ih (by simpa using hk) (by simpa using ho) h.2]
  · intro h
    subst h
    exact xorBytes_self hk

end Ed2kServer.Lib.Xor
