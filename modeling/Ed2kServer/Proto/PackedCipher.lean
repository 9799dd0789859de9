import Ed2kServer.Lib.LittleEndian
import Ed2kServer.Proto.Obfuscation

namespace Ed2kServer.Proto.PackedCipher

open Ed2kServer.Lib.LittleEndian
open Ed2kServer.Proto.Obfuscation

/-- Byte `i` of a number. -/
def digit (n i : Nat) : Nat := n / 256 ^ i % 256

def exchange (n i j : Nat) : Nat :=
  n + digit n j * 256 ^ i + digit n i * 256 ^ j - (digit n i * 256 ^ i + digit n j * 256 ^ j)

/-- The state of a cipher as one number, which the kernel computes with at once. -/
def pack (s : Vector UInt8 256) : Nat := ofLeBytes s.toList

/-- A round of the key schedule on numbers. -/
def mixPacked (key : Nat) (p : Nat × Nat) (i : Nat) : Nat × Nat :=
  let j := (p.2 + digit p.1 i + digit key (i % 16)) % 256
  (exchange p.1 i j, j)

/-- The first byte of the stream of a cipher that was not advanced yet. -/
def firstByte (n : Nat) : Nat :=
  let y := digit n 1
  let m := exchange n 1 y
  digit m ((digit m 1 + digit m y) % 256)

theorem digit_ofLeBytes (bs : List UInt8) (i : Nat) :
    digit (ofLeBytes bs) i = (bs.getD i 0).toNat := by
  rw [digit]
  induction bs generalizing i with
  | nil => simp [ofLeBytes]
  | cons b bs ih =>
    have hb := b.toNat_lt
    cases i with
    | zero =>
      rw [ofLeBytes, Nat.pow_zero, Nat.div_one, Nat.add_mul_mod_self_left, Nat.mod_eq_of_lt hb]
      rfl
    | succ i =>
      have hhigh : (b.toNat + 256 * ofLeBytes bs) / 256 = ofLeBytes bs := by omega
      rw [ofLeBytes, Nat.pow_succ', ← Nat.div_div_eq_div_mul, hhigh, ih]
      rfl

theorem digit_pack (s : Vector UInt8 256) (i : Fin 256) : digit (pack s) i.val = (s.get i).toNat := by
  rw [pack, digit_ofLeBytes, Vector.get_eq_getElem]
  simp [List.getD_eq_getElem?_getD]

theorem digit_byteAt (s : Vector UInt8 256) (i : UInt8) :
    digit (pack s) i.toNat = (byteAt s i).toNat := digit_pack s ⟨i.toNat, i.toNat_lt⟩

theorem ofLeBytes_set {bs : List UInt8} {i : Nat} (h : i < bs.length) (b : UInt8) :
    ofLeBytes (bs.set i b) + (bs.getD i 0).toNat * 256 ^ i =
      ofLeBytes bs + b.toNat * 256 ^ i := by
  induction bs generalizing i with
  | nil => cases h
  | cons c bs ih =>
    cases i with
    | zero =>
      simp only [List.set_cons_zero, ofLeBytes, List.getD_cons_zero]
      omega
    | succ i =>
      have hi := ih (Nat.lt_of_succ_lt_succ h)
      simp only [List.set_cons_succ, ofLeBytes, List.getD_cons_succ, Nat.pow_succ']
      linarith

theorem getD_toList (s : Vector UInt8 256) (i : UInt8) :
    s.toList.getD i.toNat 0 = byteAt s i := by
  rw [byteAt, Vector.get_eq_getElem]
  simp [List.getD_eq_getElem?_getD, i.toNat_lt]

theorem pack_swap (s : Vector UInt8 256) (i j : UInt8) :
    pack (swap s i j) = exchange (pack s) i.toNat j.toNat := by
  have hlen : s.toList.length = 256 := Vector.length_toList
  have hi : i.toNat < s.toList.length := by
    rw [hlen]
    exact i.toNat_lt
  have hj : j.toNat < (s.toList.set i.toNat (byteAt s j)).length := by
    rw [List.length_set, hlen]
    exact j.toNat_lt
  have hswap : (swap s i j).toList =
      (s.toList.set i.toNat (byteAt s j)).set j.toNat (byteAt s i) :=
    Vector.toList_swap i.toNat_lt j.toNat_lt
  have hfirst := ofLeBytes_set hi (byteAt s j)
  have hsecond := ofLeBytes_set hj (byteAt s i)
  have hstill : (s.toList.set i.toNat (byteAt s j)).getD j.toNat 0 = byteAt s j := by
    rw [List.getD_eq_getElem?_getD, List.getElem?_set]
    split
    · rfl
    · rw [← List.getD_eq_getElem?_getD, getD_toList]
  rw [hstill] at hsecond
  rw [getD_toList] at hfirst
  rw [exchange, digit_byteAt, digit_byteAt, pack, hswap, pack]
  omega

theorem mixPacked_eq {key : Digest} {p : Vector UInt8 256 × UInt8} {i : Fin 256} :
    mixPacked (ofLeBytes key.toList) (pack p.1, p.2.toNat) i.val =
      (pack (mix key p i).1, (mix key p i).2.toNat) := by
  have hkey : digit (ofLeBytes key.toList) (i.val % 16) = (key.get (Fin.ofNat 16 i.val)).toNat := by
    rw [digit_ofLeBytes, Vector.get_eq_getElem]
    simp [List.getD_eq_getElem?_getD, Nat.mod_lt]
  have hj : (p.2.toNat + (p.1.get i).toNat + (key.get (Fin.ofNat 16 i.val)).toNat) % 256 =
      (p.2 + p.1.get i + key.get (Fin.ofNat 16 i.val)).toNat := by
    simp only [UInt8.toNat_add]
    omega
  have hi : (UInt8.ofFin i).toNat = i.val := rfl
  rw [mixPacked, mix, digit_pack, hkey, hj, pack_swap, hi]

/-- The key schedule on numbers. -/
def schedule (key : Nat) : Nat × Nat :=
  (List.finRange 256).foldl (fun p i => mixPacked key p i.val)
    (ofLeBytes (List.ofFn (fun i : Fin 256 => UInt8.ofFin i)), 0)

theorem pack_new (key : Digest) :
    pack (Rc4.new key false).state = (schedule (ofLeBytes key.toList)).1 := by
  have hrun : ∀ (l : List (Fin 256)) (p : Vector UInt8 256 × UInt8),
      l.foldl (fun p i => mixPacked (ofLeBytes key.toList) p i.val) (pack p.1, p.2.toNat) =
        (pack (l.foldl (mix key) p).1, (l.foldl (mix key) p).2.toNat) := by
    intro l
    induction l with
    | nil => exact fun p => rfl
    | cons i l ih =>
      intro p
      rw [List.foldl_cons, mixPacked_eq, ih, List.foldl_cons]
  have h := hrun (List.finRange 256) (Vector.ofFn (fun i => UInt8.ofFin i), 0)
  have hstart : pack (Vector.ofFn (fun i : Fin 256 => UInt8.ofFin i)) =
      ofLeBytes (List.ofFn (fun i : Fin 256 => UInt8.ofFin i)) := by
    rw [pack, Vector.toList_ofFn]
  have hzero : (0 : UInt8).toNat = 0 := rfl
  simp only [hstart, hzero] at h
  simp only [Rc4.new, Bool.false_eq_true, if_false, schedule, h]

theorem firstByte_eq {c : Rc4} (hx : c.x = 0) (hy : c.y = 0) :
    c.advance.out.toNat = firstByte (pack c.state) := by
  have hone : digit (pack c.state) 1 = (byteAt c.state 1).toNat := digit_byteAt c.state 1
  have hswap := pack_swap c.state 1 (byteAt c.state 1)
  set s := swap c.state 1 (byteAt c.state 1) with hs
  have hadvance : c.advance = ⟨s, 1, byteAt c.state 1⟩ := by
    rw [Rc4.advance, hx, hy]
    simp [hs]
  have hsum : (byteAt s 1).toNat + (byteAt s (byteAt c.state 1)).toNat =
      digit (pack s) 1 + digit (pack s) (byteAt c.state 1).toNat := by
    rw [digit_byteAt]
    exact congrArg (· + _) (digit_byteAt s 1).symm
  rw [firstByte, hone, show exchange (pack c.state) 1 (byteAt c.state 1).toNat = pack s from
    hswap.symm, ← hsum, ← UInt8.toNat_add, digit_byteAt, hadvance]
  rfl

end Ed2kServer.Proto.PackedCipher
