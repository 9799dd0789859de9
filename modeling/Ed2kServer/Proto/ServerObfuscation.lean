import Ed2kServer.Lib.LittleEndian
import Ed2kServer.Proto.Obfuscation

namespace Ed2kServer.Proto.ServerObfuscation

open Ed2kServer.Lib.LittleEndian
open Ed2kServer.Lib.Xor
open Ed2kServer.Proto.Obfuscation

def OBF_MAGIC : Nat := 0x13EF24D5

def MAX_PAD : Nat := 12

/-- The first bytes of plain, packed and extended frames. -/
def plainMarks : List UInt8 := [0xE3, 0xD4, 0xC5]

abbrev Salt := UInt8 × UInt8

variable (md5 : List UInt8 → Digest)

def deriveCipher (serverKey : UInt32) (salt : Salt) : Rc4 :=
  .new (md5 (leBytes 4 serverKey.toNat ++ [salt.1, salt.2, 0x00])) false

def deriveCipherWithObfbyte (serverKey : UInt32) (salt : Salt) (obfByte : UInt8) : Rc4 :=
  .new (md5 (leBytes 4 serverKey.toNat ++ [obfByte, salt.1, salt.2])) false

/-- The decoder with its cipher left open; both spellings of it share every other step. -/
def decodeWith (derive : Salt → Rc4) (datagram : List UInt8) : Option (List UInt8) :=
  if datagram.length < 10 then none
  else
    let salt := (datagram.getD 1 0, datagram.getD 2 0)
    let blob := ((derive salt).apply (datagram.drop 3)).1
    if ofLeBytes (blob.take 4) ≠ OBF_MAGIC then none
    else
      let padlen := (blob.getD 4 0 &&& 0x0F).toNat
      let msgStart := 5 + padlen
      if blob.length ≤ msgStart then none else some (blob.drop msgStart)

def decode (datagram : List UInt8) (serverKey : UInt32) : Option (List UInt8) :=
  decodeWith (deriveCipher md5 serverKey) datagram

def decodeWithObfbyte (datagram : List UInt8) (serverKey : UInt32) (obfByte : UInt8) :
    Option (List UInt8) :=
  decodeWith (fun salt => deriveCipherWithObfbyte md5 serverKey salt obfByte) datagram

/-- One turn of the xorshift generator. -/
def next (state : UInt32) : UInt32 :=
  let state := state ^^^ (state <<< 13)
  let state := state ^^^ (state >>> 17)
  state ^^^ (state <<< 5)

/-- Draw until the byte cannot be taken for the start of a plain frame. -/
def drawPad : Nat → UInt32 → Option (UInt8 × UInt32)
  | 0, _ => none
  | fuel + 1, state =>
    let state := next state
    let pad0 := (state &&& 0xFF).toUInt8
    if plainMarks.contains pad0 then drawPad fuel state else some (pad0, state)

/-- Every random field of a datagram. -/
structure Draw where
  pad0 : UInt8
  salt : Salt
  padlen : Nat

def draw (fuel : Nat) (rngSeed : UInt32) : Option Draw := do
  let (pad0, state) ← drawPad fuel (rngSeed ^^^ 0x9E3779B9)
  let r := next state
  let salt := ((r &&& 0xFF).toUInt8, ((r >>> 8) &&& 0xFF).toUInt8)
  return ⟨pad0, salt, (next r).toNat % (MAX_PAD + 1)⟩

/-- The text under the cipher: magic, pad length, zero padding, message. -/
def plainBlob (padlen : Nat) (message : List UInt8) : List UInt8 :=
  leBytes 4 OBF_MAGIC ++ [UInt8.ofNat padlen &&& 0x0F] ++ List.replicate padlen 0 ++ message

def encodeWith (derive : Salt → Rc4) (fuel : Nat) (message : List UInt8) (rngSeed : UInt32) :
    Option (List UInt8) := do
  let d ← draw fuel rngSeed
  return d.pad0 :: d.salt.1 :: d.salt.2 ::
    ((derive d.salt).apply (plainBlob d.padlen message)).1

def encode (fuel : Nat) (message : List UInt8) (serverKey rngSeed : UInt32) :
    Option (List UInt8) :=
  encodeWith (deriveCipher md5 serverKey) fuel message rngSeed

def encodeWithObfbyte (fuel : Nat) (message : List UInt8) (serverKey rngSeed : UInt32)
    (obfByte : UInt8) : Option (List UInt8) :=
  encodeWith (fun salt => deriveCipherWithObfbyte md5 serverKey salt obfByte) fuel message rngSeed

/-- The turn of the generator on its state as a bit vector. -/
def nextBits (s : BitVec 32) : BitVec 32 :=
  let s := s ^^^ (s <<< 13)
  let s := s ^^^ (s >>> 17)
  s ^^^ (s <<< 5)

theorem toBitVec_next (s : UInt32) : (next s).toBitVec = nextBits s.toBitVec := by
  simp [next, nextBits]

theorem nextBits_linear : XorLinear nextBits := by
  have h1 := XorLinear.id.xor (XorLinear.id.shiftLeft (n := 32) 13)
  have h2 := h1.xor (h1.shiftRight 17)
  exact h2.xor (h2.shiftLeft 5)

def turns : Nat → BitVec 32 → BitVec 32
  | 0, s => s
  | n + 1, s => turns n (nextBits s)

theorem turns_linear (n : Nat) : XorLinear (turns n) := by
  induction n with
  | zero => exact XorLinear.id
  | succ n ih => exact ih.comp nextBits_linear

/-- The bits of eleven successive states whose sum is zero whatever the first was. -/
def certificate : List (Nat × Nat) :=
  [(1, 7), (1, 6), (2, 6), (3, 3), (4, 7), (4, 6), (5, 6), (5, 3), (6, 3), (7, 7), (9, 3),
    (10, 3), (11, 7), (11, 6)]

def certified (s : BitVec 32) : BitVec 32 :=
  (certificate.foldl (fun acc p => acc ^^^ turns p.1 s >>> p.2) 0) &&& 1

theorem foldl_linear {f : BitVec 32 → BitVec 32} (hf : XorLinear f) (l : List (Nat × Nat)) :
    XorLinear (fun s => l.foldl (fun acc p => acc ^^^ turns p.1 s >>> p.2) (f s)) := by
  induction l generalizing f with
  | nil => exact hf
  | cons p l ih => exact ih (hf.xor ((turns_linear p.1).shiftRight p.2))

theorem certified_eq_zero (s : BitVec 32) : certified s = 0 := by
  have hzero : XorLinear (fun _ : BitVec 32 => (0 : BitVec 32)) := fun _ _ => by simp
  apply ((foldl_linear hzero certificate).and 1).eq_zero
  decide

/-- The low byte of a state. -/
def lowByte (s : BitVec 32) : UInt8 := ⟨s.setWidth 8⟩

theorem next_low (s : UInt32) : ((next s) &&& 0xFF).toUInt8 = lowByte (nextBits s.toBitVec) := by
  apply UInt8.toBitVec_inj.mp
  rw [UInt32.toBitVec_toUInt8, UInt32.toBitVec_and, toBitVec_next, lowByte]
  ext i hi
  have hbit : (0xFF : UInt32).toBitVec.getLsbD i = true := by
    interval_cases i <;> rfl
  rw [BitVec.getElem_setWidth, BitVec.getElem_setWidth, BitVec.getLsbD_and, hbit, Bool.and_true]

theorem mark_bits {b : UInt8} (h : plainMarks.contains b) :
    b.toBitVec[7] = true ∧ b.toBitVec[6] = true ∧ b.toBitVec[3] = false := by
  have hall : ∀ m ∈ plainMarks, m.toBitVec[7] = true ∧ m.toBitVec[6] = true ∧
      m.toBitVec[3] = false := by simp [plainMarks]
  exact hall b (List.contains_iff_mem.mp h)

theorem lowByte_bits {s : BitVec 32} (h : plainMarks.contains (lowByte s)) :
    s[7] = true ∧ s[6] = true ∧ s[3] = false := by
  have hm := mark_bits h
  simpa [lowByte] using hm

theorem drawPad_none {n : Nat} {s : UInt32} (h : drawPad n s = none) {k : Nat} (hk : k < n) :
    plainMarks.contains (lowByte (turns (k + 1) s.toBitVec)) := by
  induction n generalizing s k with
  | zero => cases hk
  | succ n ih =>
    rw [drawPad] at h
    simp only [next_low] at h
    by_cases hc : plainMarks.contains (lowByte (nextBits s.toBitVec)) = true
    · rw [if_pos hc] at h
      cases k with
      | zero => exact hc
      | succ k =>
        have hrest := ih h (k := k) (by omega)
        rw [toBitVec_next] at hrest
        exact hrest
    · rw [if_neg hc] at h
      cases h

/-- Eleven draws in a row never all begin a plain frame. -/
theorem drawPad_isSome (s : UInt32) : (drawPad 11 s).isSome := by
  by_contra hne
  have hn : drawPad 11 s = none := by simpa using hne
  have hbits := fun k (hk : k < 11) => lowByte_bits (drawPad_none hn hk)
  have hzero := congrArg (fun b : BitVec 32 => b.getLsbD 0) (certified_eq_zero s.toBitVec)
  simp [certified, certificate, hbits 0, hbits 1, hbits 2, hbits 3, hbits 4, hbits 5, hbits 6,
    hbits 8, hbits 9, hbits 10] at hzero

theorem drawPad_more {n : Nat} {s : UInt32} {p : UInt8 × UInt32} (h : drawPad n s = some p)
    (k : Nat) : drawPad (n + k) s = some p := by
  induction n generalizing s with
  | zero => cases h
  | succ n ih =>
    rw [drawPad] at h
    rw [Nat.add_right_comm, drawPad]
    by_cases hc : plainMarks.contains ((next s &&& 0xFF).toUInt8) = true
    · simp only [if_pos hc] at h ⊢
      exact ih h
    · simp only [if_neg hc] at h ⊢
      exact h

theorem drawPad_mark {n : Nat} {s : UInt32} {p : UInt8 × UInt32} (h : drawPad n s = some p) :
    p.1 ∉ plainMarks := by
  induction n generalizing s with
  | zero => cases h
  | succ n ih =>
    rw [drawPad] at h
    by_cases hc : plainMarks.contains ((next s &&& 0xFF).toUInt8) = true
    · simp only [if_pos hc] at h
      exact ih h
    · simp only [if_neg hc] at h
      cases h
      simpa using hc

end Ed2kServer.Proto.ServerObfuscation
