import Ed2kServer.Lib.LittleEndian
import Ed2kServer.Proto.Obfuscation

namespace Ed2kServer.Proto.DhHandshake

open Ed2kServer.Lib.LittleEndian Ed2kServer.Proto.Obfuscation

def DH_PRIME : List UInt8 := [
  0xF2, 0xBF, 0x52, 0xC5, 0x5F, 0x58, 0x7A, 0xDD, 0x53, 0x71, 0xA9, 0x36, 0xE8, 0x86, 0xEB, 0x3C,
  0x62, 0x17, 0xA3, 0x3E, 0xC3, 0x4C, 0xB4, 0x0D, 0xC7, 0x3A, 0x41, 0xA6, 0x43, 0xAF, 0xFC, 0xE7,
  0x21, 0xFC, 0x28, 0x63, 0x66, 0x53, 0x5B, 0xDB, 0xCE, 0x25, 0x9F, 0x22, 0x86, 0xDA, 0x4A, 0x91,
  0xB2, 0x07, 0xCB, 0xAA, 0x52, 0x55, 0xD4, 0xF6, 0x1C, 0xCE, 0xAE, 0xD4, 0x5A, 0xD5, 0xE0, 0x74,
  0x7D, 0xF7, 0x78, 0x18, 0x28, 0x10, 0x5F, 0x34, 0x0F, 0x76, 0x23, 0x87, 0xF8, 0x8B, 0x28, 0x91,
  0x42, 0xFB, 0x42, 0x68, 0x8F, 0x05, 0x15, 0x0F, 0x54, 0x8B, 0x5F, 0x43, 0x6A, 0xF7, 0x0D, 0xF3]

def DH_G : Nat := 2

def DH_PRIME_SIZE : Nat := 96

def MAGIC_VALUE_SERVER : UInt8 := 203

def MAGIC_VALUE_REQUESTER : UInt8 := 34

def MAGIC_SYNC : Nat := 0x835E6FC4

def EM_OBFUSCATE : UInt8 := 0

/-- A number from its bytes, the highest first. -/
def ofBeBytes (bs : List UInt8) : Nat := ofLeBytes bs.reverse

/-- The low `k` bytes of a number, the highest first. -/
def beBytes (k n : Nat) : List UInt8 := (leBytes k n).reverse

/-- Square and multiply. -/
def powMod (b e m : Nat) : Nat :=
  if h : e = 0 then 1 % m
  else
    let half := powMod (b * b % m) (e / 2) m
    if e % 2 = 1 then b * half % m else half
termination_by e
decreasing_by omega

def dhPowMod (exp : List UInt8) : List UInt8 :=
  beBytes DH_PRIME_SIZE (powMod DH_G (ofBeBytes exp) (ofBeBytes DH_PRIME))

def dhShared (aPub bPriv : List UInt8) : List UInt8 :=
  beBytes DH_PRIME_SIZE (powMod (ofBeBytes aPub) (ofBeBytes bPriv) (ofBeBytes DH_PRIME))

variable (md5 : List UInt8 → Digest)

def deriveRc4 (sharedSecret : List UInt8) (magic : UInt8) : Rc4 :=
  .new (md5 (List.replicate (DH_PRIME_SIZE - sharedSecret.length) 0 ++ sharedSecret ++ [magic]))
    true

inductive CryptState
  | plain
  | waiting
  | negotiating
  | encrypting
  deriving DecidableEq

structure TcpObfuscation where
  state : CryptState
  sendKey : Option Rc4
  recvKey : Option Rc4

/-- The server's random bytes for one handshake. -/
structure Random where
  bPriv : List UInt8
  padOut : List UInt8
  padOut_lt : padOut.length < 16

namespace TcpObfuscation

def new (supportCrypt : Bool) : TcpObfuscation :=
  ⟨if supportCrypt then .waiting else .plain, none, none⟩

/-- From `marker ++ A ++ paddingLen ++ padding` the answer `B ++ RC4(...)`. -/
def negotiate (random : Random) (obf : TcpObfuscation) (buf : List UInt8) :
    Except String (TcpObfuscation × List UInt8) :=
  if buf.length < 1 + DH_PRIME_SIZE + 1 then .error "negotiate: buffer too short"
  else
    let aPub := (buf.drop 1).take DH_PRIME_SIZE
    let bPub := dhPowMod random.bPriv
    let shared := dhShared aPub random.bPriv
    let sendKey := deriveRc4 md5 shared MAGIC_VALUE_SERVER
    let recvKey := deriveRc4 md5 shared MAGIC_VALUE_REQUESTER
    let plain := leBytes 4 MAGIC_SYNC ++
      [EM_OBFUSCATE, EM_OBFUSCATE, UInt8.ofNat random.padOut.length] ++ random.padOut
    let enc := sendKey.apply plain
    .ok ({ obf with state := .negotiating, sendKey := some enc.2, recvKey := some recvKey },
      bPub ++ enc.1)

/-- Decrypt `MagicSync ++ method ++ padLen ++ pad ++ payload` and give the payload. -/
def handshake (obf : TcpObfuscation) (buf : List UInt8) :
    Except String (TcpObfuscation × List UInt8) :=
  match obf.recvKey with
  | none => .error "no recv key"
  | some recv =>
    let (buf, recv) := recv.apply buf
    let obf := { obf with recvKey := some recv }
    if buf.length < 6 then .error "handshake: buffer too short after decrypt"
    else if ofLeBytes (buf.take 4) ≠ MAGIC_SYNC then .error "handshake: wrong MagicSync"
    else if buf.getD 4 0 ≠ EM_OBFUSCATE then .error "handshake: unsupported encryption method"
    else
      let dataStart := 6 + (buf.getD 5 0).toNat
      if buf.length < dataStart then .error "handshake: truncated padding"
      else .ok ({ obf with state := .encrypting }, buf.drop dataStart)

def takeKeys (obf : TcpObfuscation) : Option (Rc4 × Rc4) :=
  match obf.recvKey, obf.sendKey with
  | some recv, some send => some (recv, send)
  | _, _ => none

end TcpObfuscation

/-! ### The shared secret -/

theorem powMod_eq (b e m : Nat) : powMod b e m = b ^ e % m := by
  induction b, e using powMod.induct m with
  | case1 b => rw [powMod, dif_pos rfl, Nat.pow_zero]
  | case2 b e he hodd ih =>
    have he' : e = 2 * (e / 2) + 1 := by omega
    have hsplit : b ^ e = b * (b * b) ^ (e / 2) := by
      rw [← Nat.pow_two, ← Nat.pow_mul, ← Nat.pow_succ']
      exact congrArg (b ^ ·) he'
    rw [powMod, dif_neg he]
    dsimp only
    rw [if_pos hodd, ih, ← Nat.pow_mod, Nat.mul_mod_mod, hsplit]
  | case3 b e he heven ih =>
    have he' : e = 2 * (e / 2) := by omega
    have hsplit : b ^ e = (b * b) ^ (e / 2) := by
      rw [← Nat.pow_two, ← Nat.pow_mul, ← he']
    rw [powMod, dif_neg he]
    dsimp only
    rw [if_neg heven, ih, ← Nat.pow_mod, hsplit]

theorem length_dhPowMod (exp : List UInt8) : (dhPowMod exp).length = DH_PRIME_SIZE := by
  rw [dhPowMod, beBytes, List.length_reverse, length_leBytes]

theorem ofBeBytes_beBytes (k n : Nat) : ofBeBytes (beBytes k n) = n % 256 ^ k := by
  rw [ofBeBytes, beBytes, List.reverse_reverse, ofLeBytes_leBytes]

theorem ofBeBytes_lt (bs : List UInt8) : ofBeBytes bs < 256 ^ bs.length := by
  have h := ofLeBytes_leBytes bs.reverse.length (ofLeBytes bs.reverse)
  rw [leBytes_ofLeBytes, List.length_reverse] at h
  rw [ofBeBytes, h]
  exact Nat.mod_lt _ (Nat.pow_pos (by decide))

theorem prime_pos : 0 < ofBeBytes DH_PRIME := by
  decide +kernel

/-- Both sides compute one secret. -/
theorem dhShared_dhPowMod (a b : List UInt8) :
    dhShared (dhPowMod a) b = dhShared (dhPowMod b) a := by
  have hvalue : ∀ e, ofBeBytes (dhPowMod e) =
      DH_G ^ ofBeBytes e % ofBeBytes DH_PRIME := fun e => by
    rw [dhPowMod, ofBeBytes_beBytes, powMod_eq]
    exact Nat.mod_eq_of_lt ((Nat.mod_lt _ prime_pos).trans (ofBeBytes_lt DH_PRIME))
  rw [dhShared, dhShared, powMod_eq, powMod_eq, hvalue, hvalue, ← Nat.pow_mod, ← Nat.pow_mod,
    ← Nat.pow_mul, ← Nat.pow_mul, Nat.mul_comm]

/-! ### The client's half -/

/-- What a client sends after the server's answer, before it is encrypted. -/
def ackText (pad payload : List UInt8) : List UInt8 :=
  leBytes 4 MAGIC_SYNC ++ [EM_OBFUSCATE, UInt8.ofNat pad.length] ++ pad ++ payload

theorem length_ackText (pad payload : List UInt8) :
    (ackText pad payload).length = 6 + pad.length + payload.length := by
  simp [ackText]
  omega

theorem drop_ackText (pad payload : List UInt8) :
    (ackText pad payload).drop (6 + pad.length) = payload := by
  rw [ackText]
  exact List.drop_left' (by simp; omega)

variable {obf obf' : TcpObfuscation} {recv : Rc4}

theorem handshake_ok {buf leftover : List UInt8} (hrecv : obf.recvKey = some recv)
    (h : obf.handshake buf = .ok (obf', leftover)) :
    obf'.recvKey = some (recv.skip buf.length) := by
  rw [TcpObfuscation.handshake, hrecv] at h
  dsimp only at h
  split_ifs at h
  obtain ⟨rfl, -⟩ := Prod.mk.inj (Except.ok.inj h)
  rw [apply_snd]

/-- The first bytes of an acknowledgement are enough from the end of its padding on, and only
from there on. -/
theorem handshake_take (hrecv : obf.recvKey = some recv) {pad payload : List UInt8}
    (hpad : pad.length ≤ 255) (m : Nat) :
    let text := (ackText pad payload).take m
    (6 + pad.length ≤ m → obf.handshake (recv.apply text).1 =
      .ok (⟨.encrypting, obf.sendKey, some (recv.skip text.length)⟩,
        payload.take (m - (6 + pad.length)))) ∧
      (m < 6 + pad.length → ∃ e, obf.handshake (recv.apply text).1 = .error e) := by
  intro text
  have hpair : recv.apply (recv.apply text).1 = (text, recv.skip text.length) :=
    Prod.ext (apply_apply recv text) (by rw [apply_snd, length_apply])
  rw [TcpObfuscation.handshake, hrecv]
  dsimp only
  rw [hpair]
  dsimp only
  by_cases hsix : 6 ≤ m
  · have htext : text = [0xC4, 0x6F, 0x5E, 0x83, EM_OBFUSCATE, UInt8.ofNat pad.length] ++
        (pad ++ payload).take (m - 6) := by
      have hsync : leBytes 4 MAGIC_SYNC = [0xC4, 0x6F, 0x5E, 0x83] := by decide
      obtain ⟨k, rfl⟩ := Nat.exists_eq_add_of_le hsix
      simp only [text, ackText, hsync]
      simp [Nat.add_comm 6 k]
    have hlen : text.length = 6 + min (m - 6) (pad.length + payload.length) := by
      simp only [htext, List.length_append, List.length_take, List.length_cons, List.length_nil]
    have hfour : text.take 4 = [0xC4, 0x6F, 0x5E, 0x83] := by rw [htext]; rfl
    have hsync : ofLeBytes (text.take 4) = MAGIC_SYNC := by
      rw [hfour]
      decide
    have hmethod : text.getD 4 0 = EM_OBFUSCATE := by rw [htext]; rfl
    have hpadLen : (text.getD 5 0).toNat = pad.length := by
      rw [htext]
      exact (UInt8.toNat_ofNat' ..).trans (Nat.mod_eq_of_lt (by omega))
    rw [if_neg (by omega), if_neg (not_not.mpr hsync), if_neg (not_not.mpr hmethod), hpadLen]
    constructor
    · intro hm
      rw [if_neg (by omega)]
      simp only [text, List.drop_take, drop_ackText]
    · intro hm
      rw [if_pos (by omega)]
      exact ⟨_, rfl⟩
  · have hshort : text.length < 6 := by
      rw [List.length_take]
      omega
    rw [if_pos hshort]
    exact ⟨fun hm => absurd hm (by omega), fun _ => ⟨_, rfl⟩⟩

end Ed2kServer.Proto.DhHandshake
