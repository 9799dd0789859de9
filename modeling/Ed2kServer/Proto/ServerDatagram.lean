import Ed2kServer.Proto.PackedCipher
import Ed2kServer.Proto.ServerObfuscation

namespace Ed2kServer.Proto.ServerDatagram

open Ed2kServer.Lib.LittleEndian
open Ed2kServer.Lib.Xor
open Ed2kServer.Proto.Obfuscation
open Ed2kServer.Proto.PackedCipher
open Ed2kServer.Proto.ServerObfuscation

/-- Draws enough for every seed. -/
def padTurns : Nat := 11

theorem draw_total (seed : UInt32) :
    ∃ d, (∀ fuel, padTurns ≤ fuel → draw fuel seed = some d) ∧ d.pad0 ∉ plainMarks ∧
      d.padlen ≤ MAX_PAD := by
  obtain ⟨⟨pad0, state⟩, hp⟩ := Option.isSome_iff_exists.mp (drawPad_isSome (seed ^^^ 0x9E3779B9))
  have hmark : pad0 ∉ plainMarks := drawPad_mark hp
  refine ⟨⟨pad0, ((next state &&& 0xFF).toUInt8, ((next state >>> 8) &&& 0xFF).toUInt8),
    (next (next state)).toNat % (MAX_PAD + 1)⟩, fun fuel hfuel => ?_, hmark, ?_⟩
  · obtain ⟨k, rfl⟩ := Nat.exists_eq_add_of_le hfuel
    have hmore : drawPad (padTurns + k) (seed ^^^ 0x9E3779B9) = some (pad0, state) :=
      drawPad_more hp k
    rw [draw, hmore]
    rfl
  · exact Nat.le_of_lt_succ (Nat.mod_lt _ (Nat.succ_pos _))

/-- The datagram made of the drawn fields. -/
def frame (derive : Salt → Rc4) (d : Draw) (message : List UInt8) : List UInt8 :=
  d.pad0 :: d.salt.1 :: d.salt.2 :: ((derive d.salt).apply (plainBlob d.padlen message)).1

theorem encodeWith_eq {derive : Salt → Rc4} {fuel : Nat} {seed : UInt32} {d : Draw}
    (h : draw fuel seed = some d) (message : List UInt8) :
    encodeWith derive fuel message seed = some (frame derive d message) := by
  rw [encodeWith, h]
  rfl

/-- Two ciphers agree on the magic, on the pad length's nibble and on the message. -/
def Coincide (c c' : Rc4) (padlen len : Nat) : Prop :=
  let ks := c.keystream (5 + padlen + len)
  let ks' := c'.keystream (5 + padlen + len)
  ks.take 4 = ks'.take 4 ∧ ks.getD 4 0 &&& 0x0F = ks'.getD 4 0 &&& 0x0F ∧
    ks.drop (5 + padlen) = ks'.drop (5 + padlen)

theorem Coincide.refl (c : Rc4) (padlen len : Nat) : Coincide c c padlen len := ⟨rfl, rfl, rfl⟩

theorem Coincide.symm {c c' : Rc4} {padlen len : Nat} (h : Coincide c c' padlen len) :
    Coincide c' c padlen len := ⟨h.1.symm, h.2.1.symm, h.2.2.symm⟩

theorem length_plainBlob (padlen : Nat) (message : List UInt8) :
    (plainBlob padlen message).length = 5 + padlen + message.length := by
  simp [plainBlob]
  omega

theorem take_plainBlob (padlen : Nat) (message : List UInt8) :
    (plainBlob padlen message).take 4 = leBytes 4 OBF_MAGIC := by
  rw [plainBlob, List.append_assoc, List.append_assoc, List.take_left' (length_leBytes 4 _)]

theorem drop_plainBlob (padlen : Nat) (message : List UInt8) :
    (plainBlob padlen message).drop (5 + padlen) = message := by
  rw [plainBlob]
  apply List.drop_left'
  simp
  omega

theorem getD_plainBlob (padlen : Nat) (message : List UInt8) :
    (plainBlob padlen message).getD 4 0 = UInt8.ofNat padlen &&& 0x0F := by
  simp [plainBlob]

theorem and_xor_right (a b c : UInt8) : (a ^^^ b) &&& c = (a &&& c) ^^^ (b &&& c) := by
  apply UInt8.toBitVec_inj.mp
  ext i
  simp [Bool.and_xor_distrib_right]

theorem nibble_of_le {padlen : Nat} (h : padlen ≤ MAX_PAD) :
    ((UInt8.ofNat padlen &&& 0x0F) &&& 0x0F).toNat = padlen := by
  have hmax : padlen ≤ 12 := h
  interval_cases padlen <;> rfl

/-- The nibble read back is the written one just when the streams agree there. -/
theorem nibble_iff (p a b : UInt8) :
    ((p ^^^ a) ^^^ b) &&& 0x0F = p &&& 0x0F ↔ a &&& 0x0F = b &&& 0x0F := by
  rw [UInt8.xor_assoc, and_xor_right, and_xor_right]
  constructor
  · intro h
    have hx := congrArg ((p &&& 0x0F) ^^^ ·) h
    simp only [← UInt8.xor_assoc, UInt8.xor_self, UInt8.zero_xor] at hx
    exact UInt8.xor_eq_zero_iff.mp hx
  · intro h
    rw [h, UInt8.xor_self, UInt8.xor_zero]

theorem getD_xorBytes {data key : List UInt8} {i : Nat} (hd : i < data.length)
    (hk : i < key.length) : (xorBytes data key).getD i 0 = data.getD i 0 ^^^ key.getD i 0 := by
  simp [xorBytes, List.getD_eq_getElem?_getD, hd, hk]

theorem magic_iff {l : List UInt8} (h : l.length = 4) :
    ofLeBytes l = OBF_MAGIC ↔ l = leBytes 4 OBF_MAGIC := by
  constructor
  · intro he
    rw [← he, ← h, leBytes_ofLeBytes]
  · intro he
    rw [he, ofLeBytes_leBytes]
    rfl

/-- A datagram of one cipher read with another gives its message just when they coincide. -/
theorem decodeWith_frame {derive derive' : Salt → Rc4} {d : Draw} (hd : d.padlen ≤ MAX_PAD)
    {message : List UInt8} (hm : 2 ≤ message.length) :
    decodeWith derive' (frame derive d message) = some message ↔
      Coincide (derive d.salt) (derive' d.salt) d.padlen message.length := by
  have hlen := length_plainBlob d.padlen message
  set n := 5 + d.padlen + message.length with hn
  set ks := (derive d.salt).keystream n with hks
  set ks' := (derive' d.salt).keystream n with hks'
  set p := plainBlob d.padlen message with hp
  have hk : p.length = ks.length := by rw [hlen, hks, length_keystream]
  have hk' : p.length = ks'.length := by rw [hlen, hks', length_keystream]
  set blob := xorBytes (xorBytes p ks) ks' with hblob
  have hbl : blob.length = n := by
    rw [hblob, length_xorBytes (by rw [length_xorBytes hk, hk']), length_xorBytes hk, hlen]
  have hrun : ((derive' d.salt).apply ((derive d.salt).apply p).1).1 = blob := by
    rw [apply_eq, length_apply, apply_eq, hlen]
  have hlong : ¬ (frame derive d message).length < 10 := by
    simp only [frame, List.length_cons, length_apply, ← hp, hlen]
    omega
  have htake : blob.take 4 = xorBytes (xorBytes (leBytes 4 OBF_MAGIC) (ks.take 4)) (ks'.take 4) := by
    rw [hblob, take_xorBytes, take_xorBytes, hp, take_plainBlob]
  have hmagic : ofLeBytes (blob.take 4) = OBF_MAGIC ↔ ks.take 4 = ks'.take 4 := by
    rw [magic_iff (by rw [List.length_take, hbl]; omega), htake]
    apply xorBytes_xorBytes_eq_iff
    · rw [length_leBytes, List.length_take, ← hk, hlen]
      omega
    · rw [length_leBytes, List.length_take, ← hk', hlen]
      omega
  have hfour : blob.getD 4 0 =
      ((UInt8.ofNat d.padlen &&& 0x0F) ^^^ ks.getD 4 0) ^^^ ks'.getD 4 0 := by
    rw [hblob, getD_xorBytes (by rw [length_xorBytes hk, hlen]; omega) (by omega),
      getD_xorBytes (by omega) (by omega), hp, getD_plainBlob]
  have hnibble : (blob.getD 4 0 &&& 0x0F).toNat = d.padlen ↔
      ks.getD 4 0 &&& 0x0F = ks'.getD 4 0 &&& 0x0F := by
    rw [← nibble_iff (UInt8.ofNat d.padlen &&& 0x0F), ← hfour, ← UInt8.toNat_inj,
      nibble_of_le hd]
  have hmessage : blob.drop (5 + d.padlen) = message ↔
      ks.drop (5 + d.padlen) = ks'.drop (5 + d.padlen) := by
    rw [hblob, drop_xorBytes, drop_xorBytes, hp, drop_plainBlob]
    apply xorBytes_xorBytes_eq_iff
    · rw [List.length_drop, ← hk, hlen]
      omega
    · rw [List.length_drop, ← hk', hlen]
      omega
  have hdec : decodeWith derive' (frame derive d message) =
      if ofLeBytes (blob.take 4) ≠ OBF_MAGIC then none
      else if blob.length ≤ 5 + (blob.getD 4 0 &&& 0x0F).toNat then none
        else some (blob.drop (5 + (blob.getD 4 0 &&& 0x0F).toNat)) := by
    rw [decodeWith, if_neg hlong, ← hrun]
    rfl
  have hgoal : Coincide (derive d.salt) (derive' d.salt) d.padlen message.length ↔
      ofLeBytes (blob.take 4) = OBF_MAGIC ∧ (blob.getD 4 0 &&& 0x0F).toNat = d.padlen ∧
        blob.drop (5 + d.padlen) = message := by
    rw [hmagic, hnibble, hmessage]
    rfl
  rw [hgoal, hdec]
  constructor
  · intro h
    split at h
    · cases h
    · rename_i hmag
      split at h
      · cases h
      · rename_i hroom
        have hdrop := Option.some.inj h
        have hcount := congrArg List.length hdrop
        rw [List.length_drop, hbl] at hcount
        have hpad : (blob.getD 4 0 &&& 0x0F).toNat = d.padlen := by omega
        rw [hpad] at hdrop
        exact ⟨not_not.mp hmag, hpad, hdrop⟩
  · rintro ⟨hmag, hpad, hdrop⟩
    rw [if_neg (not_not.mpr hmag), hpad, hdrop, if_neg (by omega)]

variable (md5 : List UInt8 → Digest)

/-- Both codecs, and each encoder with the other's decoder on the plain channel, give the
message back; no datagram begins like a plain frame; every loop ends. -/
def RoundTrips (message : List UInt8) (key seed : UInt32) (b : UInt8) : Prop :=
  ∃ plain zero channel : List UInt8,
    (∀ fuel, padTurns ≤ fuel → encode md5 fuel message key seed = some plain ∧
      encodeWithObfbyte md5 fuel message key seed 0x00 = some zero ∧
      encodeWithObfbyte md5 fuel message key seed b = some channel) ∧
    (∀ datagram ∈ [plain, channel], ∀ x ∈ datagram.head?, x ∉ plainMarks) ∧
    decodeWithObfbyte md5 channel key b = some message ∧ decode md5 plain key = some message ∧
    decodeWithObfbyte md5 plain key 0x00 = some message ∧ decode md5 zero key = some message

/-- The salt drawn from the seed gives ciphers that coincide whichever side of the zero byte
it stands on. -/
def SaltOrderHarmless (message : List UInt8) (key seed : UInt32) : Prop :=
  ∃ d, draw padTurns seed = some d ∧
    Coincide (deriveCipher md5 key d.salt) (deriveCipherWithObfbyte md5 key d.salt 0x00)
      d.padlen message.length

theorem saltOrderHarmless_of_zero (message : List UInt8) (key : UInt32) {seed : UInt32} {d : Draw}
    (h : draw padTurns seed = some d) (hs : d.salt = (0, 0)) :
    SaltOrderHarmless md5 message key seed := by
  refine ⟨d, h, ?_⟩
  rw [hs]
  exact Coincide.refl _ _ _

theorem roundTrips_iff (message : List UInt8) (key seed : UInt32) (b : UInt8)
    (hm : 2 ≤ message.length) :
    RoundTrips md5 message key seed b ↔ SaltOrderHarmless md5 message key seed := by
  obtain ⟨d, hdraw, hmark, hpad⟩ := draw_total seed
  have henc : ∀ derive : Salt → Rc4, ∀ fuel, padTurns ≤ fuel →
      encodeWith derive fuel message seed = some (frame derive d message) :=
    fun derive fuel hf => encodeWith_eq (hdraw fuel hf) message
  have hplain := henc (deriveCipher md5 key)
  have hchannel := fun b => henc (fun salt => deriveCipherWithObfbyte md5 key salt b)
  constructor
  · rintro ⟨plain, zero, channel, hrun, -, -, -, hcross, -⟩
    have hp := (hrun padTurns (le_refl _)).1
    rw [encode, hplain padTurns (le_refl _), Option.some.injEq] at hp
    rw [← hp] at hcross
    exact ⟨d, hdraw padTurns (le_refl _), (decodeWith_frame hpad hm).mp hcross⟩
  · rintro ⟨d', hd', hsame⟩
    rw [hdraw padTurns (le_refl _), Option.some.injEq] at hd'
    subst hd'
    refine ⟨_, _, _, fun fuel hf => ⟨hplain fuel hf, hchannel 0x00 fuel hf, hchannel b fuel hf⟩,
      ?_, ?_, ?_, ?_, ?_⟩
    · intro datagram hdg x hx
      simp only [List.mem_cons, List.not_mem_nil, or_false] at hdg
      obtain rfl | rfl := hdg
      · cases hx
        exact hmark
      · cases hx
        exact hmark
    · exact (decodeWith_frame hpad hm).mpr (Coincide.refl _ _ _)
    · exact (decodeWith_frame hpad hm).mpr (Coincide.refl _ _ _)
    · exact (decodeWith_frame hpad hm).mpr hsame
    · exact (decodeWith_frame hpad hm).mpr hsame.symm

/-- MD5 on the two spellings of one key and salt; a padding elsewhere. -/
def sampleMd5 (input : List UInt8) : Digest :=
  if input = [239, 190, 173, 222, 145, 92, 0] then
    #v[22, 198, 136, 106, 146, 134, 219, 227, 157, 59, 153, 150, 165, 128, 16, 184]
  else if input = [239, 190, 173, 222, 0, 145, 92] then
    #v[5, 224, 44, 245, 6, 235, 157, 75, 57, 23, 248, 218, 248, 120, 24, 143]
  else Vector.ofFn (fun i => input.getD i.val 0)

def sampleMessage : List UInt8 := [0xE3, 0x97, 0x01, 0x02, 0x03, 0x04]

theorem sampleMd5_last {input : List UInt8} (h : input.length = 7) :
    (sampleMd5 input).get 15 = 0 ↔ input ≠ [239, 190, 173, 222, 145, 92, 0] ∧
      input ≠ [239, 190, 173, 222, 0, 145, 92] := by
  rw [sampleMd5]
  by_cases h1 : input = [239, 190, 173, 222, 145, 92, 0]
  · rw [if_pos h1]
    simp [h1, Vector.get]
  · rw [if_neg h1]
    by_cases h2 : input = [239, 190, 173, 222, 0, 145, 92]
    · rw [if_pos h2]
      simp [h2, Vector.get]
    · rw [if_neg h2]
      have hend : input.getD 15 0 = 0 := by
        rw [List.getD_eq_getElem?_getD, List.getElem?_eq_none (by omega), Option.getD_none]
      have hget : (Vector.ofFn (fun i : Fin 16 => input.getD i.val 0)).get 15 = 0 := by
        rw [Vector.get_eq_getElem, Vector.getElem_ofFn]
        exact hend
      exact ⟨fun _ => ⟨h1, h2⟩, fun _ => hget⟩

theorem sampleMd5_injective {a b : List UInt8} (ha : a.length = 7) (hb : b.length = 7)
    (h : sampleMd5 a = sampleMd5 b) : a = b := by
  have hsame := sampleMd5_last ha
  rw [h, sampleMd5_last hb] at hsame
  rw [sampleMd5, sampleMd5] at h
  by_cases ha1 : a = [239, 190, 173, 222, 145, 92, 0]
  · by_cases hb1 : b = [239, 190, 173, 222, 145, 92, 0]
    · rw [ha1, hb1]
    · by_cases hb2 : b = [239, 190, 173, 222, 0, 145, 92]
      · subst ha1 hb2
        exact absurd h (by decide)
      · exact absurd ha1 (hsame.mp ⟨hb1, hb2⟩).1
  · by_cases ha2 : a = [239, 190, 173, 222, 0, 145, 92]
    · by_cases hb2 : b = [239, 190, 173, 222, 0, 145, 92]
      · rw [ha2, hb2]
      · by_cases hb1 : b = [239, 190, 173, 222, 145, 92, 0]
        · subst ha2 hb1
          exact absurd h (by decide)
        · exact absurd ha2 (hsame.mp ⟨hb1, hb2⟩).2
    · obtain ⟨hb1, hb2⟩ := hsame.mpr ⟨ha1, ha2⟩
      rw [if_neg ha1, if_neg ha2, if_neg hb1, if_neg hb2] at h
      apply List.ext_getElem (by rw [ha, hb])
      intro i hi hj
      have hv := congrArg (fun v : Digest => v.get ⟨i, by omega⟩) h
      simp only [Vector.get_eq_getElem, Vector.getElem_ofFn] at hv
      simpa [List.getD_eq_getElem?_getD, hi, hj] using hv

theorem Coincide.first {c c' : Rc4} {padlen len : Nat} (h : Coincide c c' padlen len) :
    c.advance.out = c'.advance.out := by
  have hfour : 5 + padlen + len = 4 + padlen + len + 1 := by omega
  have hhead := congrArg List.head? h.1
  rw [hfour] at hhead
  exact Option.some.inj hhead

/-- The first bytes of the two streams of the sample. -/
theorem sample_first :
    (deriveCipher sampleMd5 0xDEADBEEF (145, 92)).advance.out.toNat = 110 ∧
      (deriveCipherWithObfbyte sampleMd5 0xDEADBEEF (145, 92) 0x00).advance.out.toNat = 198 := by
  constructor
  · rw [deriveCipher, firstByte_eq rfl rfl, pack_new]
    decide +kernel
  · rw [deriveCipherWithObfbyte, firstByte_eq rfl rfl, pack_new]
    decide +kernel

/-- The datagram of one spelling is not read under the other. -/
theorem not_roundTrips :
    ¬ ∀ md5 : List UInt8 → Digest,
      (∀ a b, a.length = 7 → b.length = 7 → md5 a = md5 b → a = b) →
      ∀ (message : List UInt8) (key seed : UInt32) (b : UInt8), 2 ≤ message.length →
        RoundTrips md5 message key seed b := by
  intro h
  obtain ⟨plain, zero, channel, hrun, -, -, -, hcross, -⟩ := h sampleMd5
    (fun _ _ => sampleMd5_injective) sampleMessage 0xDEADBEEF 12345 0xA5 (by decide)
  obtain ⟨d, hd, -, hpad⟩ := draw_total 12345
  have hp := (hrun padTurns (le_refl _)).1
  rw [encode, encodeWith_eq (hd padTurns (le_refl _)), Option.some.injEq] at hp
  have hsalt : (draw padTurns 12345).map Draw.salt = some (145, 92) := by decide
  rw [hd padTurns (le_refl _), Option.map_some, Option.some.injEq] at hsalt
  rw [← hp] at hcross
  have hsame := ((decodeWith_frame hpad (by decide)).mp hcross).first
  rw [hsalt] at hsame
  obtain ⟨hfirst, hother⟩ := sample_first
  rw [hsame, hother] at hfirst
  cases hfirst

theorem roundTrips_sample :
    RoundTrips sampleMd5 sampleMessage 0xDEADBEEF 12345 0xA5 ↔
      SaltOrderHarmless sampleMd5 sampleMessage 0xDEADBEEF 12345 :=
  roundTrips_iff sampleMd5 sampleMessage 0xDEADBEEF 12345 0xA5 (by decide)

end Ed2kServer.Proto.ServerDatagram
