import Ed2kServer.Slab.Record
import Ed2kServer.Text.Chars

namespace Ed2kServer.Slab.MediaFields

open Ed2kServer.Text.Chars Ed2kServer.Slab.Record

def LEN_BITS : UInt64 := 27

def RATE_BITS : UInt64 := 29

def LEN_MAX : UInt64 := (1 <<< LEN_BITS) - 1

def RATE_MAX : UInt64 := (1 <<< RATE_BITS) - 1

def length (m : Media) : UInt32 := (m &&& LEN_MAX).toUInt32

def bitrate (m : Media) : UInt32 := ((m >>> LEN_BITS) &&& RATE_MAX).toUInt32

def codec (m : Media) : UInt8 := (m >>> (LEN_BITS + RATE_BITS)).toUInt8

def Media.new (len rate : UInt32) (codecIndex : UInt8) : Media :=
  min len.toUInt64 LEN_MAX ||| (min rate.toUInt64 RATE_MAX <<< LEN_BITS) |||
    (codecIndex.toUInt64 <<< (LEN_BITS + RATE_BITS))

/-- The fields of `m`, those it lacks filled from `other`. -/
def Media.merged (m other : Media) : Media :=
  Media.new (if length m ≠ 0 then length m else length other)
    (if bitrate m ≠ 0 then bitrate m else bitrate other)
    (if codec m ≠ 0 then codec m else codec other)

/-- Codec names under their one-byte index. -/
structure CodecTable where
  index : Str → Option UInt8

def CodecTable.MAX_LEN : Nat := 19

/-- The stored form of a codec string. -/
def normalise (U : Unicode) (s : Str) : Option Str :=
  let t := U.trim s
  if t = [] ∨ !(utf8 t).all (fun b => 0x20 ≤ b && b < 0x7F) then none
  else some ((toAsciiLowercase t).take CodecTable.MAX_LEN)

def CodecTable.lookup (U : Unicode) (codecs : CodecTable) (raw : Str) : Option UInt8 :=
  (normalise U raw).bind codecs.index

/-- The seconds of `h:m:s`, `m:s` or plain seconds; 0 for anything else. -/
def parseLengthText (U : Unicode) (s : Str) : UInt32 :=
  let step := fun (acc : Option (UInt64 × UInt64)) (c : Char) => acc.bind (fun (total, cur) =>
    if c.isDigit then
      some (total, min (cur * 10 + UInt64.ofNat (c.toNat - '0'.toNat)) 0xFFFFFFFF)
    else if c = ':' then some ((total + cur) * 60, 0)
    else none)
  match (U.trim s).foldl step (some (0, 0)) with
  | some (total, cur) => (min (total + cur) 0xFFFFFFFF).toUInt32
  | none => 0

theorem length_toNat (m : Media) : (length m).toNat = m.toNat % 2 ^ 27 := by
  have hmax : LEN_MAX.toNat = 2 ^ 27 - 1 := by decide
  rw [length, UInt64.toNat_toUInt32, UInt64.toNat_and, hmax, Nat.and_two_pow_sub_one_eq_mod]
  exact Nat.mod_eq_of_lt (Nat.lt_trans (Nat.mod_lt _ (by decide)) (by decide))

theorem bitrate_toNat (m : Media) : (bitrate m).toNat = m.toNat / 2 ^ 27 % 2 ^ 29 := by
  have hmax : RATE_MAX.toNat = 2 ^ 29 - 1 := by decide
  have hbits : LEN_BITS.toNat % 64 = 27 := by decide
  rw [bitrate, UInt64.toNat_toUInt32, UInt64.toNat_and, hmax, UInt64.toNat_shiftRight, hbits,
    Nat.and_two_pow_sub_one_eq_mod, Nat.shiftRight_eq_div_pow]
  exact Nat.mod_eq_of_lt (Nat.lt_trans (Nat.mod_lt _ (by decide)) (by decide))

theorem codec_toNat (m : Media) : (codec m).toNat = m.toNat / 2 ^ 56 := by
  have hbits : (LEN_BITS + RATE_BITS).toNat % 64 = 56 := by decide
  have hm := m.toNat_lt
  rw [codec, UInt64.toNat_toUInt8, UInt64.toNat_shiftRight, hbits, Nat.shiftRight_eq_div_pow]
  exact Nat.mod_eq_of_lt (by omega)

/-- The three fields are the whole word. -/
theorem media_ext {a b : Media} (hl : length a = length b) (hr : bitrate a = bitrate b)
    (hc : codec a = codec b) : a = b := by
  rw [← UInt32.toNat_inj, length_toNat, length_toNat] at hl
  rw [← UInt32.toNat_inj, bitrate_toNat, bitrate_toNat] at hr
  rw [← UInt8.toNat_inj, codec_toNat, codec_toNat] at hc
  apply UInt64.toNat_inj.mp
  omega

theorem new_toNat {l r : UInt32} (c : UInt8) (hl : l.toNat < 2 ^ 27) (hr : r.toNat < 2 ^ 29) :
    (Media.new l r c).toNat = l.toNat + 2 ^ 27 * r.toNat + 2 ^ 56 * c.toNat := by
  have hc := c.toNat_lt
  have hlmax : LEN_MAX.toNat = 2 ^ 27 - 1 := by decide
  have hrmax : RATE_MAX.toNat = 2 ^ 29 - 1 := by decide
  have hbits : LEN_BITS.toNat % 64 = 27 := by decide
  have hbits' : (LEN_BITS + RATE_BITS).toNat % 64 = 56 := by decide
  have hmin : min l.toUInt64 LEN_MAX = l.toUInt64 :=
    if_pos (UInt64.le_iff_toNat_le.mpr (by rw [UInt32.toNat_toUInt64]; omega))
  have hmin' : min r.toUInt64 RATE_MAX = r.toUInt64 :=
    if_pos (UInt64.le_iff_toNat_le.mpr (by rw [UInt32.toNat_toUInt64]; omega))
  have hshift : (r.toUInt64 <<< LEN_BITS).toNat = r.toNat * 2 ^ 27 := by
    rw [UInt64.toNat_shiftLeft, hbits, UInt32.toNat_toUInt64, Nat.shiftLeft_eq]
    exact Nat.mod_eq_of_lt (by omega)
  have hshift' : (c.toUInt64 <<< (LEN_BITS + RATE_BITS)).toNat = c.toNat * 2 ^ 56 := by
    rw [UInt64.toNat_shiftLeft, hbits', UInt8.toNat_toUInt64, Nat.shiftLeft_eq]
    exact Nat.mod_eq_of_lt (by omega)
  have hlow : (l.toUInt64 ||| (r.toUInt64 <<< LEN_BITS)).toNat = l.toNat + 2 ^ 27 * r.toNat := by
    rw [UInt64.toNat_or, hshift, UInt32.toNat_toUInt64, Nat.or_comm, ← Nat.shiftLeft_eq,
      ← Nat.shiftLeft_add_eq_or_of_lt hl, Nat.shiftLeft_eq]
    omega
  rw [Media.new, hmin, hmin', UInt64.toNat_or, hlow, hshift', Nat.or_comm, ← Nat.shiftLeft_eq,
    ← Nat.shiftLeft_add_eq_or_of_lt (by omega), Nat.shiftLeft_eq]
  omega

theorem merged_fields (m other : Media) :
    length (Media.merged m other) = (if length m ≠ 0 then length m else length other) ∧
      bitrate (Media.merged m other) = (if bitrate m ≠ 0 then bitrate m else bitrate other) ∧
      codec (Media.merged m other) = (if codec m ≠ 0 then codec m else codec other) := by
  have hlen : ∀ m : Media, (length m).toNat < 2 ^ 27 := fun m => by
    rw [length_toNat]
    exact Nat.mod_lt _ (by decide)
  have hrate : ∀ m : Media, (bitrate m).toNat < 2 ^ 29 := fun m => by
    rw [bitrate_toNat]
    exact Nat.mod_lt _ (by decide)
  rw [Media.merged]
  set l := if length m ≠ 0 then length m else length other with hl
  set r := if bitrate m ≠ 0 then bitrate m else bitrate other with hr
  set c := if codec m ≠ 0 then codec m else codec other with hc
  have hl' : l.toNat < 2 ^ 27 := by
    rw [hl]
    split
    · exact hlen m
    · exact hlen other
  have hr' : r.toNat < 2 ^ 29 := by
    rw [hr]
    split
    · exact hrate m
    · exact hrate other
  have hn := new_toNat c hl' hr'
  have hc' := c.toNat_lt
  refine ⟨UInt32.toNat_inj.mp ?_, UInt32.toNat_inj.mp ?_, UInt8.toNat_inj.mp ?_⟩
  · rw [length_toNat, hn]
    omega
  · rw [bitrate_toNat, hn]
    omega
  · rw [codec_toNat, hn]
    omega

end Ed2kServer.Slab.MediaFields
