import Mathlib

namespace Ed2kServer

/-- The order of the machine's 32-bit words, as `u32::cmp`. -/
instance instLinearOrderUInt32 : LinearOrder UInt32 where
  le_refl := UInt32.le_refl
  le_trans _ _ _ := UInt32.le_trans
  le_antisymm _ _ := UInt32.le_antisymm
  le_total := UInt32.le_total
  lt_iff_le_not_ge a b := by
    simp only [UInt32.lt_iff_toNat_lt, UInt32.le_iff_toNat_le]
    omega
  toDecidableLE := inferInstance
  toDecidableEq := inferInstance
  toDecidableLT := inferInstance

/-- A file of the slab: `(shard << 26) | index`. -/
abbrev FileId := UInt32

abbrev TokenHash := UInt32

/-- A string as its sequence of characters. -/
abbrev Str := List Char

instance instLawfulBEqStr : LawfulBEq Str := inferInstanceAs (LawfulBEq (List Char))

/-- Hashes have 16 bytes. -/
instance instNeZeroSixteen : NeZero 16 := ⟨by decide⟩

/-- The bytes of a string, as `str::as_bytes`. -/
def utf8 (s : Str) : List UInt8 := s.flatMap String.utf8EncodeChar

theorem utf8_append (s t : Str) : utf8 (s ++ t) = utf8 s ++ utf8 t := List.flatMap_append

end Ed2kServer
