import Mathlib.Data.Nat.Bitwise
import Mathlib.Data.List.Basic

namespace Ed2kServer.Lib.Bitset

/-- Numbers as the bits of 64-bit words. -/
abbrev Words := List UInt64

def bit (i : Nat) : UInt64 := 1 <<< UInt64.ofNat (i % 64)

/-- `none` past the last word. -/
def insert (words : Words) (i : Nat) : Option Words :=
  (words[i / 64]?).map fun w => words.set (i / 64) (w ||| bit i)

def contains (words : Words) (i : Nat) : Option Bool :=
  (words[i / 64]?).map fun w => w &&& bit i != 0

def insertAll (words : Words) (is : List Nat) : Option Words := is.foldlM insert words

theorem bit_toNat (i : Nat) : (bit i).toNat = 2 ^ (i % 64) := by
  have hlt : i % 64 < 64 := Nat.mod_lt i (by decide)
  have hamount : (UInt64.ofNat (i % 64)).toNat = i % 64 := by
    rw [UInt64.toNat_ofNat']
    omega
  rw [bit, UInt64.toNat_shiftLeft, hamount, Nat.mod_eq_of_lt hlt, UInt64.toNat_one,
    Nat.shiftLeft_eq, Nat.one_mul]
  exact Nat.mod_eq_of_lt (Nat.pow_lt_pow_right (by decide) hlt)

/-- A mask picks the bit of its number. -/
theorem and_bit_ne_zero (w : UInt64) (i : Nat) : (w &&& bit i != 0) = w.toNat.testBit (i % 64) := by
  rw [Bool.eq_iff_iff, bne_iff_ne, Ne, ← UInt64.toNat_inj, UInt64.toNat_and, bit_toNat,
    Nat.and_two_pow, UInt64.toNat_zero]
  cases w.toNat.testBit (i % 64) <;> simp

theorem testBit_or_bit (w : UInt64) (i k : Nat) :
    (w ||| bit i).toNat.testBit k = (w.toNat.testBit k || decide (i % 64 = k)) := by
  rw [UInt64.toNat_or, bit_toNat, Nat.testBit_or, Nat.testBit_two_pow]

theorem contains_insert {words : Words} {i : Nat} (hi : i / 64 < words.length) :
    ∃ words', insert words i = some words' ∧ words'.length = words.length ∧
      ∀ j, contains words' j = (contains words j).map (· || decide (i = j)) := by
  refine ⟨words.set (i / 64) (words[i / 64] ||| bit i), ?_, List.length_set, fun j => ?_⟩
  · rw [insert, List.getElem?_eq_getElem hi, Option.map_some]
  · rw [contains, contains, List.getElem?_set]
    by_cases hword : i / 64 = j / 64
    · have hbit : i % 64 = j % 64 ↔ i = j := by omega
      rw [if_pos hword, if_pos hi, Option.map_some, and_bit_ne_zero, testBit_or_bit, ← hword,
        List.getElem?_eq_getElem hi, Option.map_some, Option.map_some, and_bit_ne_zero]
      simp only [hbit]
    · have hne : i ≠ j := fun h => hword (by rw [h])
      have hsame : (fun b : Bool => b || decide (i = j)) = id := by
        funext b
        rw [decide_eq_false hne, Bool.or_false]
        rfl
      rw [if_neg hword, hsame, Option.map_id_fun, id]

/-- The numbers that were put in, and those that were there. -/
theorem contains_insertAll {words : Words} {is : List Nat} (h : ∀ i ∈ is, i / 64 < words.length) :
    ∃ words', insertAll words is = some words' ∧ words'.length = words.length ∧
      ∀ j, contains words' j = (contains words j).map (· || decide (j ∈ is)) := by
  induction is generalizing words with
  | nil => exact ⟨words, rfl, rfl, fun j => by simp⟩
  | cons i is ih =>
    obtain ⟨hi, hrest⟩ := List.forall_mem_cons.mp h
    obtain ⟨words₁, hins, hlen, hcontains⟩ := contains_insert hi
    rw [← hlen] at hrest
    obtain ⟨words₂, hall, hlen₂, hcontains₂⟩ := ih hrest
    refine ⟨words₂, ?_, hlen₂.trans hlen, fun j => ?_⟩
    · rw [insertAll, List.foldlM_cons, hins]
      exact hall
    · rw [hcontains₂, hcontains, Option.map_map]
      refine congrArg (Option.map · _) (funext fun b => ?_)
      simp [Bool.or_assoc, eq_comm]

end Ed2kServer.Lib.Bitset
