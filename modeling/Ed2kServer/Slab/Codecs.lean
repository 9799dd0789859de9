import Ed2kServer.Slab.MediaFields

namespace Ed2kServer.Slab.Codecs

open Ed2kServer.Text.Chars Ed2kServer.Slab.Record Ed2kServer.Slab.MediaFields

def MAX : Nat := 255

/-- The table's names, the name of index `i` at place `i - 1`. -/
structure CodecInner where
  names : List Str
  nodup : names.Nodup
  short : names.length ≤ MAX

def CodecInner.empty : CodecInner := ⟨[], List.nodup_nil, Nat.zero_le _⟩

def CodecInner.indexOf (t : CodecInner) (name : Str) : Option UInt8 :=
  if name ∈ t.names then some (UInt8.ofNat (t.names.idxOf name + 1)) else none

/-- The table as the searches read it. -/
def CodecInner.table (t : CodecInner) : CodecTable := ⟨t.indexOf⟩

def CodecInner.name (t : CodecInner) (i : UInt8) : Option Str :=
  if i = 0 then none else t.names[i.toNat - 1]?

theorem nodup_push {names : List Str} {name : Str} (h : names.Nodup) (hn : name ∉ names) :
    (names ++ [name]).Nodup := by
  rw [List.nodup_append]
  refine ⟨h, List.nodup_singleton name, fun a ha b hb he => hn ?_⟩
  rwa [← List.mem_singleton.mp hb, ← he]

/-- The index of a normalised name, entering it if new; 0 when the table is full. -/
def CodecInner.intern (t : CodecInner) (name : Str) : CodecInner × UInt8 :=
  if hm : name ∈ t.names then (t, UInt8.ofNat (t.names.idxOf name + 1))
  else if hfull : MAX ≤ t.names.length then (t, 0)
  else
    (⟨t.names ++ [name], nodup_push t.nodup hm, by
      rw [List.length_append, List.length_singleton]
      exact Nat.lt_of_not_le hfull⟩, UInt8.ofNat (t.names.length + 1))

theorem toNat_place {t : CodecInner} {k : Nat} (h : k < t.names.length) :
    (UInt8.ofNat (k + 1)).toNat = k + 1 := by
  have hs : t.names.length ≤ 255 := t.short
  rw [UInt8.toNat_ofNat']
  omega

/-- An index stands for the name it was given for, and for no other. -/
theorem indexOf_eq_some_iff (t : CodecInner) (n : Str) (i : UInt8) :
    t.indexOf n = some i ↔ t.name i = some n := by
  rw [CodecInner.indexOf, CodecInner.name]
  constructor
  · intro h
    by_cases hm : n ∈ t.names
    · rw [if_pos hm, Option.some.injEq] at h
      have hlt := List.idxOf_lt_length_of_mem hm
      have hi : i.toNat = t.names.idxOf n + 1 := by rw [← h, toNat_place hlt]
      have hne : i ≠ 0 := by
        intro he
        rw [he] at hi
        cases hi
      rw [if_neg hne, hi, Nat.add_sub_cancel, List.getElem?_eq_getElem hlt,
        List.getElem_idxOf hlt]
    · rw [if_neg hm] at h
      cases h
  · intro h
    by_cases h0 : i = 0
    · rw [if_pos h0] at h
      cases h
    · rw [if_neg h0] at h
      obtain ⟨hlt, he⟩ := List.getElem?_eq_some_iff.mp h
      have hm : n ∈ t.names := he ▸ List.getElem_mem hlt
      have hpos : i.toNat ≠ 0 := fun hz => h0 (UInt8.toNat_inj.mp hz)
      have hidx : t.names.idxOf n = i.toNat - 1 := by
        rw [← he]
        exact t.nodup.idxOf_getElem _ hlt
      rw [if_pos hm, hidx, Nat.sub_add_cancel (by omega), UInt8.ofNat_toNat]

end Ed2kServer.Slab.Codecs
