import Ed2kServer.Lib.LittleEndian

namespace Ed2kServer.Lib.Bytes

open Ed2kServer.Lib.LittleEndian

/-- The bytes stand in the buffer at a position. -/
def StandsAt (buf bytes : List UInt8) (pos : Nat) : Prop :=
  ∃ front back, buf = front ++ bytes ++ back ∧ front.length = pos

/-- Numbers of given widths, one after the other. -/
def fields (fs : List (Nat × Nat)) : List UInt8 := fs.flatMap fun f => leBytes f.1 f.2

def width (fs : List (Nat × Nat)) : Nat := (fs.map Prod.fst).sum

variable {buf bytes more : List UInt8} {pos n w : Nat} {fs : List (Nat × Nat)}

theorem standsAt_left (h : StandsAt buf (bytes ++ more) pos) : StandsAt buf bytes pos := by
  obtain ⟨front, back, rfl, hpos⟩ := h
  exact ⟨front, more ++ back, by simp only [List.append_assoc], hpos⟩

theorem standsAt_right (h : StandsAt buf (bytes ++ more) pos) :
    StandsAt buf more (pos + bytes.length) := by
  obtain ⟨front, back, rfl, rfl⟩ := h
  exact ⟨front ++ bytes, back, by simp only [List.append_assoc], List.length_append⟩

theorem standsAt_tail {b : UInt8} (h : StandsAt buf (b :: bytes) pos) :
    StandsAt buf bytes (pos + 1) := by
  have h' : StandsAt buf ([b] ++ bytes) pos := h
  exact standsAt_right h'

theorem standsAt_le (h : StandsAt buf bytes pos) : pos + bytes.length ≤ buf.length := by
  obtain ⟨front, back, rfl, rfl⟩ := h
  simp only [List.length_append]
  omega

theorem take_drop_of_standsAt (h : StandsAt buf bytes pos) :
    (buf.drop pos).take bytes.length = bytes := by
  obtain ⟨front, back, rfl, rfl⟩ := h
  rw [List.append_assoc, List.drop_left, List.take_left]

end Ed2kServer.Lib.Bytes
