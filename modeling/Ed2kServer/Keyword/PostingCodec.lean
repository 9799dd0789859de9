import Ed2kServer.Basic

namespace Ed2kServer.Keyword.PostingCodec

/-- Unsigned LEB128: seven payload bits a byte, the top bit set on all but the last. -/
def writeVarint (v : UInt32) : List UInt8 :=
  if v >>> 7 = 0 then [(v &&& 0x7F).toUInt8]
  else ((v &&& 0x7F).toUInt8 ||| 0x80) :: writeVarint (v >>> 7)
termination_by v.toNat
decreasing_by
  rename_i h
  have hne : (v >>> 7).toNat ≠ 0 := fun h0 => h (UInt32.toNat_inj.mp (by simpa using h0))
  simp only [UInt32.toNat_shiftRight, UInt32.reduceToNat, Nat.reduceMod,
    Nat.shiftRight_eq_div_pow] at hne ⊢
  omega

def readVarintFrom (result : UInt32) (shift : Nat) : List UInt8 → Option (UInt32 × List UInt8)
  | [] => none
  | byte :: rest =>
    if 32 ≤ shift then none
    -- on the fifth byte only the low four bits are valid
    else if shift = 28 ∧ 0x0F < byte &&& 0x7F then none
    else
      let result := result ||| ((byte &&& 0x7F).toUInt32 <<< UInt32.ofNat shift)
      if byte &&& 0x80 = 0 then some (result, rest) else readVarintFrom result (shift + 7) rest

/-- One varint off the front of `data`; the position in the source is what has been dropped. -/
def readVarint (data : List UInt8) : Option (UInt32 × List UInt8) := readVarintFrom 0 0 data

def encodeFrom (prev : FileId) : List FileId → List UInt8
  | [] => []
  | id :: ids => writeVarint (id - prev) ++ encodeFrom id ids

def encode (ids : List FileId) : List UInt8 :=
  writeVarint (UInt32.ofNat ids.length) ++ encodeFrom 0 ids

def decodeFrom : Nat → FileId → List UInt8 → Option (List FileId × List UInt8)
  | 0, _, data => some ([], data)
  | n + 1, acc, data => do
    let (gap, rest) ← readVarint data
    let (ids, rest) ← decodeFrom n (acc + gap) rest
    return ((acc + gap) :: ids, rest)

def decode (data : List UInt8) : Option (List FileId) := do
  let (count, rest) ← readVarint data
  let (ids, rest) ← decodeFrom count.toNat 0 rest
  if rest = [] then return ids else none

def decodedLen (data : List UInt8) : Option Nat := (readVarint data).map (fun p => p.1.toNat)

/-- Streaming reader: the unread bytes, the postings after the head, and the head itself. -/
structure PostingCursor where
  data : List UInt8
  remaining : Nat
  acc : FileId
  cur : Option FileId

def PostingCursor.bump (c : PostingCursor) : PostingCursor :=
  if c.remaining = 0 then { c with cur := none }
  else match readVarint c.data with
    | some (gap, rest) => ⟨rest, c.remaining - 1, c.acc + gap, some (c.acc + gap)⟩
    | none => { c with remaining := 0, cur := none }

def PostingCursor.new (data : List UInt8) : Option PostingCursor := do
  let (count, rest) ← readVarint data
  return PostingCursor.bump ⟨rest, count.toNat, 0, none⟩

def PostingCursor.len (c : PostingCursor) : Nat := c.remaining + (if c.cur.isSome then 1 else 0)

theorem PostingCursor.len_bump_lt {c : PostingCursor} {head : FileId} (h : c.cur = some head) :
    c.bump.len < c.len := by
  unfold bump len
  split
  · simp [h]
  · split
    · simp [h]
      omega
    · simp [h]

/-- Advance until the head is at least `target`. -/
def PostingCursor.contains (c : PostingCursor) (target : FileId) : Bool × PostingCursor :=
  match _h : c.cur with
  | some head => if head < target then c.bump.contains target else (head == target, c)
  | none => (false, c)
termination_by c.len
decreasing_by exact PostingCursor.len_bump_lt _h

theorem shiftRight_seven (v : UInt32) : (v >>> 7).toNat = v.toNat / 128 := by
  simp [UInt32.toNat_shiftRight, Nat.shiftRight_eq_div_pow]

theorem low_seven (v : UInt32) : ((v &&& 0x7F).toUInt8).toNat = v.toNat % 128 := by
  rw [UInt32.toNat_toUInt8, UInt32.toNat_and]
  have h : (0x7F : UInt32).toNat = 2 ^ 7 - 1 := rfl
  rw [h, Nat.and_two_pow_sub_one_eq_mod]
  omega

theorem or_continuation (b : UInt8) (hb : b.toNat < 128) : (b ||| 0x80).toNat = b.toNat + 128 := by
  rw [UInt8.toNat_or]
  have h : (0x80 : UInt8).toNat = 2 ^ 7 * 1 := rfl
  rw [h, Nat.or_comm, ← Nat.two_pow_add_eq_or_of_lt hb]
  omega

theorem payload_bits (b : UInt8) : (b &&& 0x7F).toNat = b.toNat % 128 := by
  rw [UInt8.toNat_and]
  exact Nat.and_two_pow_sub_one_eq_mod b.toNat 7

theorem last_byte_iff (b : UInt8) : b &&& 0x80 = 0 ↔ b.toNat < 128 := by
  have h : ∀ i : Fin 256, (BitVec.ofFin i : BitVec 8) &&& 0x80#8 = 0#8 ↔ i.val < 128 := by
    decide +kernel
  rw [← UInt8.toBitVec_inj]
  exact h b.toBitVec.toFin

theorem or_payload {result p : UInt32} {shift : Nat} (hs : shift < 32)
    (hr : result.toNat < 2 ^ shift) (hp : p.toNat * 2 ^ shift < 2 ^ 32) :
    (result ||| (p <<< UInt32.ofNat shift)).toNat = result.toNat + p.toNat * 2 ^ shift := by
  have hsh : (UInt32.ofNat shift).toNat % 32 = shift := by
    rw [UInt32.toNat_ofNat']
    omega
  rw [UInt32.toNat_or, UInt32.toNat_shiftLeft, hsh, Nat.shiftLeft_eq, Nat.mod_eq_of_lt hp,
    Nat.or_comm, Nat.mul_comm, ← Nat.two_pow_add_eq_or_of_lt hr]
  omega

/-- Reading back a written varint, with `k` bytes already read into `result`. -/
theorem readVarintFrom_writeVarint (rest : List UInt8) (k : Nat) (hk : k ≤ 4) (result v : UInt32)
    (hr : result.toNat < 2 ^ (7 * k)) (hv : v.toNat * 2 ^ (7 * k) < 2 ^ 32) :
    ∃ w, readVarintFrom result (7 * k) (writeVarint v ++ rest) = some (w, rest) ∧
      w.toNat = result.toNat + v.toNat * 2 ^ (7 * k) := by
  induction hn : v.toNat using Nat.strongRecOn generalizing v result k with
  | ind n ih =>
    subst hn
    have hs : ¬ 32 ≤ 7 * k := by omega
    have hlow := low_seven v
    have hmod : v.toNat % 128 * 2 ^ (7 * k) < 2 ^ 32 :=
      lt_of_le_of_lt (Nat.mul_le_mul_right _ (Nat.mod_le _ _)) hv
    rw [writeVarint]
    by_cases h0 : v >>> 7 = 0
    · have hsmall : v.toNat < 128 := by
        have h := congrArg UInt32.toNat h0
        rw [shiftRight_seven] at h
        simpa using Nat.lt_of_div_eq_zero (by omega) (by simpa using h)
      rw [if_pos h0, List.cons_append, List.nil_append, readVarintFrom, if_neg hs]
      set b := (v &&& 0x7F).toUInt8 with hb
      have hbv : b.toNat = v.toNat := by rw [hlow, Nat.mod_eq_of_lt hsmall]
      have hpay : (b &&& 0x7F).toUInt32.toNat = v.toNat := by
        rw [UInt8.toNat_toUInt32, payload_bits, hbv, Nat.mod_eq_of_lt hsmall]
      have hfifth : ¬ (7 * k = 28 ∧ 0x0F < b &&& 0x7F) := by
        rintro ⟨h28, hgt⟩
        rw [UInt8.lt_iff_toNat_lt, payload_bits, hbv, Nat.mod_eq_of_lt hsmall] at hgt
        rw [h28] at hv
        have : (0x0F : UInt8).toNat = 15 := rfl
        omega
      rw [if_neg hfifth, if_pos ((last_byte_iff b).mpr (by omega))]
      refine ⟨_, rfl, ?_⟩
      rw [or_payload (by omega) hr (by rw [hpay]; exact hv), hpay]
    · have hbig : 128 ≤ v.toNat := by
        by_contra hlt
        apply h0
        apply UInt32.toNat_inj.mp
        rw [shiftRight_seven]
        simp
        omega
      have hk3 : k ≤ 3 := by
        by_contra hk'
        have h4 : k = 4 := by omega
        subst h4
        omega
      rw [if_neg h0, List.cons_append, readVarintFrom, if_neg hs]
      set b := (v &&& 0x7F).toUInt8 ||| 0x80 with hb
      have hbv : b.toNat = v.toNat % 128 + 128 := by
        rw [hb, or_continuation _ (by rw [hlow]; omega), hlow]
      have hpay : (b &&& 0x7F).toUInt32.toNat = v.toNat % 128 := by
        rw [UInt8.toNat_toUInt32, payload_bits, hbv]
        omega
      have hfifth : ¬ (7 * k = 28 ∧ 0x0F < b &&& 0x7F) := by omega
      rw [if_neg hfifth, if_neg (fun h => by have := (last_byte_iff b).mp h; omega)]
      have hor := or_payload (p := (b &&& 0x7F).toUInt32) (by omega) hr (by rw [hpay]; exact hmod)
      rw [hpay] at hor
      have hpow : 2 ^ (7 * (k + 1)) = 128 * 2 ^ (7 * k) := by
        rw [Nat.mul_add, Nat.pow_add]
        ring
      have hsplit : v.toNat = v.toNat / 128 * 128 + v.toNat % 128 := by omega
      obtain ⟨w, hw, hwv⟩ := ih (v >>> 7).toNat (by rw [shiftRight_seven]; omega) (k + 1)
        (by omega) (result ||| ((b &&& 0x7F).toUInt32 <<< UInt32.ofNat (7 * k))) (v >>> 7)
        (by
          rw [hor, hpow]
          have hlt : v.toNat % 128 < 128 := Nat.mod_lt _ (by omega)
          nlinarith [Nat.pow_pos (n := 7 * k) (show 0 < 2 by omega)])
        (by
          rw [shiftRight_seven, hpow]
          nlinarith [Nat.div_mul_le_self v.toNat 128]) rfl
      refine ⟨w, by simpa [Nat.mul_add] using hw, ?_⟩
      rw [hwv, hor, shiftRight_seven, hpow]
      nlinarith [hsplit]

@[simp] theorem readVarint_writeVarint (v : UInt32) (rest : List UInt8) :
    readVarint (writeVarint v ++ rest) = some (v, rest) := by
  obtain ⟨w, hw, hv⟩ := readVarintFrom_writeVarint rest 0 (by omega) 0 v (by simp)
    (by simpa using v.toNat_lt)
  have he : w = v := UInt32.toNat_inj.mp (by simpa using hv)
  subst he
  exact hw

theorem writeVarint_ne_nil (v : UInt32) : writeVarint v ≠ [] := by
  rw [writeVarint]
  split <;> simp

theorem writeVarint_length_pos (v : UInt32) : 0 < (writeVarint v).length :=
  List.length_pos_iff.mpr (writeVarint_ne_nil v)

theorem encodeFrom_append_one (prev : FileId) (ids : List FileId) (id : FileId) :
    encodeFrom prev (ids ++ [id]) =
      encodeFrom prev ids ++ writeVarint (id - ids.getLast?.getD prev) := by
  induction ids generalizing prev with
  | nil => simp [encodeFrom]
  | cons a ids ih =>
    rw [List.cons_append, encodeFrom, encodeFrom, ih, List.append_assoc, List.getLast?_cons]
    rfl

theorem encodeFrom_length_ge (prev : FileId) (ids : List FileId) :
    ids.length ≤ (encodeFrom prev ids).length := by
  induction ids generalizing prev with
  | nil => simp
  | cons id ids ih =>
    have h := writeVarint_length_pos (id - prev)
    have hi := ih id
    simp only [encodeFrom, List.length_append, List.length_cons]
    omega

/-- Every posting takes at least a byte, and so does the count. -/
theorem length_lt_encode (ids : List FileId) : ids.length < (encode ids).length := by
  have h := writeVarint_length_pos (UInt32.ofNat ids.length)
  have hi := encodeFrom_length_ge 0 ids
  simp only [encode, List.length_append]
  omega

theorem decodeFrom_encodeFrom (prev : FileId) (ids : List FileId) (rest : List UInt8) :
    decodeFrom ids.length prev (encodeFrom prev ids ++ rest) = some (ids, rest) := by
  induction ids generalizing prev with
  | nil => rfl
  | cons id ids ih =>
    simp [encodeFrom, decodeFrom, List.append_assoc, ih]

theorem ofNat_length_toNat {ids : List FileId} (h : ids.length < 2 ^ 32) :
    (UInt32.ofNat ids.length).toNat = ids.length := by
  rw [UInt32.toNat_ofNat', Nat.mod_eq_of_lt h]

theorem decode_encode {ids : List FileId} (h : ids.length < 2 ^ 32) :
    decode (encode ids) = some ids := by
  have hd := decodeFrom_encodeFrom 0 ids []
  rw [List.append_nil] at hd
  simp [decode, encode, ofNat_length_toNat h, hd]

theorem decodedLen_encode {ids : List FileId} (h : ids.length < 2 ^ 32) :
    decodedLen (encode ids) = some ids.length := by
  simp [decodedLen, encode, ofNat_length_toNat h]

/-- The cursor still has exactly `ids` to give, the head included. -/
def PostingCursor.Reads (c : PostingCursor) : List FileId → Prop
  | [] => c.cur = none
  | id :: ids => c.cur = some id ∧ c.acc = id ∧ c.remaining = ids.length ∧
      c.data = encodeFrom id ids

theorem PostingCursor.bump_reads (prev : FileId) (ids : List FileId) (cur : Option FileId) :
    (PostingCursor.bump ⟨encodeFrom prev ids, ids.length, prev, cur⟩).Reads ids := by
  cases ids with
  | nil => simp [bump, Reads]
  | cons id ids => simp [bump, Reads, encodeFrom]

theorem PostingCursor.Reads.bump {c : PostingCursor} {id : FileId} {ids : List FileId}
    (h : c.Reads (id :: ids)) : c.bump.Reads ids := by
  obtain ⟨data, remaining, acc, cur⟩ := c
  obtain ⟨hc, ha, hr, hd⟩ := h
  simp only at hc ha hr hd
  subst hc ha hr hd
  exact bump_reads _ ids _

theorem PostingCursor.Reads.cur_eq {c : PostingCursor} {ids : List FileId} (h : c.Reads ids) :
    c.cur = ids.head? := by
  cases ids with
  | nil => exact h
  | cons id ids => exact h.1

theorem PostingCursor.new_encode {ids : List FileId} (h : ids.length < 2 ^ 32) :
    ∃ c, PostingCursor.new (encode ids) = some c ∧ c.Reads ids := by
  refine ⟨_, ?_, PostingCursor.bump_reads 0 ids none⟩
  simp [PostingCursor.new, encode, ofNat_length_toNat h]

end Ed2kServer.Keyword.PostingCodec
