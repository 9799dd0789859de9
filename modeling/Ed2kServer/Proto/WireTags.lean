import Ed2kServer.Proto.Tags

namespace Ed2kServer.Proto.WireTags

open Ed2kServer.Lib.LittleEndian Ed2kServer.Lib.ByteReader Ed2kServer.Text.Utf8
open Ed2kServer.Proto.Tags

/-- A tag's name as it stands in a frame. -/
inductive WireName
  | short (b : UInt8)
  | long (bytes : List UInt8) (fits : bytes.length < 256 ^ 2)

/-- A tag's value as it stands in a frame: one form for each type `read_tag` supports. -/
inductive WireValue
  | string (bytes : List UInt8) (fits : bytes.length < 256 ^ 2)
  | u32 (v : UInt32)
  | u16 (v : UInt16)
  | u8 (v : UInt8)
  | u64 (v : UInt64)
  | float (bits : UInt32)
  | bool (b : UInt8)
  | blob (bytes : List UInt8) (fits : bytes.length < 256 ^ 4)
  | short (bytes : List UInt8) (fits : 1 ≤ bytes.length ∧ bytes.length ≤ 16)
  | hash (bytes : List UInt8) (fits : bytes.length = 16)
  | boolArray (bits : UInt16) (bytes : List UInt8) (fits : bytes.length = (bits.toNat + 7) / 8)
  | bsob (bytes : List UInt8) (fits : bytes.length < 256 ^ 1)

structure WireTag where
  name : WireName
  value : WireValue

def WireName.newTagBit : WireName → UInt8
  | .short _ => TYPE_NEWTAG_BIT
  | .long .. => 0

def WireName.bytes : WireName → List UInt8
  | .short b => [b]
  | .long bytes _ => leBytes 2 bytes.length ++ bytes

def WireName.name : WireName → TagName
  | .short b => .byte b
  | .long bytes _ =>
    if bytes.length = 1 then .byte (bytes.headD 0) else .str (fromUtf8Lossy bytes)

def WireValue.type : WireValue → UInt8
  | .string .. => TYPE_STRING
  | .u32 _ => TYPE_UINT32
  | .u16 _ => TYPE_UINT16
  | .u8 _ => TYPE_UINT8
  | .u64 _ => TYPE_UINT64
  | .float _ => TYPE_FLOAT
  | .bool _ => TYPE_BOOL
  | .blob .. => TYPE_BLOB
  | .short bytes _ => TYPE_STR1_BASE + UInt8.ofNat bytes.length
  | .hash .. => TYPE_HASH
  | .boolArray .. => 0x06
  | .bsob .. => 0x0A

def WireValue.bytes : WireValue → List UInt8
  | .string bytes _ => leBytes 2 bytes.length ++ bytes
  | .u32 v => leBytes 4 v.toNat
  | .u16 v => leBytes 2 v.toNat
  | .u8 v => leBytes 1 v.toNat
  | .u64 v => leBytes 8 v.toNat
  | .float bits => leBytes 4 bits.toNat
  | .bool b => leBytes 1 b.toNat
  | .blob bytes _ => leBytes 4 bytes.length ++ bytes
  | .short bytes _ => bytes
  | .hash bytes _ => bytes
  | .boolArray bits bytes _ => leBytes 2 bits.toNat ++ bytes
  | .bsob bytes _ => leBytes 1 bytes.length ++ bytes

def WireValue.value : WireValue → TagValue
  | .string bytes _ | .short bytes _ => .string (fromUtf8Lossy bytes)
  | .u32 v => .u32 v
  | .u16 v => .u16 v
  | .u8 v => .u8 v
  | .u64 v => .u64 v
  | .float bits => .float bits
  | .bool b => .bool (b != 0)
  | .blob bytes _ | .hash bytes _ | .boolArray _ bytes _ | .bsob bytes _ => .blob bytes

def WireTag.bytes (w : WireTag) : List UInt8 :=
  (w.name.newTagBit ||| w.value.type) :: (w.name.bytes ++ w.value.bytes)

def WireTag.tag (w : WireTag) : Tag := ⟨w.name.name, w.value.value⟩

theorem short_type_toNat {bytes : List UInt8} (h : 1 ≤ bytes.length ∧ bytes.length ≤ 16) :
    (TYPE_STR1_BASE + UInt8.ofNat bytes.length).toNat = 16 + bytes.length := by
  rw [UInt8.toNat_add, UInt8.toNat_ofNat', TYPE_STR1_BASE]
  simp
  omega

theorem type_lt (v : WireValue) : v.type < 0x80 := by
  cases v with
  | short bytes fits =>
    rw [UInt8.lt_iff_toNat_lt, WireValue.type, short_type_toNat fits]
    exact Nat.lt_of_le_of_lt (Nat.add_le_add_left fits.2 16) (by decide)
  | string | u32 | u16 | u8 | u64 | float | bool | blob | hash | boolArray | bsob => all_goals
    simp only [WireValue.type]
    decide

/-- The top bit says how the name is written, the other seven are the type. -/
theorem typeByte_split (w : WireName) {t : UInt8} (h : t < 0x80) :
    ((w.newTagBit ||| t) &&& TYPE_NEWTAG_BIT != 0) = (w.newTagBit != 0) ∧
      (w.newTagBit ||| t) &&& ~~~TYPE_NEWTAG_BIT = t := by
  cases w with
  | short b =>
    obtain ⟨htop, hlow⟩ := Tags.typeByte_split (.byte b) h
    change (TYPE_NEWTAG_BIT ||| t) &&& TYPE_NEWTAG_BIT = TYPE_NEWTAG_BIT &&& TYPE_NEWTAG_BIT at htop
    exact ⟨by rw [WireName.newTagBit, htop]; decide, hlow⟩
  | long bytes fits =>
    obtain ⟨htop, hlow⟩ := Tags.typeByte_split (.str []) h
    change (0 ||| t) &&& TYPE_NEWTAG_BIT = 0 &&& TYPE_NEWTAG_BIT at htop
    exact ⟨by rw [WireName.newTagBit, htop]; decide, hlow⟩

theorem reads_wireName (w : WireName) :
    Reads (readName (w.newTagBit != 0)) w.bytes w.name := by
  cases w with
  | short b =>
    have hb := reads_map (reads_byte b) (fun n => TagName.byte (UInt8.ofNat n))
    rw [UInt8.ofNat_toNat] at hb
    exact hb
  | long bytes fits =>
    exact reads_bind (reads_readNumber fits)
      (f := fun nl => takeBytes nl >>= fun bytes =>
        pure (if nl = 1 then TagName.byte (bytes.headD 0) else .str (fromUtf8Lossy bytes)))
      (reads_map (reads_take TagError.underrun bytes) _)

theorem reads_wireValue (v : WireValue) : Reads (readValue v.type) v.bytes v.value := by
  cases v with
  | string bytes fits =>
    exact reads_counted (k := 2) fits (fun bytes => TagValue.string (fromUtf8Lossy bytes))
  | u32 v =>
    have hv := reads_map (reads_readNumber (k := 4) v.toNat_lt)
      (fun n => TagValue.u32 (UInt32.ofNat n))
    rw [UInt32.ofNat_toNat] at hv
    exact hv
  | u16 v =>
    have hv := reads_map (reads_readNumber (k := 2) v.toNat_lt)
      (fun n => TagValue.u16 (UInt16.ofNat n))
    rw [UInt16.ofNat_toNat] at hv
    exact hv
  | u8 v =>
    have hv := reads_map (reads_readNumber (k := 1) v.toNat_lt)
      (fun n => TagValue.u8 (UInt8.ofNat n))
    rw [UInt8.ofNat_toNat] at hv
    exact hv
  | u64 v =>
    have hv := reads_map (reads_readNumber (k := 8) v.toNat_lt)
      (fun n => TagValue.u64 (UInt64.ofNat n))
    rw [UInt64.ofNat_toNat] at hv
    exact hv
  | float bits =>
    have hv := reads_map (reads_readNumber (k := 4) bits.toNat_lt)
      (fun n => TagValue.float (UInt32.ofNat n))
    rw [UInt32.ofNat_toNat] at hv
    exact hv
  | bool b =>
    have hv := reads_map (reads_readNumber (k := 1) b.toNat_lt) (fun n => TagValue.bool (n != 0))
    have hb : (b.toNat != 0) = (b != 0) := by
      rw [Bool.eq_iff_iff, bne_iff_ne, bne_iff_ne, ne_eq, ne_eq, ← UInt8.toNat_inj]
      rfl
    rw [hb] at hv
    exact hv
  | blob bytes fits => exact reads_counted (k := 4) fits TagValue.blob
  | short bytes fits => exact reads_inline_bytes fits.1 fits.2
  | hash bytes fits =>
    have hv := reads_map (reads_take TagError.underrun bytes) TagValue.blob
    rw [fits] at hv
    exact hv
  | boolArray bits bytes fits =>
    have hbytes := reads_map (reads_take TagError.underrun bytes) TagValue.blob
    rw [fits] at hbytes
    exact reads_bind (reads_readNumber (k := 2) bits.toNat_lt)
      (f := fun bits => takeBytes ((bits + 7) / 8) >>= fun bytes => pure (TagValue.blob bytes))
      hbytes
  | bsob bytes fits => exact reads_counted (k := 1) fits TagValue.blob

/-- A tag in any supported form is read back exactly. -/
theorem reads_wireTag (w : WireTag) : Reads readTag w.bytes w.tag := by
  obtain ⟨htop, hlow⟩ := typeByte_split w.name (type_lt w.value)
  have hbody := reads_bind (reads_wireName w.name)
    (f := fun name => readValue w.value.type >>= fun value => pure (Tag.mk name value))
    (reads_map (reads_wireValue w.value) (fun value => Tag.mk w.name.name value))
  have hread := reads_bind (reads_byte (w.name.newTagBit ||| w.value.type))
    (f := fun b => readName (UInt8.ofNat b &&& TYPE_NEWTAG_BIT != 0) >>= fun name =>
      readValue (UInt8.ofNat b &&& ~~~TYPE_NEWTAG_BIT) >>= fun value => pure (Tag.mk name value))
    (by rw [UInt8.ofNat_toNat, htop, hlow]; exact hbody)
  exact hread

theorem readName_eq_ok {short : Bool} {name : TagName} {buf rest : List UInt8}
    (h : readName short buf = (.ok name, rest)) :
    ∃ w : WireName, (w.newTagBit != 0) = short ∧ w.name = name ∧ buf = w.bytes ++ rest := by
  rw [readName] at h
  split at h
  · rename_i hs
    obtain ⟨n, mid, hn, hp⟩ := bind_eq_ok h
    obtain ⟨rfl, rfl⟩ := pure_eq_ok hp
    obtain ⟨rfl, hlt⟩ := number_eq_ok hn
    refine ⟨.short (UInt8.ofNat n), by rw [hs]; rfl, rfl, ?_⟩
    rw [WireName.bytes, leBytes, leBytes, Nat.mod_eq_of_lt (by omega)]
  · rename_i hs
    obtain ⟨nl, mid, hn, hp⟩ := bind_eq_ok h
    obtain ⟨bytes, mid', ht, hp⟩ := bind_eq_ok hp
    obtain ⟨rfl, rfl⟩ := pure_eq_ok hp
    obtain ⟨rfl, hlt⟩ := number_eq_ok hn
    obtain ⟨rfl, rfl⟩ := take_eq_ok ht
    refine ⟨.long bytes hlt, by rw [Bool.not_eq_true] at hs; rw [hs]; rfl, rfl, ?_⟩
    rw [WireName.bytes, List.append_assoc]

theorem counted_eq_ok {k : Nat} {f : List UInt8 → TagValue} {v : TagValue}
    {buf rest : List UInt8}
    (h : (do let len ← readNumber k; let bytes ← takeBytes len; return f bytes :
      Reader TagError TagValue) buf = (.ok v, rest)) :
    ∃ bytes, bytes.length < 256 ^ k ∧ v = f bytes ∧
      buf = leBytes k bytes.length ++ bytes ++ rest := by
  obtain ⟨len, mid, hn, hp⟩ := bind_eq_ok h
  obtain ⟨bytes, mid', ht, hp⟩ := bind_eq_ok hp
  obtain ⟨rfl, rfl⟩ := pure_eq_ok hp
  obtain ⟨rfl, hlt⟩ := number_eq_ok hn
  obtain ⟨rfl, rfl⟩ := take_eq_ok ht
  exact ⟨bytes, hlt, rfl, (List.append_assoc ..).symm⟩

theorem numbered_eq_ok {k : Nat} {f : Nat → TagValue} {v : TagValue} {buf rest : List UInt8}
    (h : (do let n ← readNumber k; return f n : Reader TagError TagValue) buf = (.ok v, rest)) :
    ∃ n, n < 256 ^ k ∧ v = f n ∧ buf = leBytes k n ++ rest := by
  obtain ⟨n, mid, hn, hp⟩ := bind_eq_ok h
  obtain ⟨rfl, rfl⟩ := pure_eq_ok hp
  obtain ⟨rfl, hlt⟩ := number_eq_ok hn
  exact ⟨n, hlt, rfl, rfl⟩

theorem taken_eq_ok {n : Nat} {f : List UInt8 → TagValue} {v : TagValue} {buf rest : List UInt8}
    (h : (do let bytes ← takeBytes n; return f bytes : Reader TagError TagValue) buf =
      (.ok v, rest)) :
    ∃ bytes, bytes.length = n ∧ v = f bytes ∧ buf = bytes ++ rest := by
  obtain ⟨bytes, mid, ht, hp⟩ := bind_eq_ok h
  obtain ⟨rfl, rfl⟩ := pure_eq_ok hp
  obtain ⟨rfl, hlen⟩ := take_eq_ok ht
  exact ⟨bytes, hlen, rfl, rfl⟩

/-- A value that can be read stands there in one of the supported forms. -/
theorem readValue_eq_ok {t : UInt8} {v : TagValue} {buf rest : List UInt8}
    (h : readValue t buf = (.ok v, rest)) :
    ∃ w : WireValue, w.type = t ∧ w.value = v ∧ buf = w.bytes ++ rest := by
  rw [readValue] at h
  by_cases h1 : t = TYPE_STRING
  · rw [if_pos h1] at h
    obtain ⟨bytes, hlt, rfl, rfl⟩ := counted_eq_ok h
    exact ⟨.string bytes hlt, h1.symm, rfl, rfl⟩
  rw [if_neg h1] at h
  by_cases h2 : t = TYPE_UINT32
  · rw [if_pos h2] at h
    obtain ⟨n, hlt, rfl, rfl⟩ := numbered_eq_ok h
    refine ⟨.u32 (UInt32.ofNat n), h2.symm, rfl, ?_⟩
    rw [WireValue.bytes, UInt32.toNat_ofNat', Nat.mod_eq_of_lt (by omega)]
  rw [if_neg h2] at h
  by_cases h3 : t = TYPE_UINT16
  · rw [if_pos h3] at h
    obtain ⟨n, hlt, rfl, rfl⟩ := numbered_eq_ok h
    refine ⟨.u16 (UInt16.ofNat n), h3.symm, rfl, ?_⟩
    rw [WireValue.bytes, UInt16.toNat_ofNat', Nat.mod_eq_of_lt (by omega)]
  rw [if_neg h3] at h
  by_cases h4 : t = TYPE_UINT8
  · rw [if_pos h4] at h
    obtain ⟨n, hlt, rfl, rfl⟩ := numbered_eq_ok h
    refine ⟨.u8 (UInt8.ofNat n), h4.symm, rfl, ?_⟩
    rw [WireValue.bytes, UInt8.toNat_ofNat', Nat.mod_eq_of_lt (by omega)]
  rw [if_neg h4] at h
  by_cases h5 : t = TYPE_UINT64
  · rw [if_pos h5] at h
    obtain ⟨n, hlt, rfl, rfl⟩ := numbered_eq_ok h
    refine ⟨.u64 (UInt64.ofNat n), h5.symm, rfl, ?_⟩
    rw [WireValue.bytes, UInt64.toNat_ofNat', Nat.mod_eq_of_lt (by omega)]
  rw [if_neg h5] at h
  by_cases h6 : t = TYPE_FLOAT
  · rw [if_pos h6] at h
    obtain ⟨n, hlt, rfl, rfl⟩ := numbered_eq_ok h
    refine ⟨.float (UInt32.ofNat n), h6.symm, rfl, ?_⟩
    rw [WireValue.bytes, UInt32.toNat_ofNat', Nat.mod_eq_of_lt (by omega)]
  rw [if_neg h6] at h
  by_cases h7 : t = TYPE_BOOL
  · rw [if_pos h7] at h
    obtain ⟨n, hlt, rfl, rfl⟩ := numbered_eq_ok h
    have hn : (UInt8.ofNat n).toNat = n := by
      rw [UInt8.toNat_ofNat', Nat.mod_eq_of_lt (by omega)]
    refine ⟨.bool (UInt8.ofNat n), h7.symm, ?_, by rw [WireValue.bytes, hn]⟩
    rw [WireValue.value, TagValue.bool.injEq, Bool.eq_iff_iff, bne_iff_ne, bne_iff_ne, ne_eq,
      ne_eq, ← UInt8.toNat_inj, hn]
    rfl
  rw [if_neg h7] at h
  by_cases h8 : t = TYPE_BLOB
  · rw [if_pos h8] at h
    obtain ⟨bytes, hlt, rfl, rfl⟩ := counted_eq_ok h
    exact ⟨.blob bytes hlt, h8.symm, rfl, rfl⟩
  rw [if_neg h8] at h
  by_cases h9 : TYPE_STR1_BASE + 1 ≤ t ∧ t ≤ TYPE_STR1_BASE + 16
  · rw [if_pos h9] at h
    obtain ⟨bytes, hlen, rfl, rfl⟩ := taken_eq_ok h
    have hlo := UInt8.le_iff_toNat_le.mp h9.1
    have hhi := UInt8.le_iff_toNat_le.mp h9.2
    have h17 : (TYPE_STR1_BASE + 1).toNat = 17 := rfl
    have h32 : (TYPE_STR1_BASE + 16).toNat = 32 := rfl
    have h16 : TYPE_STR1_BASE.toNat = 16 := rfl
    have hle : TYPE_STR1_BASE ≤ t := UInt8.le_iff_toNat_le.mpr (by omega)
    rw [UInt8.toNat_sub_of_le _ _ hle] at hlen
    have hfits : 1 ≤ bytes.length ∧ bytes.length ≤ 16 := by omega
    refine ⟨.short bytes hfits, ?_, rfl, rfl⟩
    apply UInt8.toNat_inj.mp
    rw [WireValue.type, short_type_toNat hfits]
    omega
  rw [if_neg h9] at h
  by_cases h10 : t = TYPE_HASH
  · rw [if_pos h10] at h
    obtain ⟨bytes, hlen, rfl, rfl⟩ := taken_eq_ok h
    exact ⟨.hash bytes hlen, h10.symm, rfl, rfl⟩
  rw [if_neg h10] at h
  by_cases h11 : t = 0x06
  · rw [if_pos h11] at h
    obtain ⟨n, mid, hn, hp⟩ := bind_eq_ok h
    obtain ⟨rfl, hlt⟩ := number_eq_ok hn
    obtain ⟨bytes, hlen, rfl, rfl⟩ := taken_eq_ok hp
    have hbits : (UInt16.ofNat n).toNat = n := by
      rw [UInt16.toNat_ofNat', Nat.mod_eq_of_lt (by omega)]
    refine ⟨.boolArray (UInt16.ofNat n) bytes (by rw [hbits, hlen]), h11.symm, rfl, ?_⟩
    rw [WireValue.bytes, hbits, List.append_assoc]
  rw [if_neg h11] at h
  by_cases h12 : t = 0x0A
  · rw [if_pos h12] at h
    obtain ⟨bytes, hlt, rfl, rfl⟩ := counted_eq_ok h
    exact ⟨.bsob bytes hlt, h12.symm, rfl, rfl⟩
  rw [if_neg h12] at h
  cases h

theorem typeByte_join (b : UInt8) {w : WireName}
    (h : (w.newTagBit != 0) = (b &&& TYPE_NEWTAG_BIT != 0)) :
    w.newTagBit ||| (b &&& ~~~TYPE_NEWTAG_BIT) = b := by
  have hall : ∀ n < 256, (UInt8.ofNat n &&& TYPE_NEWTAG_BIT) |||
      (UInt8.ofNat n &&& ~~~TYPE_NEWTAG_BIT) = UInt8.ofNat n ∧
        (UInt8.ofNat n &&& TYPE_NEWTAG_BIT = 0 ∨ UInt8.ofNat n &&& TYPE_NEWTAG_BIT = TYPE_NEWTAG_BIT) := by
    decide +kernel
  obtain ⟨hjoin, hbit⟩ := hall b.toNat b.toNat_lt
  rw [UInt8.ofNat_toNat] at hjoin hbit
  have hw : w.newTagBit = b &&& TYPE_NEWTAG_BIT := by
    cases w with
    | short n =>
      rcases hbit with hb | hb
      · rw [hb] at h
        cases h
      · rw [hb, WireName.newTagBit]
    | long bytes fits =>
      rcases hbit with hb | hb
      · rw [hb, WireName.newTagBit]
      · rw [hb] at h
        cases h
  rw [hw, hjoin]

/-- A tag that can be read stands there in one of the supported forms. -/
theorem readTag_eq_ok {buf rest : List UInt8} {t : Tag} (h : readTag buf = (.ok t, rest)) :
    ∃ w : WireTag, w.tag = t ∧ buf = w.bytes ++ rest := by
  obtain ⟨n, mid, hn, h⟩ := bind_eq_ok h
  obtain ⟨name, mid', hname, h⟩ := bind_eq_ok h
  obtain ⟨value, mid'', hvalue, h⟩ := bind_eq_ok h
  obtain ⟨rfl, rfl⟩ := pure_eq_ok h
  obtain ⟨rfl, hlt⟩ := number_eq_ok hn
  obtain ⟨wn, hbit, rfl, rfl⟩ := readName_eq_ok hname
  obtain ⟨wv, htype, rfl, rfl⟩ := readValue_eq_ok hvalue
  refine ⟨⟨wn, wv⟩, rfl, ?_⟩
  rw [WireTag.bytes, htype, typeByte_join _ hbit, leBytes, leBytes, Nat.mod_eq_of_lt (by omega),
    List.cons_append, List.nil_append, List.cons_append, List.append_assoc]

/-- A tag list is read in full exactly when that many tags in supported forms stand there. -/
theorem readTagList_full_iff (count : UInt32) (buf : List UInt8) :
    (readTagList count buf).1.length = count.toNat ↔
      ∃ ws : List WireTag, ws.length = count.toNat ∧
        ∃ rest, buf = ws.flatMap WireTag.bytes ++ rest := by
  constructor
  · intro h
    have hread : ∀ buf a rest, readTag buf = (.ok a, rest) → ∃ w : WireTag, buf = w.bytes ++ rest :=
      fun buf a rest hr => (readTag_eq_ok hr).imp fun w hw => hw.2
    obtain ⟨ws, hl, hbuf⟩ := upTo_eq_full hread h
    exact ⟨ws, hl, _, hbuf⟩
  · rintro ⟨ws, hl, rest, rfl⟩
    rw [readTagList, ← hl, upTo_of_reads (fun w _ => reads_wireTag w), List.length_map]

end Ed2kServer.Proto.WireTags
